import ShaderTemplates.Catalog
import ShaderTemplates.Proofs.FileChanges

/-!
# Catalogs and changes of files

A directory has a catalog if it can be opened and each of its entries can be read (`load_eq`,
`ofListing_eq_ok`).  The catalog depends on nothing but the names of the files below its directory:
if there are files at the same places in two trees, and the directory is where it was, then both
have the same catalog (`load_congr`).  If the files have the same content too, a template that can
be read from one tree can be read from the other (`read_keep`).
-/

namespace ShaderTemplates

open FileTree

/-- The files at and below a location are the same in both trees. -/
def FileTree.SameFilesBelow (t t' : FileTree) (l : Location) : Prop :=
  ∀ k, l <+: k → t'.file? k = t.file? k

/-- Below a location is what further names lead to from there. -/
theorem FileTree.below?_eq_some {l k : Location} {names : List String} :
    below? l k = some names ↔ names ≠ [] ∧ k = l ++ names := by
  rw [below?]
  constructor
  · intro h
    split at h
    next hbelow =>
      rw [Bool.and_eq_true, List.isPrefixOf_iff_prefix, decide_eq_true_eq] at hbelow
      obtain ⟨⟨rest, rfl⟩, hlength⟩ := hbelow
      rw [List.drop_left, Option.some.injEq] at h
      subst h
      refine ⟨?_, rfl⟩
      rintro rfl
      rw [List.append_nil] at hlength
      exact Nat.lt_irrefl _ hlength
    next => cases h
  · rintro ⟨hne, rfl⟩
    have hlength := List.length_pos_iff.mpr hne
    rw [if_pos, List.drop_left]
    rw [Bool.and_eq_true, List.isPrefixOf_iff_prefix, decide_eq_true_eq, List.length_append]
    exact ⟨List.prefix_append l names, by omega⟩

namespace Catalog

variable {t t' : FileTree} {dir path : Path} {extension name text : String} {l : Location}
  {c : Catalog}

/-- The entries are gathered if each of them can be read. -/
theorem mapM_id_eq_ok {listing : List (Except Fault DirectoryEntry)}
    {entries : List DirectoryEntry} :
    listing.mapM id = .ok entries ↔ listing = entries.map .ok := by
  induction listing generalizing entries with
  | nil =>
      rw [List.mapM_nil, eq_comm (a := []), List.map_eq_nil_iff]
      exact ⟨fun h => (Except.ok.inj h).symm, fun h => h ▸ rfl⟩
  | cons item rest ih =>
      rw [List.mapM_cons, bind_eq_ok, eq_comm (a := item :: rest), List.map_eq_cons_iff]
      constructor
      · rintro ⟨e, rfl, h⟩
        obtain ⟨es, hes, h⟩ := bind_eq_ok.mp h
        exact ⟨e, es, (Except.ok.inj h).symm, rfl, (ih.mp hes).symm⟩
      · rintro ⟨e, es, rfl, rfl, rfl⟩
        exact ⟨e, rfl, bind_eq_ok.mpr ⟨es, ih.mpr rfl, rfl⟩⟩

/-- A directory has a catalog if each of its entries can be read. -/
theorem ofListing_eq_ok {listing : List (Except Fault DirectoryEntry)} :
    ofListing dir extension listing = .ok c ↔
      ∃ entries, listing = entries.map .ok ∧ c = ofEntries dir extension entries := by
  rw [ofListing]
  cases hlisting : listing.mapM id with
  | ok entries =>
      dsimp only
      rw [Except.ok.injEq]
      constructor
      · rintro rfl
        exact ⟨entries, mapM_id_eq_ok.mp hlisting, rfl⟩
      · rintro ⟨others, hothers, rfl⟩
        rw [mapM_id_eq_ok.mpr hothers, Except.ok.injEq] at hlisting
        rw [hlisting]
  | error fault =>
      constructor
      · rintro ⟨⟩
      · rintro ⟨entries, hentries, -⟩
        rw [mapM_id_eq_ok.mpr hentries] at hlisting
        cases hlisting

/-- The catalog of a directory lists its entries if it can be opened, and nothing if there is no
    such directory. -/
theorem load_eq (t : FileTree) (dir : Path) (extension : String) :
    load t dir extension =
      match t.locate dir with
      | .error _ => .ok empty
      | .ok l =>
        if t.get? l = some .directory then
          if l ∈ t.process.unopened then .error .io
          else .ok (ofEntries dir extension (t.entriesIn dir l))
        else .ok empty := by
  rw [load]
  cases hlocate : t.locate dir with
  | error fault =>
      have hno : ¬ t.isDirectory dir = true := by
        rw [isDirectory_iff, hlocate]
        rintro ⟨l, h, -⟩
        cases h
      rw [if_neg hno]
  | ok l =>
      dsimp only
      by_cases hl : t.get? l = some .directory
      · rw [if_pos (isDirectory_iff.mpr ⟨l, hlocate, hl⟩), if_pos hl, openDirectory, hlocate,
          ok_bind, hl]
        dsimp only
        by_cases hopened : l ∈ t.process.unopened
        · rw [if_pos hopened, if_pos hopened]
        · rw [if_neg hopened, if_neg hopened]
          exact ofListing_eq_ok.mpr ⟨_, rfl, rfl⟩
      · rw [if_neg hl, if_neg]
        rw [isDirectory_iff]
        rintro ⟨l', hl', hdirectory⟩
        cases hlocate.symm.trans hl'
        exact hl hdirectory

/-- A catalog that lists something is that of the entries of a directory. -/
theorem load_of_not_isEmpty (hload : load t dir extension = .ok c) (hsome : c.isEmpty = false) :
    ∃ l, t.locate dir = .ok l ∧ t.get? l = some .directory ∧ l ∉ t.process.unopened ∧
      c = ofEntries dir extension (t.entriesIn dir l) := by
  rw [load_eq] at hload
  split at hload
  next =>
    cases hload
    cases hsome
  next l hl =>
    split at hload
    next hdirectory =>
      split at hload
      next => cases hload
      next hopened => exact ⟨l, hl, hdirectory, hopened, (Except.ok.inj hload).symm⟩
    next =>
      cases hload
      cases hsome

-- ── Files and entries ────────────────────────────────────────────────────────

/-- The template that is at a location, directly inside a directory. -/
def listed? (dir : Path) (extension : String) (l : Location) (e : Location × Entry) :
    Option (String × Path) :=
  match below? l e.1, e.2 with
  | some [name], .file _ =>
    template? dir extension ⟨.ofString name, !isLongPath (dir.child name)⟩
  | _, _ => none

theorem filterMap_entriesIn (t : FileTree) (dir : Path) (extension : String) (l : Location) :
    (t.entriesIn dir l).filterMap (template? dir extension) =
      t.entries.entries.filterMap (listed? dir extension l) := by
  rw [entriesIn, List.filterMap_map, list, descendants, List.filterMap_filterMap,
    List.filterMap_filterMap]
  congr 1
  funext e
  obtain ⟨k, entry⟩ := e
  rw [listed?]
  cases hbelow : below? l k with
  | none => simp
  | some names =>
      match names, entry with
      | [], _ => simp
      | [_], .directory => simp [template?]
      | [_], .file _ => simp
      | _ :: _ :: _, _ => simp

theorem prefix_of_below? {l k : Location} {names : List String} (h : below? l k = some names) :
    l <+: k ∧ k ≠ [] := by
  obtain ⟨hne, rfl⟩ := below?_eq_some.mp h
  exact ⟨List.prefix_append l names, List.append_ne_nil_of_right_ne_nil l hne⟩

theorem listed?_directory {k : Location} :
    listed? dir extension l (k, .directory) = none := by
  rw [listed?]
  split
  next heq => cases heq
  next => rfl

/-- The content of a file is not looked at. -/
theorem listed?_file {k : Location} (content content' : Content) :
    listed? dir extension l (k, .file content) = listed? dir extension l (k, .file content') := by
  rw [listed?, listed?]
  match below? l k with
  | none | some [] | some [_] | some (_ :: _ :: _) => rfl

/-- What is listed for a location depends on nothing but whether there is a file below the
    directory. -/
theorem listed?_congr {k : Location} (h : l <+: k → (t'.file? k).isSome = (t.file? k).isSome) :
    ((t'.entries.get? k).bind fun entry => listed? dir extension l (k, entry)) =
      (t.entries.get? k).bind fun entry => listed? dir extension l (k, entry) := by
  cases hbelow : below? l k with
  | none =>
      have hnone : ∀ entry, listed? dir extension l (k, entry) = none := by
        intro entry
        rw [listed?, hbelow]
      simp only [hnone, Option.bind_fun_none]
  | some names =>
      obtain ⟨habove, hne⟩ := prefix_of_below? hbelow
      have hfile : ∀ tree : FileTree,
          ((tree.entries.get? k).bind fun entry => listed? dir extension l (k, entry)) =
            if (tree.file? k).isSome then listed? dir extension l (k, .file (.text ""))
            else none := by
        intro tree
        rw [file?, get?, if_neg hne]
        cases tree.entries.get? k with
        | none => rfl
        | some entry =>
            cases entry with
            | directory => exact listed?_directory
            | file content => exact listed?_file content _
      rw [hfile, hfile, h habove]

/-- The catalog of a directory depends on nothing but the names of the files in it and on whether
    it can be opened. -/
theorem load_congr (h : t.locate dir = .ok l) (h' : t'.locate dir = .ok l)
    (hprocess : t'.process = t.process)
    (hdirectory : t'.get? l = some .directory ↔ t.get? l = some .directory)
    (hfiles : ∀ k, l <+: k → (t'.file? k).isSome = (t.file? k).isSome) (extension : String) :
    load t' dir extension = load t dir extension := by
  have hentries : ofEntries dir extension (t'.entriesIn dir l) =
      ofEntries dir extension (t.entriesIn dir l) := by
    rw [ofEntries, ofEntries, filterMap_entriesIn, filterMap_entriesIn]
    congr 2
    exact SortedMap.filterMap_entries_congr fun k => listed?_congr (hfiles k)
  rw [load_eq, load_eq, h, h']
  simp only [hdirectory, hprocess, hentries]

-- ── Names and paths ──────────────────────────────────────────────────────────

/-- The path of a template is that of a file in the directory. -/
theorem path_of_mem_ofEntries {entries : List DirectoryEntry}
    (h : (ofEntries dir extension entries).templates.get? name = some path) :
    name ≠ "" ∧ path = dir.child (name ++ "." ++ extension) := by
  obtain ⟨e, -, he⟩ := List.mem_filterMap.mp (SortedMap.mem_of_get?_ofList h)
  rw [template?, Option.ite_none_right_eq_some] at he
  obtain ⟨stem, hstem, heq⟩ := Option.map_eq_some_iff.mp he.2
  obtain ⟨rfl, rfl⟩ := Prod.mk.inj heq
  refine ⟨?_, rfl⟩
  rintro rfl
  rw [templateName?] at hstem
  split at hstem
  next =>
    rw [Option.ite_none_right_eq_some, Option.filter_eq_some_iff] at hstem
    exact absurd hstem.2.2 (by decide)
  next => cases hstem

theorem path_of_load (hload : load t dir extension = .ok c)
    (h : c.templates.get? name = some path) :
    name ≠ "" ∧ path = dir.child (name ++ "." ++ extension) := by
  have hsome : c.isEmpty = false := by
    rw [Bool.eq_false_iff, isEmpty, SortedMap.isEmpty, ne_eq, List.isEmpty_iff]
    intro hnil
    rw [SortedMap.get?, hnil] at h
    cases h
  obtain ⟨l, -, -, -, rfl⟩ := load_of_not_isEmpty hload hsome
  exact path_of_mem_ofEntries h

/-- Asking for a template by its name gives this template. -/
theorem resolveName_name {c : Catalog} {name : String} {path : Path} (hname : name ≠ "")
    (h : c.templates.get? name = some path) : c.resolveName name = .ok name := by
  rw [resolveName]
  rw [if_neg (by simpa using hname), if_pos (by rw [SortedMap.contains, h]; rfl)]

end Catalog

-- ── Reading files ────────────────────────────────────────────────────────────

theorem FileTree.readText_eq_ok {t : FileTree} {p : Path} {text : String} :
    t.readText p = .ok text ↔ ∃ l, t.locate p = .ok l ∧ t.file? l = some (.text text) := by
  rw [readText]
  cases t.locate p with
  | error e =>
      constructor
      · intro h
        cases h
      · rintro ⟨_, h, _⟩
        cases h
  | ok l =>
      rw [ok_bind]
      constructor
      · intro h
        refine ⟨l, rfl, ?_⟩
        split at h
        next => cases h
        next => cases h
        next content hfile =>
          rw [file?_eq_some.mpr hfile]
          cases content with
          | text s =>
              cases h
              rfl
          | binary bytes => cases h
      · rintro ⟨_, heq, hfile⟩
        cases heq
        rw [file?_eq_some.mp hfile]
        rfl

theorem FileTree.isFile_of_readText {t : FileTree} {p : Path} {text : String}
    (h : t.readText p = .ok text) : t.isFile p = true := by
  obtain ⟨l, hl, hfile⟩ := readText_eq_ok.mp h
  exact isFile_iff.mpr ⟨l, _, hl, hfile⟩

namespace Catalog

variable {t₀ t t' : FileTree} {dir : Path} {extension name text : String} {l : Location}
  {c : Catalog}

/-- A template that was read is a file directly inside the directory of the templates. -/
theorem read_eq_ok (hload : load t₀ dir extension = .ok c) (hdir : dir ≠ .empty)
    (h : c.read t name = .ok text) :
    ∃ fileName l, c.templates.get? name = some (dir.child fileName) ∧ name ≠ "" ∧
      t.locate dir = .ok l ∧ t.get? l = some .directory ∧
      t.locate (dir.child fileName) = .ok (l ++ [fileName]) ∧
      t.file? (l ++ [fileName]) = some (.text text) := by
  rw [read] at h
  cases hget : c.templates.get? name with
  | none =>
      rw [hget] at h
      cases h
  | some path =>
      rw [hget] at h
      dsimp only at h
      obtain ⟨hname, rfl⟩ := path_of_load hload hget
      obtain ⟨k, hk, hfile⟩ := readText_eq_ok.mp (mapError_eq_ok.mp h)
      have hstep := isStep_of_locate_child hdir hk (not_directory_of_file? hfile)
      obtain ⟨l, hl, hdirectory, rfl⟩ := locate_child hdir hstep hk
      exact ⟨_, l, rfl, hname, hl, hdirectory, hk, hfile⟩

/-- A template can be read as long as the files of its directory stay. -/
theorem read_keep (hload : load t₀ dir extension = .ok c) (hlocate : t.locate dir = .ok l)
    (hkeep : t.Keeps t') (hfiles : t.SameFilesBelow t' l) (h : c.read t name = .ok text) :
    c.read t' name = .ok text := by
  obtain ⟨fileName, m, hget, -, hm, -, hk, hfile⟩ := read_eq_ok hload (locate_eq_ok.mp hlocate).1 h
  rw [hlocate] at hm
  cases hm
  have hfile' : t'.file? (l ++ [fileName]) = some (.text text) := by
    rw [hfiles _ (List.prefix_append l [fileName]), hfile]
  rw [read, hget]
  dsimp only
  rw [readText_eq_ok.mpr ⟨_, hkeep.locate hk, hfile'⟩, mapError_ok]

end Catalog

end ShaderTemplates
