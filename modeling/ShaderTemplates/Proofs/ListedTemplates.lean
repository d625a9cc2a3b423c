import ShaderTemplates.Proofs.GrownDirectories
import ShaderTemplates.Proofs.Listings
import ShaderTemplates.Proofs.Markers

/-!
# Which templates a catalog lists

The name and the extension of a template make up the name of its file (`templateName?_eq_some`), so
no two templates of a directory have the same name.  Sorting its templates by their names gives the
same catalog, in whatever order the directory gives its entries (`isCatalogOf_ofEntries`); what the
catalog lists, finds and resolves is told by the files among them.  A file whose name is no text is
not listed, nor is one whose path is too long.
-/

namespace ShaderTemplates

open FileTree ShaderTemplates.Path Template

namespace RawName

-- ── Names as texts ───────────────────────────────────────────────────────────

theorem chars?_eq_some {n : RawName} {cs : List Char} :
    n.chars? = some cs ↔ n = cs.map NamePart.char := by
  induction n generalizing cs with
  | nil => simp [chars?, eq_comm]
  | cons part rest ih =>
      cases part with
      | byte b =>
          rw [chars?, eq_comm (a := _ :: _), List.map_eq_cons_iff]
          constructor
          · rintro ⟨⟩
          · rintro ⟨c, cs, -, ⟨⟩, -⟩
      | char c =>
          rw [chars?, Option.map_eq_some_iff, eq_comm (a := _ :: _), List.map_eq_cons_iff]
          constructor
          · rintro ⟨others, hothers, rfl⟩
            exact ⟨c, others, rfl, rfl, (ih.mp hothers).symm⟩
          · rintro ⟨_, others, rfl, ⟨⟩, hothers⟩
            exact ⟨others, ih.mpr hothers.symm, rfl⟩

theorem text?_eq_some {n : RawName} {s : String} : n.text? = some s ↔ n = ofString s := by
  rw [text?, Option.map_eq_some_iff, ofString]
  constructor
  · rintro ⟨cs, hcs, rfl⟩
    rw [String.toList_ofList]
    exact chars?_eq_some.mp hcs
  · intro h
    exact ⟨s.toList, chars?_eq_some.mpr h, String.ofList_toList⟩

@[simp] theorem text?_ofString (s : String) : (ofString s).text? = some s := text?_eq_some.mpr rfl

theorem ofString_inj {s s' : String} : ofString s = ofString s' ↔ s = s' := by
  rw [← text?_eq_some, text?_ofString, Option.some.injEq]

theorem ofString_append (s s' : String) : ofString (s ++ s') = ofString s ++ ofString s' := by
  rw [ofString, String.toList_append, List.map_append]
  rfl

-- ── Stems and extensions ─────────────────────────────────────────────────────

/-- A run of other parts ends in front of a dot. -/
theorem split_at_dot {n rest : RawName} {d : NamePart}
    (h : (n.dropWhile fun part => decide (part ≠ .char '.')) = d :: rest) :
    n = (n.takeWhile fun part => decide (part ≠ .char '.')) ++ .char '.' :: rest := by
  have hd : d = .char '.' := by
    have hhead := List.head_dropWhile_not (fun part : NamePart => decide (part ≠ .char '.'))
      (l := n) (by rw [h]; exact List.cons_ne_nil _ _)
    simp only [h, List.head_cons] at hhead
    exact Decidable.not_not.mp (of_decide_eq_false hhead)
  rw [hd] at h
  rw [← h]
  exact List.takeWhile_append_dropWhile.symm

/-- The stem and the extension with the dot between them are the file name. -/
theorem splitExtension_eq_some {n stem extension : RawName} :
    n.splitExtension = (stem, some extension) ↔
      n = stem ++ .char '.' :: extension ∧ stem ≠ [] ∧ .char '.' ∉ extension := by
  have hdot : decide (NamePart.char '.' ≠ .char '.') = false := rfl
  rw [splitExtension]
  constructor
  · intro h
    split at h
    next d c before hdrop =>
      obtain ⟨rfl, hextension⟩ := Prod.mk.inj h
      obtain rfl := Option.some.inj hextension
      refine ⟨?_, ?_, ?_⟩
      -- The name was read backwards: the extension up to the dot, and the stem behind it.
      · have hreverse := congrArg List.reverse (split_at_dot hdrop)
        rw [List.reverse_reverse, List.reverse_append, List.reverse_cons,
          List.append_assoc] at hreverse
        exact hreverse
      · rw [ne_eq, List.reverse_eq_nil_iff]
        exact List.cons_ne_nil _ _
      · rw [List.mem_reverse]
        intro hmem
        have hall := List.all_eq_true.mp List.all_takeWhile _ hmem
        exact absurd rfl (of_decide_eq_true hall)
    next => exact absurd (Prod.mk.inj h).2 (Option.some_ne_none _).symm
  · rintro ⟨rfl, hstem, hextension⟩
    have hrun : ∀ part ∈ extension.reverse, decide (part ≠ NamePart.char '.') = true := by
      intro part hpart
      rw [decide_eq_true_eq]
      rintro rfl
      exact hextension (List.mem_reverse.mp hpart)
    have hreverse : (stem ++ .char '.' :: extension).reverse =
        extension.reverse ++ .char '.' :: stem.reverse := by
      simp
    obtain ⟨c, before, hbefore⟩ : ∃ c before, stem.reverse = c :: before :=
      List.exists_cons_of_ne_nil (List.reverse_ne_nil_iff.mpr hstem)
    rw [hreverse, takeWhile_run hrun hdot, dropWhile_run hrun hdot, hbefore]
    dsimp only
    rw [← hbefore, List.reverse_reverse, List.reverse_reverse]

end RawName

namespace FileTree

variable {t : FileTree} {dir : Path} {l : Location} {name : String}

theorem hasZero_child (hempty : dir ≠ .empty) (hdir : hasZero dir = false)
    (hname : '\x00' ∉ name.toList) : hasZero (dir.child name) = false := by
  obtain ⟨head, tail⟩ := dir
  obtain ⟨front, silent, rfl, -, hchild⟩ := child_eq name hempty
  have hzero : name.toList.contains '\x00' = false := by simpa using hname
  rw [hchild]
  simp only [hasZero, List.any_cons, List.any_append, Bool.or_eq_false_iff] at hdir ⊢
  exact ⟨hdir.1, hdir.2.1, hzero, rfl⟩

/-- The path of a directory and a name in it lead to what has the name, unless no path can be that
    long. -/
theorem locate_entry (hdir : t.locate dir = .ok l) (hl : t.get? l = some .directory)
    (hname : IsEntryName name) (hlong : isLongPath (dir.child name) = false) :
    t.locate (dir.child name) = .ok (l ++ [name]) := by
  obtain ⟨hempty, -, hzero, -⟩ := locate_eq_ok.mp hdir
  have hzero := hasZero_child hempty hzero hname.2.2.1
  have hstep : ∀ n ∈ [name], IsStep n := by
    intro n hn
    obtain rfl := List.mem_singleton.mp hn
    exact hname.1
  obtain ⟨head, front, hstart, hchild⟩ := startsAt_children hdir hl hstep (List.cons_ne_nil _ _)
  change dir.child name = ⟨head, front ++ ([] ++ [name])⟩ at hchild
  rw [hchild] at hlong hzero ⊢
  rw [hstart.locate_concat hname.1 rfl hl, if_neg]
  simp only [hlong, hzero, hname.2.2.2, Bool.false_eq_true, or_self, not_false_iff]

end FileTree

namespace SortedMap

variable {α : Type} {l m : List (String × α)}

/-- With distinct keys it does not matter for looking a key up where its entry is. -/
theorem lookup_of_perm (h : (l.map (·.1)).Nodup) (hperm : l.Perm m) (k : String) :
    l.lookup k = m.lookup k := by
  have hm : (m.map (·.1)).Nodup := (hperm.map _).nodup_iff.mp h
  refine Option.ext fun v => ⟨fun hl => ?_, fun hv => ?_⟩
  · exact lookup_of_mem hm (hperm.mem_iff.mp (mem_of_lookup hl))
  · exact lookup_of_mem h (hperm.mem_iff.mpr (mem_of_lookup hv))

end SortedMap

namespace Catalog

variable {t : FileTree} {dir path : Path} {l : Location} {extension name fileName : String}

-- ── The order of templates ───────────────────────────────────────────────────

/-- Templates in the order of their names; those of the same name stay in the order they have. -/
def sortByName (templates : List (String × Path)) : List (String × Path) :=
  templates.mergeSort fun a b => a.1 ≤ b.1

theorem sortByName_perm (templates : List (String × Path)) :
    (sortByName templates).Perm templates :=
  List.mergeSort_perm _ _

theorem pairwise_sortByName (templates : List (String × Path)) :
    (sortByName templates).Pairwise fun a b => a.1 ≤ b.1 := by
  have hsorted : (sortByName templates).Pairwise fun a b => decide (a.1 ≤ b.1) = true := by
    apply List.pairwise_mergeSort
    · intro a b c hab hbc
      rw [decide_eq_true_eq] at hab hbc ⊢
      exact String.le_trans hab hbc
    · intro a b
      rw [Bool.or_eq_true, decide_eq_true_eq, decide_eq_true_eq]
      exact String.le_total a.1 b.1
  exact hsorted.imp of_decide_eq_true

/-- Sorting templates with distinct names gives the entries of a table. -/
theorem sortByName_eq_entries {templates : List (String × Path)}
    (h : (templates.map (·.1)).Nodup) :
    sortByName templates = (SortedMap.ofList templates).entries := by
  have hperm := sortByName_perm templates
  have hnodup : ((sortByName templates).map (·.1)).Nodup := (hperm.map _).nodup_iff.mpr h
  have hsorted : (sortByName templates).Pairwise KeyBelow := by
    rw [List.Nodup, List.pairwise_map] at hnodup
    -- Of two templates in order the first one has the lesser name, since the names are distinct.
    refine (pairwise_sortByName templates).and hnodup |>.imp ?_
    rintro a b ⟨hle, hne⟩
    show a.1 < b.1
    exact Decidable.byContradiction fun hlt => hne (String.le_antisymm hle (String.not_lt.mp hlt))
  refine eq_of_lookup_eq hsorted (SortedMap.ofList templates).sorted fun k => ?_
  rw [SortedMap.lookup_of_perm hnodup hperm]
  exact (SortedMap.get?_ofList_of_nodup h k).symm

-- ── The templates of a directory ─────────────────────────────────────────────

/-- The name and the extension of a template make up the name of its file. -/
theorem templateName?_eq_some {n : RawName} : templateName? extension n = some name ↔
    n = .ofString (name ++ "." ++ extension) ∧ '.' ∉ extension.toList ∧ name ≠ "" ∧
      name.toList.head? ≠ some '_' := by
  have hfile : RawName.ofString (name ++ "." ++ extension) =
      RawName.ofString name ++ .char '.' :: RawName.ofString extension := by
    rw [RawName.ofString_append, RawName.ofString_append, List.append_assoc]
    rfl
  have hstem : RawName.ofString name ≠ [] ↔ name ≠ "" := by
    rw [RawName.ofString, ne_eq, List.map_eq_nil_iff, String.toList_eq_nil_iff]
  have hdots : NamePart.char '.' ∉ RawName.ofString extension ↔ '.' ∉ extension.toList := by
    simp [RawName.ofString]
  rw [hfile, ← hstem, ← hdots, templateName?]
  constructor
  · intro h
    split at h
    next stem found hsplit =>
      rw [Option.ite_none_right_eq_some, Option.filter_eq_some_iff, RawName.text?_eq_some,
        RawName.text?_eq_some, Bool.and_eq_true, decide_eq_true_eq] at h
      obtain ⟨rfl, rfl, -, hpartial⟩ := h
      obtain ⟨rfl, hne, hdots⟩ := RawName.splitExtension_eq_some.mp hsplit
      exact ⟨rfl, hdots, hne, hpartial⟩
    next => cases h
  · rintro ⟨rfl, hextension, hne, hpartial⟩
    rw [RawName.splitExtension_eq_some.mpr ⟨rfl, hne, hextension⟩]
    dsimp only
    rw [if_pos (RawName.text?_ofString extension), Option.filter_eq_some_iff, Bool.and_eq_true,
      decide_eq_true_eq]
    exact ⟨RawName.text?_ofString name, by simpa using hstem.mp hne, hpartial⟩

/-- The templates among the entries of a directory, in the order in which it gives them. -/
def templatesAmong (dir : Path) (extension : String) (entries : List DirectoryEntry) :
    List (String × Path) :=
  entries.filterMap (template? dir extension)

theorem template?_eq_some {e : DirectoryEntry} :
    template? dir extension e = some (name, path) ↔
      e = ⟨.ofString (name ++ "." ++ extension), true⟩ ∧
        path = dir.child (name ++ "." ++ extension) ∧ '.' ∉ extension.toList ∧ name ≠ "" ∧
        name.toList.head? ≠ some '_' := by
  obtain ⟨fileName, found⟩ := e
  rw [template?, Option.ite_none_right_eq_some, Option.map_eq_some_iff]
  constructor
  · rintro ⟨rfl, stem, hstem, heq⟩
    obtain ⟨rfl, rfl⟩ := Prod.mk.inj heq
    obtain ⟨rfl, hrest⟩ := templateName?_eq_some.mp hstem
    exact ⟨rfl, rfl, hrest⟩
  · rintro ⟨heq, rfl, hrest⟩
    cases heq
    exact ⟨rfl, name, templateName?_eq_some.mpr ⟨rfl, hrest⟩, rfl⟩

/-- No two templates of a directory have the same name. -/
theorem nodup_templatesAmong {entries : List DirectoryEntry} (h : (entries.map (·.name)).Nodup) :
    ((templatesAmong dir extension entries).map (·.1)).Nodup := by
  rw [List.Nodup, List.pairwise_map] at h ⊢
  refine h.filterMap _ fun a b hne x hx y hy heq => ?_
  obtain ⟨rfl, -⟩ := template?_eq_some.mp hx
  obtain ⟨rfl, -⟩ := template?_eq_some.mp hy
  exact hne (by rw [heq])

/-- In whatever order a directory gives its entries, its templates are the sorted ones. -/
theorem entries_ofEntries {entries order : List DirectoryEntry} (h : (entries.map (·.name)).Nodup)
    (horder : order.Perm entries) :
    (ofEntries dir extension entries).templates.entries =
      sortByName (templatesAmong dir extension order) := by
  have hentries : ((templatesAmong dir extension entries).map (·.1)).Nodup := nodup_templatesAmong h
  have hperm : (templatesAmong dir extension order).Perm (templatesAmong dir extension entries) :=
    horder.filterMap _
  have hnodup := (hperm.map (·.1)).nodup_iff.mpr hentries
  rw [sortByName_eq_entries hnodup]
  congr 1
  refine SortedMap.ext_get? fun k => ?_
  rw [SortedMap.get?_ofList_of_nodup hnodup, SortedMap.lookup_of_perm hnodup hperm]
  exact SortedMap.get?_ofList_of_nodup hentries k

/-- The catalog does not depend on the order of the entries. -/
theorem ofEntries_of_perm {entries order : List DirectoryEntry} (h : (entries.map (·.name)).Nodup)
    (horder : order.Perm entries) :
    ofEntries dir extension order = ofEntries dir extension entries := by
  have hnames := (horder.map (·.name)).nodup_iff.mpr h
  have hentries : (ofEntries dir extension order).templates.entries =
      (ofEntries dir extension entries).templates.entries :=
    (entries_ofEntries hnames (.refl order)).trans (entries_ofEntries h horder).symm
  have htables : (ofEntries dir extension order).templates =
      (ofEntries dir extension entries).templates := by
    refine SortedMap.ext_get? fun k => ?_
    rw [SortedMap.get?, SortedMap.get?, hentries]
  exact congrArg Catalog.mk htables

-- ── What is listed ───────────────────────────────────────────────────────────

/-- The entries have a file with the name, a dot and the extension, which is all behind the last
    dot. -/
structure IsTemplate (entries : List DirectoryEntry) (extension name : String) : Prop where
  nonempty : name ≠ ""
  noPart : name.toList.head? ≠ some '_'
  noDot : '.' ∉ extension.toList
  file : ⟨.ofString (name ++ "." ++ extension), true⟩ ∈ entries

/-- A template is listed with the path of its file. -/
theorem get?_ofEntries {entries : List DirectoryEntry} (h : (entries.map (·.name)).Nodup) :
    (ofEntries dir extension entries).templates.get? name = some path ↔
      IsTemplate entries extension name ∧ path = dir.child (name ++ "." ++ extension) := by
  have hnodup : ((templatesAmong dir extension entries).map (·.1)).Nodup := nodup_templatesAmong h
  have hget : (ofEntries dir extension entries).templates.get? name =
      (templatesAmong dir extension entries).lookup name :=
    SortedMap.get?_ofList_of_nodup hnodup name
  rw [hget]
  constructor
  · intro hlookup
    obtain ⟨e, hmem, htemplate⟩ := List.mem_filterMap.mp (SortedMap.mem_of_lookup hlookup)
    obtain ⟨rfl, rfl, hdot, hne, hpart⟩ := template?_eq_some.mp htemplate
    exact ⟨⟨hne, hpart, hdot, hmem⟩, rfl⟩
  · rintro ⟨⟨hne, hpart, hdot, hmem⟩, rfl⟩
    refine SortedMap.lookup_of_mem (e := (name, _)) hnodup ?_
    exact List.mem_filterMap.mpr ⟨_, hmem, template?_eq_some.mpr ⟨rfl, rfl, hdot, hne, hpart⟩⟩

-- ── Requests ─────────────────────────────────────────────────────────────────

theorem mem_names_ofEntries {entries : List DirectoryEntry} (h : (entries.map (·.name)).Nodup) :
    name ∈ (ofEntries dir extension entries).names ↔ IsTemplate entries extension name := by
  rw [names, SortedMap.mem_keys, Option.isSome_iff_exists]
  constructor
  · rintro ⟨path, hpath⟩
    exact ((get?_ofEntries h).mp hpath).1
  · intro htemplate
    exact ⟨_, (get?_ofEntries h).mpr ⟨htemplate, rfl⟩⟩

/-- The names of a catalog are in ascending order. -/
theorem pairwise_names (c : Catalog) : c.names.Pairwise (· < ·) := by
  rw [names, SortedMap.keys, List.pairwise_map]
  exact c.templates.sorted

theorem resolveName_empty_eq (c : Catalog) : c.resolveName "" =
    match c.names.head? with
    | some name => .ok name
    | none => .error (.templateNotFound "(default)") :=
  rfl

/-- The default is the least of the names. -/
theorem resolveName_empty {c : Catalog} : c.resolveName "" = .ok name ↔
    name ∈ c.names ∧ ∀ other ∈ c.names, name ≤ other := by
  have hsorted := c.pairwise_names
  rw [resolveName_empty_eq]
  generalize c.names = names at hsorted ⊢
  cases names with
  | nil => simp
  | cons first rest =>
      rw [List.pairwise_cons] at hsorted
      rw [List.head?_cons]
      dsimp only
      constructor
      · intro h
        obtain rfl := Except.ok.inj h
        refine ⟨List.mem_cons_self, ?_⟩
        intro other hother
        rcases List.mem_cons.mp hother with rfl | hother
        · exact String.le_refl _
        · exact String.not_lt.mp (String.lt_asymm (hsorted.1 other hother))
      · rintro ⟨hmem, hleast⟩
        rcases List.mem_cons.mp hmem with rfl | hmem
        · rfl
        · exact absurd (hsorted.1 name hmem) (String.not_lt.mpr (hleast first List.mem_cons_self))

theorem resolveName_unknown {c : Catalog} (hne : name ≠ "") (h : name ∉ c.names) :
    c.resolveName name = .error (.templateNotFound name) := by
  rw [names, SortedMap.mem_keys] at h
  rw [resolveName, if_neg (by simpa using hne), if_neg (by rwa [SortedMap.contains])]

/-- What a catalog has to be for the entries of a directory. -/
structure IsCatalogOf (dir : Path) (extension : String) (entries : List DirectoryEntry)
    (c : Catalog) : Prop where
  /-- The entries may come in any order. -/
  sorted : ∀ order, order.Perm entries →
    c.templates.entries = sortByName (templatesAmong dir extension order)
  ascending : c.names.Pairwise (· < ·)
  listed : ∀ name, name ∈ c.names ↔ IsTemplate entries extension name
  found : ∀ name path, c.templates.get? name = some path ↔
    name ∈ c.names ∧ path = dir.child (name ++ "." ++ extension)
  default : ∀ name, c.resolveName "" = .ok name ↔ name ∈ c.names ∧ ∀ other ∈ c.names, name ≤ other
  noDefault : c.names = [] → c.resolveName "" = .error (.templateNotFound "(default)")
  known : ∀ name ∈ c.names, c.resolveName name = .ok name
  unknown : ∀ name ∉ c.names, name ≠ "" → c.resolveName name = .error (.templateNotFound name)
  resolved : ∀ requested name, c.resolveName requested = .ok name → name ∈ c.names
  /-- A listed name is read from the file at its path. -/
  content : ∀ (t : FileTree), ∀ name ∈ c.names,
    c.read t name = (t.readText (dir.child (name ++ "." ++ extension))).mapError fun _ => .io

/-- The catalog of a directory is told by the files among its entries. -/
theorem isCatalogOf_ofEntries {entries : List DirectoryEntry} (h : (entries.map (·.name)).Nodup) :
    IsCatalogOf dir extension entries (ofEntries dir extension entries) := by
  have hknown : ∀ name ∈ (ofEntries dir extension entries).names,
      (ofEntries dir extension entries).resolveName name = .ok name := by
    intro name hname
    have htemplate := (mem_names_ofEntries h).mp hname
    exact resolveName_name htemplate.nonempty ((get?_ofEntries h).mpr ⟨htemplate, rfl⟩)
  exact {
    sorted := fun _ horder => entries_ofEntries h horder
    ascending := pairwise_names _
    listed := fun _ => mem_names_ofEntries h
    found := fun name path => by rw [mem_names_ofEntries h, get?_ofEntries h]
    default := fun _ => resolveName_empty
    noDefault := fun hnone => by
      rw [resolveName_empty_eq, hnone]
      rfl
    known := hknown
    unknown := fun _ hname hne => resolveName_unknown hne hname
    resolved := fun requested name hresolve => by
      by_cases hempty : requested = ""
      · rw [hempty] at hresolve
        exact (resolveName_empty.mp hresolve).1
      · by_cases hmem : requested ∈ (ofEntries dir extension entries).names
        · rw [hknown requested hmem] at hresolve
          obtain rfl := Except.ok.inj hresolve
          exact hmem
        · rw [resolveName_unknown hempty hmem] at hresolve
          cases hresolve
    content := fun t name hname => by
      have hpath : (ofEntries dir extension entries).templates.get? name =
          some (dir.child (name ++ "." ++ extension)) :=
        (get?_ofEntries h).mpr ⟨(mem_names_ofEntries h).mp hname, rfl⟩
      rw [Catalog.read, hpath] }

-- ── Directories of a tree ────────────────────────────────────────────────────

/-- The entries of a directory have distinct names. -/
theorem nodup_entriesIn (t : FileTree) (dir : Path) (l : Location) :
    ((t.entriesIn dir l).map (·.name)).Nodup := by
  rw [entriesIn, List.map_map, List.Nodup, List.pairwise_map, list]
  refine (pairwise_descendants t l).filterMap _ fun a b hlt x hx y hy heq => ?_
  split at hx
  next name ha =>
    split at hy
    next other hb =>
      rw [ha, hb] at hlt
      obtain rfl := Option.some.inj hx
      obtain rfl := Option.some.inj hy
      obtain rfl : name = other := RawName.ofString_inj.mp heq
      exact List.lt_irrefl _ hlt
    next => exact absurd hy (Option.some_ne_none _).symm
  next => exact absurd hx (Option.some_ne_none _).symm

theorem mem_entriesIn : ⟨.ofString fileName, true⟩ ∈ t.entriesIn dir l ↔
    (∃ content, t.get? (l ++ [fileName]) = some (.file content)) ∧
      isLongPath (dir.child fileName) = false := by
  rw [entriesIn, List.mem_map]
  constructor
  · rintro ⟨⟨name, e⟩, hmem, heq⟩
    obtain ⟨hname, hfile⟩ := DirectoryEntry.mk.inj heq
    obtain rfl := RawName.ofString_inj.mp hname
    cases e with
    | directory => cases hfile
    | file content => exact ⟨⟨content, mem_list_iff.mp hmem⟩, by simpa using hfile⟩
  · rintro ⟨⟨content, hget⟩, hlong⟩
    refine ⟨(fileName, .file content), mem_list_iff.mpr hget, ?_⟩
    dsimp only
    rw [hlong, Bool.not_false]

/-- The catalog of a directory of a tree lists the files that are there and reads them. -/
structure IsCatalogIn (t : FileTree) (dir : Path) (l : Location) (extension : String)
    (c : Catalog) : Prop extends IsCatalogOf dir extension (t.entriesIn dir l) c where
  files : ∀ name, name ∈ c.names ↔
    (name ≠ "" ∧ name.toList.head? ≠ some '_' ∧ '.' ∉ extension.toList) ∧
      (∃ content, t.get? (l ++ [name ++ "." ++ extension]) = some (.file content)) ∧
      isLongPath (dir.child (name ++ "." ++ extension)) = false
  read : ∀ requested name, c.resolveName requested = .ok name →
    ∃ content, t.get? (l ++ [name ++ "." ++ extension]) = some (.file content) ∧
      c.read t name =
        match content.text? with
        | some text => .ok text
        | none => .error .io

theorem isCatalogIn_ofEntries (h : t.locate dir = .ok l) (hnames : t.NamesBelow l) :
    IsCatalogIn t dir l extension (ofEntries dir extension (t.entriesIn dir l)) := by
  have hcatalog : IsCatalogOf dir extension (t.entriesIn dir l)
      (ofEntries dir extension (t.entriesIn dir l)) :=
    isCatalogOf_ofEntries (nodup_entriesIn t dir l)
  have hfiles : ∀ name, name ∈ (ofEntries dir extension (t.entriesIn dir l)).names ↔
      (name ≠ "" ∧ name.toList.head? ≠ some '_' ∧ '.' ∉ extension.toList) ∧
        (∃ content, t.get? (l ++ [name ++ "." ++ extension]) = some (.file content)) ∧
        isLongPath (dir.child (name ++ "." ++ extension)) = false := by
    intro name
    rw [hcatalog.listed, ← mem_entriesIn]
    exact ⟨fun h => ⟨⟨h.nonempty, h.noPart, h.noDot⟩, h.file⟩,
      fun ⟨⟨hne, hpart, hdot⟩, hfile⟩ => ⟨hne, hpart, hdot, hfile⟩⟩
  refine { hcatalog with files := hfiles, read := ?_ }
  intro requested name hresolve
  have hname := hcatalog.resolved requested name hresolve
  obtain ⟨-, ⟨content, hget⟩, hlong⟩ := (hfiles name).mp hname
  have hentry := hnames.isEntryName hget _ List.mem_cons_self
  refine ⟨content, hget, ?_⟩
  rw [hcatalog.content t name hname, readText, locate_entry h (directory_of_entry hget) hentry hlong, ok_bind, hget]
  dsimp only
  cases content.text? <;> rfl

/-- A directory that cannot be read to its end has no catalog; otherwise its entries have the same
    catalog in every order.  The directories of a tree have such catalogs if they can be opened, and
    what is no directory has the empty one. -/
theorem isCatalogOf_load (dir : Path) (extension : String) :
    (∀ (listing : List (Except Fault DirectoryEntry)) (fault : Fault), .error fault ∈ listing →
      ofListing dir extension listing = .error .io) ∧
    (∀ entries : List DirectoryEntry, (entries.map (·.name)).Nodup →
      ∃ c, IsCatalogOf dir extension entries c ∧
        ∀ order : List DirectoryEntry, order.Perm entries →
          ofListing dir extension (order.map .ok) = .ok c) ∧
    ∀ t : FileTree,
      (t.isDirectory dir = false → load t dir extension = .ok empty) ∧
      ∀ l, t.locate dir = .ok l → t.get? l = some .directory →
        (l ∈ t.process.unopened → load t dir extension = .error .io) ∧
        (l ∉ t.process.unopened → t.NamesBelow l →
          ∃ c, load t dir extension = .ok c ∧ IsCatalogIn t dir l extension c) := by
  refine ⟨?_, ?_, ?_⟩
  · intro listing fault hmem
    rw [ofListing]
    cases hlisting : listing.mapM id with
    | error _ => rfl
    | ok entries =>
        rw [mapM_id_eq_ok.mp hlisting] at hmem
        obtain ⟨e, -, he⟩ := List.mem_map.mp hmem
        cases he
  · intro entries h
    refine ⟨_, isCatalogOf_ofEntries h, fun order horder => ?_⟩
    rw [ofListing_eq_ok]
    exact ⟨order, rfl, (ofEntries_of_perm h horder).symm⟩
  · intro t
    refine ⟨fun hno => ?_, fun l hl hdirectory => ⟨fun hopened => ?_, fun hopened hnames => ?_⟩⟩
    · rw [load, if_neg (Bool.eq_false_iff.mp hno)]
    · rw [load_eq, hl]
      dsimp only
      rw [if_pos hdirectory, if_pos hopened]
    · refine ⟨_, ?_, isCatalogIn_ofEntries hl hnames⟩
      rw [load_eq, hl]
      dsimp only
      rw [if_pos hdirectory, if_neg hopened]

/-- Files of which two are templates. -/
def mixedFiles : FileTree :=
  ["B.tmpl", "A.b.tmpl", "_C.tmpl", ".tmpl", "D.txt"].foldl
    (fun t name => (t.replaceFile ⟨"templates", [name]⟩ name).1) ∅

/-- A directory with a template and a file whose name is no text. -/
def mixedEntries : List DirectoryEntry :=
  [⟨.byte 0xff :: RawName.ofString ".tmpl", true⟩, ⟨.ofString "B.tmpl", true⟩]

/-- A name may have dots, and what has no name in front of its extension is no template. -/
theorem isCatalogOf_load_sample :
    (∃ c, IsCatalogOf ⟨"templates", []⟩ "tmpl" mixedEntries c ∧
      ofListing ⟨"templates", []⟩ "tmpl" (mixedEntries.map .ok) = .ok c) ∧
    ∃ c, load mixedFiles ⟨"templates", []⟩ "tmpl" = .ok c ∧ c.names = ["A.b", "B"] ∧
      IsCatalogIn mixedFiles ⟨"templates", []⟩ ["templates"] "tmpl" c := by
  obtain ⟨-, hentries, hload⟩ := isCatalogOf_load ⟨"templates", []⟩ "tmpl"
  refine ⟨?_, ?_⟩
  · obtain ⟨c, hcatalog, horder⟩ := hentries mixedEntries (by decide +kernel)
    exact ⟨c, hcatalog, horder _ (.refl _)⟩
  · obtain ⟨c, hc, hcatalog⟩ := ((hload mixedFiles).2 ["templates"] (by decide +kernel)
      (by decide +kernel)).2 (by decide +kernel) (by decide +kernel)
    refine ⟨c, hc, ?_, hcatalog⟩
    have hnames : (load mixedFiles ⟨"templates", []⟩ "tmpl").map names = .ok ["A.b", "B"] := by
      decide +kernel
    rw [hc] at hnames
    exact Except.ok.inj hnames

/-- The directory of the templates by a path that is nearly as long as a path can be. -/
def windingTemplates : Path := ⟨".", List.replicate 2039 "." ++ ["templates"]⟩

def singleTemplate : FileTree := ((∅ : FileTree).replaceFile ⟨"templates", ["T.tmpl"]⟩ "x").1

/-- A file in a directory that is there may not be listed: its path may be too long.  Nor is a file
    listed that has a stem and the extension, if its stem is no text. -/
theorem not_listed_of_long_path :
    (¬ ∀ (t : FileTree) (dir : Path) (l : Location) (extension : String) (c : Catalog),
      t.locate dir = .ok l → t.get? l = some .directory → t.NamesBelow l →
      load t dir extension = .ok c → ∀ name, name ∈ c.names ↔
        '.' ∉ extension.toList ∧ name ≠ "" ∧ name.toList.head? ≠ some '_' ∧
          ∃ content, t.get? (l ++ [name ++ "." ++ extension]) = some (.file content)) ∧
    ∃ e : DirectoryEntry, e.isFile = true ∧
      e.name.splitExtension = ([.byte 0xff], some (.ofString "tmpl")) ∧
      ofListing ⟨"templates", []⟩ "tmpl" [.ok e] = .ok empty := by
  refine ⟨?_, ⟨NamePart.byte 0xff :: RawName.ofString ".tmpl", true⟩, by decide +kernel⟩
  intro h
  have hlocate : singleTemplate.locate windingTemplates = .ok ["templates"] := by
    have hlong : isLongPath windingTemplates = false := by
      rw [← Bool.not_eq_true, isLongPath_iff]
      decide +kernel
    rw [locate, if_neg (by decide +kernel), hlong]
    decide +kernel
  have hnames : singleTemplate.NamesBelow ["templates"] := by decide +kernel
  have hload : load singleTemplate windingTemplates "tmpl" =
      .ok (ofEntries windingTemplates "tmpl"
        (singleTemplate.entriesIn windingTemplates ["templates"])) := by
    rw [load_eq, hlocate]
    dsimp only
    rw [if_pos (by decide +kernel), if_neg (by decide +kernel)]
  have hmem := (h singleTemplate windingTemplates ["templates"] "tmpl" _ hlocate
    (by decide +kernel) hnames hload "T").mpr
      ⟨by decide, by decide, by decide, .text "x", by decide +kernel⟩
  have hshort := (((isCatalogIn_ofEntries hlocate hnames).files "T").mp hmem).2.2
  have hlong : isLongPath (windingTemplates.child ("T" ++ "." ++ "tmpl")) = true := by
    rw [isLongPath_iff]
    decide +kernel
  rw [hlong] at hshort
  cases hshort

end Catalog

end ShaderTemplates
