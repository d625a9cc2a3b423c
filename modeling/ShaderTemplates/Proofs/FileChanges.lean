import ShaderTemplates.FileTree.Write
import ShaderTemplates.Proofs.Computations
import ShaderTemplates.Proofs.Tables
import ShaderTemplates.Proofs.Walks

/-!
# What changes of files change

No change of a file removes a directory (`Keeps`), so a path that leads somewhere goes on leading
there.  Making directories changes no file; replacing a file changes the one file that its path
leads to, and removing a file likewise.

A file that was replaced stands where it is (`Stands`): its directory is there, its path leads to
it, and it has the text.  As long as that is so, replacing it with the same text is possible and
gives the same tree (`Stands.replaceFile`).

Writing a file replaces it and then flushes its directory (`run_write_eq_ok`, `run_write_eq_error`).
Whether a directory can be flushed does not change with the files (`Keeps.flushDirectory`).
-/

namespace ShaderTemplates

namespace FileTree

open ShaderTemplates.Path

variable {t t' t'' : FileTree}

/-- The content of the file at a location. -/
def file? (t : FileTree) (l : Location) : Option Content :=
  match t.get? l with
  | some (.file content) => some content
  | _ => none

theorem file?_eq_some {l : Location} {content : Content} :
    t.file? l = some content ↔ t.get? l = some (.file content) := by
  rw [file?]
  split
  next h => rw [h, Option.some.injEq, Option.some.injEq, Entry.file.injEq]
  next h =>
    constructor
    · intro hnone
      cases hnone
    · intro hfile
      exact absurd hfile (h content)

theorem not_directory_of_file? {l : Location} {content : Content}
    (h : t.file? l = some content) : t.get? l ≠ some .directory := by
  rw [file?_eq_some.mp h]
  intro heq
  cases heq

theorem get?_ne_none_of_file? {l : Location} {content : Content} (h : t.file? l = some content) :
    t.get? l ≠ none := by
  rw [file?_eq_some.mp h]
  exact Option.some_ne_none _

theorem ne_root_of_file? {l : Location} {content : Content} (h : t.file? l = some content) :
    l ≠ [] := by
  rintro rfl
  exact not_directory_of_file? h (by rw [get?, if_pos rfl])

-- ── Directories stay ─────────────────────────────────────────────────────────

/-- All directories are still there, and the working directory is the same. -/
structure Keeps (t t' : FileTree) : Prop where
  process : t'.process = t.process
  directory : ∀ l, t.get? l = some .directory → t'.get? l = some .directory

namespace Keeps

theorem refl (t : FileTree) : t.Keeps t := ⟨rfl, fun _ h => h⟩

theorem trans (h : t.Keeps t') (h' : t'.Keeps t'') : t.Keeps t'' :=
  ⟨h'.process.trans h.process, fun l hl => h'.directory l (h.directory l hl)⟩

theorem walk (h : t.Keeps t') {l k : Location} {segments : List String}
    (hwalk : t.walk l segments = .ok k) : t'.walk l segments = .ok k := by
  induction segments generalizing l with
  | nil => exact hwalk
  | cons s segments ih =>
      rw [FileTree.walk] at hwalk
      split at hwalk
      next => cases hwalk
      next => cases hwalk
      next hl =>
        rw [FileTree.walk, h.directory l hl]
        dsimp only
        split at hwalk
        next hs => rw [if_pos hs]; exact ih hwalk
        next hs =>
          rw [if_neg hs]
          split at hwalk
          next hup => rw [if_pos hup]; exact ih hwalk
          next hup =>
            rw [if_neg hup]
            split at hwalk
            next => cases hwalk
            next hlong => rw [if_neg hlong]; exact ih hwalk

theorem startOf (h : t.Keeps t') (p : Path) : t'.startOf p = t.startOf p := by
  rw [FileTree.startOf, FileTree.startOf, h.process]

theorem draftPath (h : t.Keeps t') (p : Path) : t'.draftPath p = t.draftPath p := by
  rw [FileTree.draftPath, FileTree.draftPath, workingDirectory, workingDirectory, h.process]

/-- A path leads where it led before. -/
theorem locate (h : t.Keeps t') {p : Path} {l : Location} (hp : t.locate p = .ok l) :
    t'.locate p = .ok l := by
  obtain ⟨hempty, hlong, hzero, hwalk⟩ := locate_eq_ok.mp hp
  exact locate_eq_ok.mpr ⟨hempty, hlong, hzero, h.startOf p ▸ h.walk hwalk⟩

end Keeps

theorem find?_eq_some {p : Path} {e : Entry} :
    t.find? p = some e ↔ ∃ l, t.locate p = .ok l ∧ t.get? l = some e := by
  rw [find?]
  cases t.locate p with
  | error fault =>
      constructor
      · intro h
        cases h
      · rintro ⟨_, h, _⟩
        cases h
  | ok l =>
      constructor
      · intro h
        exact ⟨l, rfl, h⟩
      · rintro ⟨_, ⟨⟩, h⟩
        exact h

theorem isDirectory_iff {p : Path} :
    t.isDirectory p = true ↔ ∃ l, t.locate p = .ok l ∧ t.get? l = some .directory := by
  rw [isDirectory, beq_iff_eq, find?_eq_some]

theorem isFile_iff {p : Path} :
    t.isFile p = true ↔ ∃ l content, t.locate p = .ok l ∧ t.file? l = some content := by
  rw [isFile]
  constructor
  · intro h
    split at h
    next content hfind =>
      obtain ⟨l, hl, hfile⟩ := find?_eq_some.mp hfind
      exact ⟨l, content, hl, file?_eq_some.mpr hfile⟩
    next => cases h
  · rintro ⟨l, content, hl, hfile⟩
    rw [find?_eq_some.mpr ⟨l, hl, file?_eq_some.mp hfile⟩]

theorem holds_iff {p : Path} :
    t.holds p = true ↔ ∃ l, t.locate p = .ok l ∧ t.get? l ≠ none := by
  rw [holds, Option.isSome_iff_exists]
  constructor
  · rintro ⟨e, hfind⟩
    obtain ⟨l, hl, he⟩ := find?_eq_some.mp hfind
    exact ⟨l, hl, by rw [he]; exact Option.some_ne_none e⟩
  · rintro ⟨l, hl, hentry⟩
    obtain ⟨e, he⟩ := Option.ne_none_iff_exists'.mp hentry
    exact ⟨e, find?_eq_some.mpr ⟨l, hl, he⟩⟩

theorem Keeps.isDirectory (h : t.Keeps t') {p : Path} (hp : t.isDirectory p = true) :
    t'.isDirectory p = true := by
  obtain ⟨l, hlocate, hl⟩ := isDirectory_iff.mp hp
  exact isDirectory_iff.mpr ⟨l, h.locate hlocate, h.directory l hl⟩

-- ── Making directories ───────────────────────────────────────────────────────

/-- Directories may be new; the files are the same. -/
structure AddsDirectories (t t' : FileTree) : Prop extends Keeps t t' where
  files : ∀ l, t'.file? l = t.file? l

theorem AddsDirectories.refl (t : FileTree) : t.AddsDirectories t := ⟨.refl t, fun _ => rfl⟩

/-- A directory that is there now and was not there before; one of the paths leads to it. -/
structure NewDirectory (t t' : FileTree) (dirs : List Path) (l : Location) : Prop where
  absent : t.get? l = none
  present : t'.get? l = some .directory
  led : ∃ dir ∈ dirs, t'.locate dir = .ok l

theorem NewDirectory.keep {dirs : List Path} {l : Location} (h : t.NewDirectory t' dirs l)
    (hl : t''.get? l = t'.get? l) (hkeep : t'.Keeps t'') : t.NewDirectory t'' dirs l := by
  obtain ⟨dir, hmem, hled⟩ := h.led
  exact ⟨h.absent, hl.trans h.present, dir, hmem, hkeep.locate hled⟩

/-- Directories that the paths lead to may be new; everything else is as it was. -/
structure AddsOnly (t t' : FileTree) (dirs : List Path) : Prop where
  process : t'.process = t.process
  entries : ∀ l, t'.get? l = t.get? l ∨ t.NewDirectory t' dirs l

namespace AddsOnly

variable {dirs dirs' : List Path}

theorem refl (t : FileTree) (dirs : List Path) : t.AddsOnly t dirs := ⟨rfl, fun _ => .inl rfl⟩

theorem keeps (h : t.AddsOnly t' dirs) : t.Keeps t' := by
  refine ⟨h.process, fun l hl => ?_⟩
  rcases h.entries l with hsame | hnew
  · rw [hsame, hl]
  · exact hnew.present

theorem addsDirectories (h : t.AddsOnly t' dirs) : t.AddsDirectories t' := by
  refine ⟨h.keeps, fun l => ?_⟩
  unfold file?
  rcases h.entries l with hsame | hnew
  · rw [hsame]
  · rw [hnew.present, hnew.absent]

theorem mono (h : t.AddsOnly t' dirs) (hdirs : ∀ dir ∈ dirs, dir ∈ dirs') :
    t.AddsOnly t' dirs' := by
  refine ⟨h.process, fun l => (h.entries l).imp_right fun hnew => ?_⟩
  obtain ⟨dir, hmem, hdir⟩ := hnew.led
  exact ⟨hnew.absent, hnew.present, dir, hdirs dir hmem, hdir⟩

theorem trans (h : t.AddsOnly t' dirs) (h' : t'.AddsOnly t'' dirs) : t.AddsOnly t'' dirs := by
  refine ⟨h'.process.trans h.process, fun l => ?_⟩
  rcases h.entries l with hsame | hnew
  · rcases h'.entries l with hsame' | hnew'
    · exact .inl (hsame'.trans hsame)
    · exact .inr ⟨hsame ▸ hnew'.absent, hnew'.present, hnew'.led⟩
  · obtain ⟨dir, hmem, hdir⟩ := hnew.led
    exact .inr ⟨hnew.absent, h'.keeps.directory l hnew.present, dir, hmem, h'.keeps.locate hdir⟩

end AddsOnly

theorem process_of_addDirectory? {l : Location} {name : String}
    (h : t.addDirectory? l name = some t') :
    t'.process = t.process ∧ t.get? (l ++ [name]) = none := by
  rw [addDirectory?] at h
  split at h
  next hnew =>
    refine ⟨by cases h; rfl, ?_⟩
    rw [get?, if_neg (by simp)]
    exact hnew.2
  next => cases h

/-- Slashes at the end of a path. -/
theorem exists_slashes_end (tail : List String) :
    ∃ slashes, tail = (tail.reverse.dropWhile (· == "")).reverse ++ slashes ∧
      ∀ s ∈ slashes, s = "" := by
  refine ⟨(tail.reverse.takeWhile (· == "")).reverse, ?_, fun s hs => ?_⟩
  · rw [← List.reverse_append, List.takeWhile_append_dropWhile, List.reverse_reverse]
  · exact beq_iff_eq.mp (List.all_eq_true.mp List.all_takeWhile s (List.mem_reverse.mp hs))

/-- A path leads to the directory that was made for it. -/
theorem locate_slashes {head : String} {front slashes : List String} {l : Location}
    (hslashes : ∀ s ∈ slashes, s = "") (hfront : Path.mk head front ≠ .empty)
    (hlong : isLongPath ⟨head, front ++ slashes⟩ = false) (h : t.locate ⟨head, front⟩ = .ok l)
    (hl : t.get? l = some .directory) : t.locate ⟨head, front ++ slashes⟩ = .ok l := by
  obtain ⟨-, -, hzero, hwalk⟩ := locate_eq_ok.mp h
  have hne : ¬ (head = "" ∧ front = []) := by
    rintro ⟨rfl, rfl⟩
    exact hfront rfl
  refine locate_eq_ok.mpr ⟨?_, hlong, ?_, ?_⟩
  · intro heq
    obtain ⟨rfl, hnil⟩ := Path.mk.inj heq
    exact hne ⟨rfl, (List.append_eq_nil_iff.mp hnil).1⟩
  · have hnone : slashes.any (fun s => s.toList.contains '\x00') = false := by
      rw [List.any_eq_false]
      intro s hs
      rw [hslashes s hs]
      decide
    simp only [hasZero, List.any_cons, List.any_append] at hzero ⊢
    rw [hnone, Bool.or_false, hzero]
  · rw [startOf_append hne, ← List.cons_append, walk_append_eq_ok]
    exact ⟨l, hwalk, walk_silent hl fun s hs => by rw [hslashes s hs]; decide⟩

theorem addsOnly_of_makeDirectory {p : Path} (h : t.makeDirectory p = .ok t') :
    t.AddsOnly t' [p] := by
  obtain ⟨head, tail⟩ := p
  rw [makeDirectory] at h
  split at h
  next => cases h
  next hlong =>
    obtain ⟨l, hlocate, h⟩ := bind_eq_ok.mp h
    split at h
    next => cases h
    next name _ hlast =>
      split at h
      next hadd =>
        cases h
        obtain ⟨front, rfl⟩ := List.getLast?_eq_some_iff.mp hlast
        rw [List.dropLast_concat] at hadd
        obtain ⟨hprocess, habsent⟩ := process_of_addDirectory? hadd
        have hget := get?_addDirectory? hadd
        have hpresent : t'.get? (front ++ [name]) = some .directory := by rw [hget, if_pos rfl]
        have hkeep : t.Keeps t' := by
          refine ⟨hprocess, fun k hk => ?_⟩
          rw [hget]
          split
          next => rfl
          next => exact hk
        refine ⟨hprocess, fun k => ?_⟩
        by_cases hk : k = front ++ [name]
        · rw [hk]
          refine .inr ⟨habsent, hpresent, _, List.mem_singleton_self _, ?_⟩
          split at hlocate
          next => exact hkeep.locate hlocate
          next hne =>
            obtain ⟨slashes, hsplit, hslashes⟩ := exists_slashes_end tail
            have hfound := locate_slashes hslashes hne
              (by rw [← hsplit]; exact Bool.eq_false_iff.mpr hlong) (hkeep.locate hlocate) hpresent
            rwa [← hsplit] at hfound
        · exact .inl (by rw [hget, if_neg hk])
      next => cases h
    next => cases h

theorem addsOnly_makeFirst (t : FileTree) (paths : List Path) :
    t.AddsOnly (t.makeFirst paths).1 paths := by
  induction paths generalizing t with
  | nil => exact .refl t []
  | cons p above ih =>
      have hfirst : ∀ {t t' : FileTree}, t.makeDirectory p = .ok t' → t.AddsOnly t' (p :: above) :=
        fun hmade => (addsOnly_of_makeDirectory hmade).mono fun dir hdir =>
          List.mem_singleton.mp hdir ▸ List.mem_cons_self
      rw [makeFirst]
      split
      next => exact .refl t _
      next =>
        split
        next hmade => exact hfirst hmade
        next =>
          have habove := (ih t).mono fun dir hdir => List.mem_cons_of_mem p hdir
          split
          next heq =>
            rw [heq] at habove
            exact habove
          next heq =>
            rw [heq] at habove
            split
            next hmade => exact habove.trans (hfirst hmade)
            next => exact habove
        next => exact .refl t _

theorem addsOnly_makeDirectories (t : FileTree) (p : Path) :
    t.AddsOnly (t.makeDirectories p).1 p.ancestors := addsOnly_makeFirst t p.ancestors

/-- A directory that is there is not made. -/
theorem makeDirectory_of_directory {p : Path} {l : Location} (h : t.locate p = .ok l)
    (hl : t.get? l = some .directory) : t.makeDirectory p = .error .exists := by
  obtain ⟨head, tail⟩ := p
  obtain ⟨-, hlong, -, -⟩ := locate_eq_ok.mp h
  obtain ⟨slashes, hsplit, hslashes⟩ := exists_slashes_end tail
  have hlocate : t.locate (if Path.mk head (tail.reverse.dropWhile (· == "")).reverse = .empty
      then ⟨head, tail⟩ else ⟨head, (tail.reverse.dropWhile (· == "")).reverse⟩) = .ok l := by
    split
    next => exact h
    next hne =>
      rw [hsplit] at h
      obtain ⟨m, hm, hrest⟩ := locate_cut (by
        rintro ⟨rfl, hnil⟩
        rw [hnil] at hne
        exact hne rfl) h
      rw [hm, eq_of_walk_silent (fun s hs => by rw [hslashes s hs]; decide) hrest]
  rw [makeDirectory]
  rw [hlong, if_neg Bool.false_ne_true]
  dsimp only
  rw [hlocate, ok_bind, hl]

theorem makeDirectories_of_isDirectory {p : Path} (h : t.isDirectory p = true) :
    t.makeDirectories p = (t, .ok ()) := by
  obtain ⟨l, hlocate, hl⟩ := isDirectory_iff.mp h
  have hp : p ≠ .empty := (locate_eq_ok.mp hlocate).1
  rw [makeDirectories, Path.ancestors, makeFirst, if_neg hp,
    makeDirectory_of_directory hlocate hl]
  show (t, if t.isDirectory p = true then Except.ok () else Except.error Fault.exists) = _
  rw [if_pos h]

-- ── Writing files ────────────────────────────────────────────────────────────

/-- Writing a file stores its content at the location that the path leads to. -/
theorem entries_of_writeFile {p : Path} {content : Content} (h : t.writeFile p content = .ok t') :
    ∃ l, t.locate p = .ok l ∧ l ≠ [] ∧ t.get? l ≠ some .directory ∧ t'.process = t.process ∧
      t'.entries = t.entries.insert l (.file content) := by
  rw [writeFile] at h
  obtain ⟨l, hlocate, h⟩ := bind_eq_ok.mp h
  split at h
  next => cases h
  next name hlast =>
    split at h
    next => cases h
    next hdir =>
      split at h
      next hput =>
        cases h
        obtain ⟨front, rfl⟩ := List.getLast?_eq_some_iff.mp hlast
        rw [List.dropLast_concat, putFile?] at hput
        split at hput
        next =>
          cases hput
          exact ⟨front ++ [name], hlocate, by simp, hdir, rfl, rfl⟩
        next => cases hput
      next => cases h

theorem get?_of_insert {l : Location} {e : Entry} (hl : l ≠ [])
    (h : t'.entries = t.entries.insert l e) (k : Location) :
    t'.get? k = if k = l then some e else t.get? k := by
  by_cases hk : k = []
  · rw [hk, if_neg hl.symm, get?, get?, if_pos rfl, if_pos rfl]
  · rw [get?, get?, if_neg hk, if_neg hk, h, SortedMap.get?_insert]

theorem writeFile_eq_ok {p : Path} {content : Content} (h : t.writeFile p content = .ok t') :
    ∃ l, t.locate p = .ok l ∧ t.get? l ≠ some .directory ∧ t.Keeps t' ∧
      ∀ k, t'.file? k = if k = l then some content else t.file? k := by
  obtain ⟨l, hlocate, hl, hdir, hprocess, hentries⟩ := entries_of_writeFile h
  have hget := get?_of_insert hl hentries
  refine ⟨l, hlocate, hdir, ⟨hprocess, fun k hk => ?_⟩, fun k => ?_⟩
  · rw [hget, if_neg]
    · exact hk
    · rintro rfl
      exact hdir hk
  · unfold file?
    rw [hget]
    by_cases hk : k = l
    · rw [if_pos hk, if_pos hk]
    · rw [if_neg hk, if_neg hk]

theorem eq_of_entries (hprocess : t'.process = t.process) (hentries : t'.entries = t.entries) :
    t' = t := by
  obtain ⟨entries, current, closed⟩ := t
  obtain ⟨entries', current', closed'⟩ := t'
  cases hprocess
  cases hentries
  rfl

/-- A file can be written in a directory that is there, if no directory has its name. -/
theorem writeFile_of_directory {p : Path} {m : Location} {name : String}
    (hp : t.locate p = .ok (m ++ [name])) (hm : t.get? m = some .directory)
    (h : t.get? (m ++ [name]) ≠ some .directory) (content : Content) :
    ∃ t', t.writeFile p content = .ok t' ∧ t'.process = t.process ∧
      t'.entries = t.entries.insert (m ++ [name]) (.file content) := by
  have hallowed : t.get? m = some .directory ∧
      t.entries.get? (m ++ [name]) ≠ some .directory := by
    refine ⟨hm, ?_⟩
    rwa [get?, if_neg (by simp)] at h
  rw [writeFile]
  rw [hp, ok_bind, List.getLast?_concat]
  dsimp only
  rw [if_neg h, List.dropLast_concat, putFile?, dif_pos hallowed]
  exact ⟨_, rfl, rfl, rfl⟩

/-- A file that is there can be written. -/
theorem writeFile_of_file {p : Path} {l : Location} {old : Content} (hp : t.locate p = .ok l)
    (h : t.file? l = some old) (content : Content) :
    ∃ t', t.writeFile p content = .ok t' ∧ t'.process = t.process ∧
      t'.entries = t.entries.insert l (.file content) := by
  obtain ⟨m, name, rfl⟩ := (List.eq_nil_or_concat l).resolve_left (ne_root_of_file? h)
  rw [List.concat_eq_append] at hp h ⊢
  exact writeFile_of_directory hp (directory_of_entry (file?_eq_some.mp h))
    (not_directory_of_file? h) content

/-- Giving a file the content that it has changes nothing. -/
theorem writeFile_same {p : Path} {l : Location} {content : Content} (hp : t.locate p = .ok l)
    (h : t.file? l = some content) : t.writeFile p content = .ok t := by
  obtain ⟨t', hwrite, hprocess, hentries⟩ := writeFile_of_file hp h content
  have hne := ne_root_of_file? h
  have hentry : t.entries.get? l = some (.file content) := by
    have hget := file?_eq_some.mp h
    rwa [get?, if_neg hne] at hget
  rw [hwrite, eq_of_entries hprocess (hentries.trans (SortedMap.insert_of_get? hentry))]

-- ── Replacing files ──────────────────────────────────────────────────────────

/-- The text is in the file that the path leads to, and nothing is in the way of replacing it. -/
structure Stands (t : FileTree) (p : Path) (l : Location) (text : String) : Prop where
  located : t.locate p = .ok l
  content : t.file? l = some (.text text)
  directory : t.isDirectory p.directory = true
  draft : isLongPath (t.draftPath p) = false

namespace Stands

variable {p : Path} {l : Location} {text : String}

/-- A text is replaced by itself without any change. -/
theorem replaceFile (h : t.Stands p l text) : t.replaceFile p text = (t, .ok ()) := by
  rw [FileTree.replaceFile, makeDirectories_of_isDirectory h.directory]
  dsimp only
  rw [h.draft, writeFile_same h.located h.content]
  rfl

/-- A file stands as long as its content stays. -/
theorem keep (h : t.Stands p l text) (hkeep : t.Keeps t')
    (hcontent : t'.file? l = some (.text text)) : t'.Stands p l text where
  located := hkeep.locate h.located
  content := hcontent
  directory := hkeep.isDirectory h.directory
  draft := by
    rw [hkeep.draftPath]
    exact h.draft

theorem isFile (h : t.Stands p l text) : t.isFile p = true :=
  isFile_iff.mpr ⟨l, _, h.located, h.content⟩

theorem readText (h : t.Stands p l text) : t.readText p = .ok text := by
  rw [FileTree.readText, h.located, ok_bind, file?_eq_some.mp h.content]
  rfl

end Stands

/-- A text took the place of a file: directories above it may be new, and everything else is as it
    was. -/
structure Puts (t t' : FileTree) (p : Path) (l : Location) (text : String) : Prop where
  stands : t'.Stands p l text
  process : t'.process = t.process
  entries : ∀ k, k ≠ l → t'.get? k = t.get? k ∨ t.NewDirectory t' p.directory.ancestors k

theorem puts_of_replaceFile {p : Path} {text : String}
    (h : t.replaceFile p text = (t', .ok ())) :
    (∃ l, t.Puts t' p l text) ∧ t.Keeps t' := by
  rw [FileTree.replaceFile] at h
  have hmade := addsOnly_makeDirectories t p.directory
  split at h
  next => cases h
  next made heq =>
    rw [heq] at hmade
    dsimp only at hmade
    split at h
    next => cases h
    next hdraft =>
      split at h
      next hwrite =>
        cases h
        obtain ⟨l, hlocate, hdir, hkeep, hfiles⟩ := writeFile_eq_ok hwrite
        obtain ⟨m, name, -, -, hparent, hm⟩ := locate_directory hlocate hdir
        obtain ⟨l', hlocate', hl, -, hprocess, hentries⟩ := entries_of_writeFile hwrite
        cases hlocate.symm.trans hlocate'
        have hget := get?_of_insert hl hentries
        refine ⟨⟨l, ⟨hkeep.locate hlocate, ?_, ?_, ?_⟩, hprocess.trans hmade.process, ?_⟩,
          hmade.keeps.trans hkeep⟩
        · rw [hfiles, if_pos rfl]
        · exact hkeep.isDirectory (isDirectory_iff.mpr ⟨m, hparent, hm⟩)
        · rw [hkeep.draftPath]
          exact Bool.eq_false_iff.mpr hdraft
        · intro k hk
          have hsame : t'.get? k = made.get? k := by rw [hget, if_neg hk]
          rcases hmade.entries k with hold | hnew
          · exact .inl (hsame.trans hold)
          · exact .inr (hnew.keep hsame hkeep)
      next => cases h

namespace Puts

variable {p : Path} {l : Location} {text : String}

theorem file? (h : t.Puts t' p l text) {k : Location} (hk : k ≠ l) : t'.file? k = t.file? k := by
  unfold FileTree.file?
  rcases h.entries k hk with hsame | hnew
  · rw [hsame]
  · rw [hnew.present, hnew.absent]

end Puts

/-- Replacing a file changes this file only, and then it stands. -/
theorem stands_of_replaceFile {p : Path} {text : String}
    (h : t.replaceFile p text = (t', .ok ())) :
    ∃ l, t'.Stands p l text ∧ t.Keeps t' ∧ ∀ k, k ≠ l → t'.file? k = t.file? k := by
  obtain ⟨⟨l, hputs⟩, hkeep⟩ := puts_of_replaceFile h
  exact ⟨l, hputs.stands, hkeep, fun k hk => hputs.file? hk⟩

/-- The text stands where the path leads to, where there was no directory before, and nothing else
    differs but directories on the way of the path that were not there. -/
structure Places (t t' : FileTree) (p : Path) (text : String) (l : Location) : Prop where
  located : t'.locate p = .ok l
  content : t'.get? l = some (.file (.text text))
  vacant : t.get? l ≠ some .directory
  others : ∀ k, k ≠ l → t'.get? k = t.get? k ∨ t.NewDirectory t' p.directory.ancestors k

/-- Where a file stands in the end there was no directory before. -/
theorem Keeps.vacant {l : Location} {content : Content} (h : t.Keeps t')
    (hfile : t'.get? l = some (.file content)) : t.get? l ≠ some .directory := by
  intro hdir
  cases hfile.symm.trans (h.directory l hdir)

theorem places_of_replaceFile {p : Path} {text : String}
    (h : t.replaceFile p text = (t', .ok ())) : ∃ l, t.Places t' p text l := by
  obtain ⟨⟨l, hputs⟩, hkeep⟩ := puts_of_replaceFile h
  have hfile := file?_eq_some.mp hputs.stands.content
  exact ⟨l, hputs.stands.located, hfile, hkeep.vacant hfile, hputs.entries⟩

/-- A text that could not be put in its place leaves no more behind than directories above it. -/
theorem addsOnly_of_replaceFile {p : Path} {text : String} {fault : Fault}
    (h : t.replaceFile p text = (t', .error fault)) : t.AddsOnly t' p.directory.ancestors := by
  rw [replaceFile] at h
  have hmade := addsOnly_makeDirectories t p.directory
  split at h
  next heq =>
    rw [heq] at hmade
    cases h
    exact hmade
  next heq =>
    rw [heq] at hmade
    split at h
    next =>
      cases h
      exact hmade
    next =>
      split at h
      next => cases h
      next =>
        cases h
        exact hmade

/-- A file that is there can be replaced, unless its path is too long for a draft; this changes
    nothing else. -/
theorem replaceFile_of_file {p : Path} {l : Location} {old : Content} (hp : t.locate p = .ok l)
    (h : t.file? l = some old) (hdraft : isLongPath (t.draftPath p) = false) (text : String) :
    ∃ t', t.replaceFile p text = (t', .ok ()) ∧ t'.process = t.process ∧
      t'.entries = t.entries.insert l (.file (.text text)) := by
  obtain ⟨m, name, -, -, hparent, hm⟩ := locate_directory hp (not_directory_of_file? h)
  obtain ⟨t', hwrite, hprocess, hentries⟩ := writeFile_of_file hp h (.text text)
  refine ⟨t', ?_, hprocess, hentries⟩
  rw [replaceFile, makeDirectories_of_isDirectory (isDirectory_iff.mpr ⟨m, hparent, hm⟩)]
  dsimp only
  rw [hdraft, hwrite]
  rfl

/-- Replacing a file that is there changes its entry only. -/
theorem entries_of_replaceFile {p : Path} {l : Location} {old : Content} {text : String}
    (hp : t.locate p = .ok l) (h : t.file? l = some old)
    (hreplace : t.replaceFile p text = (t', .ok ())) :
    t'.process = t.process ∧ t'.entries = t.entries.insert l (.file (.text text)) := by
  obtain ⟨⟨_, hputs⟩, hkeep⟩ := puts_of_replaceFile hreplace
  have hdraft : isLongPath (t.draftPath p) = false := hkeep.draftPath p ▸ hputs.stands.draft
  obtain ⟨t'', hsame, hprocess, hentries⟩ := replaceFile_of_file hp h hdraft text
  cases hsame.symm.trans hreplace
  exact ⟨hprocess, hentries⟩

-- ── Flushing directories ─────────────────────────────────────────────────────

theorem flushDirectory_eq_ok {p : Path} :
    t.flushDirectory p = .ok () ↔
      ∃ l, t.locate p = .ok l ∧ t.get? l = some .directory ∧ l ∉ t.process.unopened := by
  rw [flushDirectory, openDirectory]
  cases t.locate p with
  | error fault =>
      constructor
      · intro h
        cases h
      · rintro ⟨_, h, _⟩
        cases h
  | ok l =>
      rw [ok_bind]
      constructor
      · intro h
        refine ⟨l, rfl, ?_⟩
        split at h
        next => cases h
        next => cases h
        next hl =>
          split at h
          next => cases h
          next hopened => exact ⟨hl, hopened⟩
      · rintro ⟨_, heq, hl, hopened⟩
        cases heq
        rw [hl]
        dsimp only
        rw [if_neg hopened]
        rfl

/-- A directory that could be flushed can be flushed again, whatever was changed since. -/
theorem Keeps.flushDirectory (h : t.Keeps t') {p : Path} (hp : t.flushDirectory p = .ok ()) :
    t'.flushDirectory p = .ok () := by
  obtain ⟨l, hlocate, hl, hopened⟩ := flushDirectory_eq_ok.mp hp
  refine flushDirectory_eq_ok.mpr ⟨l, h.locate hlocate, h.directory l hl, ?_⟩
  rwa [h.process]

/-- A directory that was there already could be flushed before if it can be flushed now. -/
theorem Keeps.flushDirectory_before (h : t.Keeps t') {p : Path} (hdir : t.isDirectory p = true)
    (hp : t'.flushDirectory p = .ok ()) : t.flushDirectory p = .ok () := by
  obtain ⟨l, hlocate, hl⟩ := isDirectory_iff.mp hdir
  obtain ⟨k, hlocate', -, hopened⟩ := flushDirectory_eq_ok.mp hp
  cases (h.locate hlocate).symm.trans hlocate'
  rw [h.process] at hopened
  exact flushDirectory_eq_ok.mpr ⟨l, hlocate, hl, hopened⟩

-- ── Removing files ───────────────────────────────────────────────────────────

theorem keeps_dropFile {l : Location} {content : Content} (h : t.get? l = some (.file content)) :
    t.Keeps (t.dropFile l) := by
  refine ⟨?_, ?_⟩
  · rw [dropFile]
    split <;> rfl
  · intro k hk
    rw [get?_dropFile h, if_neg]
    · exact hk
    · rintro rfl
      rw [h] at hk
      cases hk

theorem file?_dropFile {l : Location} {content : Content} (h : t.get? l = some (.file content))
    (k : Location) : (t.dropFile l).file? k = if k = l then none else t.file? k := by
  unfold file?
  rw [get?_dropFile h]
  by_cases hk : k = l
  · rw [if_pos hk, if_pos hk]
  · rw [if_neg hk, if_neg hk]

/-- Removing what is no file is no failure, and does nothing. -/
theorem run_remove_of_not_isFile {p : Path} (h : t.isFile p ≠ true) :
    Operation.run t (.remove p) = (t, .ok ()) := by
  cases hremove : t.removeFile p with
  | error fault =>
      rw [Operation.run, Operation.perform, hremove]
      rfl
  | ok =>
      rw [removeFile] at hremove
      obtain ⟨l, hl, heq⟩ := bind_eq_ok.mp hremove
      split at heq
      next => cases heq
      next => cases heq
      next content hfile =>
        exact absurd (isFile_iff.mpr ⟨l, content, hl, file?_eq_some.mpr hfile⟩) h

theorem run_remove_of_file {p : Path} {l : Location} {content : Content}
    (hp : t.locate p = .ok l) (h : t.file? l = some content) :
    Operation.run t (.remove p) = (t.dropFile l, .ok ()) := by
  rw [Operation.run, Operation.perform, removeFile, hp, ok_bind, file?_eq_some.mp h]
  rfl

/-- An operation that removes a file leaves no file where the path leads to, and changes no other
    file. -/
theorem run_remove (t : FileTree) (p : Path) :
    t.Keeps (Operation.run t (.remove p)).1 ∧
      (∀ k, t.locate p = .ok k → (Operation.run t (.remove p)).1.file? k = none) ∧
      ∀ k, t.locate p ≠ .ok k → (Operation.run t (.remove p)).1.file? k = t.file? k := by
  by_cases hfile : t.isFile p = true
  · obtain ⟨l, content, hlocate, hcontent⟩ := isFile_iff.mp hfile
    have hl := file?_eq_some.mp hcontent
    rw [run_remove_of_file hlocate hcontent]
    refine ⟨keeps_dropFile hl, ?_, ?_⟩
    · intro k hk
      rw [file?_dropFile hl, if_pos (Except.ok.inj (hk.symm.trans hlocate))]
    · intro k hk
      rw [file?_dropFile hl, if_neg]
      rintro rfl
      exact hk hlocate
  · rw [run_remove_of_not_isFile hfile]
    refine ⟨.refl t, ?_, ?_⟩
    · intro k hk
      cases hcontent : t.file? k with
      | none => rfl
      | some content => exact absurd (isFile_iff.mpr ⟨k, content, hk, hcontent⟩) hfile
    · intro k _
      rfl

end FileTree

-- ── Operations ───────────────────────────────────────────────────────────────

namespace Operation

open FileTree

variable {t t' : FileTree} {operation : Operation} {rest : List Operation}

/-- An operation succeeds if its change was made and is on the disk. -/
theorem run_eq_ok :
    run t operation = (t', .ok ()) ↔
      perform t operation = (t', .ok ()) ∧ settle t' operation = .ok () := by
  rw [run]
  rcases perform t operation with ⟨t₁, _ | _⟩
  · constructor
    · intro h
      cases (Prod.mk.inj h).2
    · rintro ⟨h, -⟩
      cases (Prod.mk.inj h).2
  · constructor
    · intro h
      obtain ⟨rfl, hsettle⟩ := Prod.mk.inj h
      exact ⟨rfl, hsettle⟩
    · rintro ⟨h, hsettle⟩
      obtain ⟨rfl, -⟩ := Prod.mk.inj h
      exact Prod.ext rfl hsettle

/-- An operation fails if its change could not be made, or is made but not on the disk. -/
theorem run_eq_error {e : Error} (h : run t operation = (t', .error e)) :
    perform t operation = (t', .error e) ∨
      (perform t operation = (t', .ok ()) ∧ settle t' operation = .error e) := by
  rw [run] at h
  rcases hperform : perform t operation with ⟨t₁, _ | _⟩
  · rw [hperform] at h
    exact .inl h
  · rw [hperform] at h
    obtain ⟨rfl, hsettle⟩ := Prod.mk.inj h
    exact .inr ⟨rfl, hsettle⟩

theorem settle_write_eq_ok {p : Path} {text : String} :
    settle t (.write p text) = .ok () ↔ t.flushDirectory p.directory = .ok () := by
  rw [settle]
  cases t.flushDirectory p.directory with
  | ok => exact ⟨fun _ => rfl, fun _ => rfl⟩
  | error fault => exact ⟨nofun, nofun⟩

theorem perform_write_eq_ok {p : Path} {text : String} :
    perform t (.write p text) = (t', .ok ()) ↔ t.replaceFile p text = (t', .ok ()) := by
  rw [perform]
  cases t.replaceFile p text with
  | mk t₁ r =>
  cases r with
  | ok =>
      constructor
      · intro h
        cases h
        rfl
      · intro h
        cases h
        rfl
  | error fault =>
      constructor
      · intro h
        cases (Prod.mk.inj h).2
      · intro h
        cases (Prod.mk.inj h).2

theorem perform_write_eq_error {p : Path} {text : String} {e : Error}
    (h : perform t (.write p text) = (t', .error e)) :
    e = .writeFailed p ∧ ∃ fault, t.replaceFile p text = (t', .error fault) := by
  rw [perform] at h
  split at h
  next => cases h
  next fault hreplace =>
    cases h
    exact ⟨rfl, fault, hreplace⟩

/-- Removing never fails. -/
theorem perform_remove_ne_error {p : Path} {e : Error} :
    perform t (.remove p) ≠ (t', .error e) := by
  intro h
  rw [perform] at h
  split at h
  next => cases h
  next => cases h

/-- Writing a file succeeds if the file was replaced and its directory flushed. -/
theorem run_write_eq_ok {p : Path} {text : String} :
    run t (.write p text) = (t', .ok ()) ↔
      t.replaceFile p text = (t', .ok ()) ∧ t'.flushDirectory p.directory = .ok () := by
  rw [run_eq_ok, perform_write_eq_ok, settle_write_eq_ok]

/-- Writing a file fails with the file as it was, and directories above it at most, or with the
    file replaced, if its directory cannot be flushed. -/
theorem run_write_eq_error {p : Path} {text : String} {e : Error}
    (h : run t (.write p text) = (t', .error e)) :
    e = .writeFailed p ∧ (t.AddsOnly t' p.directory.ancestors ∨
      (t.replaceFile p text = (t', .ok ()) ∧ t'.flushDirectory p.directory ≠ .ok ())) := by
  rcases run_eq_error h with hperform | ⟨hperform, hsettle⟩
  · obtain ⟨rfl, fault, hreplace⟩ := perform_write_eq_error hperform
    exact ⟨rfl, .inl (addsOnly_of_replaceFile hreplace)⟩
  · rw [settle] at hsettle
    cases hflush : t'.flushDirectory p.directory with
    | ok =>
        rw [hflush] at hsettle
        cases hsettle
    | error fault =>
        rw [hflush] at hsettle
        cases hsettle
        exact ⟨rfl, .inr ⟨perform_write_eq_ok.mp hperform, nofun⟩⟩

theorem run_remove_eq (t : FileTree) (p : Path) : run t (.remove p) = perform t (.remove p) := by
  rw [run, perform]
  cases t.removeFile p with
  | ok => rfl
  | error => rfl

/-- A text that stands is written again without any change. -/
theorem run_write_of_stands {p : Path} {l : Location} {text : String} (h : t.Stands p l text)
    (hflush : t.flushDirectory p.directory = .ok ()) : run t (.write p text) = (t, .ok ()) :=
  run_write_eq_ok.mpr ⟨h.replaceFile, hflush⟩

theorem inOrder_cons_eq_ok {step : FileTree → Operation → FileTree × Except Error Unit} :
    inOrder step t (operation :: rest) = (t', .ok ()) ↔
      ∃ t₁, step t operation = (t₁, .ok ()) ∧ inOrder step t₁ rest = (t', .ok ()) := by
  rw [inOrder]
  rcases step t operation with ⟨t₁, _ | _⟩
  · constructor
    · intro h
      cases (Prod.mk.inj h).2
    · rintro ⟨t₂, h, -⟩
      cases (Prod.mk.inj h).2
  · constructor
    · intro h
      exact ⟨t₁, rfl, h⟩
    · rintro ⟨t₂, h, hrest⟩
      cases h
      exact hrest

/-- Makes the changes of operations in order, up to the first one that cannot be made, and whether
    or not they are on the disk. -/
def performAll : FileTree → List Operation → FileTree × Except Error Unit := inOrder perform

/-- Where all operations succeed, all changes were made. -/
theorem performAll_of_runAll {operations : List Operation}
    (h : runAll t operations = (t', .ok ())) : performAll t operations = (t', .ok ()) := by
  induction operations generalizing t with
  | nil => exact h
  | cons operation rest ih =>
      obtain ⟨t₁, hrun, hrest⟩ := inOrder_cons_eq_ok.mp h
      exact inOrder_cons_eq_ok.mpr ⟨t₁, (run_eq_ok.mp hrun).1, ih hrest⟩

end Operation

end ShaderTemplates
