import ShaderTemplates.FileTree.Draft
import ShaderTemplates.Proofs.FileChanges

/-!
# Replacing a file by means of a draft

However the operations on drafts fail, a draft leaves no trace: the tree is as it was when the draft
was made, or the text stands where the path leads to (`DraftStore.replaceFile_cases`).  So the only
other change that writing a file can make is that directories on the way of its path are new
(`write_updates_one_file`).

Writing can fail with the file replaced, when its directory cannot be flushed, and a directory on
the way of the path need not be above the file (`write_not_all_or_nothing`).

In `replaceFile` no draft is seen. It does the same as the steps with a draft do when they succeed
(`DraftStore.replaceFile_of_ok`).
-/

namespace ShaderTemplates

open FileTree

variable {t t' t'' : FileTree}

namespace FileTree.Sets

variable {l : Location} {e : Option Entry}

theorem get?_self (h : t.Sets t' l e) : t'.get? l = e := by rw [h.entries, if_pos rfl]

theorem trans {e' : Option Entry} (h : t.Sets t' l e) (h' : t'.Sets t'' l e') :
    t.Sets t'' l e' := by
  refine ⟨h'.process.trans h.process, fun k => ?_⟩
  rw [h'.entries, h.entries]
  split <;> rfl

end FileTree.Sets

-- ── The steps with a draft ───────────────────────────────────────────────────

/-- A text stands where the path leads to, and every other entry is the same. -/
structure FileTree.Replaced (t t' : FileTree) (p : Path) (l : Location) (text : String) : Prop where
  located : t.locate p = .ok l
  vacant : t.get? l ≠ some .directory
  process : t'.process = t.process
  entries : ∀ k, t'.get? k = if k = l then some (.file (.text text)) else t.get? k

theorem FileTree.Replaced.keeps {p : Path} {l : Location} {text : String}
    (h : t.Replaced t' p l text) : t.Keeps t' := by
  refine ⟨h.process, fun k hk => ?_⟩
  rw [h.entries, if_neg]
  · exact hk
  · rintro rfl
    exact h.vacant hk

namespace DraftStore

variable {d : DraftStore} {p : Path} {text : String}

/-- A draft that is given up leaves the tree in which it was made. -/
theorem get?_giveUp (hd : d.Lawful) {l : Location} {content : Content} (hfresh : t.get? l = none)
    (h : t.Sets t' l (some (.file content))) (fault : Fault) :
    (d.giveUp t' l fault).1.process = t.process ∧
      ∀ k, (d.giveUp t' l fault).1.get? k = t.get? k := by
  have hgone := h.trans (hd.discard h.get?_self)
  refine ⟨hgone.process, fun k => ?_⟩
  show (d.discard t' l).get? k = _
  rw [hgone.entries]
  split
  next hk => rw [hk, hfresh]
  next => rfl

/-- A draft that is filled and renamed puts the text in the place of the file. -/
theorem replaced_of_persist (hd : d.Lawful) {l : Location} (hfresh : t.get? l = none)
    (h : t.Sets t' l (some (.file (.text text)))) (hpersist : d.persist t' l p = (t'', .ok ())) :
    ∃ k, t.Replaced t'' p k text := by
  obtain ⟨k, hlocate, hvacant, hprocess, hentries⟩ := hd.persist_ok h.get?_self hpersist
  -- the draft is no directory, so the path led to the same place before the draft was made
  have hback : t'.Keeps t := by
    refine ⟨h.process.symm, fun j hj => ?_⟩
    rw [h.entries] at hj
    split at hj
    next => cases hj
    next => exact hj
  refine ⟨k, hback.locate hlocate, fun hdir => ?_, hprocess.trans h.process, fun j => ?_⟩
  · rw [h.entries] at hvacant
    split at hvacant
    next hk =>
      rw [hk, hfresh] at hdir
      cases hdir
    next => exact hvacant hdir
  · rw [hentries]
    split
    next => rfl
    next =>
      split
      next hj => rw [hj, hfresh]
      next hj => rw [h.entries, if_neg hj]

/-- Either the text takes the place of the file once the directories are made, and flushing the
    directory is what can still fail, or no entry is changed after that. -/
theorem replaceFile_cases (hd : d.Lawful) (t : FileTree) (p : Path) (text : String) :
    ((d.replaceFile t p text).2 = d.flushDirectory (d.replaceFile t p text).1 p.directory ∧
      (t.makeDirectories p.directory).2 = .ok () ∧
      ∃ l, (t.makeDirectories p.directory).1.Replaced (d.replaceFile t p text).1 p l text) ∨
    ((∃ fault, (d.replaceFile t p text).2 = .error fault) ∧
      (d.replaceFile t p text).1.process = (t.makeDirectories p.directory).1.process ∧
      ∀ k, (d.replaceFile t p text).1.get? k = (t.makeDirectories p.directory).1.get? k) := by
  rw [replaceFile]
  cases hmade : t.makeDirectories p.directory with
  | mk made r =>
  cases r with
  | error fault => exact .inr ⟨⟨fault, rfl⟩, rfl, fun _ => rfl⟩
  | ok =>
  dsimp only
  cases hmake : d.make made p.directory with
  | mk t₁ r =>
  cases r with
  | error fault =>
      cases hd.make_error hmake
      exact .inr ⟨⟨fault, rfl⟩, rfl, fun _ => rfl⟩
  | ok l =>
  obtain ⟨hfresh, content, hset⟩ := hd.make_ok hmake
  have hundone : ∀ {t' content} (fault), made.Sets t' l (some (.file content)) →
      (∃ fault', (d.giveUp t' l fault).2 = .error fault') ∧
        (d.giveUp t' l fault).1.process = made.process ∧
        ∀ k, (d.giveUp t' l fault).1.get? k = made.get? k :=
    fun fault h => ⟨⟨fault, rfl⟩, get?_giveUp hd hfresh h fault⟩
  dsimp only
  cases hfill : d.fill t₁ l text with
  | mk t₂ r =>
  cases r with
  | error fault =>
      obtain ⟨part, hpart⟩ := hd.fill_error hset.get?_self hfill
      exact .inr (hundone fault (hset.trans hpart))
  | ok =>
  have hfilled := hset.trans (hd.fill_ok hset.get?_self hfill)
  dsimp only
  cases d.flush t₂ l with
  | error fault => exact .inr (hundone fault hfilled)
  | ok =>
  dsimp only
  cases hpersist : d.persist t₂ l p with
  | mk t₃ r =>
  cases r with
  | error fault =>
      cases hd.persist_error hpersist
      exact .inr (hundone fault hfilled)
  | ok =>
      exact .inl ⟨rfl, rfl, replaced_of_persist hd hfresh hfilled hpersist⟩

/-- Where the steps with a draft succeed, replacing the file without one leaves the same entries,
    and the directory can be flushed. -/
theorem replaceFile_of_ok (hd : d.Lawful) (h : d.replaceFile t p text = (t', .ok ()))
    (hlong : isLongPath (t.draftPath p) = false) :
    t'.flushDirectory p.directory = .ok () ∧
      ∃ t'', t.replaceFile p text = (t'', .ok ()) ∧ t''.process = t'.process ∧
        ∀ k, t''.get? k = t'.get? k := by
  have hadds := addsOnly_makeDirectories t p.directory
  obtain ⟨hflush, hmade, l, hreplaced⟩ | ⟨⟨fault, hfault⟩, -⟩ := replaceFile_cases hd t p text
  · rw [h] at hflush hreplaced
    obtain ⟨_, hopen⟩ := hd.flushDirectory_ok hflush.symm
    refine ⟨by rw [FileTree.flushDirectory, hopen]; rfl, ?_⟩
    obtain ⟨m, name, -, rfl, -, hm⟩ := locate_directory hreplaced.located hreplaced.vacant
    obtain ⟨t'', hwrite, hprocess, hentries⟩ :=
      writeFile_of_directory hreplaced.located hm hreplaced.vacant (.text text)
    refine ⟨t'', ?_, hprocess.trans hreplaced.process.symm, fun k => ?_⟩
    · rw [FileTree.replaceFile]
      cases hdirs : t.makeDirectories p.directory with
      | mk made r =>
          rw [hdirs] at hmade hwrite hadds
          cases hmade
          dsimp only
          rw [hadds.keeps.draftPath, hlong, hwrite]
          rfl
    · rw [get?_of_insert (by simp) hentries, hreplaced.entries]
  · rw [h] at hfault
    cases hfault

end DraftStore

-- ── One file ─────────────────────────────────────────────────────────────────

/-- Writing a file places the text and flushes the directory of the file, or it fails. Then nothing
    differs but directories on the way of the path that were not there, or the text was placed and
    the directory could not be flushed. -/
structure FileTree.UpdatesOneFile (t : FileTree) (p : Path) (text : String)
    (flush : FileTree → Path → Except Fault Unit) (t' : FileTree) (result : Except Error Unit) :
    Prop where
  done : result = .ok () → (∃ l, t.Places t' p text l) ∧ flush t' p.directory = .ok ()
  failed : result ≠ .ok () → result = .error (.writeFailed p) ∧
    ((∀ k, t'.get? k = t.get? k ∨ t.NewDirectory t' p.directory.ancestors k) ∨
      (∃ l, t.Places t' p text l) ∧ flush t' p.directory ≠ .ok ())

/-- Directories that were made stay new as long as nothing but files changes. -/
theorem FileTree.AddsOnly.entries_of_same {dirs : List Path} {k : Location}
    (h : t.AddsOnly t' dirs) (hkeep : t'.Keeps t'') (hk : t''.get? k = t'.get? k) :
    t''.get? k = t.get? k ∨ t.NewDirectory t'' dirs k :=
  (h.entries k).imp (fun hold => hk.trans hold) fun hnew => hnew.keep hk hkeep

theorem Operation.updatesOneFile_run (t : FileTree) (p : Path) (text : String) :
    t.UpdatesOneFile p text FileTree.flushDirectory (run t (.write p text)).1
      (run t (.write p text)).2 := by
  cases hrun : run t (.write p text) with
  | mk t' r =>
  cases r with
  | ok =>
      obtain ⟨hreplace, hflush⟩ := run_write_eq_ok.mp hrun
      exact ⟨fun _ => ⟨places_of_replaceFile hreplace, hflush⟩, fun hne => absurd rfl hne⟩
  | error e =>
      obtain ⟨rfl, hfailed⟩ := run_write_eq_error hrun
      refine ⟨nofun, fun _ => ⟨rfl, ?_⟩⟩
      exact hfailed.imp AddsOnly.entries fun h => ⟨places_of_replaceFile h.1, h.2⟩

theorem DraftStore.updatesOneFile_write {d : DraftStore} (hd : d.Lawful) (t : FileTree) (p : Path)
    (text : String) :
    t.UpdatesOneFile p text d.flushDirectory (d.write t p text).1 (d.write t p text).2 := by
  have hadds := addsOnly_makeDirectories t p.directory
  have hcases := replaceFile_cases hd t p text
  rw [write]
  cases hreplace : d.replaceFile t p text with
  | mk t' r =>
  rw [hreplace] at hcases
  obtain ⟨hflush, -, l, hreplaced⟩ | ⟨⟨fault, hr⟩, hprocess, hentries⟩ := hcases
  · have hfile : t'.get? l = some (.file (.text text)) := by rw [hreplaced.entries, if_pos rfl]
    have hplaces : t.Places t' p text l := by
      refine ⟨hreplaced.keeps.locate hreplaced.located, hfile,
        (hadds.keeps.trans hreplaced.keeps).vacant hfile, fun k hk => ?_⟩
      exact hadds.entries_of_same hreplaced.keeps (by rw [hreplaced.entries, if_neg hk])
    cases r with
    | ok => exact ⟨fun _ => ⟨⟨l, hplaces⟩, hflush.symm⟩, fun hne => absurd rfl hne⟩
    | error fault =>
        refine ⟨nofun, fun _ => ⟨rfl, .inr ⟨⟨l, hplaces⟩, ?_⟩⟩⟩
        rw [← hflush]
        exact nofun
  · cases hr
    have hkeep : (t.makeDirectories p.directory).1.Keeps t' :=
      ⟨hprocess, fun k hk => (hentries k).trans hk⟩
    exact ⟨nofun, fun _ => ⟨rfl, .inl fun k => hadds.entries_of_same hkeep (hentries k)⟩⟩

/-- Writing a file changes that file and nothing else, or it fails and changes no file, unless it
    was the directory of the file that could not be flushed; either way it may make directories on
    the way of the path. It does so whatever becomes of the draft that the text is written to first,
    and no draft is left. -/
theorem write_updates_one_file {d : DraftStore} (hd : d.Lawful) (t : FileTree) (p : Path)
    (text : String) :
    t.UpdatesOneFile p text FileTree.flushDirectory (Operation.run t (.write p text)).1
        (Operation.run t (.write p text)).2 ∧
      t.UpdatesOneFile p text d.flushDirectory (d.write t p text).1 (d.write t p text).2 ∧
      ((d.write t p text).2 = .ok () → isLongPath (t.draftPath p) = false →
        (Operation.run t (.write p text)).2 = .ok () ∧
          ∀ k, (Operation.run t (.write p text)).1.get? k = (d.write t p text).1.get? k) := by
  refine ⟨Operation.updatesOneFile_run t p text, d.updatesOneFile_write hd t p text,
    fun hdone hlong => ?_⟩
  rw [DraftStore.write] at hdone ⊢
  cases hreplace : d.replaceFile t p text with
  | mk t' r =>
  rw [hreplace] at hdone
  cases r with
  | error fault => cases hdone
  | ok =>
      obtain ⟨hflush, t'', hplain, hprocess, hsame⟩ :=
        DraftStore.replaceFile_of_ok hd hreplace hlong
      have hkeep : t'.Keeps t'' := ⟨hprocess, fun k hk => (hsame k).trans hk⟩
      rw [Operation.run_write_eq_ok.mpr ⟨hplain, hkeep.flushDirectory hflush⟩]
      exact ⟨rfl, hsame⟩

/-- A file that is written can have a new text although writing it failed, and a directory that was
    made for it need not be above it. -/
theorem write_not_all_or_nothing :
    (¬ ∀ (t : FileTree) (p : Path) (text : String), (Operation.run t (.write p text)).2 ≠ .ok () →
      ∀ k, t.get? k ≠ none → (Operation.run t (.write p text)).1.get? k = t.get? k) ∧
    ¬ ∀ (t : FileTree) (p : Path) (text : String) (l : Location),
      (Operation.run t (.write p text)).2 = .ok () →
      (Operation.run t (.write p text)).1.locate p = .ok l →
      ∀ k, k ≠ l → (Operation.run t (.write p text)).1.get? k = t.get? k ∨ k <+: l := by
  constructor
  · intro h
    have hsame := h (((∅ : FileTree).replaceFile ⟨"A", []⟩ "x").1.withUnopened []) ⟨"A", []⟩ "y"
      (by decide +kernel) ["A"] (by decide +kernel)
    revert hsame
    decide +kernel
  · intro h
    have hmade := h ∅ ⟨"missing", ["..", "A"]⟩ "x" ["A"] (by decide +kernel) (by decide +kernel)
      ["missing"] (by decide)
    revert hmade
    decide +kernel

-- ── Drafts with a fixed name ─────────────────────────────────────────────────

theorem FileTree.sets_of_putFile? {l : Location} {name : String} {content : Content}
    (h : t.putFile? l name content = some t') : t.Sets t' (l ++ [name]) (some (.file content)) := by
  refine ⟨?_, get?_putFile? h⟩
  rw [putFile?] at h
  split at h
  next =>
    cases h
    rfl
  next => cases h

namespace DraftStore

/-- Gives the file at a location a content. -/
def put (t : FileTree) (l : Location) (content : Content) : Attempt :=
  match l.getLast? with
  | none => (t, .error .isDirectory)
  | some name =>
    match t.putFile? l.dropLast name content with
    | some t' => (t', .ok ())
    | none => (t, .error .missing)

theorem put_cases (t : FileTree) (l : Location) (content : Content) :
    (∃ t', put t l content = (t', .ok ()) ∧ t.Sets t' l (some (.file content))) ∨
      ∃ fault, put t l content = (t, .error fault) := by
  rcases List.eq_nil_or_concat l with rfl | ⟨m, name, rfl⟩
  · exact .inr ⟨.isDirectory, rfl⟩
  · rw [List.concat_eq_append, put, List.getLast?_concat, List.dropLast_concat]
    dsimp only
    cases hput : t.putFile? m name content with
    | none => exact .inr ⟨.missing, rfl⟩
    | some t' => exact .inl ⟨t', rfl, sets_of_putFile? hput⟩

/-- Drafts that all have one name. None can be made where something has this name. -/
def fixed (name : String) : DraftStore where
  make t dir :=
    match t.locate (dir.child name) with
    | .error fault => (t, .error fault)
    | .ok l =>
      if t.get? l = none then
        match put t l (.text "") with
        | (t, .ok ()) => (t, .ok l)
        | (t, .error fault) => (t, .error fault)
      else (t, .error .exists)
  fill t l text := put t l (.text text)
  flush _ _ := .ok ()
  persist t l p :=
    match t.locate p, t.file? l with
    | .error fault, _ => (t, .error fault)
    | .ok _, none => (t, .error .missing)
    | .ok k, some content =>
      if t.get? k = some .directory then (t, .error .isDirectory)
      else
        match put (t.dropFile l) k content with
        | (t', .ok ()) => (t', .ok ())
        | (_, .error fault) => (t, .error fault)
  discard t l := t.dropFile l
  flushDirectory := FileTree.flushDirectory

theorem lawful_fixed (name : String) : (fixed name).Lawful where
  make_ok {t t' dir l} h := by
    simp only [fixed] at h
    split at h
    next => cases h
    next k hk =>
      split at h
      next hnone =>
        obtain ⟨t₁, hput, hset⟩ | ⟨fault, hput⟩ := put_cases t k (.text "")
        · rw [hput] at h
          cases h
          exact ⟨hnone, _, hset⟩
        · rw [hput] at h
          cases h
      next => cases h
  make_error {t t' dir fault} h := by
    simp only [fixed] at h
    split at h
    next => cases h; rfl
    next k hk =>
      split at h
      next hnone =>
        obtain ⟨t₁, hput, hset⟩ | ⟨fault, hput⟩ := put_cases t k (.text "")
        · rw [hput] at h
          cases h
        · rw [hput] at h
          cases h
          rfl
      next => cases h; rfl
  fill_ok {t t' l content text} _ h := by
    obtain ⟨t₁, hput, hset⟩ | ⟨fault, hput⟩ := put_cases t l (.text text)
    · cases hput.symm.trans h
      exact hset
    · cases hput.symm.trans h
  fill_error {t t' l content text fault} hfile h := by
    obtain ⟨t₁, hput, hset⟩ | ⟨fault, hput⟩ := put_cases t l (.text text)
    · cases hput.symm.trans h
    · cases hput.symm.trans h
      refine ⟨content, rfl, fun k => ?_⟩
      split
      next hk => rw [hk, hfile]
      next => rfl
  persist_ok {t t' l content p} hfile h := by
    simp only [fixed, file?_eq_some.mpr hfile] at h
    split at h
    next => cases h
    next heq => cases heq
    next k _ hk heq =>
      cases heq
      split at h
      next => cases h
      next hvacant =>
        obtain ⟨t₁, hput, hset⟩ | ⟨fault, hput⟩ := put_cases (t.dropFile l) k content
        · rw [hput] at h
          cases h
          refine ⟨k, hk, hvacant, hset.process.trans (keeps_dropFile hfile).process, fun j => ?_⟩
          rw [hset.entries, get?_dropFile hfile]
        · rw [hput] at h
          cases h
  persist_error {t t' l p fault} h := by
    simp only [fixed] at h
    split at h
    next => cases h; rfl
    next => cases h; rfl
    next k content hk _ =>
      split at h
      next => cases h; rfl
      next =>
        split at h
        next => cases h
        next => cases h; rfl
  discard {t l content} hfile := ⟨(keeps_dropFile hfile).process, get?_dropFile hfile⟩
  flushDirectory_ok {t dir} h := by
    simp only [fixed, FileTree.flushDirectory] at h
    cases hopen : t.openDirectory dir with
    | ok l => exact ⟨l, rfl⟩
    | error fault =>
        rw [hopen] at h
        cases h

/-- A file in a directory that is not there yet, written by way of a draft. -/
def sampleWrite : FileTree × Except Error Unit :=
  (fixed ".tmp000000").write ∅ ⟨"out", ["A.shader"]⟩ "x"

/-- The directory of a file is made with it and no draft stays behind; a file that would take the
    place of the directory is not written, and its draft is removed as well. If the directory cannot
    be opened, the file has the new text and writing it has failed. -/
theorem write_updates_one_file_sample :
    (fixed ".tmp000000").Lawful ∧
      FileTree.UpdatesOneFile ∅ ⟨"out", ["A.shader"]⟩ "x" (fixed ".tmp000000").flushDirectory
        sampleWrite.1 sampleWrite.2 ∧
      sampleWrite.2 = .ok () ∧
      sampleWrite.1.get? ["out", "A.shader"] = some (.file (.text "x")) ∧
      sampleWrite.1.get? ["out", ".tmp000000"] = none ∧
      ((fixed ".tmp000000").write sampleWrite.1 ⟨"out", []⟩ "y").2 =
        .error (.writeFailed ⟨"out", []⟩) ∧
      ((fixed ".tmp000000").write sampleWrite.1 ⟨"out", []⟩ "y").1.get? [".tmp000000"] = none ∧
      ((fixed ".tmp000000").write (sampleWrite.1.withUnopened ["out"]) ⟨"out", ["A.shader"]⟩
        "y").2 = .error (.writeFailed ⟨"out", ["A.shader"]⟩) ∧
      ((fixed ".tmp000000").write (sampleWrite.1.withUnopened ["out"]) ⟨"out", ["A.shader"]⟩
        "y").1.get? ["out", "A.shader"] = some (.file (.text "y")) :=
  ⟨lawful_fixed _, (write_updates_one_file (lawful_fixed _) ∅ ⟨"out", ["A.shader"]⟩ "x").2.1,
    by decide +kernel, by decide +kernel, by decide +kernel, by decide +kernel, by decide +kernel,
    by decide +kernel, by decide +kernel⟩

end DraftStore

end ShaderTemplates
