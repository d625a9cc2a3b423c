import ShaderTemplates.Proofs.GrownDirectories

/-!
# The same changes in two trees

Two trees are alike for some places if both have the same there and the same files above
(`Alike`).  What an export does to files depends on nothing else: in two trees that are alike, an
operation on one of the places gives the same result and changes both trees in the same way
(`SameRun`).  Two changes for places that are apart can be made in either order
(`SameChange.commute`).
-/

namespace ShaderTemplates

open FileTree Operation

namespace FileTree

open ShaderTemplates.Path

variable {t t' u u' v v' : FileTree} {places others : List Location}

-- ── Trees that are alike ─────────────────────────────────────────────────────

/-- Both trees have the same at the places, and there are the same files above them. -/
structure Alike (t t' : FileTree) (places : List Location) : Prop where
  process : t'.process = t.process
  entries : ∀ l ∈ places, t'.get? l = t.get? l
  above : ∀ l ∈ places, ∀ k, k <+: l → t'.file? k = t.file? k

theorem Alike.refl (t : FileTree) (places : List Location) : t.Alike t places :=
  ⟨rfl, fun _ _ => rfl, fun _ _ _ _ => rfl⟩

theorem Alike.file? (h : t.Alike t' places) {l : Location} (hl : l ∈ places) :
    t'.file? l = t.file? l := h.above l hl l List.prefix_rfl

theorem Alike.draftPath (h : t.Alike t' places) (p : Path) : t'.draftPath p = t.draftPath p := by
  rw [FileTree.draftPath, FileTree.draftPath, workingDirectory, workingDirectory, h.process]

/-- No place is one of the others, or above or below one. -/
def Apart (places others : List Location) : Prop :=
  ∀ l ∈ places, ∀ k ∈ others, ¬ l <+: k ∧ ¬ k <+: l

instance (places others : List Location) : Decidable (Apart places others) :=
  inferInstanceAs (Decidable (∀ l ∈ places, ∀ k ∈ others, ¬ l <+: k ∧ ¬ k <+: l))

theorem Apart.symm (h : Apart places others) : Apart others places :=
  fun l hl k hk => (h k hk l hl).symm

-- ── The same change ──────────────────────────────────────────────────────────

theorem get?_congr {k : Location} (h : u.entries.get? k = t.entries.get? k) :
    u.get? k = t.get? k := by
  rw [get?, get?, h]

theorem file?_congr {k : Location} (h : u.entries.get? k = t.entries.get? k) :
    u.file? k = t.file? k := by
  rw [file?, file?, get?_congr h]

theorem file?_of_directory {k : Location} (h : u.get? k = some .directory) : u.file? k = none := by
  rw [file?, h]

/-- What two changes do at a location: nothing, or the same at one of the places, or they see to it
    that there is a directory above one. -/
inductive SameAt (t u t' u' : FileTree) (places : List Location) (k : Location) : Prop where
  | kept (h : u.entries.get? k = t.entries.get? k) (h' : u'.entries.get? k = t'.entries.get? k)
  | placed (hk : k ∈ places) (h : u'.entries.get? k = u.entries.get? k)
  | opened (l : Location) (hl : l ∈ places) (hk : k <+: l)
      (h : u.entries.get? k = some .directory) (h' : u'.entries.get? k = some .directory)
      (hfree : t.file? k = none) (hfree' : t'.file? k = none)

/-- One tree changed in the same way as the other did. -/
structure SameChange (t u t' u' : FileTree) (places : List Location) : Prop where
  keeps : t.Keeps u
  keeps' : t'.Keeps u'
  entries : ∀ k, t.SameAt u t' u' places k

theorem directory_of_entries {k : Location} (h : u.entries.get? k = some .directory) :
    u.get? k = some .directory := by
  rw [get?]
  split
  next => rfl
  next => exact h

namespace SameChange

theorem refl (t t' : FileTree) (places : List Location) : t.SameChange t t' t' places :=
  ⟨.refl t, .refl t', fun _ => .kept rfl rfl⟩

theorem trans (h : t.SameChange u t' u' places) (hnext : u.SameChange v u' v' places) :
    t.SameChange v t' v' places := by
  refine ⟨h.keeps.trans hnext.keeps, h.keeps'.trans hnext.keeps', ?_⟩
  intro k
  cases hnext.entries k with
  | kept hk hk' =>
      cases h.entries k with
      | kept hold hold' => exact .kept (hk.trans hold) (hk'.trans hold')
      | placed hmem hsame => exact .placed hmem (hk'.trans (hsame.trans hk.symm))
      | opened l hl hbelow hdir hdir' hfree hfree' =>
          exact .opened l hl hbelow (hk.trans hdir) (hk'.trans hdir') hfree hfree'
  | placed hmem hsame => exact .placed hmem hsame
  | opened l hl hbelow hdir hdir' hfree hfree' =>
      cases h.entries k with
      | kept hold hold' =>
          rw [file?_congr hold] at hfree
          rw [file?_congr hold'] at hfree'
          exact .opened l hl hbelow hdir hdir' hfree hfree'
      | placed hmem hsame => exact .placed hmem (hdir'.trans hdir.symm)
      | opened _ _ _ _ _ hfirst hfirst' => exact .opened l hl hbelow hdir hdir' hfirst hfirst'

/-- Trees that are alike are alike after the same change. -/
theorem alike (h : t.SameChange u t' u' places) (halike : t.Alike t' places) :
    u.Alike u' places := by
  refine ⟨?_, ?_, ?_⟩
  · rw [h.keeps.process, h.keeps'.process, halike.process]
  · intro l hl
    cases h.entries l with
    | kept hold hold' => rw [get?_congr hold, get?_congr hold', halike.entries l hl]
    | placed _ hsame => exact get?_congr hsame
    | opened _ _ _ hdir hdir' => exact get?_congr (hdir'.trans hdir.symm)
  · intro l hl k hk
    cases h.entries k with
    | kept hold hold' => rw [file?_congr hold, file?_congr hold', halike.above l hl k hk]
    | placed _ hsame => exact file?_congr hsame
    | opened _ _ _ hdir hdir' => exact file?_congr (hdir'.trans hdir.symm)

/-- A change for some places leaves a tree alike for others that are apart. -/
theorem alike_of_apart (h : t.SameChange u t' u' places) (hapart : Apart places others) :
    t.Alike u others := by
  refine ⟨h.keeps.process, ?_, ?_⟩
  · intro l hl
    cases h.entries l with
    | kept hold => exact get?_congr hold
    | placed hmem => exact absurd List.prefix_rfl (hapart l hmem l hl).1
    | opened k hk hlk => exact absurd hlk (hapart k hk l hl).2
  · intro l hl k hk
    cases h.entries k with
    | kept hold => exact file?_congr hold
    | placed hmem => exact absurd hk (hapart k hmem l hl).1
    | opened _ _ _ hdir _ hfree => rw [hfree, file?_of_directory (directory_of_entries hdir)]

/-- What is not a place or above one stays as it is. -/
theorem entries_of_apart (h : t.SameChange u t' u' places) {k : Location}
    (hk : ∀ l ∈ places, ¬ k <+: l) : u.entries.get? k = t.entries.get? k := by
  cases h.entries k with
  | kept hold => exact hold
  | placed hmem => exact absurd List.prefix_rfl (hk k hmem)
  | opened l hl hkl => exact absurd hkl (hk l hl)

/-- Of two changes for places that are apart, either can be made first. -/
theorem commute (h : t.SameChange u v v' places) (h' : t.SameChange v u u' others)
    (hapart : Apart places others) : u' = v' := by
  refine eq_of_entries ?_ (SortedMap.ext_get? fun k => ?_)
  · rw [h'.keeps'.process, h.keeps'.process, h.keeps.process, h'.keeps.process]
  cases h.entries k with
  | kept hu hv =>
      cases h'.entries k with
      | kept hv' hu' => rw [hu', hu, hv, hv']
      | placed _ hsame => rw [hsame, hv]
      | opened _ _ _ hdir hdir' => rw [hdir', hv, hdir]
  | placed hmem hsame =>
      cases h'.entries k with
      | kept _ hu' => rw [hu', hsame]
      | placed hmem' => exact absurd List.prefix_rfl (hapart k hmem k hmem').1
      | opened l hl hkl => exact absurd hkl (hapart k hmem l hl).1
  | opened l hl hkl hdir hdir' =>
      cases h'.entries k with
      | kept _ hu' => rw [hu', hdir, hdir']
      | placed hmem' => exact absurd hkl (hapart l hl k hmem').2
      | opened _ _ _ _ hopened => rw [hopened, hdir']

end SameChange

-- ── Single changes ───────────────────────────────────────────────────────────

theorem sameChange_of_opens {l k : Location} (h : t.Opens u k) (h' : t'.Opens u' k)
    (hl : l ∈ places) (hk : k <+: l) (hne : k ≠ []) : t.SameChange u t' u' places := by
  have hentry : ∀ {w : FileTree}, w.get? k = some .directory →
      w.entries.get? k = some .directory := by
    intro w hw
    rwa [get?, if_neg hne] at hw
  refine ⟨h.keeps, h'.keeps, ?_⟩
  intro j
  by_cases hj : j = k
  · subst hj
    exact .opened l hl hk (hentry h.directory) (hentry h'.directory) h.free h'.free
  · exact .kept (h.entries j hj) (h'.entries j hj)

theorem keeps_of_insert {l : Location} {content : Content} (hprocess : u.process = t.process)
    (hentries : u.entries = t.entries.insert l (.file content))
    (hl : t.get? l ≠ some .directory) : t.Keeps u := by
  refine ⟨hprocess, ?_⟩
  intro k hk
  have hkl : k ≠ l := by
    rintro rfl
    exact hl hk
  rwa [get?, hentries, SortedMap.get?_insert_of_ne _ hkl, ← get?]

theorem sameChange_of_insert {l : Location} {content : Content} (hl : l ∈ places)
    (hprocess : u.process = t.process) (hentries : u.entries = t.entries.insert l (.file content))
    (hprocess' : u'.process = t'.process)
    (hentries' : u'.entries = t'.entries.insert l (.file content))
    (hdir : t.get? l ≠ some .directory) (hdir' : t'.get? l ≠ some .directory) :
    t.SameChange u t' u' places := by
  refine ⟨keeps_of_insert hprocess hentries hdir, keeps_of_insert hprocess' hentries' hdir', ?_⟩
  intro k
  by_cases hk : k = l
  · subst hk
    refine .placed hl ?_
    rw [hentries, hentries', SortedMap.get?_insert_self, SortedMap.get?_insert_self]
  · refine .kept ?_ ?_
    · rw [hentries, SortedMap.get?_insert_of_ne _ hk]
    · rw [hentries', SortedMap.get?_insert_of_ne _ hk]

theorem entries_dropFile {l : Location} {content : Content}
    (h : t.file? l = some content) : (t.dropFile l).entries = t.entries.erase l := by
  have hentry : t.entries.get? l ≠ some .directory := by
    have hfile := file?_eq_some.mp h
    rw [get?, if_neg (ne_root_of_file? h)] at hfile
    rw [hfile]
    rintro ⟨⟩
  rw [dropFile, dif_neg hentry]

theorem sameChange_dropFile {l : Location} {content content' : Content} (hl : l ∈ places)
    (h : t.file? l = some content) (h' : t'.file? l = some content') :
    t.SameChange (t.dropFile l) t' (t'.dropFile l) places := by
  refine ⟨keeps_dropFile (file?_eq_some.mp h), keeps_dropFile (file?_eq_some.mp h'), ?_⟩
  intro k
  by_cases hk : k = l
  · subst hk
    refine .placed hl ?_
    rw [entries_dropFile h, entries_dropFile h', SortedMap.get?_erase_self,
      SortedMap.get?_erase_self]
  · refine .kept ?_ ?_
    · rw [entries_dropFile h, SortedMap.get?_erase_of_ne _ hk]
    · rw [entries_dropFile h', SortedMap.get?_erase_of_ne _ hk]

/-- The way down to a place makes the same directories in trees that are alike, and gets equally
    far. -/
theorem Alike.grow {m l : Location} {names : List String} (halike : t.Alike t' places)
    (hl : l ∈ places) (hbelow : m ++ names <+: l) (hm : t.get? m = some .directory)
    (hm' : t'.get? m = some .directory) :
    (t'.grow m names).2 = (t.grow m names).2 ∧
      t.SameChange (t.grow m names).1 t' (t'.grow m names).1 places := by
  induction names generalizing t t' m with
  | nil => exact ⟨rfl, .refl t t' places⟩
  | cons name rest ih =>
      have hassoc : m ++ name :: rest = m ++ [name] ++ rest := by simp
      rw [hassoc] at hbelow
      have hstep : m ++ [name] <+: l := (List.prefix_append _ rest).trans hbelow
      cases hlong : isLongName name with
      | true =>
          rw [grow_long hlong, grow_long hlong]
          exact ⟨rfl, .refl t t' places⟩
      | false =>
          have hsame := halike.above l hl _ hstep
          cases hfile : t.file? (m ++ [name]) with
          | some content =>
              rw [hfile] at hsame
              rw [grow_file (file?_eq_some.mp hfile), grow_file (file?_eq_some.mp hsame)]
              exact ⟨rfl, .refl t t' places⟩
          | none =>
              obtain ⟨v, hopens, hgrow⟩ := grow_step hm hlong hfile rest
              obtain ⟨v', hopens', hgrow'⟩ := grow_step hm' hlong (hsame.trans hfile) rest
              have hchange : t.SameChange v t' v' places :=
                sameChange_of_opens hopens hopens' hl hstep (by simp)
              obtain ⟨hflag, hrest⟩ :=
                ih (hchange.alike halike) hbelow hopens.directory hopens'.directory
              rw [hgrow, hgrow']
              exact ⟨hflag, hchange.trans hrest⟩

-- ── Writing files ────────────────────────────────────────────────────────────

theorem writeFile_of_name {p : Path} {k : Location} {name : String}
    (hp : t.locate p = .ok (k ++ [name])) (h : t.get? (k ++ [name]) = some .directory)
    (content : Content) : t.writeFile p content = .error .isDirectory := by
  rw [writeFile]
  rw [hp, ok_bind, List.getLast?_concat]
  dsimp only
  rw [if_pos h]

theorem writeFile_of_error {p : Path} {fault : Fault} (hp : t.locate p = .error fault)
    (content : Content) : t.writeFile p content = .error fault := by
  rw [writeFile]
  rw [hp]
  rfl

end FileTree

-- ── Operations ───────────────────────────────────────────────────────────────

namespace Operation

variable {t t' u u' : FileTree} {places : List Location} {p : Path} {text : String}

/-- Writes a file for which the directories were made, and flushes its directory. -/
def put (t : FileTree) (p : Path) (text : String) : FileTree × Except Error Unit :=
  if isLongPath (t.draftPath p) then (t, .error (.writeFailed p))
  else
    match t.writeFile p (.text text) with
    | .ok u => (u, settle u (.write p text))
    | .error _ => (t, .error (.writeFailed p))

theorem put_of_long (h : isLongPath (t.draftPath p) = true) :
    put t p text = (t, .error (.writeFailed p)) := by
  rw [put, if_pos h]

theorem put_of_ok (hdraft : isLongPath (t.draftPath p) = false)
    (h : t.writeFile p (.text text) = .ok u) :
    put t p text = (u, settle u (.write p text)) := by
  rw [put, if_neg (by rw [hdraft]; exact Bool.false_ne_true), h]

theorem put_of_error {fault : Fault} (h : t.writeFile p (.text text) = .error fault) :
    put t p text = (t, .error (.writeFailed p)) := by
  rw [put, h]
  split <;> rfl

theorem run_write_of_unmade {fault : Fault}
    (h : t.makeDirectories p.directory = (u, .error fault)) :
    run t (.write p text) = (u, .error (.writeFailed p)) := by
  rw [run, perform, replaceFile, h]

theorem run_write_of_made (h : t.makeDirectories p.directory = (u, .ok ())) :
    run t (.write p text) = put u p text := by
  rw [run, perform, replaceFile, h]
  dsimp only
  cases hdraft : isLongPath (u.draftPath p) with
  | true =>
      rw [put_of_long hdraft]
      rfl
  | false =>
      cases hwrite : u.writeFile p (.text text) with
      | ok v =>
          rw [put_of_ok hdraft hwrite]
          rfl
      | error fault =>
          rw [put_of_error hwrite]
          rfl

/-- Whether a file that was written is on the disk is the same in trees that are alike, if its path
    leads to one place. -/
theorem settle_congr (text : String) {l : Location} (halike : t.Alike t' places)
    (hp : t.locate p = .ok l) (hp' : t'.locate p = .ok l) (hdir : t.get? l ≠ some .directory)
    (hdir' : t'.get? l ≠ some .directory) (hkeep : t.Keeps u) (hkeep' : t'.Keeps u') :
    settle u' (.write p text) = settle u (.write p text) := by
  obtain ⟨m, name, -, rfl, hm, hdirectory⟩ := locate_directory hp hdir
  obtain ⟨m', name', -, hsplit, hm', hdirectory'⟩ := locate_directory hp' hdir'
  obtain ⟨rfl, -⟩ := List.append_inj' hsplit rfl
  have hprocess : u'.process = u.process :=
    hkeep'.process.trans (halike.process.trans hkeep.process.symm)
  rw [settle, settle, flushDirectory, flushDirectory, openDirectory, openDirectory,
    hkeep.locate hm, hkeep'.locate hm', ok_bind, ok_bind, hkeep.directory m hdirectory,
    hkeep'.directory m hdirectory', hprocess]

/-- The runs have the same result, and they changed both trees in the same way. -/
structure SameRun (t t' : FileTree) (places : List Location)
    (run run' : FileTree × Except Error Unit) : Prop where
  result : run'.2 = run.2
  change : t.SameChange run.1 t' run'.1 places

namespace SameRun

theorem unchanged (result : Except Error Unit) : SameRun t t' places (t, result) (t', result) :=
  ⟨rfl, .refl t t' places⟩

theorem after (h : t.SameChange u t' u' places) {run run' : FileTree × Except Error Unit}
    (hrun : SameRun u u' places run run') : SameRun t t' places run run' :=
  ⟨hrun.result, h.trans hrun.change⟩

/-- Runs of several operations are the same if each operation's are. -/
theorem runAll_cons {operation : Operation} {rest : List Operation}
    (h : SameRun t t' places (run t operation) (run t' operation))
    (hrest : ∀ u u', run t operation = (u, .ok ()) → t.SameChange u t' u' places →
      SameRun u u' places (runAll u rest) (runAll u' rest)) :
    SameRun t t' places (runAll t (operation :: rest)) (runAll t' (operation :: rest)) := by
  obtain ⟨hresult, hchange⟩ := h
  rw [Operation.runAll_cons, Operation.runAll_cons]
  cases hrun : run t operation with
  | mk u result =>
    cases hrun' : run t' operation with
    | mk u' result' =>
      rw [hrun, hrun'] at hresult hchange
      obtain rfl : result' = result := hresult
      cases result' with
      | ok => exact .after hchange (hrest u u' hrun hchange)
      | error e => exact ⟨rfl, hchange⟩

end SameRun

/-- Writing a file that is there is the same in trees that are alike. -/
theorem sameRun_write_file (halike : t.Alike t' places) {l : Location} (hl : l ∈ places)
    {old : Content} (hp : t.locate p = .ok l) (hp' : t'.locate p = .ok l)
    (hfile : t.file? l = some old) :
    SameRun t t' places (run t (.write p text)) (run t' (.write p text)) := by
  have hfile' := (halike.file? hl).trans hfile
  have hdraft : t'.draftPath p = t.draftPath p := halike.draftPath p
  have hmade : ∀ {w : FileTree}, w.locate p = .ok l → w.file? l = some old →
      w.makeDirectories p.directory = (w, .ok ()) := by
    intro w hw hold
    obtain ⟨m, -, -, -, hm, hdir⟩ := locate_directory hw (not_directory_of_file? hold)
    exact makeDirectories_of_isDirectory (isDirectory_iff.mpr ⟨m, hm, hdir⟩)
  rw [run_write_of_made (hmade hp hfile), run_write_of_made (hmade hp' hfile')]
  cases hlong : isLongPath (t.draftPath p) with
  | true =>
      rw [put_of_long hlong, put_of_long (hdraft ▸ hlong)]
      exact .unchanged _
  | false =>
      obtain ⟨u, hwrite, hprocess, hentries⟩ := writeFile_of_file hp hfile (.text text)
      obtain ⟨u', hwrite', hprocess', hentries'⟩ := writeFile_of_file hp' hfile' (.text text)
      rw [put_of_ok hlong hwrite, put_of_ok (hdraft ▸ hlong) hwrite']
      have hdir := not_directory_of_file? hfile
      have hdir' := not_directory_of_file? hfile'
      exact ⟨settle_congr text halike hp hp' hdir hdir' (keeps_of_insert hprocess hentries hdir)
          (keeps_of_insert hprocess' hentries' hdir'),
        sameChange_of_insert hl hprocess hentries hprocess' hentries' hdir hdir'⟩

/-- Removing a file at one of the places is the same in trees that are alike. -/
theorem sameRun_remove (halike : t.Alike t' places) {l : Location} (hl : l ∈ places)
    (hp : t.locate p = .ok l) (hp' : t'.locate p = .ok l) :
    SameRun t t' places (run t (.remove p)) (run t' (.remove p)) := by
  have hsame := halike.file? hl
  cases hfile : t.file? l with
  | some content =>
      rw [hfile] at hsame
      rw [run_remove_of_file hp hfile, run_remove_of_file hp' hsame]
      exact ⟨rfl, sameChange_dropFile hl hfile hsame⟩
  | none =>
      rw [hfile] at hsame
      have hno : ∀ {w : FileTree}, w.locate p = .ok l → w.file? l = none → w.isFile p ≠ true := by
        intro w hw hnone hisFile
        obtain ⟨k, content, hk, hcontent⟩ := isFile_iff.mp hisFile
        cases hw.symm.trans hk
        cases hnone.symm.trans hcontent
      rw [run_remove_of_not_isFile (hno hp hfile), run_remove_of_not_isFile (hno hp' hsame)]
      exact .unchanged _

/-- Writing a file in a directory that is there is the same in trees that are alike. -/
theorem sameRun_put (halike : t.Alike t' places) {k : Location} {name : String}
    (hl : k ++ [name] ∈ places) (hk : t.get? k = some .directory)
    (hk' : t'.get? k = some .directory) (hp' : t'.locate p = t.locate p)
    (hp : ∀ l, t.locate p = .ok l → l = k ++ [name]) :
    SameRun t t' places (put t p text) (put t' p text) := by
  have hdraft : t'.draftPath p = t.draftPath p := halike.draftPath p
  cases hlong : isLongPath (t.draftPath p) with
  | true =>
      rw [put_of_long hlong, put_of_long (hdraft ▸ hlong)]
      exact .unchanged _
  | false =>
      cases hlocate : t.locate p with
      | error fault =>
          rw [hlocate] at hp'
          rw [put_of_error (writeFile_of_error hlocate _), put_of_error (writeFile_of_error hp' _)]
          exact .unchanged _
      | ok l =>
          obtain rfl := hp l hlocate
          rw [hlocate] at hp'
          have hsame := halike.entries _ hl
          by_cases hdir : t.get? (k ++ [name]) = some .directory
          · rw [put_of_error (writeFile_of_name hlocate hdir _),
              put_of_error (writeFile_of_name hp' (hsame.trans hdir) _)]
            exact .unchanged _
          · have hdir' : t'.get? (k ++ [name]) ≠ some .directory := hsame ▸ hdir
            obtain ⟨u, hwrite, hprocess, hentries⟩ :=
              writeFile_of_directory hlocate hk hdir (.text text)
            obtain ⟨u', hwrite', hprocess', hentries'⟩ :=
              writeFile_of_directory hp' hk' hdir' (.text text)
            rw [put_of_ok hlong hwrite, put_of_ok (hdraft ▸ hlong) hwrite']
            exact ⟨settle_congr text halike hlocate hp' hdir hdir'
                (keeps_of_insert hprocess hentries hdir)
                (keeps_of_insert hprocess' hentries' hdir'),
              sameChange_of_insert hl hprocess hentries hprocess' hentries' hdir hdir'⟩

/-- Writing a file below a directory is the same in trees that are alike for it. -/
theorem sameRun_write_children (halike : t.Alike t' places) (hkeep : t.Keeps t') {dir : Path}
    {m : Location} {names : List String} {name : String} (hdir : t.locate dir = .ok m)
    (hm : t.get? m = some .directory) (hsteps : ∀ n ∈ names ++ [name], Path.IsStep n)
    (hl : m ++ names ++ [name] ∈ places) :
    SameRun t t' places (run t (.write ((names ++ [name]).foldl Path.child dir) text))
      (run t' (.write ((names ++ [name]).foldl Path.child dir) text)) := by
  have hm' := hkeep.directory m hm
  have hnames := fun n hn => hsteps n (List.mem_append_left [name] hn)
  have hname := hsteps name (List.mem_append_right names List.mem_cons_self)
  obtain ⟨head, front, hstart, hfold⟩ := startsAt_children hdir hm hsteps (by simp)
  obtain ⟨bad, hmake⟩ := makeDirectories_children hdir hm hsteps
  obtain ⟨result, hmade, hresult⟩ := hmake t (.refl t)
  obtain ⟨result', hmade', hresult'⟩ := hmake t' hkeep
  obtain ⟨hflag, hgrown⟩ := halike.grow hl (List.prefix_append _ [name]) hm hm'
  have hchange : t.SameChange (if bad then t else (t.grow m names).1) t'
      (if bad then t' else (t'.grow m names).1) places := by
    cases bad with
    | true => exact .refl t t' places
    | false => exact hgrown
  rw [← hflag, ← hresult'] at hresult
  cases result with
  | error fault =>
      cases result' with
      | error fault' =>
          rw [run_write_of_unmade hmade, run_write_of_unmade hmade']
          exact ⟨rfl, hchange⟩
      | ok => cases hresult.mpr rfl
  | ok =>
      obtain rfl : result' = .ok () := hresult.mp rfl
      obtain ⟨rfl, hdone'⟩ := hresult'.mp rfl
      obtain ⟨hwalk, hk⟩ := walk_of_grow hnames hm (Prod.ext rfl (hflag ▸ hdone'))
      obtain ⟨hwalk', hk'⟩ := walk_of_grow hnames hm' (Prod.ext rfl hdone')
      have hlocate := (hstart.keep hgrown.keeps).locate_concat hname hwalk hk
      have hlocate' :=
        ((hstart.keep hkeep).keep hgrown.keeps').locate_concat hname hwalk' hk'
      rw [run_write_of_made hmade, run_write_of_made hmade', hfold]
      refine .after hgrown (sameRun_put (hgrown.alike halike) hl hk hk'
        (hlocate'.trans hlocate.symm) fun l h => ?_)
      rw [hlocate] at h
      split at h
      next => cases h
      next =>
        cases h
        rfl

end Operation

end ShaderTemplates
