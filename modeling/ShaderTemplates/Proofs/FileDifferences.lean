import ShaderTemplates.Proofs.Catalogs

/-!
# Trees that differ in one file

Two trees that agree but for the content of one file (`AgreesBut`) have the same directories and the
same names, so paths lead to the same places in both, and both have the same catalogs.  Writing a
file has the same result in both and leaves trees that agree (`replaceFile`); and once the one file
was written, both are the same tree (`replaceFile_eq`).
-/

namespace ShaderTemplates.FileTree

/-- Both trees have a file at the location, and agree on everything else. -/
structure AgreesBut (t t' : FileTree) (d : Location) : Prop where
  process : t'.process = t.process
  entries : ∀ k, k ≠ d → t'.entries.get? k = t.entries.get? k
  file : (t.file? d).isSome
  file' : (t'.file? d).isSome

/-- A file that is written anew is all that changes. -/
theorem agreesBut_of_insert {t t' : FileTree} {d : Location} {content : Content}
    {old : Content} (hold : t.file? d = some old) (hprocess : t'.process = t.process)
    (hentries : t'.entries = t.entries.insert d (.file content)) : t.AgreesBut t' d := by
  refine ⟨hprocess, fun k hk => ?_, by rw [hold]; rfl, ?_⟩
  · rw [hentries, SortedMap.get?_insert, if_neg hk]
  · rw [file?, get?_of_insert (ne_root_of_file? hold) hentries, if_pos rfl]
    rfl

namespace AgreesBut

variable {t t' : FileTree} {d : Location}

theorem refl {content : Content} (h : t.file? d = some content) : t.AgreesBut t d := by
  have hfile : (t.file? d).isSome := by
    rw [h]
    rfl
  exact ⟨rfl, fun _ _ => rfl, hfile, hfile⟩

theorem get? (h : t.AgreesBut t' d) {k : Location} (hk : k ≠ d) : t'.get? k = t.get? k := by
  rw [FileTree.get?, FileTree.get?, h.entries k hk]

/-- At every location there is the same in both trees, or there is a file in both. -/
theorem same_or_file (h : t.AgreesBut t' d) (k : Location) :
    t'.get? k = t.get? k ∨
      k = d ∧ ∃ c c', t.get? k = some (.file c) ∧ t'.get? k = some (.file c') := by
  by_cases hk : k = d
  · obtain ⟨c, hc⟩ := Option.isSome_iff_exists.mp h.file
    obtain ⟨c', hc'⟩ := Option.isSome_iff_exists.mp h.file'
    exact .inr ⟨hk, c, c', hk ▸ file?_eq_some.mp hc, hk ▸ file?_eq_some.mp hc'⟩
  · exact .inl (h.get? hk)

theorem directory_iff (h : t.AgreesBut t' d) {k : Location} :
    t'.get? k = some .directory ↔ t.get? k = some .directory := by
  rcases h.same_or_file k with hsame | ⟨-, c, c', hc, hc'⟩
  · rw [hsame]
  · rw [hc, hc']
    constructor <;> rintro ⟨⟩

theorem isSome_file? (h : t.AgreesBut t' d) (k : Location) :
    (t'.file? k).isSome = (t.file? k).isSome := by
  rw [file?, file?]
  rcases h.same_or_file k with hsame | ⟨-, c, c', hc, hc'⟩
  · rw [hsame]
  · rw [hc, hc']
    rfl

-- ── Looking up ───────────────────────────────────────────────────────────────

theorem walk (h : t.AgreesBut t' d) (l : Location) (segments : List String) :
    t'.walk l segments = t.walk l segments := by
  induction segments generalizing l with
  | nil => rfl
  | cons s segments ih =>
      rw [FileTree.walk, FileTree.walk]
      rcases h.same_or_file l with hsame | ⟨-, c, c', hc, hc'⟩
      · simp only [hsame, ih]
      · rw [hc, hc']

/-- A path leads to the same place in both trees, or fails to for the same reason. -/
theorem locate (h : t.AgreesBut t' d) (p : Path) : t'.locate p = t.locate p := by
  have hdescend : ∀ l segments, t'.descend? l segments = t.descend? l segments := by
    intro l segments
    rw [descend?, descend?]
    simp only [h.directory_iff]
  simp only [FileTree.locate, hdescend, h.walk, h.process]

theorem keeps (h : t.AgreesBut t' d) : t.Keeps t' :=
  ⟨h.process, fun _ hl => h.directory_iff.mpr hl⟩

theorem isDirectory (h : t.AgreesBut t' d) (p : Path) : t'.isDirectory p = t.isDirectory p := by
  rw [Bool.eq_iff_iff, isDirectory_iff, isDirectory_iff]
  simp only [h.locate, h.directory_iff]

theorem holds (h : t.AgreesBut t' d) (p : Path) : t'.holds p = t.holds p := by
  rw [FileTree.holds, FileTree.holds, find?, find?, h.locate]
  cases t.locate p with
  | error fault => rfl
  | ok l =>
      dsimp only
      rcases h.same_or_file l with hsame | ⟨-, c, c', hc, hc'⟩
      · rw [hsame]
      · rw [hc, hc']
        rfl

theorem readText (h : t.AgreesBut t' d) {p : Path} (hp : t.locate p ≠ .ok d) :
    t'.readText p = t.readText p := by
  rw [FileTree.readText, FileTree.readText, h.locate]
  cases hl : t.locate p with
  | error fault => rfl
  | ok l =>
      rw [ok_bind, ok_bind, h.get?]
      rintro rfl
      exact hp hl

/-- Both trees have the same catalogs. -/
theorem catalog (h : t.AgreesBut t' d) (dir : Path) (extension : String) :
    Catalog.load t' dir extension = Catalog.load t dir extension := by
  cases hdir : t.locate dir with
  | error fault => rw [Catalog.load_eq, Catalog.load_eq, h.locate, hdir]
  | ok l =>
      exact Catalog.load_congr hdir ((h.locate dir).trans hdir) h.process h.directory_iff
        (fun k _ => h.isSome_file? k) _

-- ── Changes ──────────────────────────────────────────────────────────────────

/-- The same entry is stored in both trees; a directory does not take the place of the one file. -/
theorem insert (h : t.AgreesBut t' d) {u u' : FileTree} {k : Location} {e : Entry}
    (hk : k ≠ []) (he : k = d → ∃ content, e = .file content) (hprocess : u.process = t.process)
    (hentries : u.entries = t.entries.insert k e) (hprocess' : u'.process = t'.process)
    (hentries' : u'.entries = t'.entries.insert k e) : u.AgreesBut u' d := by
  have hfile : ∀ {t u : FileTree}, u.entries = t.entries.insert k e → (t.file? d).isSome →
      (u.file? d).isSome := by
    intro t u hentries hold
    by_cases hd : d = k
    · obtain ⟨content, rfl⟩ := he hd.symm
      rw [file?, get?_of_insert hk hentries, if_pos hd]
      rfl
    · rw [file?] at hold ⊢
      rwa [get?_of_insert hk hentries, if_neg hd]
  refine ⟨hprocess'.trans (h.process.trans hprocess.symm), fun l hl => ?_, hfile hentries h.file,
    hfile hentries' h.file'⟩
  rw [hentries, hentries', SortedMap.get?_insert, SortedMap.get?_insert, h.entries l hl]

theorem addDirectory? (h : t.AgreesBut t' d) (l : Location) (name : String) :
    (t.addDirectory? l name = none ∧ t'.addDirectory? l name = none) ∨
      ∃ u u', t.addDirectory? l name = some u ∧ t'.addDirectory? l name = some u' ∧
        u.AgreesBut u' d := by
  have hne : ∀ {t : FileTree}, (t.file? d).isSome → t.entries.get? (l ++ [name]) = none →
      l ++ [name] ≠ d := by
    rintro t hfile hnone rfl
    rw [file?, FileTree.get?, if_neg (by simp), hnone] at hfile
    cases hfile
  by_cases hnew : t.get? l = some .directory ∧ t.entries.get? (l ++ [name]) = none
  · have hd := hne h.file hnew.2
    have hnew' : t'.get? l = some .directory ∧ t'.entries.get? (l ++ [name]) = none :=
      ⟨h.directory_iff.mpr hnew.1, (h.entries _ hd).trans hnew.2⟩
    exact .inr ⟨_, _, dif_pos hnew, dif_pos hnew',
      h.insert (by simp) (fun heq => absurd heq hd) rfl rfl rfl rfl⟩
  · refine .inl ⟨dif_neg hnew, dif_neg fun hnew' => hnew ⟨h.directory_iff.mp hnew'.1, ?_⟩⟩
    exact (h.entries _ (hne h.file' hnew'.2)).symm.trans hnew'.2

theorem makeDirectory (h : t.AgreesBut t' d) (p : Path) :
    (∃ fault, t.makeDirectory p = .error fault ∧ t'.makeDirectory p = .error fault) ∨
      ∃ u u', t.makeDirectory p = .ok u ∧ t'.makeDirectory p = .ok u' ∧ u.AgreesBut u' d := by
  rw [FileTree.makeDirectory, FileTree.makeDirectory]
  cases hlong : isLongPath p with
  | true => exact .inl ⟨_, rfl, rfl⟩
  | false =>
      rw [if_neg Bool.false_ne_true]
      dsimp only
      rw [h.locate]
      cases t.locate _ with
      | error fault => exact .inl ⟨fault, rfl, rfl⟩
      | ok l =>
          rw [ok_bind, ok_bind]
          rcases h.same_or_file l with hsame | ⟨-, c, c', hc, hc'⟩
          · rw [hsame]
            cases t.get? l with
            | some e => exact .inl ⟨_, rfl, rfl⟩
            | none =>
                cases l.getLast? with
                | none => exact .inl ⟨_, rfl, rfl⟩
                | some name =>
                    dsimp only
                    rcases h.addDirectory? l.dropLast name with
                      ⟨hno, hno'⟩ | ⟨u, u', hu, hu', hagree⟩
                    · rw [hno, hno']
                      exact .inl ⟨_, rfl, rfl⟩
                    · rw [hu, hu']
                      exact .inr ⟨u, u', rfl, rfl, hagree⟩
          · rw [hc, hc']
            exact .inl ⟨_, rfl, rfl⟩

theorem makeFirst (h : t.AgreesBut t' d) (paths : List Path) :
    ∃ u u' result, t.makeFirst paths = (u, result) ∧ t'.makeFirst paths = (u', result) ∧
      u.AgreesBut u' d := by
  induction paths generalizing t t' with
  | nil => exact ⟨t, t', _, rfl, rfl, h⟩
  | cons p above ih =>
      rw [FileTree.makeFirst, FileTree.makeFirst]
      by_cases hempty : p = .empty
      · rw [if_pos hempty, if_pos hempty]
        exact ⟨t, t', _, rfl, rfl, h⟩
      · rw [if_neg hempty, if_neg hempty]
        rcases h.makeDirectory p with ⟨fault, hno, hno'⟩ | ⟨u, u', hu, hu', hagree⟩
        · rw [hno, hno']
          -- only a directory that is missing on the way makes the attempt go on
          cases fault with
          | missing =>
              obtain ⟨u, u', result, hu, hu', hagree⟩ := ih h
              dsimp only
              rw [hu, hu']
              cases result with
              | error fault => exact ⟨u, u', _, rfl, rfl, hagree⟩
              | ok =>
                  dsimp only
                  rcases hagree.makeDirectory p with ⟨fault, hno, hno'⟩ | ⟨v, v', hv, hv', hlast⟩
                  · rw [hno, hno']
                    dsimp only
                    rw [hagree.isDirectory]
                    exact ⟨u, u', _, rfl, rfl, hagree⟩
                  · rw [hv, hv']
                    exact ⟨v, v', _, rfl, rfl, hlast⟩
          | _ =>
              dsimp only
              rw [h.isDirectory]
              exact ⟨t, t', _, rfl, rfl, h⟩
        · rw [hu, hu']
          exact ⟨u, u', _, rfl, rfl, hagree⟩

theorem writeFile (h : t.AgreesBut t' d) (p : Path) (content : Content) :
    (∃ fault, t.writeFile p content = .error fault ∧ t'.writeFile p content = .error fault) ∨
      ∃ u u', t.writeFile p content = .ok u ∧ t'.writeFile p content = .ok u' ∧
        u.AgreesBut u' d := by
  rw [FileTree.writeFile, FileTree.writeFile]
  rw [h.locate]
  cases t.locate p with
  | error fault => exact .inl ⟨fault, rfl, rfl⟩
  | ok l =>
      rw [ok_bind, ok_bind]
      rcases List.eq_nil_or_concat l with rfl | ⟨front, name, rfl⟩
      · exact .inl ⟨_, rfl, rfl⟩
      · rw [List.concat_eq_append, List.getLast?_concat, List.dropLast_concat]
        dsimp only
        by_cases hdir : t.get? (front ++ [name]) = some .directory
        · rw [if_pos hdir, if_pos (h.directory_iff.mpr hdir)]
          exact .inl ⟨_, rfl, rfl⟩
        · have hdir' : t'.get? (front ++ [name]) ≠ some .directory := fun hdir' =>
            hdir (h.directory_iff.mp hdir')
          rw [if_neg hdir, if_neg hdir', putFile?, putFile?]
          have hroot : front ++ [name] ≠ [] := by simp
          by_cases hfront : t.get? front = some .directory
          · have hfree : t.entries.get? (front ++ [name]) ≠ some .directory := by
              rwa [FileTree.get?, if_neg hroot] at hdir
            have hfree' : t'.entries.get? (front ++ [name]) ≠ some .directory := by
              rwa [FileTree.get?, if_neg hroot] at hdir'
            rw [dif_pos ⟨hfront, hfree⟩, dif_pos ⟨h.directory_iff.mpr hfront, hfree'⟩]
            exact .inr ⟨_, _, rfl, rfl, h.insert hroot (fun _ => ⟨content, rfl⟩) rfl rfl rfl rfl⟩
          · rw [dif_neg fun hboth => hfront hboth.1,
              dif_neg fun hboth => hfront (h.directory_iff.mp hboth.1)]
            exact .inl ⟨_, rfl, rfl⟩

/-- A text takes the place of a file in both trees, or in none of them for the same reason. -/
theorem replaceFile (h : t.AgreesBut t' d) (p : Path) (text : String) :
    ∃ u u' result, t.replaceFile p text = (u, result) ∧ t'.replaceFile p text = (u', result) ∧
      u.AgreesBut u' d := by
  rw [FileTree.replaceFile, FileTree.replaceFile, makeDirectories, makeDirectories]
  obtain ⟨u, u', result, hu, hu', hagree⟩ := h.makeFirst p.directory.ancestors
  rw [hu, hu']
  cases result with
  | error fault => exact ⟨u, u', _, rfl, rfl, hagree⟩
  | ok =>
      dsimp only
      rw [hagree.keeps.draftPath]
      cases isLongPath (u.draftPath p) with
      | true => exact ⟨u, u', _, rfl, rfl, hagree⟩
      | false =>
          rw [if_neg Bool.false_ne_true, if_neg Bool.false_ne_true]
          rcases hagree.writeFile p (.text text) with ⟨fault, hno, hno'⟩ | ⟨v, v', hv, hv', hagree'⟩
          · rw [hno, hno']
            exact ⟨u, u', _, rfl, rfl, hagree⟩
          · rw [hv, hv']
            exact ⟨v, v', _, rfl, rfl, hagree'⟩

/-- Once the one file was written, both trees are the same. -/
theorem replaceFile_eq (h : t.AgreesBut t' d) {p : Path} (hp : t.locate p = .ok d) {text : String}
    {u : FileTree} (hreplace : t.replaceFile p text = (u, .ok ())) :
    t'.replaceFile p text = (u, .ok ()) := by
  obtain ⟨v, u', result, hv, hu', -⟩ := h.replaceFile p text
  cases hreplace.symm.trans hv
  obtain ⟨c, hc⟩ := Option.isSome_iff_exists.mp h.file
  obtain ⟨c', hc'⟩ := Option.isSome_iff_exists.mp h.file'
  obtain ⟨hprocess, hentries⟩ := entries_of_replaceFile hp hc hreplace
  obtain ⟨hprocess', hentries'⟩ := entries_of_replaceFile ((h.locate p).trans hp) hc' hu'
  have hsame : u' = u := by
    refine eq_of_entries (hprocess'.trans (h.process.trans hprocess.symm)) ?_
    rw [hentries, hentries']
    refine SortedMap.ext_get? fun k => ?_
    rw [SortedMap.get?_insert, SortedMap.get?_insert]
    split
    next => rfl
    next hk => exact h.entries k hk
  rw [hu', hsame]

end AgreesBut

end ShaderTemplates.FileTree
