import ShaderTemplates.Proofs.FailedExports
import ShaderTemplates.Proofs.GrownDirectories

/-!
# What a creation leaves behind

A creation that succeeds writes the document at a path that led to nothing before, and from then on
nothing else is created there.  One that fails leaves nothing behind but directories on the way of
that path, or it did everything and could not flush the directory of the document
(`create_all_or_nothing`).

Whether something is at the path is asked before the directories above it are made.  A text that
takes a place takes a free one, or one that its path led to before, or its path stopped at a missing
directory and goes up behind it (`Puts.place_before`).  In the last case the new directories open
the way to a file that is there already, and the document replaces it (`create_overwrites`).
-/

namespace ShaderTemplates

open Template FileTree Operation

-- ── Places that texts took ───────────────────────────────────────────────────

namespace FileTree

open ShaderTemplates.Path

variable {t t' : FileTree} {m l : Location} {segments : List String}

/-- One step of a way leads to the same place in every tree that has the directory. -/
theorem walk_cons_eq_ok {s : String} (h : t'.walk m (s :: segments) = .ok l) :
    t'.get? m = some .directory ∧ ∃ k, t'.walk k segments = .ok l ∧ (s ≠ ".." → m <+: k) ∧
      ∀ t : FileTree, t.get? m = some .directory →
        t.walk m (s :: segments) = t.walk k segments := by
  rw [walk] at h
  split at h
  next => cases h
  next => cases h
  next hm =>
    refine ⟨hm, ?_⟩
    by_cases hsilent : isSilent s = true
    · rw [if_pos hsilent] at h
      refine ⟨m, h, fun _ => List.prefix_rfl, fun t ht => ?_⟩
      rw [walk, ht]
      exact if_pos hsilent
    rw [if_neg hsilent] at h
    by_cases hup : s = ".."
    · rw [if_pos hup] at h
      refine ⟨m.dropLast, h, fun hne => absurd hup hne, fun t ht => ?_⟩
      rw [walk, ht]
      exact (if_neg hsilent).trans (if_pos hup)
    · rw [if_neg hup] at h
      split at h
      next => cases h
      next hlong =>
        refine ⟨m ++ [s], h, fun _ => List.prefix_append m [s], fun t ht => ?_⟩
        exact walk_step ht ⟨Bool.eq_false_iff.mpr hsilent, hup⟩ (Bool.eq_false_iff.mpr hlong)
          segments

/-- A way that goes on through new directories stopped where the first of them was missing. -/
theorem walk_before (hnew : ∀ k, t'.get? k = some .directory →
      t.get? k = some .directory ∨ t.get? k = none) (h : t'.walk m segments = .ok l) :
    t.walk m segments = .ok l ∨ t.walk m segments = .error .missing := by
  induction segments generalizing m with
  | nil => exact .inl h
  | cons s segments ih =>
      obtain ⟨hm, k, hk, -, hstep⟩ := walk_cons_eq_ok h
      rcases hnew m hm with hbefore | hnone
      · rw [hstep t hbefore]
        exact ih hk
      · rw [walk, hnone]
        exact .inr rfl

theorem prefix_of_walk (hdown : ".." ∉ segments) (h : t.walk m segments = .ok l) : m <+: l := by
  induction segments generalizing m with
  | nil =>
      cases h
      exact List.prefix_rfl
  | cons s segments ih =>
      obtain ⟨-, k, hk, hbelow, -⟩ := walk_cons_eq_ok h
      exact (hbelow (List.ne_of_not_mem_cons hdown).symm).trans
        (ih (List.not_mem_of_not_mem_cons hdown) hk)

/-- A way down to something that was there led there before. -/
theorem walk_down_before (hdown : ".." ∉ segments) (h : t'.walk m segments = .ok l)
    (hl : t.get? l ≠ none) (hfile : t'.get? l ≠ some .directory) :
    t.walk m segments = .ok l := by
  induction segments generalizing m with
  | nil => exact h
  | cons s segments ih =>
      obtain ⟨hm, k, hk, -, hstep⟩ := walk_cons_eq_ok h
      have hne : m ≠ l := by
        rintro rfl
        exact hfile hm
      rw [hstep t (directory_above_entry (prefix_of_walk hdown h) hne hl)]
      exact ih (List.not_mem_of_not_mem_cons hdown) hk

namespace Puts

variable {path : Path} {text : String}

theorem directory_before (h : t.Puts t' path l text) {k : Location}
    (hk : t'.get? k = some .directory) : t.get? k = some .directory ∨ t.get? k = none := by
  by_cases hkl : k = l
  · exact absurd (hkl ▸ hk) (not_directory_of_file? h.stands.content)
  · rcases h.entries k hkl with hsame | hnew
    · exact .inl (hsame ▸ hk)
    · exact .inr hnew.absent

/-- The place that a text took was free, or its path led there before, or its path stopped at a
    missing directory and goes up behind it. -/
theorem place_before (h : t.Puts t' path l text) :
    t.get? l = none ∨ t.locate path = .ok l ∨
      t.locate path = .error .missing ∧ ".." ∈ path.head :: path.tail := by
  obtain ⟨hne, hlong, hzero, hwalk⟩ := locate_eq_ok.mp h.stands.located
  have hstart : t'.startOf path = t.startOf path := by rw [startOf, startOf, h.process]
  rw [hstart] at hwalk
  rw [locate_eq_walk hne hlong hzero]
  by_cases hl : t.get? l = none
  · exact .inl hl
  refine .inr ?_
  by_cases hup : ".." ∈ path.head :: path.tail
  · have hbefore := walk_before (fun _ => h.directory_before) hwalk
    exact hbefore.imp_right fun hmissing => ⟨hmissing, hup⟩
  · exact .inl (walk_down_before hup hwalk hl (not_directory_of_file? h.stands.content))

end Puts

end FileTree

theorem Path.parent_mem_components {p : Path} (h : ".." ∈ p.head :: p.tail) :
    .parent ∈ p.components := by
  rw [components, List.mem_append]
  rcases List.mem_cons.mp h with hhead | htail
  · left
    obtain ⟨head, tail⟩ := p
    cases hhead
    simp [headSteps, isRooted, stepOf?, isSilent]
  · exact .inr (List.mem_filterMap.mpr ⟨"..", htail, by decide⟩)

-- ── Creations ────────────────────────────────────────────────────────────────

namespace Project

variable {p : Project} {t t' : FileTree} {dir path : Path} {name requested : String}

/-- The document of a new generator is at its path, and it was not there before.  Beside it no more
    than directories above it are new. -/
structure Creates (p : Project) (t t' : FileTree) (dir : Path) (name requested : String)
    (path : Path) : Prop where
  path_eq : path = dir.child (name ++ ".gen.toml")
  unused : t.holds path = false
  /-- The document takes a free place, unless its directory goes up from one that was missing. -/
  written : ∃ l text, t.Puts t' path l text ∧
    (t.get? l = none ∨ t.locate path = .error .missing ∧ .parent ∈ dir.components)
  /-- The document has the defaults of the template that was asked for. -/
  loaded : ∃ catalog template text, p.selectableCatalog t = .ok catalog ∧
    catalog.resolveName requested = .ok template ∧ catalog.read t template = .ok text ∧
    Generator.load t' path = .ok (({ name, template } : Generator).sync (scan text))
  refused : ∀ (p' : Project) (requested' : String),
    p'.create t' dir name requested' = .failed t' (.generatorExists path)

/-- Where something is, nothing is created. -/
theorem create_of_holds (hname : checkFileName name = .ok ())
    (h : t.holds (generatorPath dir name) = true) (p : Project) (requested : String) :
    p.create t dir name requested = .failed t (.generatorExists (generatorPath dir name)) := by
  rw [create, planCreation, hname, ok_bind]
  dsimp only
  rw [if_pos h]
  rfl

theorem newGenerator_eq_ok {g : Generator} (h : p.newGenerator t name requested = .ok g) :
    ∃ catalog template text, p.selectableCatalog t = .ok catalog ∧
      catalog.resolveName requested = .ok template ∧ catalog.read t template = .ok text ∧
      g = ({ name, template } : Generator).sync (scan text) := by
  rw [newGenerator] at h
  obtain ⟨catalog, hcatalog, h⟩ := bind_eq_ok.mp h
  obtain ⟨template, htemplate, h⟩ := bind_eq_ok.mp h
  obtain ⟨text, htext, h⟩ := bind_eq_ok.mp h
  cases h
  exact ⟨catalog, template, text, hcatalog, htemplate, htext, rfl⟩

/-- A creation that succeeds writes what was planned. -/
theorem create_eq_ok (h : (p.create t dir name requested).result = .ok path) :
    ∃ g, p.planCreation t dir name requested = .ok (path, g) ∧
      run t (.write path g.write) = ((p.create t dir name requested).files, .ok ()) := by
  rw [create] at h ⊢
  cases hplan : p.planCreation t dir name requested with
  | error e =>
      rw [hplan] at h
      cases h
  | ok planned =>
      rw [hplan] at h
      dsimp only at h ⊢
      split at h
      next => cases h
      next hrun =>
        cases h
        refine ⟨planned.2, rfl, ?_⟩
        rw [hrun]
        rfl

/-- What was planned is created once the document has taken its place. -/
theorem creates_of_replaceFile {g : Generator}
    (hplan : p.planCreation t dir name requested = .ok (path, g))
    (hreplace : t.replaceFile path g.write = (t', .ok ())) :
    p.Creates t t' dir name requested path := by
  obtain ⟨hname, rfl, hunused, hnew⟩ := planCreation_eq_ok hplan
  obtain ⟨catalog, template, text, hcatalog, htemplate, htext, rfl⟩ := newGenerator_eq_ok hnew
  obtain ⟨⟨l, hputs⟩, -⟩ := puts_of_replaceFile hreplace
  refine ⟨rfl, hunused, ⟨l, _, hputs, ?_⟩, ⟨catalog, template, text, hcatalog, htemplate, htext,
    Generator.load_of_stands hputs.stands (Generator.parse?_write _)⟩, fun p' requested' =>
      create_of_holds hname ?_ p' requested'⟩
  · by_cases hl : t.get? l = none
    · exact .inl hl
    · rcases hputs.place_before with hnone | hbefore | ⟨hmissing, hup⟩
      · exact .inl hnone
      · cases (holds_iff.mpr ⟨l, hbefore, hl⟩).symm.trans hunused
      · have hparent := Path.parent_mem_components hup
        rw [generatorPath, Path.components_child dir (isStep_document hname),
          List.mem_append] at hparent
        refine .inr ⟨hmissing, hparent.resolve_right ?_⟩
        simp
  · exact holds_iff.mpr ⟨l, hputs.stands.located, get?_ne_none_of_file? hputs.stands.content⟩

/-- A creation that fails leaves no more behind than directories on the way of the document's path,
    and only if the document could not be written, unless it was the directory of the document that
    could not be flushed: then everything was done. -/
theorem files_of_failed_create {e : Error}
    (h : (p.create t dir name requested).result = .error e) :
    ((∀ file, e ≠ .writeFailed file) → (p.create t dir name requested).files = t) ∧
      (t.AddsOnly (p.create t dir name requested).files
          (generatorPath dir name).directory.ancestors ∨
        (e = .writeFailed (generatorPath dir name) ∧
          (p.create t dir name requested).files.flushDirectory
            (generatorPath dir name).directory ≠ .ok () ∧
          p.Creates t (p.create t dir name requested).files dir name requested
            (generatorPath dir name))) := by
  rw [create] at h ⊢
  cases hplan : p.planCreation t dir name requested with
  | error e' => exact ⟨fun _ => rfl, .inl (.refl t _)⟩
  | ok planned =>
      obtain ⟨document, g⟩ := planned
      obtain ⟨-, rfl, -, -⟩ := planCreation_eq_ok hplan
      rw [hplan] at h
      dsimp only at h ⊢
      split at h
      next hrun =>
        cases h
        obtain ⟨hwrite, hleft⟩ := run_write_eq_error hrun
        refine ⟨fun hother => absurd hwrite (hother _), hleft.imp_right ?_⟩
        rintro ⟨hreplace, hflush⟩
        exact ⟨hwrite, hflush, creates_of_replaceFile hplan hreplace⟩
      next => cases h

theorem creates_of_ok (h : (p.create t dir name requested).result = .ok path) :
    p.Creates t (p.create t dir name requested).files dir name requested path := by
  obtain ⟨g, hplan, hrun⟩ := create_eq_ok h
  exact creates_of_replaceFile hplan (run_write_eq_ok.mp hrun).1

/-- A creation that succeeds writes the document of the new generator at a path that led to nothing,
    and nothing else is created there then.  One that fails changes no file and adds none, unless
    all that failed is flushing the directory of the document: then it did what one that succeeds
    does. -/
theorem create_all_or_nothing (p : Project) (t : FileTree) (dir : Path) (name requested : String) :
    (∀ e, (p.create t dir name requested).result = .error e →
      ((∀ file, e ≠ .writeFailed file) → (p.create t dir name requested).files = t) ∧
        (t.AddsOnly (p.create t dir name requested).files
            (generatorPath dir name).directory.ancestors ∨
          (e = .writeFailed (generatorPath dir name) ∧
            (p.create t dir name requested).files.flushDirectory
              (generatorPath dir name).directory ≠ .ok () ∧
            p.Creates t (p.create t dir name requested).files dir name requested
              (generatorPath dir name)))) ∧
    ∀ path, (p.create t dir name requested).result = .ok path →
      p.Creates t (p.create t dir name requested).files dir name requested path :=
  ⟨fun _ => files_of_failed_create, fun _ => creates_of_ok⟩

/-- The document of somebody else, in a directory of its own. -/
def takenDocument : Path := ⟨"sub", ["A.gen.toml"]⟩

def takenFiles : FileTree := ((sampleFiles "x" sampleGenerator).replaceFile takenDocument "mine").1

/-- A generator is not created at the document, and another one is created beside it.  In a
    directory that cannot be opened it is created too, although the creation fails. -/
theorem create_all_or_nothing_sample :
    ((sampleProject "shader").create takenFiles ⟨"sub", []⟩ "A" "T").files = takenFiles ∧
      (sampleProject "shader").Creates takenFiles
        ((sampleProject "shader").create takenFiles ⟨"sub", ["new"]⟩ "B" "").files ⟨"sub", ["new"]⟩
        "B" "" ⟨"sub", ["new", "B.gen.toml"]⟩ ∧
      (sampleProject "shader").Creates (takenFiles.withUnopened ["sub"])
        ((sampleProject "shader").create (takenFiles.withUnopened ["sub"]) ⟨"sub", []⟩ "B" "").files
        ⟨"sub", []⟩ "B" "" ⟨"sub", ["B.gen.toml"]⟩ := by
  have hrefused : ((sampleProject "shader").create takenFiles ⟨"sub", []⟩ "A" "T").result =
      .error (.generatorExists takenDocument) := by
    decide +kernel
  have hunopened : ((sampleProject "shader").create (takenFiles.withUnopened ["sub"]) ⟨"sub", []⟩
      "B" "").result = .error (.writeFailed ⟨"sub", ["B.gen.toml"]⟩) := by
    decide +kernel
  refine ⟨((create_all_or_nothing (sampleProject "shader") takenFiles ⟨"sub", []⟩ "A" "T").1 _
    hrefused).1 ?_, (create_all_or_nothing (sampleProject "shader") takenFiles ⟨"sub", ["new"]⟩ "B"
      "").2 _ (by decide +kernel), ?_⟩
  · rintro file ⟨⟩
  · have hleft := ((create_all_or_nothing (sampleProject "shader") (takenFiles.withUnopened ["sub"])
      ⟨"sub", []⟩ "B" "").1 _ hunopened).2
    refine (hleft.resolve_left fun hadds => ?_).2.2
    have hfile : ((sampleProject "shader").create (takenFiles.withUnopened ["sub"]) ⟨"sub", []⟩ "B"
        "").files.file? ["sub", "B.gen.toml"] ≠ none := by
      decide +kernel
    rw [hadds.addsDirectories.files] at hfile
    exact hfile (by decide +kernel)

/-- Behind a directory that is not there yet a document is replaced by a new one. -/
theorem create_overwrites :
    ¬ ∀ (p : Project) (t : FileTree) (dir path : Path) (name requested : String) (l : Location)
        (content : Content), (p.create t dir name requested).result = .ok path →
      t.file? l = some content → (p.create t dir name requested).files.file? l = some content := by
  intro h
  have hkept := h (sampleProject "shader") takenFiles ⟨"missing", ["..", "sub"]⟩
    ⟨"missing", ["..", "sub", "A.gen.toml"]⟩ "A" "T" ["sub", "A.gen.toml"] (.text "mine")
    (by decide +kernel) (by decide +kernel)
  exact absurd hkept (by decide +kernel)

end Project

end ShaderTemplates
