import ShaderTemplates.Project.Export
import ShaderTemplates.Proofs.Catalogs
import ShaderTemplates.Proofs.OutputPaths
import ShaderTemplates.Proofs.Pieces

/-!
# What a successful export did

An export that succeeds read all that it needs (`readForExport_eq_ok`), came to a plan
(`plan_eq_ok`) and carried it out (`exportGenerator_eq_ok`).  Carrying it out leaves the output
and the document standing and changes no other file but the last output, if that is removed
(`Written`).
-/

namespace ShaderTemplates

open Template FileTree

namespace Generator

theorem load_eq_ok {t : FileTree} {path : Path} {g : Generator} (h : load t path = .ok g) :
    t.isFile path = true ∧ ∃ text, t.readText path = .ok text ∧ parse? text = some g := by
  rw [load] at h
  split at h
  next => cases h
  next hfile =>
    split at h
    next => cases h
    next text hread =>
      split at h
      next hparse =>
        cases h
        exact ⟨by simpa using hfile, text, hread, hparse⟩
      next => cases h

/-- A generator is read from the text of the file that the path leads to. -/
theorem load_iff {t : FileTree} {path : Path} {g : Generator} :
    load t path = .ok g ↔ ∃ l text, t.locate path = .ok l ∧ t.file? l = some (.text text) ∧
      parse? text = some g := by
  constructor
  · intro h
    obtain ⟨-, text, hread, hparse⟩ := load_eq_ok h
    obtain ⟨l, hl, hfile⟩ := readText_eq_ok.mp hread
    exact ⟨l, text, hl, hfile, hparse⟩
  · rintro ⟨l, text, hl, hfile, hparse⟩
    have hread : t.readText path = .ok text := readText_eq_ok.mpr ⟨l, hl, hfile⟩
    rw [load]
    rw [isFile_iff.mpr ⟨l, _, hl, hfile⟩, hread, if_neg (by decide)]
    dsimp only
    rw [hparse]

theorem load_of_stands {t : FileTree} {path : Path} {l : Location} {text : String}
    (h : t.Stands path l text) {g : Generator} (hparse : parse? text = some g) :
    load t path = .ok g := load_iff.mpr ⟨l, text, h.located, h.content, hparse⟩

end Generator

-- ── Plans ────────────────────────────────────────────────────────────────────

namespace ExportSource

/-- The generator as an export saves it, except for the file name of the output. -/
def recorded (s : ExportSource) (config : Config) : Generator :=
  s.synced.recordFixed (scan s.templateText) config.constants

/-- The plan for an output and a conversion. -/
def planFor (s : ExportSource) (config : Config) (output : Path) (conversion : Conversion) :
    ExportPlan where
  document := s.document
  generator := { s.recorded config with exported := output.fileName? }
  output := output
  conversion := conversion
  pulled := s.pulledNames
  synced := s.pulled.missing (scan s.templateText)
  previous := s.previous.map (·.1)

/-- The end of a plan: a last output elsewhere must not move onto another file. -/
def settle (s : ExportSource) (config : Config) (t : FileTree) (output : Path)
    (conversion : Conversion) : Except Error ExportPlan :=
  match s.previous with
  | some (previous, _) =>
    if (!decide (previous.SamePlace output) && t.holds output) = true then
      .error (.outputConflict previous output)
    else .ok (s.planFor config output conversion)
  | none => .ok (s.planFor config output conversion)

theorem settle_eq_ok {s : ExportSource} {config : Config} {t : FileTree} {output : Path}
    {conversion : Conversion} {plan : ExportPlan} :
    s.settle config t output conversion = .ok plan ↔
      (∀ previous ∈ s.previous, previous.1.SamePlace output ∨ t.holds output = false) ∧
        plan = s.planFor config output conversion := by
  rw [settle]
  cases s.previous with
  | none =>
      constructor
      · intro h
        cases h
        exact ⟨fun _ hnone => (by cases hnone), rfl⟩
      · rintro ⟨-, rfl⟩
        rfl
  | some previous =>
      have hplace : (!decide (previous.1.SamePlace output) && t.holds output) = true ↔
          ¬ (previous.1.SamePlace output ∨ t.holds output = false) := by
        simp
      dsimp only
      split
      next hbad =>
        constructor
        · intro h
          cases h
        · intro h
          exact absurd (h.1 previous rfl) (hplace.mp hbad)
      next hgood =>
        constructor
        · intro h
          cases h
          refine ⟨?_, rfl⟩
          rintro _ ⟨⟩
          exact Classical.not_not.mp fun hno => hgood (hplace.mpr hno)
        · rintro ⟨-, rfl⟩
          rfl

/-- The end of a plan fails only for a last output elsewhere, if something is where the output would
    go. -/
theorem settle_eq_error {s : ExportSource} {config : Config} {t : FileTree} {output : Path}
    {conversion : Conversion} {e : Error} : s.settle config t output conversion = .error e ↔
      ∃ previous ∈ s.previous, ¬ previous.1.SamePlace output ∧ t.holds output = true ∧
        e = .outputConflict previous.1 output := by
  rw [settle]
  cases s.previous with
  | none =>
      constructor
      · intro h
        cases h
      · rintro ⟨_, hmem, -⟩
        cases hmem
  | some previous =>
      have hplace : (!decide (previous.1.SamePlace output) && t.holds output) = true ↔
          ¬ previous.1.SamePlace output ∧ t.holds output = true := by
        simp
      dsimp only
      split
      next hbad =>
        constructor
        · intro h
          cases h
          exact ⟨previous, rfl, (hplace.mp hbad).1, (hplace.mp hbad).2, rfl⟩
        · rintro ⟨_, ⟨⟩, -, -, rfl⟩
          rfl
      next hgood =>
        constructor
        · intro h
          cases h
        · rintro ⟨_, ⟨⟩, hno, hholds, -⟩
          exact absurd (hplace.mpr ⟨hno, hholds⟩) hgood

theorem plan_eq (s : ExportSource) (config : Config) (t : FileTree) :
    s.plan config t = (do
      let values ← s.synced.resolve (scan s.templateText) config.constants
      let conversion ← (convert s.templateText values).mapError Error.unresolved
      let output ← (s.recorded config).outputPath s.document.directory config.outputExtension
      s.settle config t output conversion) := by
  rw [plan]
  dsimp only
  congr 1
  funext values
  congr 1
  funext conversion
  congr 1
  funext output
  rw [settle, planFor]
  cases s.previous with
  | none => rfl
  | some previous =>
      dsimp only
      split <;> rfl

/-- A plan is made if there are values, they convert the template, and the output would not take
    the place of another file. -/
theorem plan_eq_ok {s : ExportSource} {config : Config} {t : FileTree} {plan : ExportPlan} :
    s.plan config t = .ok plan ↔ ∃ values conversion output,
      s.synced.resolve (scan s.templateText) config.constants = .ok values ∧
      convert s.templateText values = .ok conversion ∧
      (s.recorded config).outputPath s.document.directory config.outputExtension = .ok output ∧
      (∀ previous ∈ s.previous, previous.1.SamePlace output ∨ t.holds output = false) ∧
      plan = s.planFor config output conversion := by
  rw [plan_eq]
  constructor
  · intro h
    obtain ⟨values, hvalues, h⟩ := bind_eq_ok.mp h
    obtain ⟨conversion, hconversion, h⟩ := bind_eq_ok.mp h
    obtain ⟨output, houtput, h⟩ := bind_eq_ok.mp h
    exact ⟨values, conversion, output, hvalues, mapError_eq_ok.mp hconversion, houtput,
      settle_eq_ok.mp h⟩
  · rintro ⟨values, conversion, output, hvalues, hconversion, houtput, hplan⟩
    rw [hvalues, ok_bind, mapError_eq_ok.mpr hconversion, ok_bind, houtput, ok_bind]
    exact settle_eq_ok.mpr hplan

end ExportSource

-- ── Reading ──────────────────────────────────────────────────────────────────

/-- The last output of which the path is recorded, if it is still there. -/
def lastOutput (t : FileTree) (exported : Option Path) : Except Error (Option (Path × String)) :=
  match exported.filter t.isFile with
  | none => pure none
  | some output =>
    match t.readText output with
    | .ok text => pure (some (output, text))
    | .error _ => .error .io

theorem lastOutput_eq_some {t : FileTree} {exported : Option Path} {previous : Path × String}
    (h : lastOutput t exported = .ok (some previous)) :
    exported = some previous.1 ∧ t.readText previous.1 = .ok previous.2 := by
  rw [lastOutput] at h
  split at h
  next => cases h
  next output hfilter =>
    obtain ⟨hexported, -⟩ := Option.filter_eq_some_iff.mp hfilter
    split at h
    next hread =>
      cases h
      exact ⟨hexported, hread⟩
    next => cases h

theorem lastOutput_eq_none {t : FileTree} {exported : Option Path}
    (h : lastOutput t exported = .ok none) : ∀ last ∈ exported, t.isFile last = false := by
  rw [lastOutput] at h
  split at h
  next hnone =>
    intro last hmem
    exact Bool.eq_false_iff.mpr (Option.filter_eq_none_iff.mp hnone last hmem)
  next =>
    split at h
    next => cases h
    next => cases h

/-- A recorded output that is there was read. -/
theorem lastOutput_of_isFile {t : FileTree} {last : Path} {previous? : Option (Path × String)}
    (h : lastOutput t (some last) = .ok previous?) (hfile : t.isFile last = true) :
    ∃ text, previous? = some (last, text) ∧ t.readText last = .ok text := by
  cases previous? with
  | none => cases hfile.symm.trans (lastOutput_eq_none h last rfl)
  | some previous =>
      obtain ⟨heq, htext⟩ := lastOutput_eq_some h
      cases heq
      exact ⟨previous.2, rfl, htext⟩

theorem lastOutput_of_readText {t : FileTree} {p : Path} {text : String}
    (h : t.readText p = .ok text) : lastOutput t (some p) = .ok (some (p, text)) := by
  rw [lastOutput]
  rw [Option.filter_some, if_pos (isFile_of_readText h)]
  dsimp only
  rw [h]
  rfl

namespace Project

variable {p : Project} {t : FileTree} {path : Path}

theorem readForExport_eq (p : Project) (t : FileTree) (path : Path) :
    p.readForExport t path = do
      let g ← Generator.load t path
      let catalog ← p.selectableCatalog t
      let template ← catalog.resolveName g.template
      let templateText ← catalog.read t template
      let exported ← g.exportedPath path.directory
      let previous ← lastOutput t exported
      return ⟨path, { g with template }, templateText, previous⟩ := by
  unfold readForExport lastOutput
  congr 1
  funext g
  congr 1
  funext catalog
  congr 1
  funext template
  congr 1
  funext templateText
  congr 1
  funext exported
  cases exported.filter t.isFile with
  | none => rfl
  | some output =>
      dsimp only
      cases t.readText output <;> rfl

theorem readForExport_eq_ok {source : ExportSource} :
    p.readForExport t path = .ok source ↔ ∃ g catalog template templateText exported previous,
      Generator.load t path = .ok g ∧ p.selectableCatalog t = .ok catalog ∧
      catalog.resolveName g.template = .ok template ∧
      catalog.read t template = .ok templateText ∧
      g.exportedPath path.directory = .ok exported ∧ lastOutput t exported = .ok previous ∧
      source = ⟨path, { g with template }, templateText, previous⟩ := by
  rw [readForExport_eq]
  constructor
  · intro h
    obtain ⟨g, hload, h⟩ := bind_eq_ok.mp h
    obtain ⟨catalog, hcatalog, h⟩ := bind_eq_ok.mp h
    obtain ⟨template, hname, h⟩ := bind_eq_ok.mp h
    obtain ⟨templateText, htext, h⟩ := bind_eq_ok.mp h
    obtain ⟨exported, hexported, h⟩ := bind_eq_ok.mp h
    obtain ⟨previous, hprevious, h⟩ := bind_eq_ok.mp h
    cases h
    exact ⟨g, catalog, template, templateText, exported, previous, hload, hcatalog, hname, htext,
      hexported, hprevious, rfl⟩
  · rintro ⟨g, catalog, template, templateText, exported, previous, hload, hcatalog, hname, htext,
      hexported, hprevious, rfl⟩
    rw [hload, ok_bind, hcatalog, ok_bind, hname, ok_bind, htext, ok_bind, hexported, ok_bind,
      hprevious, ok_bind]
    rfl

/-- The templates from which one can be selected. -/
theorem selectableCatalog_eq_ok {catalog : Catalog} :
    p.selectableCatalog t = .ok catalog ↔ ∃ dir, p.templatesDirectory = .ok dir ∧
      Catalog.load t dir p.config.templatesExtension = .ok catalog ∧ catalog.isEmpty = false := by
  rw [selectableCatalog, Project.catalog]
  cases hdir : p.templatesDirectory with
  | error e =>
      constructor
      · intro h
        cases h
      · rintro ⟨_, h, -⟩
        cases h
  | ok dir =>
      rw [ok_bind, bind_eq_ok]
      constructor
      · rintro ⟨found, hfound, h⟩
        split at h
        next => cases h
        next hempty =>
          cases h
          exact ⟨dir, rfl, hfound, Bool.eq_false_iff.mpr hempty⟩
      · rintro ⟨_, heq, hload, hsome⟩
        cases heq
        exact ⟨catalog, hload, if_neg (Bool.eq_false_iff.mp hsome)⟩

-- ── Exports ──────────────────────────────────────────────────────────────────

theorem exportGenerator_eq {source : ExportSource} {plan : ExportPlan}
    (hread : p.readForExport t path = .ok source) (hplan : source.plan p.config t = .ok plan) :
    p.exportGenerator t path = {
      files := (Operation.runAll t plan.operations).1
      warnings := source.warnings
      result := (Operation.runAll t plan.operations).2.map fun _ => plan.report } := by
  rw [exportGenerator]
  rw [hread]
  dsimp only
  rw [hplan]

theorem exportGenerator_of {source : ExportSource} {plan : ExportPlan}
    (hread : p.readForExport t path = .ok source) (hplan : source.plan p.config t = .ok plan) :
    (p.exportGenerator t path).files = (Operation.runAll t plan.operations).1 ∧
      (p.exportGenerator t path).result =
        (Operation.runAll t plan.operations).2.map fun _ => plan.report := by
  rw [exportGenerator_eq hread hplan]
  exact ⟨rfl, rfl⟩

/-- An export changes nothing before it comes to a plan. -/
theorem files_of_exportGenerator (p : Project) (t : FileTree) (path : Path) :
    (p.exportGenerator t path).files = t ∨ ∃ source plan, p.readForExport t path = .ok source ∧
      source.plan p.config t = .ok plan ∧
      (p.exportGenerator t path).files = (Operation.runAll t plan.operations).1 := by
  cases hread : p.readForExport t path with
  | error e =>
      left
      rw [exportGenerator, hread]
      rfl
  | ok source =>
      cases hplan : source.plan p.config t with
      | error e =>
          left
          rw [exportGenerator, hread]
          dsimp only
          rw [hplan]
      | ok plan => exact .inr ⟨source, plan, rfl, hplan, (exportGenerator_of hread hplan).1⟩

/-- A successful export read its source, came to a plan and carried it out. -/
theorem exportGenerator_eq_ok {report : ExportReport}
    (h : (p.exportGenerator t path).result = .ok report) :
    ∃ source plan, p.readForExport t path = .ok source ∧ source.plan p.config t = .ok plan ∧
      Operation.runAll t plan.operations = ((p.exportGenerator t path).files, .ok ()) ∧
      report = plan.report := by
  cases hread : p.readForExport t path with
  | error e =>
      rw [exportGenerator, hread] at h
      cases h
  | ok source =>
      cases hplan : source.plan p.config t with
      | error e =>
          rw [exportGenerator, hread] at h
          dsimp only at h
          rw [hplan] at h
          cases h
      | ok plan =>
          obtain ⟨hfiles, hresult⟩ := exportGenerator_of hread hplan
          rw [hresult] at h
          refine ⟨source, plan, rfl, hplan, ?_, ?_⟩
          · rw [hfiles]
            cases hrun : (Operation.runAll t plan.operations).2 with
            | error e =>
                rw [hrun] at h
                cases h
            | ok => rw [← hrun]
          · cases hrun : (Operation.runAll t plan.operations).2 with
            | error e =>
                rw [hrun] at h
                cases h
            | ok =>
                rw [hrun] at h
                cases h
                rfl

end Project

-- ── Carrying plans out ───────────────────────────────────────────────────────

/-- What is there after a plan was carried out: the output and the document, and every other file
    but a last output that was removed. -/
structure ExportPlan.Written (plan : ExportPlan) (t t' : FileTree) (o d : Location) : Prop where
  output : t'.Stands plan.output o plan.conversion.text
  document : t'.Stands plan.document d plan.generator.write
  flushed : t'.flushDirectory plan.output.directory = .ok () ∧
    t'.flushDirectory plan.document.directory = .ok ()
  keeps : t.Keeps t'
  others : ∀ l, l ≠ o → l ≠ d →
    (∀ previous ∈ plan.renamedFrom, t.locate previous ≠ .ok l) → t'.file? l = t.file? l

/-- What is there after the output and the document were written: both, unless the document took
    the place of the output. -/
structure ExportPlan.Saved (plan : ExportPlan) (t t' : FileTree) (o d : Location) : Prop where
  keeps : t.Keeps t'
  located : t'.locate plan.output = .ok o
  output : o ≠ d → t'.Stands plan.output o plan.conversion.text
  document : t'.Stands plan.document d plan.generator.write
  others : ∀ l, l ≠ o → l ≠ d → t'.file? l = t.file? l

theorem ExportPlan.saved_of_perform {plan : ExportPlan} {t t₁ t' : FileTree}
    (houtput : Operation.perform t (.write plan.output plan.conversion.text) = (t₁, .ok ()))
    (hdocument : Operation.perform t₁ (.write plan.document plan.generator.write) = (t', .ok ())) :
    ∃ o d, plan.Saved t t' o d := by
  obtain ⟨o, hout, hkeep₁, hfiles₁⟩ :=
    stands_of_replaceFile (Operation.perform_write_eq_ok.mp houtput)
  obtain ⟨d, hdoc, hkeep₂, hfiles₂⟩ :=
    stands_of_replaceFile (Operation.perform_write_eq_ok.mp hdocument)
  refine ⟨o, d, hkeep₁.trans hkeep₂, hkeep₂.locate hout.located, ?_, hdoc, ?_⟩
  · intro hne
    exact hout.keep hkeep₂ (by rw [hfiles₂ o hne, hout.content])
  · intro l hlo hld
    rw [hfiles₂ l hld, hfiles₁ l hlo]

/-- What is there after a file was removed, if there was one to remove. -/
structure FileTree.Drops (t t' : FileTree) (path? : Option Path) : Prop where
  keeps : t.Keeps t'
  gone : ∀ path ∈ path?, ∀ l, t.locate path = .ok l → t'.file? l = none
  others : ∀ l, (∀ path ∈ path?, t.locate path ≠ .ok l) → t'.file? l = t.file? l

theorem Operation.drops_of_performAll {t t' : FileTree} {path? : Option Path}
    (h : Operation.performAll t (path?.map Operation.remove).toList = (t', .ok ())) :
    t.Drops t' path? := by
  cases path? with
  | none =>
      cases h
      exact ⟨.refl t, fun _ hmem => (by cases hmem), fun _ _ => rfl⟩
  | some path =>
      obtain ⟨t₁, hperform, hdone⟩ := Operation.inOrder_cons_eq_ok.mp h
      cases hdone
      obtain ⟨hkeep, hgone, hfiles⟩ := run_remove t path
      rw [Operation.run_remove_eq, hperform] at hkeep hgone hfiles
      refine ⟨hkeep, ?_, fun l hl => hfiles l (hl path rfl)⟩
      rintro _ ⟨⟩ l hl
      exact hgone l hl

/-- A successful run of a plan wrote the output and the document, and then dropped a last output
    elsewhere. -/
theorem ExportPlan.saved_of_runAll {plan : ExportPlan} {t t' : FileTree}
    (h : Operation.runAll t plan.operations = (t', .ok ())) :
    ∃ t₂ o d, plan.Saved t t₂ o d ∧ t₂.Drops t' plan.renamedFrom := by
  obtain ⟨t₁, houtput, h⟩ :=
    Operation.inOrder_cons_eq_ok.mp (Operation.performAll_of_runAll h)
  obtain ⟨t₂, hdocument, h⟩ := Operation.inOrder_cons_eq_ok.mp h
  obtain ⟨o, d, hsaved⟩ := ExportPlan.saved_of_perform houtput hdocument
  exact ⟨t₂, o, d, hsaved, Operation.drops_of_performAll h⟩

/-- The directories that a run of a plan flushed can be flushed again. -/
theorem ExportPlan.flushed_of_runAll {plan : ExportPlan} {t t' : FileTree}
    (h : Operation.runAll t plan.operations = (t', .ok ())) :
    t'.flushDirectory plan.output.directory = .ok () ∧
      t'.flushDirectory plan.document.directory = .ok () := by
  obtain ⟨t₁, houtput, h⟩ := Operation.inOrder_cons_eq_ok.mp h
  obtain ⟨t₂, hdocument, h⟩ := Operation.inOrder_cons_eq_ok.mp h
  obtain ⟨-, hflush₁⟩ := Operation.run_write_eq_ok.mp houtput
  obtain ⟨hreplace, hflush₂⟩ := Operation.run_write_eq_ok.mp hdocument
  have hkeep := (Operation.drops_of_performAll (Operation.performAll_of_runAll h)).keeps
  exact ⟨((puts_of_replaceFile hreplace).2.trans hkeep).flushDirectory hflush₁,
    hkeep.flushDirectory hflush₂⟩

/-- A plan is carried out if its output is neither its document nor a last output that is to be
    removed, and the document is still there in the end. -/
theorem ExportPlan.written_of_runAll {plan : ExportPlan} {t t' : FileTree} {d : Location}
    (h : Operation.runAll t plan.operations = (t', .ok ()))
    (hfound : t.locate plan.document = .ok d) (hstill : t'.isFile plan.document = true)
    (hdocument : ∀ l, t'.locate plan.output = .ok l → t'.locate plan.document ≠ .ok l)
    (hprevious : ∀ previous ∈ plan.renamedFrom, ∃ l, t.locate previous = .ok l ∧
      t'.locate plan.output ≠ .ok l) :
    ∃ o, plan.Written t t' o d := by
  obtain ⟨t₂, o, d', hsaved, hdrops⟩ := ExportPlan.saved_of_runAll h
  have hdoc := hsaved.document
  obtain rfl : d' = d := by
    have hsame := hdoc.located
    rw [hsaved.keeps.locate hfound] at hsame
    exact (Except.ok.inj hsame).symm
  have hO : t'.locate plan.output = .ok o := hdrops.keeps.locate hsaved.located
  have hD : t'.locate plan.document = .ok d' := hdrops.keeps.locate hdoc.located
  have hne : o ≠ d' := by
    rintro rfl
    exact hdocument o hO hD
  have hkept : ∀ l, (∀ previous ∈ plan.renamedFrom, t.locate previous ≠ .ok l) →
      t'.file? l = t₂.file? l := by
    intro l hl
    refine hdrops.others l fun previous hmem heq => ?_
    obtain ⟨k, hk, -⟩ := hprevious previous hmem
    rw [hsaved.keeps.locate hk] at heq
    exact hl previous hmem (heq ▸ hk)
  refine ⟨o, ?_, ?_, plan.flushed_of_runAll h, hsaved.keeps.trans hdrops.keeps, ?_⟩
  · refine (hsaved.output hne).keep hdrops.keeps ?_
    rw [hkept o, (hsaved.output hne).content]
    intro previous hmem heq
    obtain ⟨k, hk, hno⟩ := hprevious previous hmem
    rw [hk] at heq
    exact hno (hO.trans heq.symm)
  · refine hdoc.keep hdrops.keeps ?_
    rw [hkept d', hdoc.content]
    intro previous hmem heq
    obtain ⟨l, content, hl, hcontent⟩ := isFile_iff.mp hstill
    rw [hD] at hl
    cases hl
    rw [hdrops.gone previous hmem d' (hsaved.keeps.locate heq)] at hcontent
    cases hcontent
  · intro l hlo hld hl
    rw [hkept l hl, hsaved.others l hlo hld]

end ShaderTemplates
