import ShaderTemplates.Proofs.Exports
import ShaderTemplates.Proofs.GeneratorDocuments
import ShaderTemplates.Proofs.ResolvedValues
import ShaderTemplates.Proofs.SettledGenerators
import ShaderTemplates.Proofs.StableOutputs

/-!
# Exporting again

A second export with nothing changed in between reads what the first one wrote: the generator as
it was saved, the same template, and the output as the last output.  Nothing is missing then, the
values of the conversion are the same, and the output has the same place.  What remains is that
the second export pulls blocks from the output, so it is idle exactly if the output shows each
stored block with its stored body (`exportGenerator_again`).

It does if the template, the bodies and the values are stable (`Stable`): then no block comes up
that the first export did not write, and each one that it wrote is read back as it is
(`isIdle_of_stable`).  A block whose body has a variable in it is one that the output does not show
like that: there the body has the value in the place of the variable (`exportGenerator_not_idle`).
-/

namespace ShaderTemplates

open Template FileTree

deriving instance DecidableEq for FileTree, Outcome, ExportSource

-- ── Places ───────────────────────────────────────────────────────────────────

namespace FileTree

/-- Both paths lead to the same place. -/
def SameFile (t : FileTree) (p q : Path) : Prop :=
  ∃ l, t.locate p = .ok l ∧ t.locate q = .ok l

/-- The path leads to a place at or below the directory. -/
def IsBelow (t : FileTree) (p dir : Path) : Prop :=
  ∃ l k, t.locate dir = .ok l ∧ t.locate p = .ok k ∧ l <+: k

instance (t : FileTree) (p q : Path) : Decidable (t.SameFile p q) :=
  match hp : t.locate p with
  | .ok l =>
    decidable_of_iff (t.locate q = .ok l)
      ⟨fun hq => ⟨l, hp, hq⟩, fun ⟨_, hp', hq⟩ => by cases hp.symm.trans hp'; exact hq⟩
  | .error _ => .isFalse fun ⟨_, hp', _⟩ => by cases hp.symm.trans hp'

instance (t : FileTree) (p dir : Path) : Decidable (t.IsBelow p dir) :=
  match hdir : t.locate dir, hp : t.locate p with
  | .ok l, .ok k =>
    decidable_of_iff (l.isPrefixOf k = true) (by
      rw [List.isPrefixOf_iff_prefix]
      constructor
      · intro h
        exact ⟨l, k, hdir, hp, h⟩
      · rintro ⟨l', k', hdir', hp', h⟩
        cases hdir.symm.trans hdir'
        cases hp.symm.trans hp'
        exact h)
  | .error _, _ => .isFalse fun ⟨_, _, hdir', _⟩ => by cases hdir.symm.trans hdir'
  | _, .error _ => .isFalse fun ⟨_, _, _, hp', _⟩ => by cases hp.symm.trans hp'

/-- Paths that do not lead to the same place lead to different ones. -/
theorem ne_of_not_sameFile {t : FileTree} {p q : Path} {l k : Location} (h : ¬ t.SameFile p q)
    (hp : t.locate p = .ok l) (hq : t.locate q = .ok k) : l ≠ k := by
  rintro rfl
  exact h ⟨l, hp, hq⟩

end FileTree

namespace ExportSource

theorem recorded_template (s : ExportSource) (config : Config) :
    (s.recorded config).template = s.generator.template := by
  show s.pulled.template = _
  rw [pulled]
  cases s.previous <;> rfl

/-- Neither pulling nor syncing nor recording the fixed values moves the output. -/
theorem recorded_outputPath (s : ExportSource) (config : Config) (dir : Path) (extension : String) :
    (s.recorded config).outputPath dir extension = s.generator.outputPath dir extension := by
  have houtputDir : (s.recorded config).outputDir = s.generator.outputDir := by
    show s.pulled.outputDir = _
    rw [pulled]
    cases s.previous <;> rfl
  have hname : (s.recorded config).name = s.generator.name := by
    show s.pulled.name = _
    rw [pulled]
    cases s.previous <;> rfl
  rw [Generator.outputPath, Generator.outputPath, Generator.outputDirectory,
    Generator.outputDirectory, hname, houtputDir]

end ExportSource

-- ── The second reading ───────────────────────────────────────────────────────

/-- What the second export reads. -/
def ExportPlan.again (plan : ExportPlan) (templateText : String) : ExportSource where
  document := plan.document
  generator := plan.generator
  templateText := templateText
  previous := some (plan.output, plan.conversion.text)

/-- What is left to do when the output and the document show the plan already. -/
def ExportPlan.settled (plan : ExportPlan) : ExportPlan :=
  { plan with pulled := [], synced := ⟨[], [], []⟩, previous := some plan.output }

theorem ExportPlan.settled_renamedFrom (plan : ExportPlan) : plan.settled.renamedFrom = none := by
  show Option.filter (fun previous => !decide (previous.SamePlace plan.output))
    (some plan.output) = none
  have hsame : plan.output.SamePlace plan.output := rfl
  rw [Option.filter_some, decide_eq_true hsame]
  rfl

/-- The second plan, if no block is edited in the output. -/
theorem plan_again {s : ExportSource} {config : Config} {t t' : FileTree} {plan : ExportPlan}
    (h : s.plan config t = .ok plan)
    (hedited : plan.generator.editedBlocks plan.conversion.text = []) :
    (plan.again s.templateText).plan config t' = .ok plan.settled := by
  obtain ⟨values, conversion, output, hvalues, hconversion, houtput, -, rfl⟩ :=
    ExportSource.plan_eq_ok.mp h
  have hcovers : (s.planFor config output conversion).generator.values.Covers
      (scan s.templateText) :=
    Generator.covers_recordFixed (Generator.covers_sync s.pulled (scan s.templateText))
  obtain ⟨again, hagain⟩ :
      ∃ a, a = ExportPlan.again (s.planFor config output conversion) s.templateText := ⟨_, rfl⟩
  have htext : again.templateText = s.templateText := by rw [hagain]; rfl
  have hpulled : again.pulled = (s.planFor config output conversion).generator := by
    rw [hagain]
    exact Generator.pull_of_not_edited hedited
  have hnames : again.pulledNames = [] := by
    rw [hagain]
    exact Generator.pulledNames_eq_nil.mpr hedited
  have hsynced : again.synced = (s.planFor config output conversion).generator := by
    rw [ExportSource.synced, htext, hpulled, Generator.sync_of_covers hcovers]
  have hrecorded : again.recorded config = (s.planFor config output conversion).generator := by
    rw [ExportSource.recorded, hsynced, htext]
    exact Generator.recordFixed_recordFixed s.synced _ _ _
  rw [← hagain]
  refine ExportSource.plan_eq_ok.mpr ⟨values, conversion, output, ?_, ?_, ?_, ?_, ?_⟩
  · rw [hsynced, htext, ← hvalues]
    exact Generator.resolve_recordFixed s.synced _ _ _
  · rw [htext, hconversion]
  · rw [hrecorded, hagain]
    exact houtput
  · rw [hagain]
    rintro previous hprevious
    cases hprevious
    exact .inl rfl
  · unfold ExportSource.planFor at hpulled hrecorded hcovers ⊢
    rw [hrecorded, hnames, hpulled, htext, Generator.missing_of_covers hcovers, hagain]
    rfl

namespace Project

variable {p : Project} {t : FileTree} {path : Path}

/-- An export that changes no file, takes nothing over, adds nothing and moves nothing. -/
def IsIdle (p : Project) (t : FileTree) (path : Path) : Prop :=
  (p.exportGenerator t path).files = t ∧
    ∃ report, (p.exportGenerator t path).result = .ok report ∧
      report.pulled = [] ∧ report.synced.isEmpty = true ∧ report.renamedFrom = none

-- ── The first export ─────────────────────────────────────────────────────────

theorem outputsIn_of_outputPath {g : Generator} {extension : String} {document output : Path}
    {previous? : Option Path} (hextension : HasNoSeparator extension)
    (houtput : g.outputPath document.directory extension = .ok output)
    (hexported : g.exportedPath document.directory = .ok previous?) :
    ∃ base, OutputsIn base document output previous? := by
  obtain ⟨base, hfile, hbase, hchild⟩ := Generator.outputPath_eq_ok hextension houtput
  refine ⟨base, Generator.outputDirectory_eq_ok hbase, ⟨_, isStep_of_checkFileName hfile, hchild⟩,
    ?_⟩
  rintro previous rfl
  obtain ⟨fileName, base', -, hname, hbase', hprevious⟩ := Generator.exportedPath_eq_ok hexported
  rw [hbase] at hbase'
  cases hbase'
  exact ⟨fileName, isStep_of_checkFileName hname, hprevious⟩

theorem outputsIn_of_plan {source : ExportSource} {plan : ExportPlan} {config : Config}
    {previous? : Option Path} (hextension : HasNoSeparator config.outputExtension)
    (hplan : source.plan config t = .ok plan)
    (hexported : source.generator.exportedPath source.document.directory = .ok previous?) :
    ∃ base, OutputsIn base source.document plan.output previous? := by
  obtain ⟨values, conversion, output, -, -, houtput, -, rfl⟩ := ExportSource.plan_eq_ok.mp hplan
  rw [ExportSource.recorded_outputPath] at houtput
  exact outputsIn_of_outputPath hextension houtput hexported

/-- A successful export leaves its output and its document standing, if the output is not the
    document and the document is not removed as the last output. -/
theorem written_of_exportGenerator {report : ExportReport}
    (h : (p.exportGenerator t path).result = .ok report)
    (hextension : HasNoSeparator p.config.outputExtension)
    (hdocument : ¬ (p.exportGenerator t path).files.SameFile report.output path)
    (hstill : (p.exportGenerator t path).files.isFile path = true) :
    ∃ source plan base previous? o d, p.readForExport t path = .ok source ∧
      source.plan p.config t = .ok plan ∧ report = plan.report ∧ plan.document = path ∧
      OutputsIn base path plan.output previous? ∧
      (∀ previous ∈ plan.renamedFrom, previous ∈ previous? ∧ t.isFile previous = true) ∧
      plan.Written t (p.exportGenerator t path).files o d := by
  obtain ⟨source, plan, hread, hplan, hrun, rfl⟩ := exportGenerator_eq_ok h
  obtain ⟨g, catalog, template, templateText, exported, previous?, hload, -, -, -, hexported,
    hlast, rfl⟩ := readForExport_eq_ok.mp hread
  obtain ⟨base, houtputs⟩ := outputsIn_of_plan hextension hplan hexported
  obtain ⟨values, conversion, output, -, -, -, -, hparts⟩ := ExportSource.plan_eq_ok.mp hplan
  have hpath : plan.document = path := by rw [hparts]; rfl
  have hmoved : ∀ previous ∈ plan.renamedFrom,
      ¬ previous.SamePlace plan.output ∧ previous ∈ exported ∧ t.isFile previous = true := by
    intro previous hmem
    obtain ⟨hprev, hplace⟩ := Option.filter_eq_some_iff.mp hmem
    rw [hparts] at hprev
    obtain ⟨last, rfl, rfl⟩ := Option.map_eq_some_iff.mp hprev
    obtain ⟨hrecorded, hreadText⟩ := lastOutput_eq_some hlast
    exact ⟨by simpa using hplace, hrecorded, isFile_of_readText hreadText⟩
  obtain ⟨-, text, hdocumentText, -⟩ := Generator.load_eq_ok hload
  obtain ⟨d, hd, -⟩ := readText_eq_ok.mp hdocumentText
  obtain ⟨o, hwritten⟩ := ExportPlan.written_of_runAll hrun (by rw [hpath]; exact hd)
    (by rw [hpath]; exact hstill) (fun l ho hdoc => hdocument ⟨l, ho, hpath ▸ hdoc⟩) (by
      intro previous hmem
      obtain ⟨hplace, hrecorded, hfile⟩ := hmoved previous hmem
      obtain ⟨l, content, hl, -⟩ := isFile_iff.mp hfile
      refine ⟨l, hl, fun ho => ?_⟩
      exact hplace (houtputs.eq_of_locate hrecorded hl ho ▸ rfl))
  exact ⟨_, plan, base, exported, o, d, hread, hplan, rfl, hpath, houtputs,
    fun previous hmem => (hmoved previous hmem).2, hwritten⟩

/-- An export whose output is not below the templates leaves them as they are. -/
theorem sameFilesBelow_of_written {plan : ExportPlan} {t' : FileTree} {base : Path}
    {previous? : Option Path} {o d l : Location}
    (houtputs : OutputsIn base path plan.output previous?)
    (hpath : plan.document = path)
    (hmoved : ∀ previous ∈ plan.renamedFrom, previous ∈ previous? ∧ t.isFile previous = true)
    (hwritten : plan.Written t t' o d) (hl : t.get? l = some .directory) (hbelow : ¬ l <+: o) :
    t.SameFilesBelow t' l := by
  intro k hk
  have ho := hwritten.output.located
  have hl' := hwritten.keeps.directory l hl
  refine hwritten.others k ?_ ?_ ?_
  · rintro rfl
    exact hbelow hk
  · rintro rfl
    have hfile := not_directory_of_file? hwritten.document.content
    have hne : l ≠ k := by
      rintro rfl
      exact hfile hl'
    exact hbelow (houtputs.prefix_of_document ho (hpath ▸ hwritten.document.located) hfile hk hne)
  · intro previous hmem hlocate
    obtain ⟨hrecorded, hfile⟩ := hmoved previous hmem
    obtain ⟨k', content, hk', hcontent⟩ := isFile_iff.mp hfile
    rw [hlocate] at hk'
    cases hk'
    have hne : l ≠ k := by
      rintro rfl
      exact not_directory_of_file? hcontent hl
    exact hbelow (houtputs.prefix_of_previous ho hrecorded (hwritten.keeps.locate hlocate) hk hne)

-- ── The second export ────────────────────────────────────────────────────────

/-- The generator that is saved has the template that was found, and records the output. -/
theorem generator_of_plan {source : ExportSource} {plan : ExportPlan} {config : Config}
    (hextension : HasNoSeparator config.outputExtension)
    (hplan : source.plan config t = .ok plan) :
    plan.document = source.document ∧ plan.generator.template = source.generator.template ∧
      plan.generator.exportedPath source.document.directory = .ok (some plan.output) := by
  obtain ⟨values, conversion, output, -, -, houtput, -, rfl⟩ := ExportSource.plan_eq_ok.mp hplan
  exact ⟨rfl, source.recorded_template config,
    Generator.exportedPath_output hextension source.document.directory_ne_empty houtput⟩

/-- The second export reads what the first one wrote. -/
theorem readForExport_again {source : ExportSource} {plan : ExportPlan} {t' : FileTree}
    {base : Path} {previous? : Option Path} {o d : Location}
    (hextension : HasNoSeparator p.config.outputExtension)
    (hread : p.readForExport t path = .ok source) (hplan : source.plan p.config t = .ok plan)
    (hpath : plan.document = path) (houtputs : OutputsIn base path plan.output previous?)
    (hmoved : ∀ previous ∈ plan.renamedFrom, previous ∈ previous? ∧ t.isFile previous = true)
    (hwritten : plan.Written t t' o d)
    (htemplates : ∀ dir, p.templatesDirectory = .ok dir → ¬ t'.IsBelow plan.output dir) :
    p.readForExport t' path = .ok (plan.again source.templateText) := by
  obtain ⟨g, catalog, template, templateText, exported, last, hload, hcatalog, hname, htext,
    hexported, hlast, rfl⟩ := readForExport_eq_ok.mp hread
  obtain ⟨-, htemplate, hrecorded⟩ := generator_of_plan hextension hplan
  obtain ⟨dir, hdir, hlist, hsome⟩ := selectableCatalog_eq_ok.mp hcatalog
  obtain ⟨l, hl, hdirectory, -, -⟩ := Catalog.load_of_not_isEmpty hlist hsome
  obtain ⟨fileName, -, hlisted, hne, -⟩ := Catalog.read_eq_ok hlist (locate_eq_ok.mp hl).1 htext
  have hfiles : t.SameFilesBelow t' l := by
    refine sameFilesBelow_of_written houtputs hpath hmoved hwritten hdirectory fun hbelow => ?_
    exact htemplates dir hdir ⟨l, o, hwritten.keeps.locate hl, hwritten.output.located, hbelow⟩
  have hsame : Catalog.load t' dir p.config.templatesExtension = .ok catalog := by
    rw [← hlist]
    exact Catalog.load_congr hl (hwritten.keeps.locate hl) hwritten.keeps.process
      (iff_of_true (hwritten.keeps.directory l hdirectory) hdirectory)
      (fun k hk => by rw [hfiles k hk]) _
  have hdocument := hwritten.document
  rw [hpath] at hdocument
  refine readForExport_eq_ok.mpr ⟨plan.generator, catalog, template, templateText, some plan.output,
    some (plan.output, plan.conversion.text),
    Generator.load_of_stands hdocument (Generator.parse?_write plan.generator),
    selectableCatalog_eq_ok.mpr ⟨dir, hdir, hsame, hsome⟩, ?_,
    Catalog.read_keep hlist hl hwritten.keeps hfiles htext, hrecorded,
    lastOutput_of_readText hwritten.output.readText, ?_⟩
  · rw [htemplate]
    exact Catalog.resolveName_name hne hlisted
  · have hgenerator : { plan.generator with template } = plan.generator := by
      have htemplate' : template = plan.generator.template := htemplate.symm
      rw [htemplate']
    rw [hgenerator, ← hpath]
    rfl

/-- A plan that finds its output and its document as it would write them changes nothing. -/
theorem runAll_of_stands (plan : ExportPlan) {o d : Location}
    (houtput : t.Stands plan.output o plan.conversion.text)
    (hdocument : t.Stands plan.document d plan.generator.write)
    (hflushed : t.flushDirectory plan.output.directory = .ok () ∧
      t.flushDirectory plan.document.directory = .ok ())
    (hrenamed : plan.renamedFrom = none) :
    Operation.runAll t plan.operations = (t, .ok ()) := by
  rw [ExportPlan.operations]
  rw [hrenamed]
  show Operation.runAll t [.write plan.output _, .write plan.document _] = _
  rw [Operation.runAll_cons, Operation.run_write_of_stands houtput hflushed.1]
  dsimp only
  rw [Operation.runAll_cons, Operation.run_write_of_stands hdocument hflushed.2]
  rfl

/-- With what the first export wrote, a second one is idle exactly if it would pull nothing. -/
theorem isIdle_iff_of_written {source : ExportSource} {plan : ExportPlan} {t' t₀ : FileTree}
    {o d : Location} (hplan : source.plan p.config t = .ok plan)
    (hread : p.readForExport t' path = .ok (plan.again source.templateText))
    (hwritten : plan.Written t₀ t' o d) :
    p.IsIdle t' path ↔ plan.generator.editedBlocks plan.conversion.text = [] := by
  constructor
  · rintro ⟨-, report, hreport, hpulled, -, -⟩
    obtain ⟨source', plan', hread', hplan', -, rfl⟩ := exportGenerator_eq_ok hreport
    rw [hread] at hread'
    cases hread'
    obtain ⟨values, conversion, output, -, -, -, -, rfl⟩ := ExportSource.plan_eq_ok.mp hplan'
    exact Generator.pulledNames_eq_nil.mp hpulled
  · intro hedited
    have hrun := runAll_of_stands plan.settled hwritten.output hwritten.document
      hwritten.flushed plan.settled_renamedFrom
    obtain ⟨hfiles, hresult⟩ := exportGenerator_of hread (plan_again hplan hedited)
    rw [hrun] at hfiles hresult
    exact ⟨hfiles, plan.settled.report, hresult, rfl, rfl, plan.settled_renamedFrom⟩

/-- Without its document an export is not idle: it fails. -/
theorem isFile_of_isIdle (h : p.IsIdle t path) : t.isFile path = true := by
  obtain ⟨-, report, hreport, -⟩ := h
  obtain ⟨source, plan, hread, -, -, -⟩ := exportGenerator_eq_ok hreport
  obtain ⟨g, -, -, -, -, -, hload, -⟩ := readForExport_eq_ok.mp hread
  exact (Generator.load_eq_ok hload).1

/-- A second export is idle exactly if the document is still there and each block that the output
    shows and the document stores has the stored body. -/
theorem isIdle_iff_shown {report : ExportReport}
    (h : (p.exportGenerator t path).result = .ok report)
    (hextension : HasNoSeparator p.config.outputExtension)
    (hdocument : ¬ (p.exportGenerator t path).files.SameFile report.output path)
    (htemplates : ∀ dir, p.templatesDirectory = .ok dir →
      ¬ (p.exportGenerator t path).files.IsBelow report.output dir) :
    p.IsIdle (p.exportGenerator t path).files path ↔
      ∃ g text, Generator.load (p.exportGenerator t path).files path = .ok g ∧
        (p.exportGenerator t path).files.readText report.output = .ok text ∧
        ∀ e ∈ (scan text).blocks.entries, ∀ stored,
          g.values.blocks.get? e.1 = some stored → stored = e.2 := by
  by_cases hstill : (p.exportGenerator t path).files.isFile path = true
  · obtain ⟨source, plan, base, previous?, o, d, hread, hplan, rfl, hpath, houtputs, hmoved,
      hwritten⟩ := written_of_exportGenerator h hextension hdocument hstill
    have hstands := hwritten.document
    rw [hpath] at hstands
    have hload := Generator.load_of_stands hstands (Generator.parse?_write plan.generator)
    have htext : (p.exportGenerator t path).files.readText plan.report.output =
        .ok plan.conversion.text := hwritten.output.readText
    rw [isIdle_iff_of_written hplan (readForExport_again hextension hread hplan hpath houtputs
      hmoved hwritten htemplates) hwritten, Generator.editedBlocks_eq_nil]
    constructor
    · intro hblocks
      exact ⟨plan.generator, plan.conversion.text, hload, htext, hblocks⟩
    · rintro ⟨g, text, hg, hreadText, hblocks⟩
      rw [hload] at hg
      rw [htext] at hreadText
      cases hg
      cases hreadText
      exact hblocks
  · -- the export removed its own document as the last output
    constructor
    · intro hidle
      exact absurd (isFile_of_isIdle hidle) hstill
    · rintro ⟨g, text, hload, -⟩
      exact absurd (Generator.load_eq_ok hload).1 hstill

/-- The saved generator gives the values of the conversion. -/
theorem resolve_of_plan {source : ExportSource} {plan : ExportPlan} {config : Config}
    (hplan : source.plan config t = .ok plan) :
    ∃ values, plan.generator.resolve (scan source.templateText) config.constants = .ok values ∧
      convert source.templateText values = .ok plan.conversion := by
  obtain ⟨values, conversion, output, hvalues, hconversion, -, -, rfl⟩ :=
    ExportSource.plan_eq_ok.mp hplan
  exact ⟨values, (Generator.resolve_recordFixed source.synced _ _ _).trans hvalues, hconversion⟩

/-- A second export is idle if what it reads is stable. -/
theorem isIdle_of_stable {report : ExportReport}
    (h : (p.exportGenerator t path).result = .ok report)
    (hextension : HasNoSeparator p.config.outputExtension)
    (hdocument : ¬ (p.exportGenerator t path).files.SameFile report.output path)
    (htemplates : ∀ dir, p.templatesDirectory = .ok dir →
      ¬ (p.exportGenerator t path).files.IsBelow report.output dir)
    {source : ExportSource} {values : Values} {text : List Char × Nat}
    (hsource : p.readForExport (p.exportGenerator t path).files path = .ok source)
    (hvalues : source.generator.resolve (scan source.templateText) p.config.constants = .ok values)
    (htext : structured source.templateText values = .ok text) (hstable : Stable text.1 values) :
    p.IsIdle (p.exportGenerator t path).files path := by
  obtain ⟨_, _, _, _, _, _, hload, -⟩ := readForExport_eq_ok.mp hsource
  obtain ⟨first, plan, base, previous?, o, d, hread, hplan, rfl, hpath, houtputs, hmoved,
    hwritten⟩ := written_of_exportGenerator h hextension hdocument (Generator.load_eq_ok hload).1
  have hagain :=
    readForExport_again hextension hread hplan hpath houtputs hmoved hwritten htemplates
  obtain ⟨firstValues, hresolve, hconvert⟩ := resolve_of_plan hplan
  obtain rfl : source = plan.again first.templateText :=
    Except.ok.inj (hsource.symm.trans hagain)
  obtain rfl : values = firstValues := Except.ok.inj (hvalues.symm.trans hresolve)
  refine (isIdle_iff_of_written hplan hagain hwritten).mpr (Generator.editedBlocks_eq_nil.mpr ?_)
  intro e he stored hstored
  have hshown := blocks_of_stable htext hstable hconvert e he
  exact (Generator.stored_of_resolve hresolve hstored hshown).symm

/-- A second export is idle exactly if the document is still there and each block that the output
    shows and the document stores has the stored body.  This is so if what it reads is stable. -/
theorem exportGenerator_again {report : ExportReport}
    (h : (p.exportGenerator t path).result = .ok report)
    (hextension : HasNoSeparator p.config.outputExtension)
    (hdocument : ¬ (p.exportGenerator t path).files.SameFile report.output path)
    (htemplates : ∀ dir, p.templatesDirectory = .ok dir →
      ¬ (p.exportGenerator t path).files.IsBelow report.output dir) :
    (p.IsIdle (p.exportGenerator t path).files path ↔
      ∃ g text, Generator.load (p.exportGenerator t path).files path = .ok g ∧
        (p.exportGenerator t path).files.readText report.output = .ok text ∧
        ∀ e ∈ (scan text).blocks.entries, ∀ stored,
          g.values.blocks.get? e.1 = some stored → stored = e.2) ∧
      ∀ source values text,
        p.readForExport (p.exportGenerator t path).files path = .ok source →
        source.generator.resolve (scan source.templateText) p.config.constants = .ok values →
        structured source.templateText values = .ok text → Stable text.1 values →
        p.IsIdle (p.exportGenerator t path).files path :=
  ⟨isIdle_iff_shown h hextension hdocument htemplates, fun _ _ _ hsource hvalues htext hstable =>
    isIdle_of_stable h hextension hdocument htemplates hsource hvalues htext hstable⟩

/-- A project in the working directory. -/
def sampleProject (extension : String) : Project :=
  ⟨.here, { name := "p", outputExtension := extension }⟩

/-- The path of the document in `sampleFiles`. -/
def sampleDocument : Path := ⟨"A.gen.toml", []⟩

/-- The files of the sample project: one template and a document for it. -/
def sampleFiles (templateText : String) (g : Generator) : FileTree :=
  let t := ((∅ : FileTree).replaceFile ⟨"templates", ["T.tmpl"]⟩ templateText).1
  (t.replaceFile sampleDocument g.write).1

/-- A generator without any values. -/
def sampleGenerator : Generator := { name := "A", template := "T" }

/-- The generator after an export to a file. -/
def sampleExported (fileName : String) (values : Values) : Generator :=
  { sampleGenerator with exported := some fileName, values }

theorem sampleProject_templatesDirectory (extension : String) :
    (sampleProject extension).templatesDirectory = .ok ⟨".", ["templates"]⟩ := by
  show Path.here.joinBelow (Path.ofString "templates") = _
  decide

/-- A template with a block that has no variable in it. -/
def blockTemplate : String := "// @block B\nx\n// @endblock"

/-- A template with line breaks of two characters, a variable, and a block that has none in it. -/
def stableTemplate : String := "<Name>\r\n// @block B\r\nx\r\n// @endblock"

/-- The values for the template. -/
def stableValues : Values := ((∅ : Values).setBlock "B" "x").setVariable "Name" "A"

theorem stable_stableTemplate : Stable stableTemplate.toList stableValues where
  apart := by decide +kernel
  bodies := by
    have hblocks : (blocks stableTemplate.toList).map Block.name = ["B"] := by decide +kernel
    intro b hb body hbody
    have hname : b.name = "B" := by
      have hmem := List.mem_map_of_mem (f := Block.name) hb
      rwa [hblocks, List.mem_singleton] at hmem
    rw [hname] at hbody
    cases hbody
    have hvisible : Visible ['x'] := ⟨'x', by decide, by decide⟩
    exact .clean ⟨by decide, by decide, by decide, .inr ⟨hvisible, hvisible⟩⟩
  values := by
    intro name value hvalue
    have hmem : (name, value) ∈ [("Name", "A")] := SortedMap.mem_of_lookup hvalue
    cases List.mem_singleton.mp hmem
    decide

theorem exportGenerator_again_sample :
    ∃ report source text,
      ((sampleProject "shader").exportGenerator (sampleFiles stableTemplate sampleGenerator)
        sampleDocument).result = .ok report ∧
      (sampleProject "shader").readForExport ((sampleProject "shader").exportGenerator
        (sampleFiles stableTemplate sampleGenerator) sampleDocument).files sampleDocument =
          .ok source ∧
      structured source.templateText stableValues = .ok text ∧ Stable text.1 stableValues ∧
      (sampleProject "shader").IsIdle ((sampleProject "shader").exportGenerator
        (sampleFiles stableTemplate sampleGenerator) sampleDocument).files sampleDocument := by
  have hfirst : (sampleProject "shader").exportGenerator
      (sampleFiles stableTemplate sampleGenerator) sampleDocument = {
        files := ((sampleFiles stableTemplate (sampleExported "A.shader" stableValues)).replaceFile
          ⟨".", ["A.shader"]⟩ "A\n// @block B\nx\n// @endblock").1
        warnings := []
        result := .ok
          ⟨sampleDocument, ⟨".", ["A.shader"]⟩, "T", [], ⟨[], ["B"], ["Name"]⟩, none,
            ⟨0, 1, 1⟩⟩ } := by
    decide +kernel
  have hread : (sampleProject "shader").readForExport ((sampleProject "shader").exportGenerator
      (sampleFiles stableTemplate sampleGenerator) sampleDocument).files sampleDocument =
        .ok ⟨sampleDocument, sampleExported "A.shader" stableValues, stableTemplate,
          some (⟨".", ["A.shader"]⟩, "A\n// @block B\nx\n// @endblock")⟩ := by
    rw [hfirst]
    decide +kernel
  have htext : structured stableTemplate stableValues = .ok (stableTemplate.toList, 0) := by
    decide +kernel
  refine ⟨_, _, _, congrArg Outcome.result hfirst, hread, htext, stable_stableTemplate,
    (exportGenerator_again (congrArg Outcome.result hfirst) (by decide) ?_ ?_).2 _ _ _ hread
      (by decide +kernel) htext stable_stableTemplate⟩
  · rw [hfirst]
    decide +kernel
  · intro dir hdir
    rw [sampleProject_templatesDirectory] at hdir
    cases hdir
    rw [hfirst]
    decide +kernel

/-- A template with a variable in its block. -/
def variableTemplate : String := "// @block B\n<Name>\n// @endblock"

/-- A second export need not be idle: the output shows a body with the value in the place of a
    variable, and if an extension has a separator in it, then the last output is looked for in
    another place than it is. -/
theorem exportGenerator_not_idle :
    (¬ ∀ (p : Project) (t : FileTree) (path : Path) (report : ExportReport),
      (p.exportGenerator t path).result = .ok report →
      HasNoSeparator p.config.outputExtension →
      ¬ (p.exportGenerator t path).files.SameFile report.output path →
      (∀ dir, p.templatesDirectory = .ok dir →
        ¬ (p.exportGenerator t path).files.IsBelow report.output dir) →
      p.IsIdle (p.exportGenerator t path).files path) ∧
    ¬ ∀ (p : Project) (t : FileTree) (path : Path) (report : ExportReport) (g : Generator),
      (p.exportGenerator t path).result = .ok report →
      ¬ (p.exportGenerator t path).files.SameFile report.output path →
      (∀ dir, p.templatesDirectory = .ok dir →
        ¬ (p.exportGenerator t path).files.IsBelow report.output dir) →
      Generator.load (p.exportGenerator t path).files path = .ok g →
      g.values.blocks = ∅ →
      p.IsIdle (p.exportGenerator t path).files path := by
  constructor
  · intro h
    have hfirst : (sampleProject "shader").exportGenerator
        (sampleFiles variableTemplate sampleGenerator) sampleDocument = {
          files := ((sampleFiles variableTemplate (sampleExported "A.shader"
            (((∅ : Values).setBlock "B" "<Name>").setVariable "Name" "A"))).replaceFile
              ⟨".", ["A.shader"]⟩ "// @block B\nA\n// @endblock").1
          warnings := []
          result := .ok ⟨sampleDocument, ⟨".", ["A.shader"]⟩, "T", [], ⟨[], ["B"], ["Name"]⟩, none,
            ⟨0, 1, 1⟩⟩ } := by
      decide +kernel
    obtain ⟨-, report, hreport, hpulled, -⟩ := h (sampleProject "shader")
      (sampleFiles variableTemplate sampleGenerator) sampleDocument _
      (congrArg Outcome.result hfirst) (by decide) (by rw [hfirst]; decide +kernel) (by
        intro dir hdir
        rw [sampleProject_templatesDirectory] at hdir
        cases hdir
        rw [hfirst]
        decide +kernel)
    rw [hfirst] at hreport
    have hsecond : ((sampleProject "shader").exportGenerator ((sampleFiles variableTemplate
        (sampleExported "A.shader"
          (((∅ : Values).setBlock "B" "<Name>").setVariable "Name" "A"))).replaceFile
            ⟨".", ["A.shader"]⟩ "// @block B\nA\n// @endblock").1 sampleDocument).result =
        .ok ⟨sampleDocument, ⟨".", ["A.shader"]⟩, "T", ["B"], ⟨[], [], []⟩, none, ⟨0, 1, 0⟩⟩ := by
      decide +kernel
    rw [hsecond] at hreport
    cases hreport
    cases hpulled
  · intro h
    have hfirst : (sampleProject "shader/y").exportGenerator
        ((sampleFiles "x" sampleGenerator).replaceFile ⟨"y", []⟩ "").1 sampleDocument = {
          files := (((sampleFiles "x" (sampleExported "y" ∅)).replaceFile ⟨"y", []⟩ "").1.replaceFile
            ⟨".", ["A.shader", "y"]⟩ "x").1
          warnings := []
          result := .ok ⟨sampleDocument, ⟨".", ["A.shader", "y"]⟩, "T", [], ⟨[], [], []⟩, none,
            ⟨0, 0, 0⟩⟩ } := by
      decide +kernel
    obtain ⟨-, report, hreport, -⟩ := h (sampleProject "shader/y")
      ((sampleFiles "x" sampleGenerator).replaceFile ⟨"y", []⟩ "").1 sampleDocument _
      (sampleExported "y" ∅) (congrArg Outcome.result hfirst) (by rw [hfirst]; decide +kernel) (by
        intro dir hdir
        rw [sampleProject_templatesDirectory] at hdir
        cases hdir
        rw [hfirst]
        decide +kernel)
      (by rw [hfirst]; decide +kernel) rfl
    rw [hfirst] at hreport
    have hsecond : ((sampleProject "shader/y").exportGenerator (((sampleFiles "x"
        (sampleExported "y" ∅)).replaceFile ⟨"y", []⟩ "").1.replaceFile
          ⟨".", ["A.shader", "y"]⟩ "x").1 sampleDocument).result =
        .error (.outputConflict ⟨".", ["y"]⟩ ⟨".", ["A.shader", "y"]⟩) := by
      decide +kernel
    rw [hsecond] at hreport
    cases hreport

end Project

end ShaderTemplates
