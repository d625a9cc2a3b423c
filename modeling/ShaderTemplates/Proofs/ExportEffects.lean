import ShaderTemplates.Proofs.KeptChoices
import ShaderTemplates.Proofs.RecordedOutputs

/-!
# What a successful export changes

On disk a successful export changes its output, its document and, if that is somewhere else, the
last output; directories above the output may be new, and everything else is as it was
(`ExportReport.Changes`).  In the document it keeps the choices of the generator
(`Generator.Carries`).  Both together, for an export whose document is neither its output nor its
last output, are `choices_kept`.
-/

namespace ShaderTemplates

open Template FileTree Operation

variable {t t' : FileTree} {path : Path}

/-- The changes on disk that a report stands for: the output has the text, the document has the text
    of the saved generator, and a last output somewhere else is gone.  If the path of the last
    output led to the place of the new one, then the new one is gone with it. -/
structure ExportReport.Changes (report : ExportReport) (t t' : FileTree) (text saved : String)
    (o d : Location) : Prop where
  process : t'.process = t.process
  output : t'.locate report.output = .ok o
  document : t'.locate report.document = .ok d
  apart : o ≠ d
  written : (∀ last ∈ report.renamedFrom, t.locate last ≠ .ok o) →
    t'.get? o = some (.file (.text text))
  stored : t'.get? d = some (.file (.text saved))
  removed : ∀ last ∈ report.renamedFrom, ∃ l, t.locate last = .ok l ∧ t'.get? l = none
  others : ∀ k, k ≠ o → k ≠ d → (∀ last ∈ report.renamedFrom, t.locate last ≠ .ok k) →
    t'.get? k = t.get? k ∨ t.NewDirectory t' report.output.directory.ancestors k

/-- The report of an export before it removes anything. -/
def ExportReport.unmoved (report : ExportReport) : ExportReport :=
  { report with renamedFrom := none }

/-- After the output and the document were written, the last output is removed. -/
theorem ExportReport.Changes.remove {report : ExportReport} {text saved : String}
    {o d l : Location} (h : report.unmoved.Changes t t' text saved o d) {last : Path}
    (hlast : report.renamedFrom = some last) (hl : t.locate last = .ok l) {content : Content}
    (hcontent : t'.get? l = some (.file content)) (hld : l ≠ d) :
    report.Changes t (t'.dropFile l) text saved o d := by
  have hkeep := keeps_dropFile hcontent
  have hget := get?_dropFile hcontent
  refine ⟨hkeep.process.trans h.process, hkeep.locate h.output, hkeep.locate h.document, h.apart,
    ?_, ?_, ?_, ?_⟩
  · intro hother
    rw [hget, if_neg]
    · exact h.written (by rintro _ ⟨⟩)
    · rintro rfl
      exact hother last hlast hl
  · rw [hget, if_neg hld.symm]
    exact h.stored
  · intro other hmem
    cases hlast.symm.trans hmem
    exact ⟨l, hl, by rw [hget, if_pos rfl]⟩
  · intro k hko hkd hk
    have hkl : k ≠ l := by
      rintro rfl
      exact hk last hlast hl
    have hsame : (t'.dropFile l).get? k = t'.get? k := by rw [hget, if_neg hkl]
    rcases h.others k hko hkd (by rintro _ ⟨⟩) with hkept | hnew
    · exact .inl (hsame.trans hkept)
    · exact .inr (hnew.keep hsame hkeep)

namespace ExportPlan

variable {plan : ExportPlan}

/-- The changes of the first two operations of a plan, whose document was there already. -/
theorem changes_of_saving {t₁ t₂ : FileTree} {d : Location} {old : Content}
    (houtput : run t (.write plan.output plan.conversion.text) = (t₁, .ok ()))
    (hdocument : run t₁ (.write plan.document plan.generator.write) = (t₂, .ok ()))
    (hd : t.locate plan.document = .ok d) (hold : t.file? d = some old)
    (hother : ¬ t₂.SameFile plan.output plan.document) :
    t.Keeps t₂ ∧ ∃ o, plan.report.unmoved.Changes t t₂ plan.conversion.text
      plan.generator.write o d := by
  obtain ⟨⟨o, hputs⟩, hkeep⟩ := puts_of_replaceFile (run_write_eq_ok.mp houtput).1
  have hkeep' := (puts_of_replaceFile (run_write_eq_ok.mp hdocument).1).2
  have ho := hkeep'.locate hputs.stands.located
  have hd' := hkeep'.locate (hkeep.locate hd)
  have hne := ne_of_not_sameFile hother ho hd'
  -- the document is there, so saving it makes no directory
  have hfile : t₁.file? d = some old := (hputs.file? hne.symm).trans hold
  obtain ⟨hprocess, hentries⟩ :=
    entries_of_replaceFile (hkeep.locate hd) hfile (run_write_eq_ok.mp hdocument).1
  have hget := get?_of_insert (ne_root_of_file? hold) hentries
  refine ⟨hkeep.trans hkeep', o, hprocess.trans hputs.process, ho,
    hd', hne, fun _ => ?_, ?_, ?_, ?_⟩
  · rw [hget, if_neg hne]
    exact file?_eq_some.mp hputs.stands.content
  · rw [hget, if_pos rfl]
  · rintro last ⟨⟩
  · intro k hko hkd _
    have hsame : t₂.get? k = t₁.get? k := by rw [hget, if_neg hkd]
    rcases hputs.entries k hko with hkept | hnew
    · exact .inl (hsame.trans hkept)
    · exact .inr (hnew.keep hsame hkeep')

/-- The changes of a plan that was carried out. -/
theorem changes_of_runAll {d : Location} {old : Content}
    (h : runAll t plan.operations = (t', .ok ())) (hd : t.locate plan.document = .ok d)
    (hold : t.file? d = some old) (hother : ¬ t'.SameFile plan.output plan.document)
    (hlast : ∀ last ∈ plan.renamedFrom, ∃ l content, t.locate last = .ok l ∧
      t.file? l = some content ∧ l ≠ d) :
    ∃ o, plan.report.Changes t t' plan.conversion.text plan.generator.write o d := by
  obtain ⟨t₁, houtput, h⟩ := inOrder_cons_eq_ok.mp h
  obtain ⟨t₂, hdocument, hremove⟩ := inOrder_cons_eq_ok.mp h
  have hdrops := drops_of_performAll (performAll_of_runAll hremove)
  obtain ⟨hkeep, o, hchanges⟩ := changes_of_saving houtput hdocument hd hold (by
    rintro ⟨l, ho, hl⟩
    exact hother ⟨l, hdrops.keeps.locate ho, hdrops.keeps.locate hl⟩)
  refine ⟨o, ?_⟩
  cases hrenamed : plan.renamedFrom with
  | none =>
      rw [hrenamed] at hremove
      cases hremove
      have hreport : plan.report.unmoved = plan.report := by
        rw [ExportReport.unmoved, report, hrenamed]
      exact hreport ▸ hchanges
  | some last =>
      obtain ⟨l, content, hl, hcontent, hld⟩ := hlast last hrenamed
      -- the last output is still there: as it was, or as the new output
      have hthere : ∃ content, t₂.get? l = some (.file content) := by
        by_cases hlo : l = o
        · exact ⟨_, hlo ▸ hchanges.written (by rintro _ ⟨⟩)⟩
        · refine ⟨content, ?_⟩
          rcases hchanges.others l hlo hld (by rintro _ ⟨⟩) with hkept | hnew
          · exact hkept.trans (file?_eq_some.mp hcontent)
          · cases hnew.absent.symm.trans (file?_eq_some.mp hcontent)
      obtain ⟨content', hcontent'⟩ := hthere
      rw [hrenamed] at hremove
      obtain ⟨t₃, hrun, hdone⟩ := inOrder_cons_eq_ok.mp hremove
      cases hdone
      rw [run_remove_of_file (hkeep.locate hl) (file?_eq_some.mpr hcontent')] at hrun
      cases hrun
      exact hchanges.remove hrenamed hl hcontent' hld

end ExportPlan

namespace Project

variable {p : Project}

/-- The report names a last output as removed if the document records it, it is there, and its path
    is another one than that of the new output. -/
theorem renamedFrom_iff {source : ExportSource} {plan : ExportPlan} {g : Generator}
    (hread : p.readForExport t path = .ok source) (hplan : source.plan p.config t = .ok plan)
    (hload : Generator.load t path = .ok g) (last : Path) :
    plan.renamedFrom = some last ↔ g.exportedPath path.directory = .ok (some last) ∧
      t.isFile last = true ∧ ¬ last.SamePlace plan.output := by
  obtain ⟨-, g', hload', -, hrenamed⟩ := paths_of_plan hread hplan
  cases hload.symm.trans hload'
  constructor
  · intro hlast
    obtain ⟨hrecorded, hfile⟩ := hrenamed last hlast
    have hplace := (Option.filter_eq_some_iff.mp hlast).2
    exact ⟨hrecorded, hfile, by simpa using hplace⟩
  · rintro ⟨hrecorded, hfile, hplace⟩
    obtain ⟨g', _, template, _, exported, previous?, hload', -, -, -, hexported, hlast, rfl⟩ :=
      readForExport_eq_ok.mp hread
    cases hload.symm.trans hload'
    cases hrecorded.symm.trans hexported
    obtain ⟨values, conversion, output, -, -, -, -, rfl⟩ := ExportSource.plan_eq_ok.mp hplan
    obtain ⟨text, rfl, -⟩ := lastOutput_of_isFile hlast hfile
    exact Option.filter_eq_some_iff.mpr ⟨rfl, by simpa using hplace⟩

/-- The generator of a plan is the one in the document with its choices kept, and its values give
    the text of the output. -/
theorem carries_of_plan {source : ExportSource} {plan : ExportPlan}
    (hread : p.readForExport t path = .ok source) (hplan : source.plan p.config t = .ok plan) :
    ∃ g catalog templateText values, Generator.load t path = .ok g ∧
      (p.selectableCatalog t = .ok catalog ∧
        catalog.resolveName g.template = .ok plan.generator.template ∧
        catalog.read t plan.generator.template = .ok templateText) ∧
      (plan.generator.exported = plan.output.fileName? ∧
        g.Carries plan.generator (scan templateText) p.config.constants plan.pulled plan.synced) ∧
      plan.generator.resolve (scan templateText) p.config.constants = .ok values ∧
      convert templateText values = .ok plan.conversion := by
  obtain ⟨g, catalog, template, templateText, exported, previous?, hload, hcatalog, hname, htext,
    -, -, hsource⟩ := readForExport_eq_ok.mp hread
  obtain ⟨values, conversion, output, hvalues, hconversion, -, -, rfl⟩ :=
    ExportSource.plan_eq_ok.mp hplan
  have htemplate : (source.planFor p.config output conversion).generator.template = template :=
    (source.recorded_template p.config).trans (by rw [hsource])
  have hscanned : source.templateText = templateText := by rw [hsource]
  have hstored : source.generator.values = g.values := by rw [hsource]
  obtain ⟨hshader, hdir, hconditions, hblocks, hvars, hcovers⟩ := source.carries_recorded p.config
  refine ⟨g, catalog, source.templateText, values, hload, ⟨hcatalog, ?_, ?_⟩, ⟨rfl, ?_⟩, ?_,
    hconversion⟩
  · rw [htemplate, hname]
  · rw [htemplate, hscanned, htext]
  · rw [hstored] at hconditions hblocks hvars
    exact ⟨hshader.trans (by rw [hsource]), hdir.trans (by rw [hsource]), hconditions, hblocks,
      hvars, hcovers⟩
  · rw [← hvalues]
    exact Generator.resolve_recordFixed source.synced _ _ _

/-- A successful export keeps the choices in its document and changes nothing on disk but its
    output, its document and the last output: the saved generator is the old one with the template
    that the catalog has for it, the new output, the pulled bodies, the fixed values and the
    defaults for the synced names. -/
theorem choices_kept {report : ExportReport} (h : (p.exportGenerator t path).result = .ok report)
    (hother : ¬ (p.exportGenerator t path).files.SameFile report.output path)
    (hself : ∀ g last, Generator.load t path = .ok g →
      g.exportedPath path.directory = .ok (some last) → ¬ t.SameFile last path) :
    ∃ g saved catalog templateText values conversion o d,
      (Generator.load t path = .ok g ∧
        Generator.load (p.exportGenerator t path).files path = .ok saved) ∧
      (p.selectableCatalog t = .ok catalog ∧ catalog.resolveName g.template = .ok saved.template ∧
        catalog.read t saved.template = .ok templateText) ∧
      (saved.exported = report.output.fileName? ∧
        g.Carries saved (scan templateText) p.config.constants report.pulled report.synced) ∧
      (saved.resolve (scan templateText) p.config.constants = .ok values ∧
        convert templateText values = .ok conversion) ∧
      (report.document = path ∧
        report.Changes t (p.exportGenerator t path).files conversion.text saved.write o d) ∧
      (∀ last, report.renamedFrom = some last ↔
        g.exportedPath path.directory = .ok (some last) ∧ t.isFile last = true ∧
          ¬ last.SamePlace report.output) ∧
      (HasNoSeparator p.config.outputExtension →
        ∀ last ∈ report.renamedFrom, t.locate last ≠ .ok o) := by
  obtain ⟨source, plan, hread, hplan, hrun, rfl⟩ := exportGenerator_eq_ok h
  obtain ⟨rfl, -⟩ := paths_of_plan hread hplan
  obtain ⟨g, catalog, templateText, values, hload, hcatalog, hcarries, hvalues, hconversion⟩ :=
    carries_of_plan hread hplan
  have hrenamed := renamedFrom_iff hread hplan hload
  obtain ⟨d, text, hd, hold, -⟩ := Generator.load_iff.mp hload
  obtain ⟨o, hchanges⟩ := plan.changes_of_runAll hrun hd hold hother (by
    intro last hmem
    obtain ⟨hrecorded, hfile, -⟩ := (hrenamed last).mp hmem
    obtain ⟨l, content, hl, hcontent⟩ := isFile_iff.mp hfile
    exact ⟨l, content, hl, hcontent, ne_of_not_sameFile (hself g last hload hrecorded) hl hd⟩)
  have hsaved : Generator.load (p.exportGenerator t plan.document).files plan.document =
      .ok plan.generator :=
    Generator.load_iff.mpr ⟨d, _, hchanges.document, file?_eq_some.mpr hchanges.stored,
      Generator.parse?_write plan.generator⟩
  refine ⟨g, plan.generator, catalog, templateText, values, plan.conversion, o, d,
    ⟨hload, hsaved⟩, hcatalog, hcarries, ⟨hvalues, hconversion⟩, ⟨rfl, hchanges⟩, hrenamed, ?_⟩
  intro hextension last hmem hl
  have hkeep := (plan.file?_of_stoppedAfter (stoppedAfter_of_runAll hrun)).1
  exact renamedFrom_ne_output hextension hread hplan hchanges.output last hmem (hkeep.locate hl)

/-- A generator that got another name since its last export. -/
def movedGenerator : Generator := { hidingGenerator "x" with name := "Z" }

/-- Its files: the template has a variable, and the body in the last output was edited. -/
def movedFiles : FileTree :=
  ((sampleFiles variableTemplate movedGenerator).replaceFile sampleOutput (blockText "y")).1

/-- The report of an export that pulls the body, syncs the variable and moves the output. -/
def movedReport : ExportReport :=
  ⟨sampleDocument, guestPath, "T", ["B"], ⟨[], [], ["Name"]⟩, some sampleOutput, ⟨0, 1, 0⟩⟩

/-- The generator that this export saves. -/
def movedSaved : Generator :=
  { movedGenerator with
    exported := some "Z.shader"
    values := (movedGenerator.values.setBlock "B" "y").setVariable "Name" "Z" }

theorem choices_kept_sample :
    ∃ saved templateText text o d,
      Generator.load ((sampleProject "shader").exportGenerator movedFiles sampleDocument).files
        sampleDocument = .ok saved ∧
      movedGenerator.Carries saved (scan templateText) ∅ ["B"] ⟨[], [], ["Name"]⟩ ∧
      movedReport.Changes movedFiles
        ((sampleProject "shader").exportGenerator movedFiles sampleDocument).files text saved.write
        o d := by
  have hexport : (sampleProject "shader").exportGenerator movedFiles sampleDocument = {
      files := ((sampleFiles variableTemplate movedSaved).replaceFile guestPath (blockText "y")).1
      warnings := []
      result := .ok movedReport } := by
    decide +kernel
  have hload : Generator.load movedFiles sampleDocument = .ok movedGenerator := by decide +kernel
  have hself : ∀ g last, Generator.load movedFiles sampleDocument = .ok g →
      g.exportedPath sampleDocument.directory = .ok (some last) →
        ¬ movedFiles.SameFile last sampleDocument := by
    intro g last hg hlast
    cases hload.symm.trans hg
    have hrecorded : movedGenerator.exportedPath sampleDocument.directory =
        .ok (some sampleOutput) := by
      decide +kernel
    cases hrecorded.symm.trans hlast
    decide +kernel
  obtain ⟨g, saved, -, templateText, -, conversion, o, d, ⟨hg, hsaved⟩, -, ⟨-, hcarries⟩, -,
    ⟨-, hchanges⟩, -⟩ := choices_kept (congrArg Outcome.result hexport)
      (by rw [hexport]; decide +kernel) hself
  cases hload.symm.trans hg
  exact ⟨saved, templateText, conversion.text, o, d, hsaved, hcarries, hchanges⟩

end Project

end ShaderTemplates
