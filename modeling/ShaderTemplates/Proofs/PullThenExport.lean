import ShaderTemplates.Project
import ShaderTemplates.Proofs.FileDifferences
import ShaderTemplates.Proofs.StoppedExports

/-!
# Pulling before an export

Pulling the blocks of a generator changes its document and nothing else, and an export would pull
the same bodies itself.  So an export after it reads the same but for the bodies that are in the
document now (`ExportSource.afterPull`), comes to the same plan without anything to pull
(`plan_afterPull`), and leaves the same files, since it saves the document anyhow
(`exportGenerator_pull`).
-/

namespace ShaderTemplates

open Template FileTree Operation

variable {t t' : FileTree} {path : Path}

-- ── Plans ────────────────────────────────────────────────────────────────────

namespace ExportSource

/-- What an export reads after the bodies of the last output were pulled. -/
def afterPull (s : ExportSource) : ExportSource := { s with generator := s.pulled }

theorem afterPull_pulled (s : ExportSource) :
    s.afterPull.pulled = s.pulled ∧ s.afterPull.pulledNames = [] ∧
      s.afterPull.warnings = s.warnings := by
  obtain ⟨document, g, templateText, previous⟩ := s
  cases previous with
  | none => exact ⟨rfl, rfl, rfl⟩
  | some previous =>
      have hedited := g.editedBlocks_pull previous.2
      have hpulled : (g.pull previous.2).pull previous.2 = g.pull previous.2 :=
        Generator.pull_of_not_edited hedited
      refine ⟨hpulled, Generator.pulledNames_eq_nil.mpr hedited, ?_⟩
      show (g.pull previous.2).pullWarnings previous.2 ++
        (((g.pull previous.2).pull previous.2).sync (scan templateText)).staleChoices _ = _
      rw [hpulled, g.pullWarnings_pull]
      rfl

theorem planFor_afterPull (s : ExportSource) (config : Config) (output : Path)
    (conversion : Conversion) : s.afterPull.planFor config output conversion =
      { s.planFor config output conversion with pulled := [] } := by
  obtain ⟨hpulled, hnames, -⟩ := s.afterPull_pulled
  show ExportPlan.mk s.document
    { (s.afterPull.pulled.sync (scan s.templateText)).recordFixed (scan s.templateText)
        config.constants with exported := output.fileName? }
    output conversion s.afterPull.pulledNames (s.afterPull.pulled.missing (scan s.templateText))
    (s.previous.map (·.1)) = _
  rw [hpulled, hnames]
  rfl

theorem settle_afterPull (s : ExportSource) (config : Config) (output : Path)
    (conversion : Conversion) (hholds : t'.holds output = t.holds output) :
    s.afterPull.settle config t' output conversion =
      (s.settle config t output conversion).map fun plan => { plan with pulled := [] } := by
  have hprevious : s.afterPull.previous = s.previous := rfl
  rw [settle, settle, planFor_afterPull, hholds, hprevious]
  cases s.previous with
  | none => rfl
  | some previous =>
      dsimp only
      split <;> rfl

/-- The plan is the same, but that nothing is pulled any more. -/
theorem plan_afterPull (s : ExportSource) (config : Config) (hholds : ∀ q, t'.holds q = t.holds q) :
    s.afterPull.plan config t' = (s.plan config t).map fun plan => { plan with pulled := [] } := by
  have hsynced : s.afterPull.synced = s.synced := by
    show s.afterPull.pulled.sync (scan s.templateText) = _
    rw [s.afterPull_pulled.1]
    rfl
  have hrecorded : s.afterPull.recorded config = s.recorded config := by
    rw [recorded, hsynced]
    rfl
  rw [plan_eq, plan_eq, hsynced, hrecorded]
  show (s.synced.resolve (scan s.templateText) config.constants >>= fun values =>
    (convert s.templateText values).mapError Error.unresolved >>= fun conversion =>
      (s.recorded config).outputPath s.document.directory config.outputExtension >>= fun output =>
        s.afterPull.settle config t' output conversion) = _
  simp only [settle_afterPull s config _ _ (hholds _)]
  cases s.synced.resolve (scan s.templateText) config.constants with
  | error e => rfl
  | ok values =>
      rw [ok_bind, ok_bind]
      cases (convert s.templateText values).mapError Error.unresolved with
      | error e => rfl
      | ok conversion =>
          rw [ok_bind, ok_bind]
          cases (s.recorded config).outputPath s.document.directory config.outputExtension <;> rfl

end ExportSource

/-- A plan that was carried out is carried out in the same way if the document had another text. -/
theorem ExportPlan.runAll_of_agreesBut {plan : ExportPlan} {u : FileTree} {d : Location}
    (h : t.AgreesBut t' d) (hd : t.locate plan.document = .ok d)
    (hrun : runAll t plan.operations = (u, .ok ())) :
    runAll t' plan.operations = (u, .ok ()) := by
  obtain ⟨t₁, houtput, hrest⟩ := inOrder_cons_eq_ok.mp hrun
  obtain ⟨t₂, hdocument, hremove⟩ := inOrder_cons_eq_ok.mp hrest
  obtain ⟨hreplace, hflush⟩ := run_write_eq_ok.mp houtput
  obtain ⟨hreplaceDocument, hflushDocument⟩ := run_write_eq_ok.mp hdocument
  obtain ⟨_, t₁', _, hsame, hreplace', hagree⟩ :=
    h.replaceFile plan.output plan.conversion.text
  cases hreplace.symm.trans hsame
  have houtput' := run_write_eq_ok.mpr ⟨hreplace', hagree.keeps.flushDirectory hflush⟩
  -- from the saved document on, both trees are the same
  have hd' := (puts_of_replaceFile hreplace).2.locate hd
  have hdocument' := run_write_eq_ok.mpr
    ⟨hagree.replaceFile_eq hd' hreplaceDocument, hflushDocument⟩
  exact inOrder_cons_eq_ok.mpr ⟨t₁', houtput', inOrder_cons_eq_ok.mpr ⟨t₂, hdocument', hremove⟩⟩

namespace Project

variable {p : Project} {g : Generator} {last : Path} {text : String}

-- ── Pulling ──────────────────────────────────────────────────────────────────

theorem readForPull_of (hload : Generator.load t path = .ok g)
    (hlast : g.exportedPath path.directory = .ok (some last)) (htext : t.readText last = .ok text) :
    p.readForPull t path = .ok (g, text) := by
  have hsource : p.pullSource g path.directory = .ok last := by
    rw [pullSource, hlast]
    rfl
  rw [readForPull]
  rw [hload, ok_bind, hsource, ok_bind, isFile_of_readText htext, htext]
  rfl

/-- Pulling changes the text of the document and nothing else. -/
theorem agreesBut_pull {d : Location} (hread : p.readForPull t path = .ok (g, text))
    (hload : Generator.load t path = .ok g) (hd : t.locate path = .ok d)
    (hdraft : isLongPath (t.draftPath path) = false)
    (hflush : t.flushDirectory path.directory = .ok ()) :
    (p.pull t path).result = .ok (g.pulledNames text) ∧ t.AgreesBut (p.pull t path).files d ∧
      Generator.load (p.pull t path).files path = .ok (g.pull text) := by
  obtain ⟨_, old, hfound, hold, -⟩ := Generator.load_iff.mp hload
  cases hd.symm.trans hfound
  rw [pull]
  rw [hread]
  dsimp only
  cases hnames : (g.pulledNames text).isEmpty with
  | true =>
      have hedited := Generator.pulledNames_eq_nil.mp (List.isEmpty_iff.mp hnames)
      rw [if_pos rfl, Generator.pull_of_not_edited hedited]
      exact ⟨rfl, .refl hold, hload⟩
  | false =>
      obtain ⟨t₁, hreplace, hprocess, hentries⟩ :=
        replaceFile_of_file hd hold hdraft (g.pull text).write
      have hagree := agreesBut_of_insert hold hprocess hentries
      have hstored : t₁.file? d = some (.text (g.pull text).write) :=
        file?_eq_some.mpr (by rw [get?_of_insert (ne_root_of_file? hold) hentries, if_pos rfl])
      rw [if_neg Bool.false_ne_true,
        run_write_eq_ok.mpr ⟨hreplace, hagree.keeps.flushDirectory hflush⟩]
      exact ⟨rfl, hagree, Generator.load_iff.mpr ⟨d, _, (hagree.locate path).trans hd, hstored,
        Generator.parse?_write _⟩⟩

-- ── The export after it ──────────────────────────────────────────────────────

/-- A template is not the document if the document is not in the directory of the templates. -/
theorem read_of_agreesBut {catalog : Catalog} {template templateText : String} {d : Location}
    (hagree : t.AgreesBut t' d) (hcatalog : p.selectableCatalog t = .ok catalog)
    (htext : catalog.read t template = .ok templateText) (hd : t.locate path = .ok d)
    (hfile : t.get? d ≠ some .directory)
    (hplace : ∀ dir, p.templatesDirectory = .ok dir → ¬ t.SameFile dir path.directory) :
    catalog.read t' template = .ok templateText := by
  obtain ⟨dir, hdir, hload, hsome⟩ := selectableCatalog_eq_ok.mp hcatalog
  obtain ⟨l, hl, -⟩ := Catalog.load_of_not_isEmpty hload hsome
  obtain ⟨fileName, _, hget, -, hfound, -, hlocate, -⟩ :=
    Catalog.read_eq_ok hload (locate_eq_ok.mp hl).1 htext
  cases hl.symm.trans hfound
  obtain ⟨m, name, -, rfl, hm, -⟩ := locate_directory hd hfile
  -- a template is directly inside the directory of the templates
  have hother : t.locate (dir.child fileName) ≠ .ok (m ++ [name]) := by
    intro hsame
    obtain ⟨rfl, -⟩ := List.append_inj' (Except.ok.inj (hlocate.symm.trans hsame)) rfl
    exact hplace dir hdir ⟨l, hl, hm⟩
  rw [← htext, Catalog.read, Catalog.read, hget]
  dsimp only
  rw [hagree.readText hother]

/-- The export after a pull reads the same, but for the document. -/
theorem readForExport_afterPull {source : ExportSource} {d : Location}
    (hread : p.readForExport t path = .ok source) (hprevious : source.previous = some (last, text))
    (hagree : t.AgreesBut t' d) (hload : Generator.load t path = .ok g)
    (hload' : Generator.load t' path = .ok (g.pull text)) (hd : t.locate path = .ok d)
    (hself : ¬ t.SameFile last path)
    (hplace : ∀ dir, p.templatesDirectory = .ok dir → ¬ t.SameFile dir path.directory) :
    p.readForExport t' path = .ok source.afterPull := by
  obtain ⟨_, old, hfound, hold, -⟩ := Generator.load_iff.mp hload
  cases hd.symm.trans hfound
  obtain ⟨g', catalog, template, templateText, exported, previous?, hg, hcatalog, hname, htext,
    hexported, hlast, rfl⟩ := readForExport_eq_ok.mp hread
  cases hload.symm.trans hg
  cases hprevious
  obtain ⟨rfl, hlastText⟩ := lastOutput_eq_some hlast
  have hcatalog' : p.selectableCatalog t' = .ok catalog := by
    rw [← hcatalog, selectableCatalog, selectableCatalog, Project.catalog, Project.catalog]
    simp only [hagree.catalog]
  have hlastText' : t'.readText last = .ok text := by
    rw [hagree.readText fun hl => hself ⟨d, hl, hd⟩, hlastText]
  exact readForExport_eq_ok.mpr ⟨g.pull text, catalog, template, templateText, some last,
    some (last, text), hload', hcatalog', hname,
    read_of_agreesBut hagree hcatalog htext hd (not_directory_of_file? hold) hplace, hexported,
    lastOutput_of_readText hlastText', rfl⟩

/-- What an export reads and pulls if the last output that its document records is there. -/
theorem previous_of_isFile {source : ExportSource} {plan : ExportPlan}
    (hread : p.readForExport t path = .ok source) (hplan : source.plan p.config t = .ok plan)
    (hload : Generator.load t path = .ok g)
    (hlast : g.exportedPath path.directory = .ok (some last)) (hthere : t.isFile last = true) :
    plan.document = path ∧ ∃ text, source.previous = some (last, text) ∧
      t.readText last = .ok text ∧ plan.pulled = g.pulledNames text := by
  obtain ⟨g', _, template, templateText, exported, previous?, hg, -, -, -, hexported, hrecorded,
    rfl⟩ := readForExport_eq_ok.mp hread
  cases hload.symm.trans hg
  cases hlast.symm.trans hexported
  obtain ⟨text, rfl, htext⟩ := lastOutput_of_isFile hrecorded hthere
  obtain ⟨_, conversion, output, -, -, -, -, rfl⟩ := ExportSource.plan_eq_ok.mp hplan
  exact ⟨rfl, text, rfl, htext, rfl⟩

/-- An export that succeeds also succeeds after a pull, with the same files, warnings and report;
    what it would have pulled is what the pull reports. -/
theorem exportGenerator_pull {report : ExportReport}
    (h : (p.exportGenerator t path).result = .ok report) (hload : Generator.load t path = .ok g)
    (hlast : g.exportedPath path.directory = .ok (some last)) (hthere : t.isFile last = true)
    (hself : ¬ t.SameFile last path)
    (hplace : ∀ dir, p.templatesDirectory = .ok dir → ¬ t.SameFile dir path.directory) :
    (p.pull t path).result = .ok report.pulled ∧
      p.exportGenerator (p.pull t path).files path =
        { p.exportGenerator t path with result := .ok { report with pulled := [] } } := by
  obtain ⟨source, plan, hread, hplan, hrun, rfl⟩ := exportGenerator_eq_ok h
  obtain ⟨d, old, hd, hold, -⟩ := Generator.load_iff.mp hload
  obtain ⟨hpath, text, hprevious, htext, hnames⟩ :=
    previous_of_isFile hread hplan hload hlast hthere
  obtain ⟨_, _, _, hsaved, hdrops⟩ := plan.saved_of_runAll hrun
  have hdraft : isLongPath (t.draftPath path) = false := by
    rw [← hsaved.keeps.draftPath, ← hpath]
    exact hsaved.document.draft
  have hflush : t.flushDirectory path.directory = .ok () := by
    obtain ⟨m, -, -, -, hparent, hm⟩ := locate_directory hd (not_directory_of_file? hold)
    exact (hsaved.keeps.trans hdrops.keeps).flushDirectory_before
      (isDirectory_iff.mpr ⟨m, hparent, hm⟩) (hpath ▸ (plan.flushed_of_runAll hrun).2)
  obtain ⟨hresult, hagree, hload'⟩ :=
    agreesBut_pull (p := p) (readForPull_of hload hlast htext) hload hd hdraft hflush
  have hread' := readForExport_afterPull hread hprevious hagree hload hload' hd hself hplace
  have hplan' : source.afterPull.plan p.config (p.pull t path).files =
      .ok { plan with pulled := [] } := by
    rw [source.plan_afterPull p.config hagree.holds, hplan]
    rfl
  have hrun' : runAll (p.pull t path).files { plan with pulled := [] }.operations =
      ((p.exportGenerator t path).files, .ok ()) :=
    plan.runAll_of_agreesBut hagree (hpath.symm ▸ hd) hrun
  refine ⟨hresult.trans (congrArg Except.ok hnames.symm), ?_⟩
  rw [exportGenerator_eq hread' hplan', hrun', exportGenerator_eq hread hplan, hrun,
    source.afterPull_pulled.2.2]
  rfl

theorem exportGenerator_pull_sample :
    ((sampleProject "shader").pull (editedFiles blockTemplate) sampleDocument).result =
        .ok ["B"] ∧
      (sampleProject "shader").exportGenerator
          ((sampleProject "shader").pull (editedFiles blockTemplate) sampleDocument).files
          sampleDocument =
        { (sampleProject "shader").exportGenerator (editedFiles blockTemplate) sampleDocument with
          result := .ok { (editedPlan ⟨blockText "y", ⟨0, 1, 0⟩⟩).report with pulled := [] } } := by
  have hexport : ((sampleProject "shader").exportGenerator (editedFiles blockTemplate)
      sampleDocument).result = .ok (editedPlan ⟨blockText "y", ⟨0, 1, 0⟩⟩).report := by
    decide +kernel
  have hload : Generator.load (editedFiles blockTemplate) sampleDocument =
      .ok (hidingGenerator "x") := by
    decide +kernel
  have hlast : (hidingGenerator "x").exportedPath sampleDocument.directory =
      .ok (some sampleOutput) := by
    decide +kernel
  refine exportGenerator_pull hexport hload hlast (by decide +kernel) (by decide +kernel)
    fun dir hdir => ?_
  rw [sampleProject_templatesDirectory] at hdir
  cases hdir
  decide +kernel

end Project

end ShaderTemplates
