import Mathlib.Logic.Relation
import ShaderTemplates.Proofs.Confinement
import ShaderTemplates.Proofs.StoppedExports

/-!
# Sessions of exports and edits

In a session a document is exported, edited and exported again, and its output is edited in
between (`Session.Step`).  As long as no edit changes the file name that an export recorded, the
document goes on to record the file name of the last output (`Remembers`, kept by every step).
The directory is not recorded: it is that of the document as it is now.  So the recorded file name
leads back to the last output exactly as long as the output directory is the one it was written to,
and then the next export pulls what was edited there (`exportedPath_of_session`).  An edit of the
output directory leads it astray (`exportedPath_astray`).
-/

namespace ShaderTemplates

open Template FileTree Operation

/-- The files on disk, and the output that the last successful export reported. -/
structure Session where
  files : FileTree
  last : Option Path

/-- What happens in a session: a successful export with an output that is not the document, an edit
    of the document that leaves the recorded file name as it is, or an edit of the last output. -/
inductive Session.Step (p : Project) (path : Path) : Session → Session → Prop where
  | exported {s : Session} {report : ExportReport}
      (h : (p.exportGenerator s.files path).result = .ok report)
      (hdocument : ¬ (p.exportGenerator s.files path).files.SameFile report.output path) :
      Step p path s ⟨(p.exportGenerator s.files path).files, some report.output⟩
  | documentEdited {s : Session} {t : FileTree} {g g' : Generator} {text : String}
      (hload : Generator.load s.files path = .ok g) (hparse : Generator.parse? text = some g')
      (hexported : g'.exported = g.exported) (h : s.files.writeFile path (.text text) = .ok t) :
      Step p path s ⟨t, s.last⟩
  | outputEdited {s : Session} {t : FileTree} {output : Path} {text : String}
      (hlast : s.last = some output) (h : s.files.writeFile output (.text text) = .ok t) :
      Step p path s ⟨t, s.last⟩

-- ── What the document remembers ──────────────────────────────────────────────

/-- The output is a file below the directory of the document, and the document records its file
    name as long as it is there. -/
structure FileTree.Remembers (t : FileTree) (path output : Path) (names : List String)
    (fileName : String) : Prop where
  steps : ∀ name ∈ names, Path.IsStep name
  checked : checkFileName fileName = .ok ()
  written : output = (names.foldl Path.child path.directory).child fileName
  apart : ∃ o d, t.locate output = .ok o ∧ t.locate path = .ok d ∧ o ≠ d
  recorded : t.isFile path = true → ∃ g, Generator.load t path = .ok g ∧ g.exported = some fileName

/-- After a plan was carried out, the document is as it was saved if it is still there. -/
theorem ExportPlan.load_of_runAll {plan : ExportPlan} {t t' : FileTree}
    (h : Operation.runAll t plan.operations = (t', .ok ())) :
    ∃ o d, t'.locate plan.output = .ok o ∧ t'.locate plan.document = .ok d ∧
      (t'.isFile plan.document = true → Generator.load t' plan.document = .ok plan.generator) := by
  obtain ⟨t₂, o, d, hsaved, hdrops⟩ := saved_of_runAll h
  have hd := hdrops.keeps.locate hsaved.document.located
  refine ⟨o, d, hdrops.keeps.locate hsaved.located, hd, fun hstill => ?_⟩
  refine Generator.load_of_stands (hsaved.document.keep hdrops.keeps ?_)
    (Generator.parse?_write plan.generator)
  rw [hdrops.others d, hsaved.document.content]
  intro previous hmem hprevious
  obtain ⟨l, content, hl, hcontent⟩ := isFile_iff.mp hstill
  cases hd.symm.trans hl
  cases (hdrops.gone previous hmem d hprevious).symm.trans hcontent

theorem Project.remembers_of_exportGenerator {p : Project} {t : FileTree} {path : Path}
    (hextension : HasNoSeparator p.config.outputExtension) {report : ExportReport}
    (h : (p.exportGenerator t path).result = .ok report)
    (hdocument : ¬ (p.exportGenerator t path).files.SameFile report.output path) :
    ∃ names fileName,
      (p.exportGenerator t path).files.Remembers path report.output names fileName := by
  obtain ⟨source, plan, hread, hplan, hrun, rfl⟩ := exportGenerator_eq_ok h
  obtain ⟨_, _, _, _, _, _, -, -, -, -, -, -, rfl⟩ := readForExport_eq_ok.mp hread
  obtain ⟨o, d, ho, hd, hload⟩ := ExportPlan.load_of_runAll hrun
  obtain ⟨_, _, output, -, -, houtput, -, rfl⟩ := ExportSource.plan_eq_ok.mp hplan
  obtain ⟨base, hfile, hbase, rfl⟩ := Generator.outputPath_eq_ok hextension houtput
  have hne := Generator.outputDirectory_ne_empty path.directory_ne_empty hbase
  obtain ⟨names, hnames, rfl⟩ := Generator.outputDirectory_eq_ok hbase
  refine ⟨names, _, hnames, hfile, rfl, ⟨o, d, ho, hd, ?_⟩, fun hstill => ⟨_, hload hstill, ?_⟩⟩
  · rintro rfl
    exact hdocument ⟨o, ho, hd⟩
  · exact Path.fileName?_child hne (isStep_of_checkFileName hfile)

namespace FileTree.Remembers

variable {t t' : FileTree} {path output : Path} {names : List String} {fileName text : String}

theorem documentEdited (h : t.Remembers path output names fileName) {g g' : Generator}
    (hload : Generator.load t path = .ok g) (hparse : Generator.parse? text = some g')
    (hexported : g'.exported = g.exported) (hwrite : t.writeFile path (.text text) = .ok t') :
    t'.Remembers path output names fileName := by
  obtain ⟨o, d, ho, hd, hne⟩ := h.apart
  obtain ⟨l, hl, -, hkeep, hfiles⟩ := writeFile_eq_ok hwrite
  refine ⟨h.steps, h.checked, h.written, ⟨o, d, hkeep.locate ho, hkeep.locate hd, hne⟩,
    fun _ => ⟨g', ?_, ?_⟩⟩
  · exact Generator.load_iff.mpr ⟨l, text, hkeep.locate hl, by rw [hfiles, if_pos rfl], hparse⟩
  · obtain ⟨g₀, hload₀, hrecorded⟩ := h.recorded (Generator.load_eq_ok hload).1
    cases hload.symm.trans hload₀
    exact hexported.trans hrecorded

theorem outputEdited (h : t.Remembers path output names fileName)
    (hwrite : t.writeFile output (.text text) = .ok t') :
    t'.Remembers path output names fileName := by
  obtain ⟨o, d, ho, hd, hne⟩ := h.apart
  obtain ⟨l, hl, -, hkeep, hfiles⟩ := writeFile_eq_ok hwrite
  cases ho.symm.trans hl
  have hsame : t'.file? d = t.file? d := by rw [hfiles, if_neg hne.symm]
  refine ⟨h.steps, h.checked, h.written, ⟨o, d, hkeep.locate ho, hkeep.locate hd, hne⟩, ?_⟩
  intro hstill
  obtain ⟨k, content, hk, hcontent⟩ := isFile_iff.mp hstill
  cases (hkeep.locate hd).symm.trans hk
  obtain ⟨g, hload, hrecorded⟩ := h.recorded (isFile_iff.mpr ⟨d, content, hd, hsame ▸ hcontent⟩)
  obtain ⟨k, s, hk, hs, hparse⟩ := Generator.load_iff.mp hload
  cases hd.symm.trans hk
  exact ⟨g, Generator.load_iff.mpr ⟨d, s, hkeep.locate hd, hsame.trans hs, hparse⟩, hrecorded⟩

/-- The recorded file name leads to the last output exactly if the output directory is still the
    directory of the last output. -/
theorem exportedPath_iff (h : t.Remembers path output names fileName) {g : Generator}
    (hrecorded : g.exported = some fileName) :
    g.exportedPath path.directory = .ok (some output) ↔
      ∃ base, g.outputDirectory path.directory = .ok base ∧ base.SamePlace output.directory := by
  have hstep := isStep_of_checkFileName h.checked
  have hne := (locate_children h.steps path.directory_ne_empty (t := ∅)).1
  constructor
  · intro hexported
    obtain ⟨fileName', base, hname, -, hbase, hchild⟩ := Generator.exportedPath_eq_ok hexported
    cases hrecorded.symm.trans hname
    have hbase_ne := Generator.outputDirectory_ne_empty path.directory_ne_empty hbase
    rw [hchild]
    exact ⟨base, hbase, Path.samePlace_directory_child hbase_ne hstep⟩
  · rintro ⟨base, hbase, hplace⟩
    rw [h.written] at hplace ⊢
    have hsame := hplace.trans (Path.samePlace_directory_child hne hstep).symm
    -- both are the directory of the document with names after it, so these are the same names
    obtain ⟨names', hsteps', rfl⟩ := Generator.outputDirectory_eq_ok hbase
    rw [Path.components_children hsteps', Path.components_children h.steps] at hsame
    have hnames : names' = names :=
      (List.map_inj_right fun _ _ => Path.Component.name.inj).mp (List.append_cancel_left hsame)
    rw [← hnames]
    exact Generator.exportedPath_eq hrecorded h.checked hbase

end FileTree.Remembers

-- ── Steps and sessions ───────────────────────────────────────────────────────

namespace Session

variable {p : Project} {path : Path} {s s' : Session}

theorem remembers_of_step (hextension : HasNoSeparator p.config.outputExtension)
    (h : Step p path s s')
    (hlast : ∀ output ∈ s.last, ∃ names fileName, s.files.Remembers path output names fileName) :
    ∀ output ∈ s'.last, ∃ names fileName, s'.files.Remembers path output names fileName := by
  cases h with
  | exported h hdocument =>
      rintro _ ⟨⟩
      exact Project.remembers_of_exportGenerator hextension h hdocument
  | documentEdited hload hparse hexported h =>
      intro output hmem
      obtain ⟨names, fileName, hremembers⟩ := hlast output hmem
      exact ⟨names, fileName, hremembers.documentEdited hload hparse hexported h⟩
  | outputEdited houtput h =>
      intro output hmem
      obtain ⟨names, fileName, hremembers⟩ := hlast output hmem
      cases houtput.symm.trans hmem
      exact ⟨names, fileName, hremembers.outputEdited h⟩

/-- Through a whole session the document records the file name of the last output. -/
theorem remembers_of_run (hextension : HasNoSeparator p.config.outputExtension) {t : FileTree}
    (h : Relation.ReflTransGen (Step p path) ⟨t, none⟩ s) :
    ∀ output ∈ s.last, ∃ names fileName, s.files.Remembers path output names fileName := by
  induction h with
  | refl =>
      intro output hmem
      cases hmem
  | tail _ hstep ih => exact remembers_of_step hextension hstep ih

end Session

namespace Project

variable {p : Project} {t : FileTree} {path output : Path} {g : Generator} {text : String}

/-- An export whose document leads to its last output takes the edited bodies over and saves
    them. -/
theorem pulled_of_exportedPath (hload : Generator.load t path = .ok g)
    (hexported : g.exportedPath path.directory = .ok (some output))
    (htext : t.readText output = .ok text) (hself : ¬ t.SameFile output path)
    {report : ExportReport} (h : (p.exportGenerator t path).result = .ok report) :
    report.pulled = g.pulledNames text ∧
      ∃ saved, Generator.load (p.exportGenerator t path).files path = .ok saved ∧
        ∀ e ∈ g.editedBlocks text, saved.values.blocks.get? e.1 = some e.2 := by
  obtain ⟨source, plan, hread, hplan, hrun, rfl⟩ := exportGenerator_eq_ok h
  have hprevious : source.previous = some (output, text) := by
    obtain ⟨g', _, _, _, exported, last, hload', -, -, -, hexported', hlast, rfl⟩ :=
      readForExport_eq_ok.mp hread
    cases hload.symm.trans hload'
    cases hexported.symm.trans hexported'
    cases (lastOutput_of_readText htext).symm.trans hlast
    rfl
  obtain ⟨rfl, g', hpulls, -⟩ := pullsFrom_of_plan hread hplan hprevious
  cases hload.symm.trans hpulls.load
  obtain ⟨d, -, hd, -, -⟩ := Generator.load_iff.mp hload
  have hstop := stoppedAfter_of_runAll hrun
  exact ⟨hpulls.pulled, plan.generator, plan.load_of_stoppedAfter plan.two_le_length hstop hd
    (hpulls.renamed_ne hself hd), hpulls.saved⟩

/-- Through a session, the recorded file name leads back to the last output exactly as long as the
    output directory is the directory of the last output; then the next export takes over what was
    edited in it. -/
theorem exportedPath_of_session {s : Session}
    (hextension : HasNoSeparator p.config.outputExtension)
    (hrun : Relation.ReflTransGen (Session.Step p path) ⟨t, none⟩ s) (hlast : s.last = some output)
    (hstill : s.files.isFile path = true) :
    ∃ g, Generator.load s.files path = .ok g ∧
      (g.exportedPath path.directory = .ok (some output) ↔
        ∃ base, g.outputDirectory path.directory = .ok base ∧ base.SamePlace output.directory) ∧
      (g.exportedPath path.directory = .ok (some output) → ∀ report text,
        s.files.readText output = .ok text → (p.exportGenerator s.files path).result = .ok report →
        report.pulled = g.pulledNames text ∧
          ∃ saved, Generator.load (p.exportGenerator s.files path).files path = .ok saved ∧
            ∀ e ∈ g.editedBlocks text, saved.values.blocks.get? e.1 = some e.2) := by
  obtain ⟨names, fileName, hremembers⟩ :=
    Session.remembers_of_run hextension hrun output hlast
  obtain ⟨g, hload, hrecorded⟩ := hremembers.recorded hstill
  refine ⟨g, hload, hremembers.exportedPath_iff hrecorded, ?_⟩
  intro hexported report text htext hexport
  refine pulled_of_exportedPath hload hexported htext ?_ hexport
  rintro ⟨l, hl, hl'⟩
  obtain ⟨o, d, ho, hd, hne⟩ := hremembers.apart
  exact hne (Except.ok.inj ((ho.symm.trans hl).trans (hl'.symm.trans hd)))

/-- The sample files with a generator in the document and a body in the output. -/
def sessionFiles (g : Generator) (body : String) : FileTree :=
  ((sampleFiles blockTemplate g).replaceFile sampleOutput (blockText body)).1

/-- The generator of the sample document after its first export. -/
def storingGenerator : Generator := sampleExported "A.shader" ((∅ : Values).setBlock "B" "x")

/-- The session in which the sample document is exported, the document is edited, and then the body
    in the output. -/
theorem run_sessionFiles {g : Generator} (hexported : g.exported = some "A.shader")
    (hdocument : (sessionFiles storingGenerator "x").writeFile sampleDocument (.text g.write) =
      .ok (sessionFiles g "x"))
    (houtput : (sessionFiles g "x").writeFile sampleOutput (.text (blockText "y")) =
      .ok (sessionFiles g "y")) :
    Relation.ReflTransGen (Session.Step (sampleProject "shader") sampleDocument)
      ⟨sampleFiles blockTemplate sampleGenerator, none⟩
      ⟨sessionFiles g "y", some sampleOutput⟩ := by
  have hfirst : (sampleProject "shader").exportGenerator (sampleFiles blockTemplate sampleGenerator)
      sampleDocument = {
        files := sessionFiles storingGenerator "x"
        warnings := []
        result := .ok
          ⟨sampleDocument, sampleOutput, "T", [], ⟨[], ["B"], []⟩, none, ⟨0, 1, 0⟩⟩ } := by
    decide +kernel
  have hexport := Session.Step.exported (s := ⟨sampleFiles blockTemplate sampleGenerator, none⟩)
    (congrArg Outcome.result hfirst) (by rw [hfirst]; decide +kernel)
  rw [hfirst] at hexport
  have hload : Generator.load (sessionFiles storingGenerator "x") sampleDocument =
      .ok storingGenerator := by
    decide +kernel
  exact ((Relation.ReflTransGen.single hexport).tail
    (.documentEdited hload (Generator.parse?_write g) hexported hdocument)).tail
      (.outputEdited rfl houtput)

/-- After the shader got another name, the next export finds the last output. -/
theorem exportedPath_of_session_sample :
    ∃ saved, Generator.load ((sampleProject "shader").exportGenerator
        (sessionFiles { storingGenerator with name := "Z" } "y") sampleDocument).files
        sampleDocument = .ok saved ∧
      saved.values.blocks.get? "B" = some "y" := by
  obtain ⟨g, hload, hiff, hpulls⟩ := exportedPath_of_session (by decide)
    (run_sessionFiles (g := { storingGenerator with name := "Z" }) rfl (by decide +kernel)
      (by decide +kernel)) rfl (by decide +kernel)
  have hstored : Generator.load (sessionFiles { storingGenerator with name := "Z" } "y")
      sampleDocument = .ok { storingGenerator with name := "Z" } := by
    decide +kernel
  cases hload.symm.trans hstored
  have hexport : ∃ report, ((sampleProject "shader").exportGenerator
      (sessionFiles { storingGenerator with name := "Z" } "y") sampleDocument).result =
        .ok report :=
    ⟨⟨sampleDocument, ⟨".", ["Z.shader"]⟩, "T", ["B"], ⟨[], [], []⟩, some sampleOutput, ⟨0, 1, 0⟩⟩,
      by decide +kernel⟩
  obtain ⟨report, hreport⟩ := hexport
  obtain ⟨-, saved, hsaved, hblocks⟩ := hpulls (hiff.mpr ⟨.here, rfl, by decide⟩) report
    (blockText "y") (by decide +kernel) hreport
  exact ⟨saved, hsaved, hblocks ("B", "y") (by decide +kernel)⟩

/-- An edit of the output directory leads the recorded file name astray, and then the next export
    does not take over what was edited in the last output. -/
theorem exportedPath_astray :
    (¬ ∀ (p : Project) (t : FileTree) (path output : Path) (s : Session) (g : Generator),
      HasNoSeparator p.config.outputExtension →
      Relation.ReflTransGen (Session.Step p path) ⟨t, none⟩ s → s.last = some output →
      Generator.load s.files path = .ok g →
      g.exportedPath path.directory = .ok (some output)) ∧
    ¬ ∀ (p : Project) (t : FileTree) (path output : Path) (s : Session) (g : Generator)
        (text : String) (report : ExportReport),
      HasNoSeparator p.config.outputExtension →
      Relation.ReflTransGen (Session.Step p path) ⟨t, none⟩ s → s.last = some output →
      Generator.load s.files path = .ok g → s.files.readText output = .ok text →
      (p.exportGenerator s.files path).result = .ok report →
      report.pulled = g.pulledNames text := by
  have hrun := run_sessionFiles (g := { storingGenerator with outputDir := some "out" }) rfl
    (by decide +kernel) (by decide +kernel)
  have hload : Generator.load (sessionFiles { storingGenerator with outputDir := some "out" } "y")
      sampleDocument = .ok { storingGenerator with outputDir := some "out" } := by
    decide +kernel
  constructor
  · intro h
    have hback := h _ _ _ _ _ _ (by decide) hrun rfl hload
    have haway : Generator.exportedPath { storingGenerator with outputDir := some "out" }
        sampleDocument.directory = .ok (some ⟨".", ["out", "A.shader"]⟩) := by
      decide +kernel
    exact absurd (haway.symm.trans hback) (by decide)
  · intro h
    have hreport : ((sampleProject "shader").exportGenerator
        (sessionFiles { storingGenerator with outputDir := some "out" } "y")
          sampleDocument).result =
          .ok ⟨sampleDocument, ⟨".", ["out", "A.shader"]⟩, "T", [], ⟨[], [], []⟩, none,
            ⟨0, 1, 0⟩⟩ := by
      decide +kernel
    have hpulled := h _ _ _ _ _ _ (blockText "y") _ (by decide) hrun rfl hload (by decide +kernel)
      hreport
    have hedited : Generator.pulledNames { storingGenerator with outputDir := some "out" }
        (blockText "y") = ["B"] := by
      decide +kernel
    cases hpulled.trans hedited

end Project

end ShaderTemplates
