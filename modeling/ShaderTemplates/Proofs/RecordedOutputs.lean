import ShaderTemplates.Proofs.ForeignFiles

/-!
# Outputs that documents record

A document names its last output (`NamesOutput`) as long as the file that it records is there.  An
export that starts with such a document and stops after any of its changes leaves such a document:
it writes the new output before the document that records it, and removes the last output after
that.  So the last output is gone only if the document on disk records the new one, and the new one
is complete (`namesOutput_of_stopped`).
-/

namespace ShaderTemplates

open Template FileTree Operation

variable {t t' : FileTree} {path : Path}

/-- The document is a generator, and the output that it records is there. -/
def FileTree.NamesOutput (t : FileTree) (path : Path) : Prop :=
  ∃ g exported, Generator.load t path = .ok g ∧ g.exportedPath path.directory = .ok exported ∧
    ∀ last ∈ exported, t.isFile last = true

/-- The document names its last output; and if the output before is gone, then the document records
    the new one, which has the converted text. -/
structure ExportPlan.Recorded (plan : ExportPlan) (t : FileTree) (exported : Option Path) :
    Prop where
  names : t.NamesOutput plan.document
  gone : ∀ last ∈ exported, t.isFile last = false → ∃ g,
    Generator.load t plan.document = .ok g ∧
    g.exportedPath plan.document.directory = .ok (some plan.output) ∧
    t.readText plan.output = .ok plan.conversion.text

/-- A generator is read as before if nothing happened to its document. -/
theorem Generator.load_keep {g : Generator} {d : Location} (hkeep : t.Keeps t')
    (hload : load t path = .ok g) (hd : t.locate path = .ok d) (hfile : t'.file? d = t.file? d) :
    load t' path = .ok g := by
  obtain ⟨k, text, hk, htext, hparse⟩ := load_iff.mp hload
  cases hd.symm.trans hk
  exact load_iff.mpr ⟨d, text, hkeep.locate hd, hfile.trans htext, hparse⟩

namespace Project

variable {p : Project}

section Stopped

variable {source : ExportSource} {plan : ExportPlan} {n : Nat}
  (hextension : HasNoSeparator p.config.outputExtension)
  (hread : p.readForExport t path = .ok source) (hplan : source.plan p.config t = .ok plan)

include hextension hread hplan

/-- An output that did not lead to the document does not lead there later. -/
theorem output_ne_document (hother : ¬ t.SameFile plan.output path) (hkeep : t.Keeps t')
    {d : Location} (hd : t.locate path = .ok d) : t'.locate plan.output ≠ .ok d := by
  intro houtput
  obtain ⟨-, g, hload, hpath, -⟩ := paths_of_plan hread hplan
  obtain ⟨k, text, hk, htext, -⟩ := Generator.load_iff.mp hload
  cases hd.symm.trans hk
  obtain ⟨m, -, -, -, hm, -⟩ := locate_directory hd (not_directory_of_file? htext)
  -- what stands there was there before, and the path led to it already
  exact hother ⟨d, Generator.locate_output_before hextension hpath hkeep (.inr ⟨m, hm⟩) houtput
    (get?_ne_none_of_file? htext), hd⟩

/-- A last output that is removed is in another place than the new output. -/
theorem renamedFrom_ne_output {o : Location} (ho : t'.locate plan.output = .ok o) :
    ∀ previous ∈ plan.renamedFrom, t'.locate previous ≠ .ok o := by
  intro previous hmem hprevious
  obtain ⟨g, _, template, _, exported, last, hload, -, -, -, hexported, -, rfl⟩ :=
    readForExport_eq_ok.mp hread
  obtain ⟨base, houtputs⟩ := outputsIn_of_plan hextension hplan hexported
  obtain ⟨-, g', hload', -, hrenamed⟩ := paths_of_plan hread hplan
  cases hload.symm.trans hload'
  cases hexported.symm.trans (hrenamed previous hmem).1
  have hsame := houtputs.eq_of_locate rfl hprevious ho
  have hplace := (Option.filter_eq_some_iff.mp hmem).2
  rw [hsame] at hplace
  have hself : plan.output.SamePlace plan.output := rfl
  rw [decide_eq_true hself] at hplace
  cases hplace

/-- Once the document is saved, the new output is complete. -/
theorem stands_of_stoppedAfter (hother : ¬ t.SameFile plan.output path) (hn : 2 ≤ n)
    (hstop : StoppedAfter n t plan.operations t') :
    ∃ o, t'.Stands plan.output o plan.conversion.text := by
  obtain ⟨hpath, g, hload, -, -⟩ := paths_of_plan hread hplan
  obtain ⟨d, -, hd, -, -⟩ := Generator.load_iff.mp hload
  obtain ⟨t₂, o, d', hsaved, hkeep, hfiles⟩ := plan.stoppedAfter_saved hn hstop
  have hdocument := hsaved.document.located
  rw [hpath] at hdocument
  cases (hsaved.keeps.locate hd).symm.trans hdocument
  have hne : o ≠ d := by
    rintro rfl
    exact output_ne_document hextension hread hplan hother hsaved.keeps hd hsaved.located
  have hout := hsaved.output hne
  refine ⟨o, hout.keep hkeep ?_⟩
  rw [hfiles o (renamedFrom_ne_output hextension hread hplan hsaved.located), hout.content]

/-- As long as the document is not saved, it is as it was, and so is the output that it records. -/
theorem recorded_before_saving {g : Generator} {exported : Option Path}
    (hload : Generator.load t path = .ok g) (hthere : ∀ last ∈ exported, t.isFile last = true)
    (hother : ¬ t.SameFile plan.output path) (hn : n < 2)
    (hstop : StoppedAfter n t plan.operations t') :
    Generator.load t' path = .ok g ∧ ∀ last ∈ exported, t'.isFile last = true := by
  obtain ⟨d, -, hd, -, -⟩ := Generator.load_iff.mp hload
  match n with
  | 0 =>
      have hmade := stoppedAfter_zero.mp hstop
      refine ⟨Generator.load_keep hmade.toKeeps hload hd (hmade.files d), fun last hmem => ?_⟩
      obtain ⟨l, content, hl, hcontent⟩ := isFile_iff.mp (hthere last hmem)
      exact isFile_iff.mpr ⟨l, content, hmade.locate hl, (hmade.files l).trans hcontent⟩
  | 1 =>
      obtain ⟨o, hout, hkeep, hfiles⟩ := plan.stoppedAfter_one hstop
      have hne : d ≠ o := by
        rintro rfl
        exact output_ne_document hextension hread hplan hother hkeep hd hout.located
      refine ⟨Generator.load_keep hkeep hload hd (hfiles d hne), fun last hmem => ?_⟩
      obtain ⟨l, content, hl, hcontent⟩ := isFile_iff.mp (hthere last hmem)
      -- the new output may have taken the place of the last one
      by_cases hlo : l = o
      · exact isFile_iff.mpr ⟨o, _, hlo ▸ hkeep.locate hl, hout.content⟩
      · exact isFile_iff.mpr ⟨l, content, hkeep.locate hl, (hfiles l hlo).trans hcontent⟩

/-- Once the document is saved, it records the new output, which is complete. -/
theorem recorded_after_saving {g : Generator} {exported : Option Path}
    (hload : Generator.load t path = .ok g)
    (hexported : g.exportedPath path.directory = .ok exported)
    (hself : ∀ last ∈ exported, ¬ t.SameFile last path) (hother : ¬ t.SameFile plan.output path)
    (hn : 2 ≤ n) (hstop : StoppedAfter n t plan.operations t') :
    Generator.load t' path = .ok plan.generator ∧
      plan.generator.exportedPath path.directory = .ok (some plan.output) ∧
      ∃ o, t'.Stands plan.output o plan.conversion.text := by
  obtain ⟨hpath, g', hload', -, hrenamed⟩ := paths_of_plan hread hplan
  cases hload.symm.trans hload'
  obtain ⟨d, -, hd, -, -⟩ := Generator.load_iff.mp hload
  obtain ⟨hdocument, -, hrecorded⟩ := generator_of_plan hextension hplan
  rw [hdocument.symm.trans hpath] at hrecorded
  have hsaved : Generator.load t' plan.document = .ok plan.generator := by
    refine plan.load_of_stoppedAfter hn hstop (by rw [hpath]; exact hd) fun previous hmem => ?_
    obtain ⟨hlast, hfile⟩ := hrenamed previous hmem
    cases hexported.symm.trans hlast
    obtain ⟨l, -, hl, -⟩ := isFile_iff.mp hfile
    exact ⟨l, hl, ne_of_not_sameFile (hself previous rfl) hl hd⟩
  rw [hpath] at hsaved
  exact ⟨hsaved, hrecorded, stands_of_stoppedAfter hextension hread hplan hother hn hstop⟩

theorem recorded_of_stoppedAfter {g : Generator} {exported : Option Path}
    (hload : Generator.load t path = .ok g)
    (hexported : g.exportedPath path.directory = .ok exported)
    (hthere : ∀ last ∈ exported, t.isFile last = true)
    (hself : ∀ last ∈ exported, ¬ t.SameFile last path) (hother : ¬ t.SameFile plan.output path)
    (hstop : StoppedAfter n t plan.operations t') : plan.Recorded t' exported := by
  obtain ⟨rfl, -⟩ := paths_of_plan hread hplan
  rcases Nat.lt_or_ge n 2 with hn | hn
  · obtain ⟨hloaded, hstill⟩ :=
      recorded_before_saving hextension hread hplan hload hthere hother hn hstop
    refine ⟨⟨g, exported, hloaded, hexported, hstill⟩, fun last hmem hgone => ?_⟩
    cases (hstill last hmem).symm.trans hgone
  · obtain ⟨hsaved, hrecorded, o, hout⟩ :=
      recorded_after_saving hextension hread hplan hload hexported hself hother hn hstop
    refine ⟨⟨plan.generator, some plan.output, hsaved, hrecorded, ?_⟩, fun _ _ _ =>
      ⟨plan.generator, hsaved, hrecorded, hout.readText⟩⟩
    rintro _ ⟨⟩
    exact hout.isFile

end Stopped

/-- After every export, and wherever it stops, its document can be read and the output that it
    records is there; and if the last output is gone, then the document records the new one, which
    is complete. -/
theorem namesOutput_of_stopped (hextension : HasNoSeparator p.config.outputExtension)
    {g : Generator} {exported : Option Path} (hload : Generator.load t path = .ok g)
    (hexported : g.exportedPath path.directory = .ok exported)
    (hthere : ∀ last ∈ exported, t.isFile last = true)
    (hself : ∀ last ∈ exported, ¬ t.SameFile last path)
    (hother : ∀ output, g.outputPath path.directory p.config.outputExtension = .ok output →
      ¬ t.SameFile output path) :
    (p.exportGenerator t path).files.NamesOutput path ∧
      ∀ source plan, p.readForExport t path = .ok source → source.plan p.config t = .ok plan →
        plan.document = path ∧
        (∃ n, StoppedAfter n t plan.operations (p.exportGenerator t path).files) ∧
        ∀ n t', StoppedAfter n t plan.operations t' → plan.Recorded t' exported := by
  have hrecorded : ∀ source plan, p.readForExport t path = .ok source →
      source.plan p.config t = .ok plan →
      ∀ n t', StoppedAfter n t plan.operations t' → plan.Recorded t' exported := by
    intro source plan hread hplan n t' hstop
    obtain ⟨-, g', hload', houtput, -⟩ := paths_of_plan hread hplan
    cases hload.symm.trans hload'
    exact recorded_of_stoppedAfter hextension hread hplan hload hexported hthere hself
      (hother _ houtput) hstop
  have hstops : ∀ source plan, p.readForExport t path = .ok source →
      source.plan p.config t = .ok plan →
      ∃ n, StoppedAfter n t plan.operations (p.exportGenerator t path).files := by
    intro source plan hread hplan
    rw [(exportGenerator_of hread hplan).1]
    exact exists_stoppedAfter t plan.operations
  refine ⟨?_, fun source plan hread hplan => ⟨(paths_of_plan hread hplan).1,
    hstops source plan hread hplan, hrecorded source plan hread hplan⟩⟩
  rcases p.files_of_exportGenerator t path with hsame | ⟨source, plan, hread, hplan, -⟩
  · rw [hsame]
    exact ⟨g, exported, hload, hexported, hthere⟩
  · obtain ⟨n, hstop⟩ := hstops source plan hread hplan
    exact (paths_of_plan hread hplan).1 ▸ (hrecorded source plan hread hplan n _ hstop).names

/-- The sample files with the output of a generator that got another name since. -/
def renamedFiles : FileTree := ((sampleFiles "x" guestNamed).replaceFile sampleOutput "x").1

/-- What an export of the renamed generator is going to do: its last output has another path. -/
def renamedPlan : ExportPlan where
  document := sampleDocument
  generator := { guestNamed with exported := some "Z.shader" }
  output := guestPath
  conversion := ⟨"x", ⟨0, 0, 0⟩⟩
  pulled := []
  synced := ⟨[], [], []⟩
  previous := some sampleOutput

/-- When the last output is gone, the document records the output under the new name. -/
theorem namesOutput_of_stopped_sample :
    renamedPlan.Recorded (runAll renamedFiles renamedPlan.operations).1 (some sampleOutput) ∧
      (runAll renamedFiles renamedPlan.operations).1.isFile sampleOutput = false ∧
      (runAll renamedFiles renamedPlan.operations).1.readText guestPath = .ok "x" := by
  have hread : (sampleProject "shader").readForExport renamedFiles sampleDocument =
      .ok ⟨sampleDocument, guestNamed, "x", some (sampleOutput, "x")⟩ := by
    decide +kernel
  have hplan : ExportSource.plan ⟨sampleDocument, guestNamed, "x", some (sampleOutput, "x")⟩
      (sampleProject "shader").config renamedFiles = .ok renamedPlan := by
    decide +kernel
  have hload : Generator.load renamedFiles sampleDocument = .ok guestNamed := by decide +kernel
  have hexported : guestNamed.exportedPath sampleDocument.directory = .ok (some sampleOutput) := by
    decide +kernel
  have hgone : (runAll renamedFiles renamedPlan.operations).1.isFile sampleOutput = false := by
    decide +kernel
  have hstop : StoppedAfter 3 renamedFiles renamedPlan.operations
      (runAll renamedFiles renamedPlan.operations).1 :=
    ⟨_, by decide +kernel, .refl _⟩
  have hother : ∀ output, guestNamed.outputPath sampleDocument.directory
      (sampleProject "shader").config.outputExtension = .ok output →
        ¬ renamedFiles.SameFile output sampleDocument := by
    intro output houtput
    have hpath : guestNamed.outputPath sampleDocument.directory
        (sampleProject "shader").config.outputExtension = .ok guestPath := by
      decide +kernel
    cases hpath.symm.trans houtput
    decide +kernel
  obtain ⟨-, hstopped⟩ := namesOutput_of_stopped (p := sampleProject "shader") (by decide) hload
    hexported (by decide +kernel) (by decide +kernel) hother
  have hrecorded := (hstopped _ _ hread hplan).2.2 3 _ hstop
  obtain ⟨-, -, -, htext⟩ := hrecorded.gone sampleOutput rfl hgone
  exact ⟨hrecorded, hgone, htext⟩

end Project

end ShaderTemplates
