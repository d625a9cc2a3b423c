import ShaderTemplates.Proofs.ForeignFiles

/-!
# What a failed export leaves behind

An export reads and decides before it changes anything, so an error that is not about writing leaves
the files as they are.  If the output cannot be written, no more is left than directories on the way
of its path: its text takes the place of the output in one step, and the operations after it are not
tried.  If its directory cannot be flushed then, the output is there all the same, and still nothing
else has changed (`files_of_failed_export`).

So an export that fails can have replaced the output, and the document does not know of it
(`failed_export_not_atomic`).  What keeps an output from being written is something in its way, or a
name or a path that no file can have.
-/

namespace ShaderTemplates

open Template FileTree Operation

variable {t t' : FileTree}

/-- A file that was written can be written again. -/
theorem Operation.run_write_twice {path : Path} {text : String}
    (h : run t (.write path text) = (t', .ok ())) (text' : String) :
    ∃ t'', run t' (.write path text') = (t'', .ok ()) := by
  obtain ⟨hreplace, hflush⟩ := run_write_eq_ok.mp h
  obtain ⟨⟨l, hputs⟩, -⟩ := puts_of_replaceFile hreplace
  obtain ⟨t'', hagain, -, -⟩ := replaceFile_of_file hputs.stands.located hputs.stands.content
    hputs.stands.draft text'
  have hkeep := (puts_of_replaceFile hagain).2
  exact ⟨t'', run_write_eq_ok.mpr ⟨hagain, hkeep.flushDirectory hflush⟩⟩

/-- Removing a last output never fails. -/
theorem Operation.runAll_remove (t : FileTree) (path? : Option Path) :
    (runAll t (path?.map Operation.remove).toList).2 = .ok () := by
  cases path? with
  | none => rfl
  | some path =>
      rw [Option.map_some, Option.toList_some, runAll_cons, run_remove_eq]
      split
      next => rfl
      next hremove => exact absurd hremove perform_remove_ne_error

/-- The operations of a plan fail at the output, or at the document after the output was written. -/
theorem ExportPlan.runAll_eq_error {plan : ExportPlan} {e : Error}
    (h : runAll t plan.operations = (t', .error e)) :
    run t (.write plan.output plan.conversion.text) = (t', .error e) ∨
      (e = .writeFailed plan.document ∧ plan.document ≠ plan.output) := by
  rw [operations, List.cons_append, runAll_cons] at h
  split at h
  next t₁ houtput =>
    right
    rw [List.cons_append, runAll_cons] at h
    split at h
    next t₂ hdocument =>
      have hremoved := runAll_remove t₂ plan.renamedFrom
      rw [List.nil_append] at h
      rw [h] at hremoved
      cases hremoved
    next hdocument =>
      cases h
      refine ⟨(run_write_eq_error hdocument).1, fun hsame => ?_⟩
      -- at the path of the output the second text would have replaced the first one
      obtain ⟨t₂, hsecond⟩ := run_write_twice houtput plan.generator.write
      rw [hsame, hsecond] at hdocument
      cases hdocument
  next houtput =>
    cases h
    exact .inl houtput

namespace Project

variable {p : Project} {path : Path}

/-- An export that fails for another reason than writing changes nothing.  One that cannot write
    its output makes no more than directories on the way of the output's path, unless it was the
    directory of the output that could not be flushed: then the output has the new text, and nothing
    else has changed. -/
theorem files_of_failed_export {e : Error} (h : (p.exportGenerator t path).result = .error e) :
    ((∀ file, e ≠ .writeFailed file) → (p.exportGenerator t path).files = t) ∧
    ∀ g output, Generator.load t path = .ok g →
      g.outputPath path.directory p.config.outputExtension = .ok output →
      e = .writeFailed output →
      t.AddsOnly (p.exportGenerator t path).files output.directory.ancestors ∨
        ((p.exportGenerator t path).files.flushDirectory output.directory ≠ .ok () ∧
          ∃ source plan l, p.readForExport t path = .ok source ∧
            source.plan p.config t = .ok plan ∧
            t.Places (p.exportGenerator t path).files output plan.conversion.text l) := by
  rcases p.files_of_exportGenerator t path with hsame | ⟨source, plan, hread, hplan, hfiles⟩
  · exact ⟨fun _ => hsame, fun _ _ _ _ _ => .inl (hsame.symm ▸ .refl t _)⟩
  have hrun : runAll t plan.operations = ((p.exportGenerator t path).files, .error e) := by
    rw [(exportGenerator_of hread hplan).2] at h
    cases hresult : (runAll t plan.operations).2 with
    | ok =>
        rw [hresult] at h
        cases h
    | error e' =>
        rw [hresult] at h
        cases h
        rw [hfiles, ← hresult]
  constructor
  · intro hother
    rcases ExportPlan.runAll_eq_error hrun with hwrite | ⟨hwrite, -⟩
    · exact absurd (run_write_eq_error hwrite).1 (hother _)
    · exact absurd hwrite (hother _)
  · intro g output hload houtput hwrite
    obtain ⟨-, g', hload', houtput', -⟩ := paths_of_plan hread hplan
    cases hload.symm.trans hload'
    cases houtput.symm.trans houtput'
    rcases ExportPlan.runAll_eq_error hrun with hfailed | ⟨hdocument, hne⟩
    · rcases (run_write_eq_error hfailed).2 with hadds | ⟨hreplace, hflush⟩
      · exact .inl hadds
      · obtain ⟨l, hplaces⟩ := places_of_replaceFile hreplace
        exact .inr ⟨hflush, source, plan, l, hread, hplan, hplaces⟩
    · rw [hwrite] at hdocument
      exact absurd (Error.writeFailed.inj hdocument).symm hne

/-- A generator with a directory for its output. -/
def directedGenerator : Generator := { sampleGenerator with outputDir := some "out" }

/-- The path of its output under a name that no file can have. -/
def namelessOutput : Path := ⟨".", ["out", "A.\x00"]⟩

/-- An export that cannot write its output leaves the directory of the output behind and nothing
    else; one that finds no template leaves nothing behind. -/
theorem files_of_failed_export_sample :
    (sampleFiles "x" directedGenerator).AddsOnly
        ((sampleProject "\x00").exportGenerator (sampleFiles "x" directedGenerator)
          sampleDocument).files namelessOutput.directory.ancestors ∧
      ((sampleProject "\x00").exportGenerator (sampleFiles "x" directedGenerator)
        sampleDocument).files.get? ["out"] = some .directory ∧
      ((sampleProject "shader").exportGenerator
          (sampleFiles "x" { sampleGenerator with template := "U" }) sampleDocument).files =
        sampleFiles "x" { sampleGenerator with template := "U" } := by
  have hnameless : ((sampleProject "\x00").exportGenerator (sampleFiles "x" directedGenerator)
      sampleDocument).result = .error (.writeFailed namelessOutput) := by
    decide +kernel
  have hmissing : ((sampleProject "shader").exportGenerator
      (sampleFiles "x" { sampleGenerator with template := "U" }) sampleDocument).result =
        .error (.templateNotFound "U") := by
    decide +kernel
  refine ⟨?_, by decide +kernel, (files_of_failed_export hmissing).1 ?_⟩
  · have hleft := (files_of_failed_export hnameless).2 directedGenerator namelessOutput
      (by decide +kernel) (by decide +kernel) rfl
    refine hleft.resolve_right fun hplaced => hplaced.1 ?_
    decide +kernel
  · rintro file ⟨⟩

/-- The files of the sample project with an output, in a directory that cannot be opened. -/
def unopenedFiles : FileTree :=
  ((sampleFiles "x" sampleGenerator).replaceFile sampleOutput "mine").1.withUnopened []

/-- An export that cannot write its output can have replaced the file that was there, and it can
    leave a directory that is not above the output. -/
theorem failed_export_not_atomic :
    (¬ ∀ (p : Project) (t : FileTree) (path output : Path) (g : Generator),
      (p.exportGenerator t path).result = .error (.writeFailed output) →
      Generator.load t path = .ok g →
      g.outputPath path.directory p.config.outputExtension = .ok output →
      ∀ l content, t.file? l = some content →
        (p.exportGenerator t path).files.file? l = some content) ∧
    ¬ ∀ (p : Project) (t : FileTree) (path output : Path) (g : Generator) (o : Location),
      (p.exportGenerator t path).result = .error (.writeFailed output) →
      Generator.load t path = .ok g →
      g.outputPath path.directory p.config.outputExtension = .ok output →
      (p.exportGenerator t path).files.locate output = .ok o →
      ∀ l, (p.exportGenerator t path).files.get? l = t.get? l ∨ l <+: o := by
  constructor
  · intro h
    have hkept := h (sampleProject "shader") unopenedFiles sampleDocument sampleOutput
      sampleGenerator (by decide +kernel) (by decide +kernel) (by decide +kernel) ["A.shader"]
      (.text "mine") (by decide +kernel)
    revert hkept
    decide +kernel
  · intro h
    have hmade := h (sampleProject "x/../B")
      ((sampleFiles "x" sampleGenerator).makeDirectories ⟨"B", []⟩).1 sampleDocument
      ⟨".", ["A.x", "..", "B"]⟩ sampleGenerator ["B"] (by decide +kernel) (by decide +kernel)
      (by decide +kernel) (by decide +kernel) ["A.x"]
    revert hmade
    decide +kernel

end Project

end ShaderTemplates
