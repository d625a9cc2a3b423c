import ShaderTemplates.Proofs.ExportAgain
import ShaderTemplates.Proofs.PulledBlocks

/-!
# Exports that were stopped

The changes of an export on disk can stop after any of them, and a change that cannot be made leaves
no more behind than directories (`StoppedAfter`); whatever an export does, it stops like this after
some of its changes (`exists_stoppedAfter`).  A change that was made and could not be flushed is the
last one.

The bodies that an export pulls can be read from disk wherever it stops, but for one case: the
output replaced the last output at the same place, does not show the body, and the document was not
saved any more (`pulled_readable_iff`).  This needs that the document is not its own last output,
since a complete export removes it then (`pulled_lost`).
-/

namespace ShaderTemplates

open Template FileTree

deriving instance DecidableEq for ExportPlan

-- ── Stopping ─────────────────────────────────────────────────────────────────

namespace FileTree

variable {t t' : FileTree}

/-- A file is read as before if nothing happened to it. -/
theorem readText_keep {p : Path} {l : Location} {text : String} (hkeep : t.Keeps t')
    (hread : t.readText p = .ok text) (hp : t.locate p = .ok l) (hfile : t'.file? l = t.file? l) :
    t'.readText p = .ok text := by
  obtain ⟨k, hk, htext⟩ := readText_eq_ok.mp hread
  cases hp.symm.trans hk
  exact readText_eq_ok.mpr ⟨l, hkeep.locate hp, hfile.trans htext⟩

end FileTree

namespace Operation

/-- The first changes were made, and what was tried after them left no more behind than
    directories. -/
def StoppedAfter (n : Nat) (t : FileTree) (operations : List Operation) (t' : FileTree) : Prop :=
  ∃ t₁, performAll t (operations.take n) = (t₁, .ok ()) ∧ t₁.AddsDirectories t'

theorem addsDirectories_of_perform {t t' : FileTree} {operation : Operation} {e : Error}
    (h : perform t operation = (t', .error e)) : t.AddsDirectories t' := by
  cases operation with
  | write path text =>
      obtain ⟨-, fault, hreplace⟩ := perform_write_eq_error h
      exact (addsOnly_of_replaceFile hreplace).addsDirectories
  | remove path => exact absurd h perform_remove_ne_error

theorem stoppedAfter_zero {t t' : FileTree} {operations : List Operation} :
    StoppedAfter 0 t operations t' ↔ t.AddsDirectories t' := by
  constructor
  · rintro ⟨t₁, ⟨⟩, h⟩
    exact h
  · intro h
    exact ⟨t, rfl, h⟩

theorem stoppedAfter_cons {t t' : FileTree} {n : Nat} {operation : Operation}
    {rest : List Operation} : StoppedAfter (n + 1) t (operation :: rest) t' ↔
      ∃ t₁, perform t operation = (t₁, .ok ()) ∧ StoppedAfter n t₁ rest t' := by
  constructor
  · rintro ⟨t₂, hall, hmade⟩
    rw [List.take_succ_cons] at hall
    obtain ⟨t₁, hfirst, hrest⟩ := inOrder_cons_eq_ok.mp hall
    exact ⟨t₁, hfirst, t₂, hrest, hmade⟩
  · rintro ⟨t₁, hfirst, t₂, hrest, hmade⟩
    refine ⟨t₂, ?_, hmade⟩
    rw [List.take_succ_cons]
    exact inOrder_cons_eq_ok.mpr ⟨t₁, hfirst, hrest⟩

/-- Operations that are carried out as far as possible stop after one of them. -/
theorem exists_stoppedAfter (t : FileTree) (operations : List Operation) :
    ∃ n, StoppedAfter n t operations (runAll t operations).1 := by
  induction operations generalizing t with
  | nil => exact ⟨0, stoppedAfter_zero.mpr (.refl t)⟩
  | cons operation rest ih =>
      rw [runAll_cons]
      split
      next t₁ hrun =>
        obtain ⟨n, hn⟩ := ih t₁
        exact ⟨n + 1, stoppedAfter_cons.mpr ⟨t₁, (run_eq_ok.mp hrun).1, hn⟩⟩
      next t₁ e hrun =>
        rcases run_eq_error hrun with hperform | ⟨hperform, -⟩
        · exact ⟨0, stoppedAfter_zero.mpr (addsDirectories_of_perform hperform)⟩
        · exact ⟨1, stoppedAfter_cons.mpr ⟨t₁, hperform, stoppedAfter_zero.mpr (.refl t₁)⟩⟩

/-- Operations that were all carried out stopped after the last one. -/
theorem stoppedAfter_of_runAll {t t' : FileTree} {operations : List Operation}
    (h : runAll t operations = (t', .ok ())) :
    StoppedAfter operations.length t operations t' :=
  ⟨t', by rw [List.take_length, performAll_of_runAll h], .refl t'⟩

end Operation

open Operation

namespace ExportPlan

variable {plan : ExportPlan} {t t' : FileTree} {n : Nat}

/-- An export writes two files at least. -/
theorem two_le_length (plan : ExportPlan) : 2 ≤ plan.operations.length := by
  simp [operations]

theorem stoppedAfter_one (h : StoppedAfter 1 t plan.operations t') :
    ∃ o, t'.Stands plan.output o plan.conversion.text ∧ t.Keeps t' ∧
      ∀ l, l ≠ o → t'.file? l = t.file? l := by
  obtain ⟨t₁, hperform, h⟩ := stoppedAfter_cons.mp h
  obtain ⟨o, hout, hkeep, hfiles⟩ := stands_of_replaceFile (perform_write_eq_ok.mp hperform)
  have hmade := stoppedAfter_zero.mp h
  refine ⟨o, hout.keep hmade.toKeeps ((hmade.files o).trans hout.content),
    hkeep.trans hmade.toKeeps, ?_⟩
  intro l hl
  rw [hmade.files, hfiles l hl]

/-- Once the document is saved, at most the last output is still dropped. -/
theorem stoppedAfter_saved (hn : 2 ≤ n) (h : StoppedAfter n t plan.operations t') :
    ∃ t₂ o d, plan.Saved t t₂ o d ∧ t₂.Keeps t' ∧
      ∀ l, (∀ previous ∈ plan.renamedFrom, t₂.locate previous ≠ .ok l) →
        t'.file? l = t₂.file? l := by
  obtain ⟨n, rfl⟩ := Nat.exists_eq_add_of_le' hn
  obtain ⟨t₁, houtput, h⟩ := stoppedAfter_cons.mp h
  obtain ⟨t₂, hdocument, t₃, hrest, hmade⟩ := stoppedAfter_cons.mp h
  obtain ⟨o, d, hsaved⟩ := saved_of_perform houtput hdocument
  refine ⟨t₂, o, d, hsaved, ?_⟩
  cases n with
  | zero =>
      cases hrest
      exact ⟨hmade.toKeeps, fun l _ => hmade.files l⟩
  | succ n =>
      have hall : ((plan.renamedFrom.map Operation.remove).toList).take (n + 1) =
          (plan.renamedFrom.map Operation.remove).toList := by
        cases plan.renamedFrom <;> simp
      have hremove : performAll t₂ ((plan.renamedFrom.map Operation.remove).toList.take (n + 1)) =
          (t₃, .ok ()) := hrest
      rw [hall] at hremove
      have hdrops := drops_of_performAll hremove
      exact ⟨hdrops.keeps.trans hmade.toKeeps, fun l hl =>
        (hmade.files l).trans (hdrops.others l hl)⟩

/-- A document that is not the last output stays saved. -/
theorem load_of_stoppedAfter (hn : 2 ≤ n) (h : StoppedAfter n t plan.operations t') {d : Location}
    (hfound : t.locate plan.document = .ok d)
    (hprevious : ∀ previous ∈ plan.renamedFrom, ∃ l, t.locate previous = .ok l ∧ l ≠ d) :
    Generator.load t' plan.document = .ok plan.generator := by
  obtain ⟨t₂, o, d', hsaved, hkeep, hfiles⟩ := stoppedAfter_saved hn h
  cases (hsaved.keeps.locate hfound).symm.trans hsaved.document.located
  refine Generator.load_of_stands (hsaved.document.keep hkeep ?_)
    (Generator.parse?_write plan.generator)
  rw [hfiles d, hsaved.document.content]
  intro previous hmem heq
  obtain ⟨l, hl, hne⟩ := hprevious previous hmem
  exact hne (Except.ok.inj ((hsaved.keeps.locate hl).symm.trans heq))

end ExportPlan

-- ── Pulled bodies ────────────────────────────────────────────────────────────

namespace FileTree

/-- The file shows the block with this body. -/
def Shows (t : FileTree) (p : Path) (e : String × String) : Prop :=
  ∃ text, t.readText p = .ok text ∧ e ∈ (scan text).blocks.entries

/-- The document stores this body for the block. -/
def Stores (t : FileTree) (document : Path) (e : String × String) : Prop :=
  ∃ g, Generator.load t document = .ok g ∧ g.values.blocks.get? e.1 = some e.2

/-- The body can be read from disk: from the last output, from the document or from the output. -/
def CanRead (t : FileTree) (previous document output : Path) (e : String × String) : Prop :=
  t.Shows previous e ∨ t.Stores document e ∨ t.Shows output e

end FileTree

/-- The plan is one for a generator with a last output, and takes the edited bodies over. -/
structure ExportPlan.PullsFrom (plan : ExportPlan) (t : FileTree) (g : Generator) (previous : Path)
    (text : String) : Prop where
  load : Generator.load t plan.document = .ok g
  read : t.readText previous = .ok text
  renamed : ∀ path ∈ plan.renamedFrom, path = previous
  pulled : plan.pulled = g.pulledNames text
  saved : ∀ e ∈ g.editedBlocks text, plan.generator.values.blocks.get? e.1 = some e.2

theorem pullsFrom_of_plan {p : Project} {t : FileTree} {path : Path} {source : ExportSource}
    {plan : ExportPlan} (hread : p.readForExport t path = .ok source)
    (hplan : source.plan p.config t = .ok plan) {previous : Path} {text : String}
    (hprevious : source.previous = some (previous, text)) :
    plan.document = path ∧ ∃ g, plan.PullsFrom t g previous text ∧
      g.editedBlocks text = source.generator.editedBlocks text := by
  obtain ⟨g, catalog, template, templateText, exported, _, hload, -, -, -, -, hlast, rfl⟩ :=
    Project.readForExport_eq_ok.mp hread
  obtain ⟨values, conversion, output, -, -, -, -, rfl⟩ := ExportSource.plan_eq_ok.mp hplan
  cases hprevious
  refine ⟨rfl, g, ⟨hload, (lastOutput_eq_some hlast).2, ?_, rfl, ?_⟩, rfl⟩
  · intro q hq
    cases (Option.filter_eq_some_iff.mp hq).1
    rfl
  · intro e he
    exact ExportSource.get?_recorded (s := ⟨path, { g with template }, templateText,
      some (previous, text)⟩) rfl he

namespace ExportPlan.PullsFrom

variable {plan : ExportPlan} {t t' : FileTree} {g : Generator} {previous : Path} {text : String}
  {n : Nat} {e : String × String}

/-- The last output is not the document, so removing it leaves the document. -/
theorem renamed_ne (h : plan.PullsFrom t g previous text)
    (hself : ¬ t.SameFile previous plan.document) {d : Location}
    (hd : t.locate plan.document = .ok d) :
    ∀ path ∈ plan.renamedFrom, ∃ l, t.locate path = .ok l ∧ l ≠ d := by
  intro path hpath
  obtain ⟨l, hl, -⟩ := readText_eq_ok.mp h.read
  rw [h.renamed path hpath]
  exact ⟨l, hl, ne_of_not_sameFile hself hl hd⟩

/-- A body that was pulled is lost if an output that does not show it replaced the last output and
    the document was not saved. -/
theorem not_canRead (h : plan.PullsFrom t g previous text)
    (hself : ¬ t.SameFile previous plan.document) (hstop : StoppedAfter 1 t plan.operations t')
    (hsame : t'.SameFile previous plan.output) (he : e ∈ g.editedBlocks text)
    (hhidden : e ∉ (scan plan.conversion.text).blocks.entries) :
    ¬ t'.CanRead previous plan.document plan.output e := by
  obtain ⟨o, hout, hkeep, hfiles⟩ := plan.stoppedAfter_one hstop
  obtain ⟨l, hprevious, hl⟩ := hsame
  cases hout.located.symm.trans hl
  have htext : ∀ {p : Path} {s : String}, t'.locate p = .ok o → t'.readText p = .ok s →
      s = plan.conversion.text := by
    intro p s hp hs
    obtain ⟨k, hk, hcontent⟩ := readText_eq_ok.mp hs
    cases hp.symm.trans hk
    have hsame := hcontent.symm.trans hout.content
    cases hsame
    rfl
  rintro (⟨s, hs, hmem⟩ | ⟨g', hg', hget⟩ | ⟨s, hs, hmem⟩)
  · exact hhidden (htext hprevious hs ▸ hmem)
  · -- the document is as it was, with another body
    obtain ⟨d, s, hd, hs, hparse⟩ := Generator.load_iff.mp h.load
    obtain ⟨k, hk, -⟩ := readText_eq_ok.mp h.read
    have hne : d ≠ o := by
      rintro rfl
      cases (hkeep.locate hk).symm.trans hprevious
      exact hself ⟨_, hk, hd⟩
    have hload : Generator.load t' plan.document = .ok g :=
      Generator.load_iff.mpr ⟨d, s, hkeep.locate hd, (hfiles d hne).trans hs, hparse⟩
    cases hload.symm.trans hg'
    obtain ⟨-, stored, hstored, hother⟩ := Generator.mem_editedBlocks.mp he
    exact hother (Option.some.inj (hstored.symm.trans hget))
  · exact hhidden (htext hout.located hs ▸ hmem)

/-- In every other case a body that was pulled can be read. -/
theorem canRead (h : plan.PullsFrom t g previous text)
    (hself : ¬ t.SameFile previous plan.document) (hstop : StoppedAfter n t plan.operations t')
    (he : e ∈ g.editedBlocks text) (hkept : n = 1 → t'.SameFile previous plan.output →
      e ∈ (scan plan.conversion.text).blocks.entries) :
    t'.CanRead previous plan.document plan.output e := by
  have hshown := (Generator.mem_editedBlocks.mp he).1
  obtain ⟨l, hl, -⟩ := readText_eq_ok.mp h.read
  match n with
  | 0 =>
      have hmade := stoppedAfter_zero.mp hstop
      exact .inl ⟨text, readText_keep hmade.toKeeps h.read hl (hmade.files l), hshown⟩
  | 1 =>
      obtain ⟨o, hout, hkeep, hfiles⟩ := plan.stoppedAfter_one hstop
      by_cases hlo : l = o
      · subst hlo
        have hsame : t'.SameFile previous plan.output := ⟨l, hkeep.locate hl, hout.located⟩
        exact .inr (.inr ⟨_, hout.readText, hkept rfl hsame⟩)
      · exact .inl ⟨text, readText_keep hkeep h.read hl (hfiles l hlo), hshown⟩
  | n + 2 =>
      obtain ⟨d, -, hd, -, -⟩ := Generator.load_iff.mp h.load
      have hload := plan.load_of_stoppedAfter (by omega) hstop hd (h.renamed_ne hself hd)
      exact .inr (.inl ⟨plan.generator, hload, h.saved e he⟩)

end ExportPlan.PullsFrom

namespace Project

/-- Wherever an export stops, a body that it pulled can be read from disk, unless the output
    without this body replaced the last output and the document was not saved. -/
theorem pulled_readable_iff {p : Project} {t : FileTree} {path : Path} {source : ExportSource}
    {plan : ExportPlan} (hread : p.readForExport t path = .ok source)
    (hplan : source.plan p.config t = .ok plan) {previous : Path} {text : String}
    (hprevious : source.previous = some (previous, text))
    (hself : ¬ t.SameFile previous path) :
    (∃ n, StoppedAfter n t plan.operations (p.exportGenerator t path).files) ∧
      ∀ n t', StoppedAfter n t plan.operations t' → ∀ e ∈ source.generator.editedBlocks text,
        (t'.CanRead previous path plan.output e ↔ ¬ (n = 1 ∧ t'.SameFile previous plan.output ∧
          e ∉ (scan plan.conversion.text).blocks.entries)) := by
  obtain ⟨rfl, g, hpulls, hedited⟩ := pullsFrom_of_plan hread hplan hprevious
  constructor
  · rw [(exportGenerator_of hread hplan).1]
    exact exists_stoppedAfter t plan.operations
  · intro n t' hstop e he
    rw [← hedited] at he
    constructor
    · rintro hreadable ⟨rfl, hsame, hhidden⟩
      exact hpulls.not_canRead hself hstop hsame he hhidden hreadable
    · intro hno
      refine hpulls.canRead hself hstop he fun hn hsame => ?_
      exact Classical.not_not.mp fun hhidden => hno ⟨hn, hsame, hhidden⟩

/-- The path of the output of the sample document. -/
def sampleOutput : Path := ⟨".", ["A.shader"]⟩

/-- A text with one block. -/
def blockText (body : String) : String := "// @block B\n" ++ body ++ "\n// @endblock"

/-- A template with a block that can be left out. -/
def choiceTemplate : String := "@if Show\n" ++ blockText "x" ++ "\n@endif"

/-- A generator that stores a body for the block, and does not show what can be left out. -/
def hidingGenerator (body : String) : Generator :=
  sampleExported "A.shader" (((∅ : Values).setBlock "B" body).setCondition "Show" false)

/-- The sample files after an export, with another body in the output since. -/
def editedFiles (templateText : String) : FileTree :=
  ((sampleFiles templateText (hidingGenerator "x")).replaceFile sampleOutput (blockText "y")).1

/-- What an export of the edited files reads. -/
def editedSource (templateText : String) : ExportSource :=
  ⟨sampleDocument, hidingGenerator "x", templateText, some (sampleOutput, blockText "y")⟩

/-- What an export of the edited files is going to do: it pulls the other body. -/
def editedPlan (conversion : Conversion) : ExportPlan where
  document := sampleDocument
  generator := hidingGenerator "y"
  output := sampleOutput
  conversion := conversion
  pulled := ["B"]
  synced := ⟨[], [], []⟩
  previous := some sampleOutput

theorem pulled_readable_sample :
    StoppedAfter 1 (editedFiles blockTemplate)
        (editedPlan ⟨blockText "y", ⟨0, 1, 0⟩⟩).operations (editedFiles blockTemplate) ∧
      (editedFiles blockTemplate).CanRead sampleOutput sampleDocument sampleOutput ("B", "y") := by
  have hread : (sampleProject "shader").readForExport (editedFiles blockTemplate)
      sampleDocument = .ok (editedSource blockTemplate) := by
    decide +kernel
  have hplan : (editedSource blockTemplate).plan (sampleProject "shader").config
      (editedFiles blockTemplate) = .ok (editedPlan ⟨blockText "y", ⟨0, 1, 0⟩⟩) := by
    decide +kernel
  have hstop : StoppedAfter 1 (editedFiles blockTemplate)
      (editedPlan ⟨blockText "y", ⟨0, 1, 0⟩⟩).operations (editedFiles blockTemplate) :=
    ⟨editedFiles blockTemplate, by decide +kernel, .refl _⟩
  refine ⟨hstop, ((pulled_readable_iff hread hplan rfl (by decide +kernel)).2 1 _ hstop ("B", "y")
    (by decide +kernel)).mpr ?_⟩
  rintro ⟨-, -, hhidden⟩
  exact hhidden (by decide +kernel)

/-- A generator that records its own document as its last output; the document shows the block. -/
def selfGenerator : Generator :=
  sampleExported "A.gen.toml" (((∅ : Values).setBlock "B" "x").setBlock "C" (blockText "y"))

/-- A body that was pulled can be lost: by an export that stops after it wrote an output without
    the body over the last output, and by one that is complete but removed its own document. -/
theorem pulled_lost :
    (¬ ∀ (p : Project) (t t' : FileTree) (path : Path) (source : ExportSource) (plan : ExportPlan)
        (previous : Path) (text : String),
      p.readForExport t path = .ok source → source.plan p.config t = .ok plan →
      source.previous = some (previous, text) → ¬ t.SameFile previous path →
      StoppedAfter 1 t plan.operations t' →
      ∀ e ∈ source.generator.editedBlocks text, t'.CanRead previous path plan.output e) ∧
    ¬ ∀ (p : Project) (t : FileTree) (path : Path) (report : ExportReport) (g : Generator)
        (previous : Path) (text : String),
      (p.exportGenerator t path).result = .ok report → Generator.load t path = .ok g →
      g.exportedPath path.directory = .ok (some previous) → t.readText previous = .ok text →
      ∀ e ∈ g.editedBlocks text,
        (p.exportGenerator t path).files.CanRead previous path report.output e := by
  constructor
  · intro h
    have hread : (sampleProject "shader").readForExport (editedFiles choiceTemplate)
        sampleDocument = .ok (editedSource choiceTemplate) := by
      decide +kernel
    have hplan : (editedSource choiceTemplate).plan (sampleProject "shader").config
        (editedFiles choiceTemplate) = .ok (editedPlan ⟨"", ⟨1, 0, 0⟩⟩) := by
      decide +kernel
    have hself : ¬ (editedFiles choiceTemplate).SameFile sampleOutput sampleDocument := by
      decide +kernel
    have hstop : StoppedAfter 1 (editedFiles choiceTemplate)
        (editedPlan ⟨"", ⟨1, 0, 0⟩⟩).operations
          ((editedFiles choiceTemplate).replaceFile sampleOutput "").1 :=
      ⟨_, by decide +kernel, .refl _⟩
    have hedited : ("B", "y") ∈
        (editedSource choiceTemplate).generator.editedBlocks (blockText "y") := by
      decide +kernel
    obtain ⟨-, g, hpulls, hsame⟩ := pullsFrom_of_plan hread hplan rfl
    exact hpulls.not_canRead hself hstop (by decide +kernel) (hsame ▸ hedited)
      (by decide +kernel) (h _ _ _ _ _ _ _ _ hread hplan rfl hself hstop ("B", "y") hedited)
  · intro h
    have hexport : (sampleProject "shader").exportGenerator (sampleFiles "x" selfGenerator)
        sampleDocument = {
          files := (((∅ : FileTree).replaceFile ⟨"templates", ["T.tmpl"]⟩ "x").1.replaceFile
            sampleOutput "x").1
          warnings := []
          result := .ok ⟨sampleDocument, sampleOutput, "T", ["B"], ⟨[], [], []⟩,
            some ⟨".", ["A.gen.toml"]⟩, ⟨0, 0, 0⟩⟩ } := by
      decide +kernel
    have hreadable := h (sampleProject "shader") (sampleFiles "x" selfGenerator) sampleDocument _
      selfGenerator ⟨".", ["A.gen.toml"]⟩ selfGenerator.write (congrArg Outcome.result hexport)
      (by decide +kernel) (by decide) (by decide +kernel) ("B", "y") (by decide +kernel)
    rw [hexport] at hreadable
    rcases hreadable with ⟨text, htext, -⟩ | ⟨g, hg, -⟩ | ⟨text, htext, hmem⟩
    · have hgone : (((∅ : FileTree).replaceFile ⟨"templates", ["T.tmpl"]⟩ "x").1.replaceFile
          sampleOutput "x").1.readText ⟨".", ["A.gen.toml"]⟩ = .error .missing := by
        decide +kernel
      cases hgone.symm.trans htext
    · have hgone : Generator.load (((∅ : FileTree).replaceFile ⟨"templates", ["T.tmpl"]⟩
          "x").1.replaceFile sampleOutput "x").1 sampleDocument =
            .error (.generatorNotFound sampleDocument) := by
        decide +kernel
      cases hgone.symm.trans hg
    · have hplain : (((∅ : FileTree).replaceFile ⟨"templates", ["T.tmpl"]⟩ "x").1.replaceFile
          sampleOutput "x").1.readText sampleOutput = .ok "x" := by
        decide +kernel
      cases hplain.symm.trans htext
      have hnone : (scan "x").blocks.entries = [] := by decide +kernel
      rw [hnone] at hmem
      exact nomatch hmem

end Project

end ShaderTemplates
