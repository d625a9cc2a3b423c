import ShaderTemplates.Proofs.VisitedConditionals

/-!
# Values are not read as template text

The passes of a conversion come one after the other, and what a pass inserts is not read by it
again.  The conditional pass uses the conditions only.  The block pass then finds the blocks of the
text that is left, whatever their bodies will be (`fillBlocks_iff`), and the variable pass the
variables of the text with the bodies in it, whatever their values will be (`fillVariables_iff`).

So the conditions fix a text with gaps for the bodies, and the bodies one with gaps for the values
(`values_inserted`).  A value goes into its gaps as it is, even if it looks like a directive.
-/

namespace ShaderTemplates.Template

open Text

/-- The printed form of a block with its new body. -/
def printed (bodies : Table String) (b : Block) : List Char :=
  Block.canonical b.name.toList ((bodies.get? b.name).getD "").toList

/-- The text that is inserted for a variable. -/
def inserted (values : Table String) (name : String) : List Char :=
  ((values.get? name).getD "").toList

/-- The block pass succeeds exactly if each block has a body.  It replaces the blocks of the text,
    whatever the bodies are. -/
theorem fillBlocks_iff {bodies : Table String} {cs out : List Char} :
    fillBlocks bodies cs = .ok out ↔
      (∀ b ∈ blocks cs, (bodies.get? b.name).isSome) ∧
        out = Piece.source (printed bodies) (blockPieces cs) := by
  constructor
  · intro h
    have hbodies := isSome_of_fillBlocks h
    rw [fillBlocks_covered hbodies] at h
    cases h
    exact ⟨hbodies, rfl⟩
  · rintro ⟨hbodies, rfl⟩
    exact fillBlocks_covered hbodies

/-- A text with a gap for each of its variables. -/
def gaps (cs : List Char) : List (Piece String) :=
  (variablePieces cs).map (Piece.map Variable.name)

theorem items_gaps (cs : List Char) : Piece.items (gaps cs) = (vars cs).map Variable.name :=
  Piece.items_map _ _

/-- The variable pass succeeds exactly if there is a value for each gap.  It fills the gaps, whatever
    the values are. -/
theorem fillVariables_iff {values : Table String} {cs out : List Char} :
    fillVariables values cs = .ok out ↔
      (∀ name ∈ Piece.items (gaps cs), (values.get? name).isSome) ∧
        out = Piece.source (inserted values) (gaps cs) := by
  have hcovered : (∀ x ∈ vars cs, (values.get? x.name).isSome) →
      fillVariables values cs = .ok (Piece.source (inserted values) (gaps cs)) := by
    intro hvalues
    rw [gaps, Piece.source_map]
    refine fillVariables_covered ?_
    rw [itemsFrom, ← vars_words]
    exact List.forall_mem_map.mpr hvalues
  rw [items_gaps, List.forall_mem_map]
  constructor
  · intro h
    have hvalues := isSome_of_fillVariables h
    rw [hcovered hvalues] at h
    cases h
    exact ⟨hvalues, rfl⟩
  · rintro ⟨hvalues, rfl⟩
    exact hcovered hvalues

-- ── The whole conversion ─────────────────────────────────────────────────────

/-- The conditions decide which conditionals are taken and which blocks are replaced, and the bodies
    which variables are.  The values fill gaps that are fixed by then. -/
theorem values_inserted (template : String) (conditions : Table Bool) :
    (∀ u, (Outline.ofText template.toList).resolve conditions = .error u →
      ∀ bodies values, convert template ⟨conditions, bodies, values⟩ = .error u) ∧
    ∀ structured, (Outline.ofText template.toList).resolve conditions = .ok structured →
      structured.2 = (reached conditions template.toList).length ∧
      ∀ bodies withBlocks, fillBlocks bodies structured.1 = .ok withBlocks →
        withBlocks = Piece.source (printed bodies) (blockPieces structured.1) ∧
        ∃ form : List (Piece String), Piece.items form = (vars withBlocks).map Variable.name ∧
          ∀ values, (∀ name ∈ Piece.items form, (values.get? name).isSome) →
            convert template ⟨conditions, bodies, values⟩ = .ok {
              text := String.ofList (unixBreaks (Piece.source (inserted values) form))
              stats := ⟨structured.2, (blocks structured.1).length,
                (Piece.items form).length⟩ } := by
  refine ⟨?_, ?_⟩
  · intro u hresolve bodies values
    rw [convert, hresolve]
    rfl
  · intro structured hresolve
    refine ⟨count_of_resolve _ _ hresolve, ?_⟩
    intro bodies withBlocks hfill
    refine ⟨(fillBlocks_iff.mp hfill).2, gaps withBlocks, items_gaps _, ?_⟩
    intro values hvalues
    rw [convert, hresolve, ok_bind, hfill, ok_bind, fillVariables_iff.mpr ⟨hvalues, rfl⟩, ok_bind,
      items_gaps, List.length_map]
    rfl

/-- A block in a branch, and a variable behind it. -/
def gapTemplate : String := "@if F\n// @block B\nx\n// @endblock\n@endif\n<n>"

/-- The body and the value look like directives, and the value ends in a line break of two
    characters. -/
theorem values_inserted_sample :
    ∃ form : List (Piece String), Piece.items form = ["n", "n"] ∧
      convert gapTemplate ⟨SortedMap.insert ∅ "F" true, SortedMap.insert ∅ "B" "<n>\n@if G",
          SortedMap.insert ∅ "n" "<m>@block C\r\n"⟩ = .ok {
        text := String.ofList (unixBreaks (Piece.source
          (inserted (SortedMap.insert ∅ "n" "<m>@block C\r\n")) form))
        stats := ⟨1, 1, 2⟩ } := by
  have hresolve : (Outline.ofText gapTemplate.toList).resolve (SortedMap.insert ∅ "F" true) =
      .ok ("// @block B\nx\n// @endblock\n<n>".toList, 1) := by decide +kernel
  have hfill : fillBlocks (SortedMap.insert ∅ "B" "<n>\n@if G")
      "// @block B\nx\n// @endblock\n<n>".toList =
        .ok "// @block B\n<n>\n@if G\n// @endblock\n<n>".toList := by decide +kernel
  obtain ⟨-, form, hitems, hconvert⟩ :=
    ((values_inserted gapTemplate _).2 _ hresolve).2 _ _ hfill
  have hnames : Piece.items form = ["n", "n"] := hitems.trans (by decide +kernel)
  have hblocks : (blocks "// @block B\nx\n// @endblock\n<n>".toList).length = 1 := by
    decide +kernel
  refine ⟨form, hnames, ?_⟩
  rw [hconvert _ (hnames ▸ by decide), hnames, hblocks]
  rfl

end ShaderTemplates.Template
