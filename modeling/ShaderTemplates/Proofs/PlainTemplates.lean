import ShaderTemplates.Proofs.RewrittenHeaders
import ShaderTemplates.Proofs.ScanCompleteness

/-!
# Templates without conditions

A text that `scan` finds no condition in is not changed by the conditional pass
(`Outline.resolve_of_unconditional`).  The block pass then rewrites the blocks that were reported.
No variable comes up in the rewritten text that was not there before: emptying the blocks leaves the
text around them as it was read (`itemsFrom_emptied`), and the bodies bring their own variables only.

So the names that `scan` reports are the names that `convert` asks for, whatever else the text
contains, and a text without directives is converted to itself but for its line breaks
(`convert_unconditional`).
-/

namespace ShaderTemplates.Template

open Text

-- ── Emptied blocks ───────────────────────────────────────────────────────────

/-- The variables among pieces. -/
def entriesAmong (ps : List (Piece Token)) : List (String × List String) :=
  Piece.items (ps.flatMap tokenWord)

theorem itemsFrom_eq_entriesAmong (p : Position) (cs : List Char) :
    itemsFrom p.lineStart cs = entriesAmong (piecesFrom p cs) := by
  rw [entriesAmong, flatMap_tokenWord, itemsFrom]

theorem entriesAmong_append (ps qs : List (Piece Token)) :
    entriesAmong (ps ++ qs) = entriesAmong ps ++ entriesAmong qs := by
  rw [entriesAmong, List.flatMap_append, Piece.items_append]
  rfl

theorem entriesAmong_item {t : Token} {m : Marker} (ht : t.marker = m)
    (hm : ∀ name alternatives, m ≠ .variable name alternatives) (ps : List (Piece Token)) :
    entriesAmong (.item t :: ps) = entriesAmong ps := by
  rw [entriesAmong, List.flatMap_cons, Piece.items_append, tokenWord, ht, markerWord_plain hm,
    Piece.items_plain]
  rfl

/-- The name in the header of a block is a word. -/
theorem blockHeader?_name {cs source rest : List Char} {name : String}
    (h : blockHeader? cs = some ⟨.blockHeader name, source, rest⟩) :
    name.toList ≠ [] ∧ ∀ c ∈ name.toList, isWordChar c = true := by
  obtain ⟨z, _, h⟩ := Option.bind_eq_some_iff.mp h
  dsimp only at h
  split at h
  · cases h
  · next hne =>
      obtain ⟨_, -, hf⟩ := Option.map_eq_some_iff.mp h
      cases hf
      rw [String.toList_ofList]
      refine ⟨?_, fun c hc => List.mem_takeWhile_imp hc⟩
      intro hnil
      rw [hnil] at hne
      simp at hne

/-- An emptied block holds no variable, and reading goes on behind it in the middle of a line. -/
theorem entriesAmong_canonical {name : List Char} (hne : name ≠ [])
    (hname : ∀ c ∈ name, isWordChar c = true) (p : Position) (rest : List Char) :
    entriesAmong (piecesFrom p (Block.canonical name [] ++ rest)) = itemsFrom false rest := by
  have htext : Block.canonical name [] ++ rest =
      blockLine name ++ '\n' :: ('\n' :: (endBlockLine ++ rest)) := by
    simp [canonical_eq_blockText, blockText]
  have hheader := marker?_blockLine p.lineStart hne hname ('\n' :: (endBlockLine ++ rest))
  have hafter : afterBlankLines ('\n' :: (endBlockLine ++ rest)) = endBlockLine ++ rest := rfl
  rw [htext, piecesFrom_marker hheader, entriesAmong_item rfl fun _ _ => Marker.noConfusion]
  have hstart := lineStart_pastHeader (q := p) (show Marker.EndsLine (.blockHeader _) from trivial)
    hheader
  show entriesAmong (piecesFrom _ (afterBlankLines ('\n' :: (endBlockLine ++ rest)))) = _
  rw [hafter, piecesFrom_marker (hstart ▸ marker?_endBlockLine rest),
    entriesAmong_item rfl (fun _ _ => Marker.noConfusion), ← itemsFrom_eq_entriesAmong]
  rfl

/-- Pieces with their blocks emptied. -/
def emptied (ps : List (Piece Token)) : List Char :=
  Piece.source (fun b => Block.canonical b.name.toList []) (gatherBlocks ps)

/-- The printed form of a block starts with a leader. -/
theorem canonical_eq_leader (name body : List Char) :
    ∃ w, Block.canonical name body = leader ++ '@' :: 'b' :: w := by
  rw [canonical_eq_blockText]
  exact ⟨_, rfl⟩

/-- The text in front of a block is read as before if the block is printed. -/
theorem BlockSite.Among.read_before {s : BlockSite} {p : Position} {cs : List Char}
    (h : s.Among (piecesFrom p cs)) (name body rest : List Char) :
    ∃ q, piecesFrom p (tokenSource s.before ++ (Block.canonical name body ++ rest)) =
      s.before ++ piecesFrom q (Block.canonical name body ++ rest) := by
  obtain ⟨_, hheader, -⟩ := h.read_header
  have hmatch : blockHeader? (s.header.source ++ tokenSource s.inside) ≠ none := by
    have hfound : blockHeader? (s.header.source ++ tokenSource s.inside) = some _ :=
      matcher_of_marker? hheader
    rw [hfound]
    exact Option.some_ne_none _
  have hpieces := h.pieces
  have hsource := congrArg tokenSource hpieces
  rw [tokenSource_piecesFrom, tokenSource_append, tokenSource_item] at hsource
  rw [hsource] at hpieces
  obtain ⟨w, hw⟩ := canonical_eq_leader name body
  rw [hw]
  exact piecesFrom_rewritten hmatch (w ++ rest) hpieces

/-- Emptying the blocks of a text brings up no variable. -/
theorem itemsFrom_emptied (p : Position) (cs : List Char) {e : String × List String}
    (h : e ∈ itemsFrom p.lineStart (emptied (piecesFrom p cs))) : e ∈ itemsFrom p.lineStart cs := by
  induction hn : (piecesFrom p cs).length using Nat.strongRecOn generalizing p cs with
  | ind n ih =>
      obtain hplain | ⟨s, hs, hfirst⟩ := gatherBlocks_cases (piecesFrom p cs)
      · rw [emptied, hplain, Piece.source_plain, tokenSource_piecesFrom] at h
        exact h
      · obtain ⟨_, hheader, -⟩ := hs.read_header
        obtain ⟨hne, hname⟩ := blockHeader?_name (matcher_of_marker? hheader)
        obtain ⟨-, q, hq, hafter⟩ := hs.read_after
        have hemptied : emptied (piecesFrom p cs) = tokenSource s.before ++
            (Block.canonical s.name.toList [] ++ emptied s.after) := by
          rw [emptied, hfirst, Piece.source_append, Piece.source_plain, Piece.source_item]
          rfl
        obtain ⟨u, hu⟩ := hs.read_before s.name.toList [] (emptied s.after)
        rw [hemptied, itemsFrom_eq_entriesAmong, hu, entriesAmong_append,
          entriesAmong_canonical hne hname] at h
        rw [itemsFrom_eq_entriesAmong, hs.pieces, entriesAmong_append,
          entriesAmong_item hs.header (fun _ _ => Marker.noConfusion), BlockSite.inside,
          entriesAmong_append, entriesAmong_item hs.stop fun _ _ => Marker.noConfusion]
        rcases List.mem_append.mp h with h | h
        · exact List.mem_append_left _ h
        · refine List.mem_append_right _ (List.mem_append_right _ ?_)
          rw [hafter, ← hq] at h
          rw [hafter, ← itemsFrom_eq_entriesAmong]
          exact ih _ (hn ▸ hafter ▸ hs.after_length_lt) q _ h rfl

theorem vars_outsideBodies {cs : List Char} {x : Variable} (hx : x ∈ vars (outsideBodies cs)) :
    x.name ∈ (inventory cs).vars.names := by
  have hentry : x.entry ∈ itemsFrom true (outsideBodies cs) := by
    rw [itemsFrom, ← vars_words]
    exact List.mem_map_of_mem hx
  have hemptied : outsideBodies cs = emptied (piecesFrom (.lineAt 1) cs) := by
    rw [← tokenize_eq_piecesFrom]
    rfl
  rw [hemptied] at hentry
  exact mem_vars_entries (itemsFrom_emptied (.lineAt 1) cs hentry)

-- ── Nothing to decide ────────────────────────────────────────────────────────

/-- Without conditions the conditional pass leaves the text as it is. -/
theorem Outline.resolve_of_unconditional {cs : List Char} (h : (Outline.ofText cs).conditions = [])
    (conditions : Table Bool) : (Outline.ofText cs).resolve conditions = .ok (cs, 0) := by
  have key : ∀ ps : List (Piece Conditional), (ps.foldr (consPiece ofText) .done).conditions = [] →
      (ps.foldr (consPiece ofText) .done).resolve conditions =
        .ok (Piece.source Conditional.source ps, 0) := by
    intro ps
    induction ps with
    | nil => exact fun _ => rfl
    | cons p ps ih =>
        intro h
        cases p with
        | char c =>
            show Except.map _ ((ps.foldr (consPiece ofText) .done).resolve conditions) = _
            rw [ih h]
            rfl
        | item c => exact nomatch h
  rw [Outline.ofText_eq] at h ⊢
  rw [key _ h, source_conditionalPieces]

-- ── Conversion without conditions ────────────────────────────────────────────

theorem fillBlocks_of_no_blocks {cs : List Char} (h : blocks cs = []) (bodies : Table String) :
    fillBlocks bodies cs = .ok cs := by
  have hnone : ∀ b : Block, b ∉ blocks cs := by
    rw [h]
    exact fun b => List.not_mem_nil
  rw [fillBlocks_covered fun b hb => absurd hb (hnone b)]
  have hsource := source_blockPieces cs
  rw [← Piece.source_congr fun b hb => absurd hb (hnone b)] at hsource
  exact congrArg Except.ok hsource

theorem fillVariables_of_no_vars {cs : List Char} (h : vars cs = []) (values : Table String) :
    fillVariables values cs = .ok cs := by
  have hnone : ∀ x : Variable, x ∉ vars cs := by
    rw [h]
    exact fun x => List.not_mem_nil
  have hentries : ∀ e : String × List String, e ∉ itemsFrom true cs := by
    rw [itemsFrom, ← vars_words, h]
    exact fun e => List.not_mem_nil
  rw [fillVariables_covered fun e he => absurd he (hentries e)]
  have hsource := source_variablePieces cs
  rw [← Piece.source_congr fun x hx => absurd hx (hnone x)] at hsource
  exact congrArg Except.ok hsource

/-- If `scan` reports no condition, values for what it reports are enough; if it reports nothing, the
    text stays as it is but for its line breaks. -/
theorem convert_unconditional (template : String) :
    ((scan template).conditions.isEmpty = true → ∀ v : Values, v.Covers (scan template) →
      v.BodiesFit (scan template) → ∃ c, convert template v = .ok c) ∧
    ((scan template).isEmpty = true → ∀ v : Values, convert template v = .ok {
      text := String.ofList (unixBreaks template.toList)
      stats := ⟨0, 0, 0⟩ }) := by
  have hresolve : (scan template).conditions.isEmpty = true → ∀ conditions,
      (Outline.ofText template.toList).resolve conditions = .ok (template.toList, 0) :=
    fun h => Outline.resolve_of_unconditional
      (Directives.eq_nil_of_isEmpty (Directives.names_ofListFirst _) h)
  refine ⟨?_, ?_⟩
  · intro h v hcovers hfits
    have hblocks : ∀ b ∈ blocks template.toList, (v.blocks.get? b.name).isSome := fun b hb =>
      hcovers.block rfl (b.name, String.ofList b.body) (List.mem_map_of_mem hb)
    have hvars := vars_of_bodiesFit hfits hblocks fun _ hx => vars_outsideBodies hx
    rw [convert, hresolve h, ok_bind, fillBlocks_covered hblocks, ok_bind,
      fillVariables_covered fun e he => hcovers.vars _ (hvars e he), ok_bind]
    exact ⟨_, rfl⟩
  · intro h v
    simp only [Inventory.isEmpty, Bool.and_eq_true] at h
    obtain ⟨⟨hconditions, hblocks⟩, hvars⟩ := h
    have hblocks' : blocks template.toList = [] := List.map_eq_nil_iff.mp
      (Directives.eq_nil_of_isEmpty (Directives.names_ofListLast _) hblocks)
    have hvars' : vars template.toList = [] := List.map_eq_nil_iff.mp
      (Directives.eq_nil_of_isEmpty (Directives.names_ofListFirst _) hvars)
    rw [convert, hresolve hconditions, ok_bind, fillBlocks_of_no_blocks hblocks', ok_bind,
      fillVariables_of_no_vars hvars', ok_bind, hblocks', hvars']
    rfl

/-- Two bodies for one name, end markers and a header that belong to nothing, and half a variable. -/
def raggedTemplate : String :=
  "@endblock\n/@block B\n<n>\n@endblock <m\n@block B\nx\n\n@endblock\n// @block C\n"

/-- Markers that make no directive. -/
def markedText : String := "<a @block B\r\n@endif // @else\r\n"

theorem convert_unconditional_sample :
    (∃ c, convert raggedTemplate (((∅ : Values).setBlock "B" "y").setVariable "n" "1") = .ok c) ∧
      convert markedText ∅ = .ok ⟨"<a @block B\n@endif // @else\n", ⟨0, 0, 0⟩⟩ := by
  have hscan : scan raggedTemplate =
      ⟨∅, ⟨[("B", "x")], by decide⟩, ⟨[("n", [])], by decide⟩⟩ := by
    decide +kernel
  refine ⟨(convert_unconditional raggedTemplate).1 (hscan ▸ rfl) _ ?_ ?_, ?_⟩
  · rw [hscan]
    exact ⟨by decide, by decide, by decide⟩
  · intro name body hbody
    refine .inr ?_
    by_cases hname : name = "B"
    · subst hname
      cases hbody
      decide
    · have hnone : (((∅ : Values).setBlock "B" "y").setVariable "n" "1").blocks.get? name = none :=
        (∅ : Table String).get?_insert_of_ne hname _
      rw [hnone] at hbody
      cases hbody
  · rw [(convert_unconditional markedText).2 (by decide +kernel)]
    decide +kernel

end ShaderTemplates.Template
