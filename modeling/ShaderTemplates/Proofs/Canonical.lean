import ShaderTemplates.Proofs.Evaluation
import ShaderTemplates.Proofs.Pieces

/-!
# Converted templates

What `convert` makes of a well-formed template has blocks in it and nothing else that could be
asked for, provided that bodies and values bring no markers (`CleanBody`, `CleanValue`).  Scanning
it gives back the bodies, and converting it once more changes nothing (`convert_canonical`).

The proof goes through settled layouts, in which only blocks are left.
-/

namespace ShaderTemplates.Template

open Text

-- ── Bodies and values without markers ────────────────────────────────────────

/-- A text from its last line break on. -/
def lastLine (cs : List Char) : List Char := (cs.reverse.takeWhile (· != '\n')).reverse

/-- A body that holds no marker. Unless it is empty, its first and its last line have something on
    them. -/
structure CleanBody (body : List Char) : Prop where
  no_at : '@' ∉ body
  no_open : '<' ∉ body
  no_return : '\r' ∉ body
  framed : body = [] ∨ Visible (firstLine body) ∧ Visible (lastLine body)

/-- A value that holds no marker and no line break. -/
structure CleanValue (value : List Char) : Prop where
  no_at : '@' ∉ value
  no_open : '<' ∉ value
  no_break : '\n' ∉ value
  no_return : '\r' ∉ value

theorem break_not_mem_lastLine (cs : List Char) : '\n' ∉ lastLine cs := by
  rw [lastLine, List.mem_reverse]
  exact break_not_mem_firstLine cs.reverse

theorem append_lastLine (cs : List Char) : ∃ before, before ++ lastLine cs = cs := by
  refine ⟨(cs.reverse.dropWhile (· != '\n')).reverse, ?_⟩
  rw [lastLine, ← List.reverse_append, List.takeWhile_append_dropWhile, List.reverse_reverse]

theorem framed_of_visible {cs : List Char} (hfirst : Visible (firstLine cs))
    (hlast : Visible (lastLine cs)) (hreturn : '\r' ∉ cs) : Framed cs := by
  refine ⟨?_, ?_⟩
  · have h := (hfirst.opens (break_not_mem_firstLine cs)).append (cs.dropWhile (· != '\n'))
    rwa [firstLine, List.takeWhile_append_dropWhile] at h
  · obtain ⟨before, hb⟩ := append_lastLine cs
    have hreturn' : '\r' ∉ lastLine cs := by
      intro hm
      rw [← hb] at hreturn
      exact hreturn (List.mem_append_right _ hm)
    have h := (hlast.closes (break_not_mem_lastLine cs) hreturn').prepend before
    rwa [hb] at h

theorem CleanBody.isFramed {body : List Char} (h : CleanBody body) : body = [] ∨ Framed body := by
  obtain hnil | ⟨hfirst, hlast⟩ := h.framed
  · exact .inl hnil
  · exact .inr (framed_of_visible hfirst hlast h.no_return)

-- ── Settled layouts ──────────────────────────────────────────────────────────

namespace Layout

/-- A layout in which only blocks are left. -/
def Settled : Layout → Prop
  | plain s => '<' ∉ s
  | block _ body => '<' ∉ body
  | ifThen _ _ _ => False
  | ifElse _ _ _ _ => False
  | seq a b => a.Settled ∧ b.Settled

theorem outline_of_settled {l : Layout} (h : l.Settled) (n : Nat) (rest : Outline) :
    l.outline n rest = .chars l.print rest := by
  induction l generalizing n rest with
  | plain s => rfl
  | block name body => rfl
  | ifThen name default? t iht => exact h.elim
  | ifElse name default? t u iht ihu => exact h.elim
  | seq a b iha ihb =>
      obtain ⟨ha, hb⟩ := h
      rw [outline, iha ha, ihb hb, print, Outline.chars, Outline.chars, Outline.chars,
        List.foldr_append]
      rfl

/-- Without opening brackets there are no variables. -/
theorem wordsFrom_plain {s : List Char} (hat : '@' ∉ s) (hopen : '<' ∉ s) (b : Bool) :
    wordsFrom b s = Piece.plain s := by
  induction s generalizing b with
  | nil => rfl
  | cons c s ih =>
      have hc : c ≠ '<' := by
        rintro rfl
        exact hopen List.mem_cons_self
      have hnone : marker? b (c :: s) = none :=
        (marker?_of_no_at b fun hm => hat (firstLine_subset hm)).trans (variableWord?_of_ne hc s)
      rw [wordsFrom_char hnone, ih (fun hm => hat (List.mem_cons_of_mem _ hm))
        (fun hm => hopen (List.mem_cons_of_mem _ hm))]
      rfl

theorem words_of_settled {l : Layout} (hl : l.Lettered) (h : l.Settled) :
    l.words = Piece.plain l.print := by
  induction l with
  | plain s => exact wordsFrom_plain hl h true
  | block name body =>
      obtain ⟨-, hat⟩ := hl
      rw [words, wordsFrom_plain hat h true]
      simp [print, blockText, Piece.plain]
  | ifThen name default? t iht => exact h.elim
  | ifElse name default? t u iht ihu => exact h.elim
  | seq a b iha ihb =>
      rw [words, iha hl.1 h.1, ihb hl.2 h.2]
      simp [print, Piece.plain]

/-- Filling the blocks with the bodies that they have changes nothing. -/
theorem substitute_entries {l : Layout} (h : l.Settled) {bodies : Table String}
    (hb : ∀ e ∈ Piece.items l.entries, bodies.get? e.1 = some (String.ofList e.2)) :
    Piece.substitute (filledBlock bodies) l.entries = .ok l.print := by
  induction l with
  | plain s => exact Piece.substitute_plain _ s
  | block name body =>
      have hd : demand bodies .block (String.ofList name) = .ok (String.ofList body) := by
        rw [demand, hb (String.ofList name, body) List.mem_cons_self]
      show (filledBlock bodies (String.ofList name, body) >>= _) = _
      rw [filledBlock, hd]
      simp [Except.map, Piece.substitute, pure, Except.pure, print]
  | ifThen name default? t iht => exact h.elim
  | ifElse name default? t u iht ihu => exact h.elim
  | seq a b iha ihb =>
      have ha := iha h.1 fun e he => hb e (by
        rw [entries, Piece.items_append]
        exact List.mem_append_left _ he)
      have hb := ihb h.2 fun e he => hb e (by
        rw [entries, Piece.items_append]
        exact List.mem_append_right _ he)
      rw [entries, Piece.substitute_append, ha, Piece.substitute, hb]
      rfl

/-- Scanning a settled layout lists its blocks. -/
theorem inventory_of_settled {l : Layout} (hr : l.Readable) (h : l.Settled) :
    inventory l.print =
      ⟨∅, .ofListLast ((Piece.items l.entries).map fun e => (e.1, String.ofList e.2)), ∅⟩ := by
  have hconditions : (Outline.ofText l.print).conditions = [] := by
    rw [ofText_print hr, outline_of_settled h, Outline.conditions_chars]
    rfl
  have hblocks : (blocks l.print).map (fun b => (b.name, String.ofList b.body)) =
      (Piece.items l.entries).map fun e => (e.1, String.ofList e.2) := by
    rw [← blockPieces_print hr, ← blocks_entries, List.map_map]
    rfl
  have hvars : (vars l.print).map (fun v => (v.name, v.alternatives)) = [] := by
    have hv := vars_words l.print
    rw [wordsFrom_print hr.lettered, words_of_settled hr.lettered h, Piece.items_plain] at hv
    exact hv
  rw [inventory, hconditions, hblocks, hvars]
  rfl

/-- Converting a settled layout with the bodies that it has changes nothing. -/
theorem convert_of_settled {l : Layout} (hr : l.Readable) (h : l.Settled)
    (hreturn : '\r' ∉ l.print) {v : Values}
    (hb : ∀ e ∈ Piece.items l.entries, v.blocks.get? e.1 = some (String.ofList e.2)) :
    ∃ c, convert (String.ofList l.print) v = .ok c ∧ c.text = String.ofList l.print := by
  have hresolve : (Outline.ofText l.print).resolve v.conditions = .ok (l.print, 0) := by
    rw [ofText_print hr, outline_of_settled h, Outline.resolve_chars]
    simp [Outline.resolve, Except.map]
  have hfill : (fillBlocks v.blocks l.print).mapError Unresolved.demanded = .ok l.print := by
    rw [fillBlocks_entries, blockPieces_print hr, substitute_entries h hb]
  have hvars : (fillVariables v.vars l.print).mapError Unresolved.demanded = .ok l.print := by
    rw [fillVariables_words, wordsFrom_print hr.lettered, words_of_settled hr.lettered h,
      Piece.substitute_plain]
  refine ⟨⟨String.ofList l.print, ⟨0, (blocks l.print).length, (vars l.print).length⟩⟩, ?_, rfl⟩
  rw [convert, String.toList_ofList, hresolve, ok_bind, mapError_eq_ok.mp hfill, ok_bind,
    mapError_eq_ok.mp hvars, ok_bind, unixBreaks_of_no_return hreturn]
  rfl

end Layout

-- ── Templates whose names all have values ────────────────────────────────────

/-- The names of the blocks of a page, in order. -/
def Page.blockNames : Page → List String
  | .nothing => []
  | .line _ => []
  | .block name _ => [name.name]
  | .seq p q => p.blockNames ++ q.blockNames

/-- The blocks of a page with their bodies. -/
def Page.given : Page → List (String × List Char)
  | .nothing => []
  | .line _ => []
  | .block name body => [(name.name, body)]
  | .seq p q => p.given ++ q.given

/-- The variables in the lines of a page. -/
def Page.lineVariables : Page → List (String × List String)
  | .nothing => []
  | .line l => l.variables
  | .block _ _ => []
  | .seq p q => p.lineVariables ++ q.lineVariables

/-- With a value for every condition the conditionals are decided, and the page holds blocks and
    variables of the template only. -/
theorem Tree.choose_covered {conditions : Table Bool} {t : Tree}
    (h : ∀ e ∈ t.conditions, (conditions.get? e.1).isSome) :
    ∃ chosen, t.choose conditions = .ok chosen ∧
      (∀ name ∈ chosen.1.blockNames, ∃ body, (name, body) ∈ t.blocks) ∧
      ∀ e ∈ chosen.1.lineVariables, e ∈ t.vars := by
  induction t with
  | line l => exact ⟨_, rfl, fun name hn => absurd hn List.not_mem_nil, fun e he => he⟩
  | block name first others =>
      refine ⟨_, rfl, ?_, fun e he => absurd he List.not_mem_nil⟩
      intro n hn
      rw [List.mem_singleton.mp hn]
      exact ⟨_, List.mem_cons_self⟩
  | ifThen name default? t iht =>
      obtain ⟨value, -, hd⟩ := demand_of_isSome (h _ List.mem_cons_self) .condition
      obtain ⟨chosen, ht, hblocks, hvars⟩ := iht fun e he => h e (List.mem_cons_of_mem _ he)
      rw [Tree.choose, hd, ok_bind]
      cases value with
      | true => exact ⟨(chosen.1, chosen.2 + 1), by rw [ht]; rfl, hblocks, hvars⟩
      | false =>
          exact ⟨(.nothing, 1), rfl, fun name hn => absurd hn List.not_mem_nil,
            fun e he => absurd he List.not_mem_nil⟩
  | ifElse name default? t u iht ihu =>
      obtain ⟨value, -, hd⟩ := demand_of_isSome (h _ List.mem_cons_self) .condition
      obtain ⟨chosen, ht, hblocks, hvars⟩ := iht fun e he =>
        h e (List.mem_cons_of_mem _ (List.mem_append_left _ he))
      obtain ⟨other, hu, hblocks', hvars'⟩ := ihu fun e he =>
        h e (List.mem_cons_of_mem _ (List.mem_append_right _ he))
      rw [Tree.choose, hd, ok_bind]
      cases value with
      | true =>
          refine ⟨(chosen.1, chosen.2 + 1), by rw [ht]; rfl, ?_, ?_⟩
          · intro n hn
            obtain ⟨body, hb⟩ := hblocks n hn
            exact ⟨body, List.mem_append_left _ hb⟩
          · intro e he
            exact List.mem_append_left _ (hvars e he)
      | false =>
          refine ⟨(other.1, other.2 + 1), by rw [hu]; rfl, ?_, ?_⟩
          · intro n hn
            obtain ⟨body, hb⟩ := hblocks' n hn
            exact ⟨body, List.mem_append_right _ hb⟩
          · intro e he
            exact List.mem_append_right _ (hvars' e he)
  | seq a b iha ihb =>
      obtain ⟨first, ha, hblocks, hvars⟩ := iha fun e he => h e (List.mem_append_left _ he)
      obtain ⟨second, hb, hblocks', hvars'⟩ := ihb fun e he => h e (List.mem_append_right _ he)
      refine ⟨(.seq first.1 second.1, first.2 + second.2), by rw [Tree.choose, ha, hb]; rfl,
        ?_, ?_⟩
      · intro n hn
        rcases List.mem_append.mp hn with hn | hn
        · obtain ⟨body, hb⟩ := hblocks n hn
          exact ⟨body, List.mem_append_left _ hb⟩
        · obtain ⟨body, hb⟩ := hblocks' n hn
          exact ⟨body, List.mem_append_right _ hb⟩
      · intro e he
        rcases List.mem_append.mp he with he | he
        · exact List.mem_append_left _ (hvars e he)
        · exact List.mem_append_right _ (hvars' e he)

/-- With a body for every block the blocks are filled. -/
theorem Page.fill_covered {bodies : Table String} {p : Page}
    (h : ∀ name ∈ p.blockNames, (bodies.get? name).isSome) :
    ∃ filled, p.fill bodies = .ok filled ∧ filled.lineVariables = p.lineVariables ∧
      filled.given.map (·.1) = p.blockNames ∧
      ∀ e ∈ filled.given, bodies.get? e.1 = some (String.ofList e.2) := by
  induction p with
  | nothing => exact ⟨_, rfl, rfl, rfl, fun e he => absurd he List.not_mem_nil⟩
  | line l => exact ⟨_, rfl, rfl, rfl, fun e he => absurd he List.not_mem_nil⟩
  | block name body =>
      obtain ⟨value, hv, hd⟩ := demand_of_isSome (h _ List.mem_cons_self) .block
      refine ⟨.block name value.toList, by rw [Page.fill, hd]; rfl, rfl, rfl, ?_⟩
      intro e he
      rw [List.mem_singleton.mp he, hv, String.ofList_toList]
  | seq p q ihp ihq =>
      obtain ⟨first, hp, hvars, hnames, hgiven⟩ := ihp fun n hn => h n (List.mem_append_left _ hn)
      obtain ⟨second, hq, hvars', hnames', hgiven'⟩ :=
        ihq fun n hn => h n (List.mem_append_right _ hn)
      refine ⟨.seq first second, by rw [Page.fill, hp, hq]; rfl, ?_, ?_, ?_⟩
      · rw [Page.lineVariables, Page.lineVariables, hvars, hvars']
      · rw [Page.given, Page.blockNames, List.map_append, hnames, hnames']
      · intro e he
        rcases List.mem_append.mp he with he | he
        · exact hgiven e he
        · exact hgiven' e he

/-- Plain characters are neither markers nor line breaks, and neither are clean values. -/
theorem writeSegments_covered {values : Table String}
    (hvalues : ∀ name value, values.get? name = some value → CleanValue value.toList)
    {segments : List Segment}
    (h : ∀ e ∈ segments.filterMap Segment.entry?, (values.get? e.1).isSome) :
    ∃ out, writeSegments values segments = .ok out ∧ CleanValue out := by
  induction segments with
  | nil => exact ⟨[], rfl, by constructor <;> exact List.not_mem_nil⟩
  | cons s segments ih =>
      have hs : ∃ before, s.write values = .ok before ∧ CleanValue before := by
        cases s with
        | plain c hc =>
            refine ⟨[c], rfl, ?_⟩
            constructor <;> intro hm <;> rw [← List.mem_singleton.mp hm] at hc <;> cases hc
        | «variable» name alternatives =>
            obtain ⟨value, hv, hd⟩ := demand_of_isSome
              (h (name.name, (alternatives.map Identifier.name).eraseDups) List.mem_cons_self)
              .variable
            exact ⟨value.toList, by rw [Segment.write, hd]; rfl, hvalues _ _ hv⟩
      have hrest : ∀ e ∈ segments.filterMap Segment.entry?, (values.get? e.1).isSome := by
        intro e he
        refine h e ?_
        obtain ⟨x, hx, hxe⟩ := List.mem_filterMap.mp he
        exact List.mem_filterMap.mpr ⟨x, List.mem_cons_of_mem _ hx, hxe⟩
      obtain ⟨before, hbefore, hclean⟩ := hs
      obtain ⟨after, hafter, hclean'⟩ := ih hrest
      refine ⟨before ++ after, by rw [writeSegments, hbefore, hafter]; rfl, ?_⟩
      constructor <;> rw [List.mem_append, not_or]
      · exact ⟨hclean.no_at, hclean'.no_at⟩
      · exact ⟨hclean.no_open, hclean'.no_open⟩
      · exact ⟨hclean.no_break, hclean'.no_break⟩
      · exact ⟨hclean.no_return, hclean'.no_return⟩

theorem fillVariables_plain {values : Table String} {cs : List Char} (hat : '@' ∉ cs)
    (hopen : '<' ∉ cs) : (fillVariables values cs).mapError Unresolved.demanded = .ok cs := by
  rw [fillVariables_words, Layout.wordsFrom_plain hat hopen, Piece.substitute_plain]

/-- With clean bodies and values the result is a settled layout with the given blocks. -/
theorem Page.write_settled {values : Table String}
    (hvalues : ∀ name value, values.get? name = some value → CleanValue value.toList)
    {p : Page} (hbodies : p.Bodies CleanBody)
    (hvars : ∀ e ∈ p.lineVariables, (values.get? e.1).isSome) :
    ∃ l : Layout, p.write values = .ok l.print ∧ l.Readable ∧ l.Settled ∧ '\r' ∉ l.print ∧
      Piece.items l.entries = p.given := by
  induction p with
  | nothing => exact ⟨.plain [], rfl, List.not_mem_nil, List.not_mem_nil, List.not_mem_nil, rfl⟩
  | line l =>
      obtain ⟨out, hout, hclean⟩ := writeSegments_covered hvalues hvars
      exact ⟨.plain out, hout, hclean.no_at, hclean.no_open, hclean.no_return,
        Piece.items_plain out⟩
  | block name body =>
      have hclean : CleanBody body := hbodies
      refine ⟨.block name.chars body, ?_, ⟨name.isName, hclean.no_at, hclean.isFramed⟩,
        hclean.no_open, no_return_blockText (Identifier.not_mem rfl) hclean.no_return, rfl⟩
      rw [Page.write, fillVariables_plain hclean.no_at hclean.no_open]
      rfl
  | seq p q ihp ihq =>
      obtain ⟨a, ha, hra, hsa, hreturn, hga⟩ := ihp hbodies.1
        fun e he => hvars e (List.mem_append_left _ he)
      obtain ⟨b, hb, hrb, hsb, hreturn', hgb⟩ := ihq hbodies.2
        fun e he => hvars e (List.mem_append_right _ he)
      refine ⟨.seq a b, by rw [Page.write, ha, hb]; rfl, ⟨hra, hrb⟩, ⟨hsa, hsb⟩, ?_, ?_⟩
      · simp [Layout.print, hreturn, hreturn']
      · rw [Layout.entries, Piece.items_append, Piece.items_char, hga, hgb, Page.given]

-- ── The round trip ───────────────────────────────────────────────────────────

/-- A converted template shows the blocks that were reached, in the order in which they were first
    reached and with the bodies that were given, and asks for nothing else; converted once more
    with the same values it stays the same. -/
theorem convert_canonical (t : Tree) (v : Values)
    (hcover : v.Covers (scan (String.ofList t.print)))
    (hbodies : ∀ name body, v.blocks.get? name = some body → CleanBody body.toList)
    (hvalues : ∀ name value, v.vars.get? name = some value → CleanValue value.toList) :
    ∃ chosen c, t.choose v.conditions = .ok chosen ∧
      convert (String.ofList t.print) v = .ok c ∧
      (scan c.text).conditions = ∅ ∧ (scan c.text).vars = ∅ ∧
      (scan c.text).blocks.names = chosen.1.blockNames.eraseDups ∧
      (∀ e ∈ (scan c.text).blocks.entries, v.blocks.get? e.1 = some e.2) ∧
      ∃ c', convert c.text v = .ok c' ∧ c'.text = c.text := by
  have hi : scan (String.ofList t.print) = t.inventory := by
    rw [scan, String.toList_ofList, t.inventory_print]
  rw [hi] at hcover
  obtain ⟨chosen, hchoose, hreached, hseen⟩ := t.choose_covered (hcover.condition rfl)
  have hbodies' : ∀ name ∈ chosen.1.blockNames, (v.blocks.get? name).isSome := by
    intro name hn
    obtain ⟨body, hb⟩ := hreached name hn
    exact hcover.block rfl _ hb
  obtain ⟨page, hfill, hlineVars, hnames, hgiven⟩ := chosen.1.fill_covered hbodies'
  have hclean : page.Bodies CleanBody := Page.bodies_fill hbodies hfill
  obtain ⟨l, hwrite, hr, hs, hreturn, hentries⟩ := page.write_settled hvalues hclean
    fun e he => hcover.var rfl e (hseen e (hlineVars ▸ he))
  have hcover' : ∀ e ∈ Piece.items l.entries, v.blocks.get? e.1 = some (String.ofList e.2) :=
    hentries ▸ hgiven
  obtain ⟨c', hagain, htext⟩ := Layout.convert_of_settled hr hs hreturn hcover'
  have hconvert : ∃ c, convert (String.ofList t.print) v = .ok c ∧ c.text = String.ofList l.print := by
    have hread := Tree.readable_of_choose hchoose
    have hlettered : page.layout.Lettered :=
      Page.lettered_of_bodies (Page.bodies_fill (fun n b h => (hbodies n b h).no_at) hfill)
    have hresolve := t.resolve_print v.conditions
    rw [hchoose] at hresolve
    have hblocks := Page.fillBlocks_print v.blocks hread
    rw [hfill] at hblocks
    have hvars := Page.fillVariables_print v.vars hlettered
    rw [hwrite] at hvars
    rw [convert, String.toList_ofList, mapError_eq_ok.mp hresolve, ok_bind,
      mapError_eq_ok.mp hblocks, ok_bind, mapError_eq_ok.mp hvars, ok_bind,
      unixBreaks_of_no_return hreturn]
    exact ⟨_, rfl, rfl⟩
  obtain ⟨c, hc, hctext⟩ := hconvert
  have hscan : scan c.text =
      ⟨∅, .ofListLast ((Piece.items l.entries).map fun e => (e.1, String.ofList e.2)), ∅⟩ := by
    rw [hctext, scan, String.toList_ofList, Layout.inventory_of_settled hr hs]
  refine ⟨chosen, c, hchoose, hc, ?_, ?_, ?_, ?_, c', ?_, ?_⟩
  · rw [hscan]
  · rw [hscan]
  · rw [hscan, Directives.names_ofListLast, hentries, List.map_map, ← hnames]
    rfl
  · intro e he
    rw [hscan] at he
    obtain ⟨x, hx, rfl⟩ := List.mem_map.mp (Directives.mem_ofListLast he)
    exact hcover' x hx
  · rw [hctext, hagain]
  · rw [htext, hctext]

/-- Values for `sampleTree` that bring no markers. -/
def plainValues : Values :=
  (((∅ : Values).setCondition "F" true).setBlock "B" "q").setVariable "n" "1"

theorem convert_canonical_sample :
    ∃ chosen c, sampleTree.choose plainValues.conditions = .ok chosen ∧
      convert (String.ofList sampleTree.print) plainValues = .ok c ∧
      (scan c.text).conditions = ∅ ∧ (scan c.text).vars = ∅ ∧
      (scan c.text).blocks.names = chosen.1.blockNames.eraseDups ∧
      (∀ e ∈ (scan c.text).blocks.entries, plainValues.blocks.get? e.1 = some e.2) ∧
      ∃ c', convert c.text plainValues = .ok c' ∧ c'.text = c.text := by
  have hi : scan (String.ofList sampleTree.print) = sampleTree.inventory := by
    rw [scan, String.toList_ofList, sampleTree.inventory_print]
  refine convert_canonical sampleTree plainValues ?_ ?_ ?_
  · rw [hi]
    exact ⟨by decide, by decide, by decide⟩
  · intro name body h
    by_cases hname : name = "B"
    · subst hname
      cases h
      exact ⟨by decide, by decide, by decide,
        .inr ⟨⟨'q', List.mem_cons_self, rfl⟩, ⟨'q', List.mem_cons_self, rfl⟩⟩⟩
    · have hnone : plainValues.blocks.get? name = none :=
        (∅ : Table String).get?_insert_of_ne hname "q"
      rw [hnone] at h
      cases h
  · intro name value h
    by_cases hname : name = "n"
    · subst hname
      cases h
      exact ⟨by decide, by decide, by decide, by decide⟩
    · have hnone : plainValues.vars.get? name = none :=
        (∅ : Table String).get?_insert_of_ne hname "1"
      rw [hnone] at h
      cases h

end ShaderTemplates.Template
