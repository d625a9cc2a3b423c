import ShaderTemplates.Proofs.WellFormed

/-!
# Well-formed templates mean what they say

`convert_print` is the correctness of scanning and converting on well-formed templates: the text of
a template is converted to what `Tree.evaluate` gives, failures included, and scanning it gives
`Tree.inventory`.  Each of the three passes has its own lemma, by induction on the template:

* `Tree.resolve_outline`: the conditionals;
* `Page.fillBlocks_print`: the blocks;
* `Page.fillVariables_print`: the variables.
-/

namespace ShaderTemplates.Template

open Text

-- ── Conditionals ─────────────────────────────────────────────────────────────

theorem Outline.resolve_chars (conditions : Table Bool) (cs : List Char) (rest : Outline) :
    (Outline.chars cs rest).resolve conditions =
      (rest.resolve conditions).map fun after => (cs ++ after.1, after.2) := by
  induction cs with
  | nil =>
      show rest.resolve conditions = _
      cases rest.resolve conditions with
      | error e => rfl
      | ok after => rfl
  | cons c cs ih =>
      show ((Outline.chars cs rest).resolve conditions).map _ = _
      rw [ih]
      cases rest.resolve conditions with
      | error e => rfl
      | ok after => rfl

/-- Deciding a conditional, the line of its header left out. -/
theorem Outline.resolve_choice (conditions : Table Bool) (name : String) (default? : Option Bool)
    (line : Nat) (t u rest : Outline) :
    ((Outline.choice name default? line t u rest).resolve conditions).mapError
        Unresolved.demanded = do
      let value ← demand conditions .condition name
      let branch ←
        ((if value then t else u).resolve conditions).mapError Unresolved.demanded
      let after ← (rest.resolve conditions).mapError Unresolved.demanded
      return (branch.1 ++ after.1, branch.2 + after.2 + 1) := by
  rw [Outline.resolve, mapError_bind, lookUp_demanded]
  congr 1
  funext value
  cases value with
  | true =>
      show ((t.resolve conditions) >>= _).mapError _ = _
      rw [mapError_bind]
      congr 1
      funext branch
      rw [mapError_bind]
      rfl
  | false =>
      show ((u.resolve conditions) >>= _).mapError _ = _
      rw [mapError_bind]
      congr 1
      funext branch
      rw [mapError_bind]
      rfl

theorem get?_of_demand {α : Type} {table : Table α} {kind : Kind} {name : String} {value : α}
    (h : demand table kind name = .ok value) : table.get? name = some value := by
  rw [demand] at h
  cases hg : table.get? name with
  | none => rw [hg] at h; cases h
  | some found => rw [hg] at h; cases h; rfl

theorem get?_of_lookUp {α : Type} {table : Table α} {kind : Kind} {name : String} {line : Nat}
    {value : α} (h : lookUp table kind name line = .ok value) : table.get? name = some value := by
  have hdemand : demand table kind name = .ok value := by
    rw [← lookUp_demanded table kind name line, h, mapError_ok]
  exact get?_of_demand hdemand

/-- A conditional that is decided brings the branch that its value chooses and what follows it. -/
theorem Outline.resolve_choice_eq_ok {conditions : Table Bool} {name : String}
    {default? : Option Bool} {line : Nat} {t u rest : Outline} {r : List Char × Nat}
    (h : (choice name default? line t u rest).resolve conditions = .ok r) :
    ∃ (value : Bool) (branch after : List Char × Nat),
      conditions.get? name = some value ∧ (if value then t else u).resolve conditions = .ok branch ∧
        rest.resolve conditions = .ok after ∧
        r = (branch.1 ++ after.1, branch.2 + after.2 + 1) := by
  obtain ⟨value, hvalue, h⟩ := bind_eq_ok.mp h
  refine ⟨value, ?_⟩
  cases value with
  | true =>
      obtain ⟨branch, hbranch, h⟩ := bind_eq_ok.mp h
      obtain ⟨after, hafter, h⟩ := bind_eq_ok.mp h
      exact ⟨branch, after, get?_of_lookUp hvalue, hbranch, hafter, (Except.ok.inj h).symm⟩
  | false =>
      obtain ⟨branch, hbranch, h⟩ := bind_eq_ok.mp h
      obtain ⟨after, hafter, h⟩ := bind_eq_ok.mp h
      exact ⟨branch, after, get?_of_lookUp hvalue, hbranch, hafter, (Except.ok.inj h).symm⟩

/-- A branch that was decided on its own is put in front of what follows the conditional. -/
theorem Tree.resolve_branch {conditions : Table Bool} {t : Tree} {o : Outline} (rest : Outline)
    (h : (o.resolve conditions).mapError Unresolved.demanded = do
      let chosen ← t.choose conditions
      let after ← (Outline.done.resolve conditions).mapError Unresolved.demanded
      return (chosen.1.layout.print ++ after.1, chosen.2 + after.2)) :
    (do
      let branch ← (o.resolve conditions).mapError Unresolved.demanded
      let after ← (rest.resolve conditions).mapError Unresolved.demanded
      return (branch.1 ++ after.1, branch.2 + after.2 + 1)) = do
      let chosen ← t.choose conditions
      let after ← (rest.resolve conditions).mapError Unresolved.demanded
      return (chosen.1.layout.print ++ after.1, chosen.2 + 1 + after.2) := by
  rw [h]
  cases t.choose conditions with
  | error e => rfl
  | ok chosen =>
      cases (rest.resolve conditions).mapError Unresolved.demanded with
      | error e => rfl
      | ok after =>
          simp [Outline.resolve, mapError_ok, pure, Except.pure]
          omega

/-- The first pass decides the conditionals of a well-formed template. -/
theorem Tree.resolve_outline (conditions : Table Bool) (t : Tree) (n : Nat) (rest : Outline) :
    ((t.layout.outline n rest).resolve conditions).mapError Unresolved.demanded = do
      let chosen ← t.choose conditions
      let after ← (rest.resolve conditions).mapError Unresolved.demanded
      return (chosen.1.layout.print ++ after.1, chosen.2 + after.2) := by
  induction t generalizing n rest with
  | line l =>
      rw [Tree.layout, Layout.outline, Outline.resolve_chars, mapError_map, Tree.choose, ok_bind]
      cases (rest.resolve conditions).mapError Unresolved.demanded with
      | error e => rfl
      | ok after => simp [Except.map, Page.layout, Layout.print, pure, Except.pure]
  | block name first others =>
      rw [Tree.layout, Layout.outline, Outline.resolve_chars, mapError_map, Tree.choose, ok_bind]
      cases (rest.resolve conditions).mapError Unresolved.demanded with
      | error e => rfl
      | ok after => simp [Except.map, Page.layout, Layout.print, pure, Except.pure]
  | ifThen name default? t iht =>
      rw [Tree.layout, Layout.outline, Outline.resolve_choice, Tree.choose]
      show (demand conditions .condition name.name >>= _) =
        (demand conditions .condition name.name >>= _) >>= _
      cases demand conditions .condition name.name with
      | error e => rfl
      | ok value =>
          cases value with
          | true =>
              simp only [ok_bind, if_true, bind_assoc, pure_bind]
              exact Tree.resolve_branch rest (iht _ _)
          | false =>
              cases (rest.resolve conditions).mapError Unresolved.demanded with
              | error e => rfl
              | ok after =>
                  simp [Outline.resolve, mapError_ok, pure, Except.pure, Page.layout,
                    Layout.print]
                  omega
  | ifElse name default? t u iht ihu =>
      rw [Tree.layout, Layout.outline, Outline.resolve_choice, Tree.choose]
      show (demand conditions .condition name.name >>= _) =
        (demand conditions .condition name.name >>= _) >>= _
      cases demand conditions .condition name.name with
      | error e => rfl
      | ok value =>
          cases value with
          | true =>
              simp only [ok_bind, if_true, bind_assoc, pure_bind]
              exact Tree.resolve_branch rest (iht _ _)
          | false =>
              simp only [ok_bind, Bool.false_eq_true, if_false, bind_assoc, pure_bind]
              exact Tree.resolve_branch rest (ihu _ _)
  | seq a b iha ihb =>
      rw [Tree.layout, Layout.outline, iha, Tree.choose, Outline.resolve, mapError_map, ihb]
      cases a.choose conditions with
      | error e => rfl
      | ok first =>
          cases b.choose conditions with
          | error e => rfl
          | ok second =>
              cases (rest.resolve conditions).mapError Unresolved.demanded with
              | error e => rfl
              | ok after =>
                  simp [Except.map, pure, Except.pure, Page.layout, Layout.print]
                  omega

theorem Outline.conditions_chars (cs : List Char) (rest : Outline) :
    (Outline.chars cs rest).conditions = rest.conditions := by
  induction cs with
  | nil => rfl
  | cons c cs ih => exact ih

theorem Tree.conditions_outline (t : Tree) (n : Nat) (rest : Outline) :
    (t.layout.outline n rest).conditions = t.conditions ++ rest.conditions := by
  induction t generalizing n rest with
  | line l => exact Outline.conditions_chars _ _
  | block name first others => exact Outline.conditions_chars _ _
  | ifThen name default? t iht =>
      rw [Tree.layout, Layout.outline, Outline.conditions, iht]
      simp [Tree.conditions, Outline.conditions, Identifier.name]
  | ifElse name default? t u iht ihu =>
      rw [Tree.layout, Layout.outline, Outline.conditions, iht, ihu]
      simp [Tree.conditions, Outline.conditions, Identifier.name]
  | seq a b iha ihb =>
      rw [Tree.layout, Layout.outline, iha, Outline.conditions, ihb, Tree.conditions,
        List.append_assoc]

/-- Deciding the conditionals leaves markers that can be read. -/
theorem Tree.readable_of_choose {conditions : Table Bool} {t : Tree} {chosen : Page × Nat}
    (h : t.choose conditions = .ok chosen) : chosen.1.layout.Readable := by
  induction t generalizing chosen with
  | line l =>
      cases h
      exact l.no_at
  | block name first others =>
      cases h
      exact readable_block name first others
  | ifThen name default? t iht =>
      rw [Tree.choose] at h
      cases hv : demand conditions .condition name.name with
      | error e => rw [hv] at h; cases h
      | ok value =>
          rw [hv, ok_bind] at h
          cases value with
          | false =>
              cases h
              exact List.not_mem_nil
          | true =>
              cases ht : t.choose conditions with
              | error e => rw [ht] at h; cases h
              | ok inner =>
                  rw [ht] at h
                  cases h
                  exact @iht inner ht
  | ifElse name default? t u iht ihu =>
      rw [Tree.choose] at h
      cases hv : demand conditions .condition name.name with
      | error e => rw [hv] at h; cases h
      | ok value =>
          rw [hv, ok_bind] at h
          cases value with
          | false =>
              cases hu : u.choose conditions with
              | error e => rw [hu] at h; cases h
              | ok inner =>
                  rw [hu] at h
                  cases h
                  exact @ihu inner hu
          | true =>
              cases ht : t.choose conditions with
              | error e => rw [ht] at h; cases h
              | ok inner =>
                  rw [ht] at h
                  cases h
                  exact @iht inner ht
  | seq a b iha ihb =>
      rw [Tree.choose] at h
      cases ha : a.choose conditions with
      | error e => rw [ha] at h; cases h
      | ok first =>
          cases hb : b.choose conditions with
          | error e => rw [ha, hb] at h; cases h
          | ok second =>
              rw [ha, hb] at h
              cases h
              exact ⟨iha ha, ihb hb⟩

-- ── Blocks ───────────────────────────────────────────────────────────────────

theorem toList_blockOpening : "// @block ".toList = leader ++ (blockKeyword ++ [' ']) := rfl

theorem toList_blockClosing : "\n// @endblock".toList = '\n' :: endBlockLine := by decide

/-- The form in which a block is printed is the one in which it is usually written. -/
theorem canonical_eq_blockText (name body : List Char) :
    Block.canonical name body = blockText name body := by
  show "// @block ".toList ++ name ++ '\n' :: body ++ "\n// @endblock".toList = _
  rw [toList_blockOpening, toList_blockClosing]
  simp [blockText, blockLine]

/-- What a block becomes. -/
def filledBlock (bodies : Table String) (e : String × List Char) :
    Except (Kind × String) (List Char) :=
  (demand bodies .block e.1).map fun body => blockText e.1.toList body.toList

/-- The second pass, the lines of headers left out. -/
theorem fillBlocks_entries (bodies : Table String) (cs : List Char) :
    (fillBlocks bodies cs).mapError Unresolved.demanded =
      Piece.substitute (filledBlock bodies) ((blockPieces cs).map (Piece.map Block.entry)) := by
  rw [fillBlocks, Piece.substitute_mapError, Piece.substitute_map]
  congr 1
  funext b
  rw [mapError_map, lookUp_demanded]
  simp only [canonical_eq_blockText]
  rfl

/-- The second pass puts the given bodies into the blocks of a page. -/
theorem Page.fillBlocks_print (bodies : Table String) {p : Page} (h : p.layout.Readable) :
    (fillBlocks bodies p.layout.print).mapError Unresolved.demanded =
      (p.fill bodies).map fun q => q.layout.print := by
  rw [fillBlocks_entries, Layout.blockPieces_print h]
  clear h
  induction p with
  | nothing => rfl
  | line l => exact Piece.substitute_plain _ _
  | block name body =>
      show (filledBlock bodies _ >>= fun text => Piece.substitute _ [] >>= fun after =>
        pure (text ++ after)) = _
      rw [Page.fill, filledBlock]
      show ((demand bodies .block name.name).map _ >>= _) = _
      cases demand bodies .block name.name with
      | error e => rfl
      | ok body => simp [Except.map, Piece.substitute, pure, Except.pure, Page.layout, Layout.print]
  | seq p q ihp ihq =>
      rw [Page.layout, Layout.entries, Piece.substitute_append, ihp, Piece.substitute, ihq,
        Page.fill]
      cases p.fill bodies with
      | error e => rfl
      | ok first =>
          cases q.fill bodies with
          | error e => rfl
          | ok second => rfl

theorem Page.blockCount_fill {bodies : Table String} {p filled : Page}
    (h : p.fill bodies = .ok filled) : filled.blockCount = p.blockCount := by
  induction p generalizing filled with
  | nothing => cases h; rfl
  | line l => cases h; rfl
  | block name body =>
      rw [Page.fill] at h
      cases hd : demand bodies .block name.name with
      | error e => rw [hd] at h; cases h
      | ok body => rw [hd] at h; cases h; rfl
  | seq p q ihp ihq =>
      rw [Page.fill] at h
      cases hp : p.fill bodies with
      | error e => rw [hp] at h; cases h
      | ok first =>
          cases hq : q.fill bodies with
          | error e => rw [hp, hq] at h; cases h
          | ok second =>
              rw [hp, hq] at h
              cases h
              rw [Page.blockCount, Page.blockCount, ihp hp, ihq hq]

theorem blocks_entries (cs : List Char) :
    (blocks cs).map Block.entry = Piece.items ((blockPieces cs).map (Piece.map Block.entry)) :=
  (Piece.items_map _ _).symm

theorem Page.length_blocks_print {p : Page} (h : p.layout.Readable) :
    (blocks p.layout.print).length = p.blockCount := by
  have hlen := congrArg List.length (blocks_entries p.layout.print)
  rw [List.length_map, Layout.blockPieces_print h] at hlen
  rw [hlen]
  clear h hlen
  induction p with
  | nothing => rfl
  | line l => simp [Page.layout, Layout.entries, Page.blockCount]
  | block name body => rfl
  | seq p q ihp ihq => simp [Page.layout, Layout.entries, Page.blockCount, ihp, ihq]

theorem Tree.items_entries (t : Tree) :
    (Piece.items t.layout.entries).map (fun e => (e.1, String.ofList e.2)) = t.blocks := by
  induction t with
  | line l => simp [Tree.layout, Layout.entries, Tree.blocks]
  | block name first others => rfl
  | ifThen name default? t iht => simp [Tree.layout, Layout.entries, Tree.blocks, ← iht]
  | ifElse name default? t u iht ihu =>
      simp [Tree.layout, Layout.entries, Tree.blocks, ← iht, ← ihu]
  | seq a b iha ihb => simp [Tree.layout, Layout.entries, Tree.blocks, ← iha, ← ihb]

-- ── Variables ────────────────────────────────────────────────────────────────

/-- What a variable becomes. -/
def filledVariable (values : Table String) (e : String × List String) :
    Except (Kind × String) (List Char) :=
  (demand values .variable e.1).map String.toList

/-- The third pass, the lines of variables left out. -/
theorem fillVariables_words (values : Table String) (cs : List Char) :
    (fillVariables values cs).mapError Unresolved.demanded =
      Piece.substitute (filledVariable values) (wordsFrom true cs) := by
  rw [fillVariables, Piece.substitute_mapError, ← variablePieces_words, Piece.substitute_map]
  congr 1
  funext v
  rw [mapError_map, lookUp_demanded]
  rfl

theorem vars_words (cs : List Char) :
    (vars cs).map Variable.entry = Piece.items (wordsFrom true cs) := by
  rw [← variablePieces_words, Piece.items_map]
  rfl

/-- A part of a line as the last pass sees it. -/
def Segment.word : Segment → Piece (String × List String)
  | .plain c _ => .char c
  | .variable name alternatives => .item (name.name, (alternatives.map Identifier.name).eraseDups)

theorem Segment.variableWord?_print (name : Identifier) (alternatives : List Identifier)
    (rest : List Char) :
    variableWord? (variableText name.chars (alternatives.map Identifier.chars) ++ rest) =
      some ⟨.variable name.name (alternatives.map Identifier.name).eraseDups,
        variableText name.chars (alternatives.map Identifier.chars), rest⟩ := by
  have hne : ∀ a ∈ alternatives.map Identifier.chars, a ≠ [] := by
    intro a ha
    obtain ⟨i, -, rfl⟩ := List.mem_map.mp ha
    exact i.nonempty
  have hword : ∀ a ∈ alternatives.map Identifier.chars, ∀ c ∈ a, isAlternativeChar c = true := by
    intro a ha c hc
    obtain ⟨i, -, rfl⟩ := List.mem_map.mp ha
    exact alternativeChar_of_nameChar (i.nameChars c hc)
  rw [variableWord?_text name.nonempty (fun c hc => variableChar_of_nameChar (name.nameChars c hc))
    hne hword, List.map_map]
  rfl

/-- The parts of a line are found where they stand. -/
theorem wordsFrom_segments (segments : List Segment) (b : Bool) {rest : List Char}
    (hr : LineEnd rest) :
    wordsFrom b (segments.flatMap Segment.print ++ rest) =
      segments.map Segment.word ++ wordsFrom true rest := by
  induction segments generalizing b with
  | nil => exact wordsFrom_lineEnd b hr
  | cons s segments ih =>
      have hat : '@' ∉ firstLine ((s :: segments).flatMap Segment.print ++ rest) :=
        at_not_mem_firstLine (Segment.not_mem_flatMap rfl rfl (by decide) _) hr
      have hmark := marker?_of_no_at b hat
      rw [List.flatMap_cons, List.append_assoc] at hmark ⊢
      cases s with
      | plain c h =>
          have hopen : c ≠ '<' := by
            rintro rfl
            cases h
          have hnone : marker? b (c :: (segments.flatMap Segment.print ++ rest)) = none :=
            hmark.trans (variableWord?_of_ne hopen _)
          show wordsFrom b (c :: (segments.flatMap Segment.print ++ rest)) = _
          rw [wordsFrom_char hnone, ih]
          rfl
      | «variable» name alternatives =>
          have hsome := hmark.trans (Segment.variableWord?_print name alternatives _)
          rw [wordsFrom_marker hsome, ih]
          rfl

theorem Line.wordsFrom_print (l : Line) : wordsFrom true l.print = l.segments.map Segment.word := by
  have h := wordsFrom_segments l.segments true lineEnd_nil
  rw [List.append_nil, wordsFrom_nil, List.append_nil] at h
  exact h

theorem Line.items_words (l : Line) :
    Piece.items (wordsFrom true l.print) = l.variables := by
  rw [l.wordsFrom_print, Line.variables]
  induction l.segments with
  | nil => rfl
  | cons s segments ih =>
      cases s with
      | plain c h => exact ih
      | «variable» name alternatives => exact congrArg (_ :: ·) ih

theorem items_words_printLines (first : Line) (others : List Line) :
    Piece.items (wordsFrom true (printLines first others)) =
      first.variables ++ others.flatMap Line.variables := by
  rw [printLines]
  induction others generalizing first with
  | nil => rw [List.flatMap_nil, List.append_nil, first.items_words, List.flatMap_nil,
      List.append_nil]
  | cons l others ih =>
      have hshape : first.print ++ (l :: others).flatMap (fun l => '\n' :: l.print) =
          first.print ++ '\n' :: (l.print ++ others.flatMap fun l => '\n' :: l.print) := rfl
      rw [hshape, wordsFrom_text first.no_at true (lineEnd_break _), wordsFrom_lineBreak,
        Piece.items_append, Piece.items_char, first.items_words, ih l, List.flatMap_cons]

theorem Tree.items_words (t : Tree) : Piece.items t.layout.words = t.vars := by
  induction t with
  | line l => exact l.items_words
  | block name first others =>
      simp [Tree.layout, Layout.words, Tree.vars, items_words_printLines]
  | ifThen name default? t iht => simp [Tree.layout, Layout.words, Tree.vars, iht]
  | ifElse name default? t u iht ihu => simp [Tree.layout, Layout.words, Tree.vars, iht, ihu]
  | seq a b iha ihb => simp [Tree.layout, Layout.words, Tree.vars, iha, ihb]

theorem substitute_segments (values : Table String) (segments : List Segment) :
    Piece.substitute (filledVariable values) (segments.map Segment.word) =
      writeSegments values segments := by
  induction segments with
  | nil => rfl
  | cons s segments ih =>
      cases s with
      | plain c h =>
          show (Piece.substitute _ (segments.map Segment.word)).map (c :: ·) = _
          rw [ih, writeSegments]
          cases writeSegments values segments with
          | error e => rfl
          | ok after => rfl
      | «variable» name alternatives =>
          show (filledVariable values _ >>= fun text =>
            Piece.substitute _ (segments.map Segment.word) >>= fun after => pure (text ++ after)) = _
          rw [ih]
          rfl

/-- The third pass writes a page with the values of its variables. -/
theorem Page.fillVariables_print (values : Table String) {p : Page} (h : p.layout.Lettered) :
    (fillVariables values p.layout.print).mapError Unresolved.demanded = p.write values := by
  rw [fillVariables_words, Layout.wordsFrom_print h]
  clear h
  induction p with
  | nothing => rfl
  | line l =>
      show Piece.substitute _ (wordsFrom true l.print) = _
      rw [l.wordsFrom_print, substitute_segments]
      rfl
  | block name body =>
      rw [Page.layout, Layout.words, Piece.substitute_append, Piece.substitute_append,
        Piece.substitute_plain, Piece.substitute_plain, ← fillVariables_words, Page.write]
      cases (fillVariables values body).mapError Unresolved.demanded with
      | error e => rfl
      | ok text => simp [blockText, pure, Except.pure]
  | seq p q ihp ihq =>
      rw [Page.layout, Layout.words, Piece.substitute_append, ihp, Piece.substitute, ihq,
        Page.write]
      cases p.write values with
      | error e => rfl
      | ok before =>
          cases q.write values with
          | error e => rfl
          | ok after => rfl

theorem Page.length_vars_print {p : Page} (h : p.layout.Lettered) :
    (vars p.layout.print).length = p.variableCount := by
  have hlen := congrArg List.length (vars_words p.layout.print)
  rw [List.length_map, Layout.wordsFrom_print h] at hlen
  rw [hlen]
  clear h hlen
  induction p with
  | nothing => rfl
  | line l => exact congrArg List.length l.items_words
  | block name body =>
      have hbody := congrArg List.length (vars_words body)
      rw [List.length_map] at hbody
      simp [Page.layout, Layout.words, Page.variableCount, hbody]
  | seq p q ihp ihq => simp [Page.layout, Layout.words, Page.variableCount, ihp, ihq]

-- ── Characters of the result ─────────────────────────────────────────────────

/-- A character of a replaced text is one of the text or one of a replacement. -/
theorem Piece.mem_substitute {α ε : Type} {replace : α → Except ε (List Char)}
    {ps : List (Piece α)} {out : List Char} (h : substitute replace ps = .ok out) {c : Char}
    (hc : c ∈ out) :
    .char c ∈ ps ∨ ∃ a s, .item a ∈ ps ∧ replace a = .ok s ∧ c ∈ s := by
  induction ps generalizing out with
  | nil => cases h; exact absurd hc List.not_mem_nil
  | cons p ps ih =>
      have later : ∀ {after}, substitute replace ps = .ok after → c ∈ after →
          .char c ∈ p :: ps ∨ ∃ a s, .item a ∈ p :: ps ∧ replace a = .ok s ∧ c ∈ s := by
        intro after hafter hc
        obtain hm | ⟨a, s, ha, hs, hc⟩ := ih hafter hc
        · exact .inl (List.mem_cons_of_mem _ hm)
        · exact .inr ⟨a, s, List.mem_cons_of_mem _ ha, hs, hc⟩
      cases hrest : substitute replace ps with
      | error e =>
          cases p with
          | char d => rw [substitute, hrest] at h; cases h
          | item a =>
              rw [substitute, hrest] at h
              cases ha : replace a with
              | error e => rw [ha] at h; cases h
              | ok s => rw [ha] at h; cases h
      | ok after =>
          cases p with
          | char d =>
              rw [substitute, hrest] at h
              cases h
              rcases List.mem_cons.mp hc with rfl | hc
              · exact .inl List.mem_cons_self
              · exact later hrest hc
          | item a =>
              rw [substitute, hrest] at h
              cases ha : replace a with
              | error e => rw [ha] at h; cases h
              | ok s =>
                  rw [ha] at h
                  cases h
                  rcases List.mem_append.mp hc with hc | hc
                  · exact .inr ⟨a, s, List.mem_cons_self, ha, hc⟩
                  · exact later hrest hc

theorem Piece.mem_source_of_char {α : Type} (text : α → List Char) {ps : List (Piece α)} {c : Char}
    (h : .char c ∈ ps) : c ∈ source text ps :=
  List.mem_flatMap.mpr ⟨_, h, List.mem_singleton.mpr rfl⟩

/-- A character that no value holds and the text does not hold is not in the result. -/
theorem not_mem_fillVariables {c : Char} {values : Table String}
    (hvalues : ∀ name value, values.get? name = some value → c ∉ value.toList)
    {cs out : List Char} (hcs : c ∉ cs)
    (h : (fillVariables values cs).mapError Unresolved.demanded = .ok out) : c ∉ out := by
  intro hc
  cases hf : fillVariables values cs with
  | error e => rw [hf] at h; cases h
  | ok text =>
      rw [hf] at h
      cases h
      obtain hm | ⟨v, s, -, hs, hm⟩ := Piece.mem_substitute hf hc
      · exact hcs (source_variablePieces cs ▸ Piece.mem_source_of_char _ hm)
      · have hd := congrArg (Except.mapError Unresolved.demanded) hs
        rw [mapError_map, lookUp_demanded] at hd
        cases hv : demand values .variable v.name with
        | error e => rw [hv] at hd; cases hd
        | ok value =>
            rw [hv] at hd
            cases hd
            exact hvalues _ _ (get?_of_demand hv) hm

/-- All bodies of a page satisfy a property. -/
def Page.Bodies (P : List Char → Prop) : Page → Prop
  | .nothing => True
  | .line _ => True
  | .block _ body => P body
  | .seq p q => p.Bodies P ∧ q.Bodies P

theorem Page.bodies_fill {P : List Char → Prop} {bodies : Table String}
    (hb : ∀ name body, bodies.get? name = some body → P body.toList) {p filled : Page}
    (h : p.fill bodies = .ok filled) : filled.Bodies P := by
  induction p generalizing filled with
  | nothing => cases h; trivial
  | line l => cases h; trivial
  | block name body =>
      rw [Page.fill] at h
      cases hd : demand bodies .block name.name with
      | error e => rw [hd] at h; cases h
      | ok body =>
          rw [hd] at h
          cases h
          exact hb _ _ (get?_of_demand hd)
  | seq p q ihp ihq =>
      rw [Page.fill] at h
      cases hp : p.fill bodies with
      | error e => rw [hp] at h; cases h
      | ok first =>
          cases hq : q.fill bodies with
          | error e => rw [hp, hq] at h; cases h
          | ok second =>
              rw [hp, hq] at h
              cases h
              exact ⟨ihp hp, ihq hq⟩

theorem Page.lettered_of_bodies {p : Page} (h : p.Bodies fun body => '@' ∉ body) :
    p.layout.Lettered := by
  induction p with
  | nothing => exact List.not_mem_nil
  | line l => exact l.no_at
  | block name body => exact ⟨name.isName, h⟩
  | seq p q ihp ihq => exact ⟨ihp h.1, ihq h.2⟩

theorem no_return_segments {values : Table String}
    (hvalues : ∀ name value, values.get? name = some value → '\r' ∉ value.toList)
    {segments : List Segment} {out : List Char} (h : writeSegments values segments = .ok out) :
    '\r' ∉ out := by
  induction segments generalizing out with
  | nil => cases h; exact List.not_mem_nil
  | cons s segments ih =>
      rw [writeSegments] at h
      cases hs : s.write values with
      | error e => rw [hs] at h; cases h
      | ok before =>
          cases hrest : writeSegments values segments with
          | error e => rw [hs, hrest] at h; cases h
          | ok after =>
              rw [hs, hrest] at h
              cases h
              intro hm
              rcases List.mem_append.mp hm with hm | hm
              · cases s with
                | plain c hplain =>
                    cases hs
                    rw [← List.mem_singleton.mp hm] at hplain
                    cases hplain
                | «variable» name alternatives =>
                    rw [Segment.write] at hs
                    cases hv : demand values .variable name.name with
                    | error e => rw [hv] at hs; cases hs
                    | ok value =>
                        rw [hv] at hs
                        cases hs
                        exact hvalues _ _ (get?_of_demand hv) hm
              · exact ih hrest hm

theorem no_return_blockText {name body : List Char} (hname : '\r' ∉ name) (h : '\r' ∉ body) :
    '\r' ∉ blockText name body := by
  simp [blockText, blockLine, endBlockLine, leader, blockKeyword, endBlockKeyword, hname, h]

/-- A page is written without carriage returns if no body and no value brings one. -/
theorem Page.no_return_write {values : Table String}
    (hvalues : ∀ name value, values.get? name = some value → '\r' ∉ value.toList)
    {p : Page} (hp : p.Bodies fun body => '\r' ∉ body) {out : List Char}
    (h : p.write values = .ok out) : '\r' ∉ out := by
  induction p generalizing out with
  | nothing => cases h; exact List.not_mem_nil
  | line l => exact no_return_segments hvalues h
  | block name body =>
      rw [Page.write] at h
      cases hf : (fillVariables values body).mapError Unresolved.demanded with
      | error e => rw [hf] at h; cases h
      | ok text =>
          rw [hf] at h
          cases h
          exact no_return_blockText (Identifier.not_mem rfl) (not_mem_fillVariables hvalues hp hf)
  | seq p q ihp ihq =>
      rw [Page.write] at h
      cases hwp : p.write values with
      | error e => rw [hwp] at h; cases h
      | ok before =>
          cases hwq : q.write values with
          | error e => rw [hwp, hwq] at h; cases h
          | ok after =>
              rw [hwp, hwq] at h
              cases h
              simp [ihp hp.1 hwp, ihq hp.2 hwq]

-- ── Scanning and converting ──────────────────────────────────────────────────

/-- Scanning a well-formed template lists what it asks for. -/
theorem Tree.inventory_print (t : Tree) : Template.inventory t.print = t.inventory := by
  have hread := t.readable
  have hconditions : (Outline.ofText t.print).conditions = t.conditions := by
    rw [← t.print_layout, Layout.ofText_print hread, t.conditions_outline]
    exact List.append_nil _
  have hblocks : (Template.blocks t.print).map (fun b => (b.name, String.ofList b.body)) =
      t.blocks := by
    have h := blocks_entries t.layout.print
    rw [Layout.blockPieces_print hread, t.print_layout] at h
    rw [← t.items_entries, ← h, List.map_map]
    rfl
  have hvars : (Template.vars t.print).map (fun v => (v.name, v.alternatives)) = t.vars := by
    have h := vars_words t.layout.print
    rw [Layout.wordsFrom_print hread.lettered, t.items_words, t.print_layout] at h
    exact h
  rw [Template.inventory, hconditions, hblocks, hvars, Tree.inventory]

/-- The first pass over the text of a well-formed template. -/
theorem Tree.resolve_print (conditions : Table Bool) (t : Tree) :
    ((Outline.ofText t.print).resolve conditions).mapError Unresolved.demanded =
      (t.choose conditions).map fun chosen => (chosen.1.layout.print, chosen.2) := by
  rw [← t.print_layout, Layout.ofText_print t.readable, t.resolve_outline]
  cases t.choose conditions with
  | error e => rfl
  | ok chosen => simp [Outline.resolve, mapError_ok, pure, Except.pure, Except.map]

/-- Converting a well-formed template gives what the template means, and scanning it lists what it
    asks for. -/
theorem convert_print (t : Tree) (v : Values)
    (hbodies : ∀ name body, v.blocks.get? name = some body →
      '@' ∉ body.toList ∧ '\r' ∉ body.toList)
    (hvalues : ∀ name value, v.vars.get? name = some value → '\r' ∉ value.toList) :
    (convert (String.ofList t.print) v).mapError Unresolved.demanded = t.evaluate v ∧
      scan (String.ofList t.print) = t.inventory := by
  refine ⟨?_, ?_⟩
  · rw [convert, String.toList_ofList, mapError_bind, t.resolve_print, Tree.evaluate]
    cases hchoose : t.choose v.conditions with
    | error e => rfl
    | ok chosen =>
        have hread := Tree.readable_of_choose hchoose
        show ((fillBlocks v.blocks chosen.1.layout.print) >>= _).mapError _ = _
        rw [mapError_bind, Page.fillBlocks_print v.blocks hread, ok_bind]
        cases hfill : chosen.1.fill v.blocks with
        | error e => rfl
        | ok page =>
            have hlettered : page.layout.Lettered :=
              Page.lettered_of_bodies (Page.bodies_fill (fun n b h => (hbodies n b h).1) hfill)
            show ((fillVariables v.vars page.layout.print) >>= _).mapError _ = _
            rw [mapError_bind, Page.fillVariables_print v.vars hlettered, ok_bind]
            cases hwrite : page.write v.vars with
            | error e => rfl
            | ok text =>
                have hreturn : '\r' ∉ text := Page.no_return_write hvalues
                  (Page.bodies_fill (fun n b h => (hbodies n b h).2) hfill) hwrite
                have hblocks := Page.length_blocks_print hread
                have hvars := Page.length_vars_print hlettered
                show Except.ok _ = Except.ok _
                rw [unixBreaks_of_no_return hreturn, hblocks, hvars, Page.blockCount_fill hfill]
  · rw [scan, String.toList_ofList, t.inventory_print]

/-- A name of one character. -/
def Identifier.single (c : Char) (h : isNameChar c = true) : Identifier :=
  ⟨[c], List.cons_ne_nil _ _, List.forall_mem_singleton.mpr h⟩

/-- A conditional with an alternative above a block. -/
def sampleTree : Tree :=
  .seq
    (.ifElse (.single 'F' rfl) (some true)
      (.line ⟨[.plain 'x' rfl, .variable (.single 'n' rfl) []], 'x', List.mem_cons_self, rfl⟩)
      (.line ⟨[.plain 'y' rfl], 'y', List.mem_cons_self, rfl⟩))
    (.block (.single 'B' rfl) ⟨[.plain 'z' rfl], 'z', List.mem_cons_self, rfl⟩ [])

/-- Values for `sampleTree`; the body has a variable of its own. -/
def sampleValues : Values :=
  (((∅ : Values).setCondition "F" true).setBlock "B" "<n>;").setVariable "n" "1"

theorem convert_print_sample :
    (convert (String.ofList sampleTree.print) sampleValues).mapError Unresolved.demanded =
        .ok ⟨"x1\n// @block B\n1;\n// @endblock", ⟨1, 1, 2⟩⟩ ∧
      scan (String.ofList sampleTree.print) = sampleTree.inventory := by
  have hevaluate : sampleTree.evaluate sampleValues =
      .ok ⟨"x1\n// @block B\n1;\n// @endblock", ⟨1, 1, 2⟩⟩ := by rfl
  rw [← hevaluate]
  refine convert_print sampleTree sampleValues ?_ ?_
  · intro name body h
    by_cases hname : name = "B"
    · subst hname
      cases h
      decide
    · have hnone : sampleValues.blocks.get? name = none :=
        (∅ : Table String).get?_insert_of_ne hname "<n>;"
      rw [hnone] at h
      cases h
  · intro name value h
    by_cases hname : name = "n"
    · subst hname
      cases h
      decide
    · have hnone : sampleValues.vars.get? name = none :=
        (∅ : Table String).get?_insert_of_ne hname "1"
      rw [hnone] at h
      cases h

end ShaderTemplates.Template
