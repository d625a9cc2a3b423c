import ShaderTemplates.Proofs.BlockSites
import ShaderTemplates.Proofs.ByteReading
import ShaderTemplates.Proofs.CarriageReturns
import ShaderTemplates.Proofs.Closings
import ShaderTemplates.Proofs.PlacedItems

/-!
# Conditionals and blocks by offsets

Markers are paired by their indices in a list of tokens, and what is between two of them is cut out
of the text.  The pairs are those that splitting the pieces of the text finds (`closeFrom_located`,
`findIdx?_located`): on its way to the end marker `closeFrom` counts what `splitEndIf` and
`splitElse` count one after the other.  The offsets of the markers are those at which the pieces
between them start and end, so every cut falls between two characters (`contentSlice_eq`).

Hence the conditionals and the blocks that are found by offsets are the ones that are gathered from
the pieces, each where it stands (`placed_conditionals`, `placed_blocks`).
-/

namespace ShaderTemplates.Template.Offsets

open Text

-- ── Contents ─────────────────────────────────────────────────────────────────

theorem findBreak?_eq (cs : List Char) :
    findBreak? cs = if '\n' ∈ cs then some (byteLength (cs.takeWhile (· != '\n'))) else none := by
  induction cs with
  | nil => rfl
  | cons c cs ih =>
    by_cases hc : c = '\n'
    · subst hc
      rfl
    · have hmem : '\n' ∈ c :: cs ↔ '\n' ∈ cs := by simp [Ne.symm hc]
      rw [findBreak?, if_neg hc, ih, List.takeWhile_cons_of_pos (by simpa using hc), byteLength]
      by_cases h : '\n' ∈ cs
      · rw [if_pos h, if_pos (hmem.2 h)]
        rfl
      · rw [if_neg h, if_neg (mt hmem.1 h)]
        rfl

/-- The content between two offsets at which characters end ends where a character ends. -/
theorem contentEnd_eq {cs region rest : List Char} {n : Nat} (h : At cs n (region ++ rest)) :
    contentEnd cs n (n + byteLength region) = .ok (n + byteLength (content region)) := by
  have hregion := trimEnd_append_drop region
  have hat : At region (byteLength (trimEnd region)) (region.drop (trimEnd region).length) :=
    ⟨_, hregion, rfl⟩
  rw [contentEnd, h.slice_eq, ok_bind, hat.sliceFrom_eq, ok_bind, findBreak?_eq, content]
  generalize region.drop (trimEnd region).length = blanks at hregion
  rw [← hregion, List.append_assoc] at h
  rw [byteLength_append, keptBlanks, ← Nat.add_assoc]
  by_cases hbreak : '\n' ∈ blanks
  · have hline : At cs (n + byteLength (trimEnd region))
        (blanks.takeWhile (· != '\n') ++ (blanks.dropWhile (· != '\n') ++ rest)) := by
      rw [← List.append_assoc, List.takeWhile_append_dropWhile]
      exact h.skip
    rw [if_pos hbreak, if_pos hbreak]
    dsimp only
    generalize blanks.takeWhile (· != '\n') = line at hline
    obtain rfl | ⟨init, last, rfl⟩ := List.eq_nil_or_concat' line
    · rw [byteLength, Nat.add_zero, if_neg (Nat.lt_irrefl _)]
      rfl
    · obtain ⟨b, hb, hbefore⟩ := hline.byteBefore_eq
      have hreturn : (b == '\r'.toUInt8) = (last == '\r') := reads_beq (by decide) last b hb
      have hlen : byteLength (init ++ [last]) = byteLength init + last.utf8Size :=
        byteLength_append _ _
      have hsize := Char.utf8Size_pos last
      rw [if_pos (by omega), hbefore, ok_bind, hreturn, List.getLast?_concat]
      by_cases hlast : last = '\r'
      · subst hlast
        have hone : ('\r' : Char).utf8Size = 1 := rfl
        rw [if_pos rfl, if_pos (beq_self_eq_true _), List.dropLast_concat, hlen, hone]
        rfl
      · rw [if_neg (by simpa using hlast), if_neg (by simpa using hlast)]
        rfl
  · rw [if_neg hbreak, if_neg hbreak]
    rfl

theorem contentSlice_eq {cs region rest : List Char} {n : Nat} (h : At cs n (region ++ rest)) :
    contentSlice cs n (n + byteLength region) =
      .ok ⟨n, n + byteLength (content region), content region⟩ := by
  have htext : slice cs n (n + byteLength (content region)) = .ok (content region) := by
    obtain ⟨tail, htail⟩ := content_prefix region
    rw [← htail, List.append_assoc] at h
    exact h.slice_eq
  rw [contentSlice, contentEnd_eq h, ok_bind, htext]
  rfl

-- ── Closings ─────────────────────────────────────────────────────────────────

/-- How many tokens there are among the pieces. -/
def count (ps : List (Piece Template.Token)) : Nat := (Piece.items ps).length

theorem count_append (ps qs : List (Piece Template.Token)) :
    count (ps ++ qs) = count ps + count qs := by
  rw [count, Piece.items_append, List.length_append]
  rfl

theorem count_item (t : Template.Token) (ps : List (Piece Template.Token)) :
    count (.item t :: ps) = count ps + 1 := rfl

theorem located_append (n : Nat) (ps qs : List (Piece Template.Token)) :
    located n (ps ++ qs) = located n ps ++ located (n + byteLength (tokenSource ps)) qs := by
  induction ps generalizing n with
  | nil => rfl
  | cons p ps ih =>
      cases p with
      | char c =>
          rw [List.cons_append, located, ih, located, tokenSource_char, byteLength, Nat.add_assoc]
      | item t =>
          rw [List.cons_append, located, ih, located, tokenSource_item, byteLength_append,
            Nat.add_assoc, List.cons_append]

theorem length_located (n : Nat) (ps : List (Piece Template.Token)) :
    (located n ps).length = count ps := by
  induction ps generalizing n with
  | nil => rfl
  | cons p ps ih =>
      cases p with
      | char c => exact ih _
      | item t => exact congrArg (· + 1) (ih _)

section

variable {index d e : Nat} {else? : Option Nat} {t : Token} {ts : List Token}

/-- The end marker ends the search. -/
theorem closeFrom_stop (h : endIfStep t.marker d = none) :
    closeFrom index d else? (t :: ts) = some ⟨else?, index⟩ := by
  obtain ⟨m, start, stop, line⟩ := t
  obtain ⟨rfl, rfl⟩ : m = .endIf ∧ d = 0 := endIf_of_stop h
  rfl

/-- An `@else` of the conditional itself is noted, unless there was one before. -/
theorem closeFrom_else (h : elseStep t.marker d = none) :
    closeFrom index d else? (t :: ts) =
      if else?.isSome then none else closeFrom (index + 1) 0 (some index) ts := by
  obtain ⟨m, start, stop, line⟩ := t
  obtain ⟨rfl, rfl⟩ : m = .elseLine ∧ d = 0 := elseLine_of_stop h
  rfl

/-- Any other marker is passed. -/
theorem closeFrom_pass (h : endIfStep t.marker d = some e) (h' : elseStep t.marker d = some e) :
    closeFrom index d else? (t :: ts) = closeFrom (index + 1) e else? ts := by
  obtain ⟨m, start, stop, line⟩ := t
  cases m <;> cases d <;> cases h <;> cases h' <;> rfl

end

/-- What closes a conditional whose body starts with the token at `index`, if `else?` is the `@else`
    in front of the body and `split?` splits the body at the next one. -/
def closedAs (index : Nat) (else? : Option Nat) (body : List (Piece Template.Token)) :
    Option (List (Piece Template.Token) × Template.Token × List (Piece Template.Token)) →
      Option ConditionalEnd
  | none => some ⟨else?, index + count body⟩
  | some s =>
    if else?.isSome ∨ (splitElse 0 s.2.2).isSome then none
    else some ⟨some (index + count s.1), index + count body⟩

theorem closedAs_item (index : Nat) (else? : Option Nat) (t : Template.Token)
    (body : List (Piece Template.Token))
    (split? : Option (List (Piece Template.Token) × Template.Token × List (Piece Template.Token))) :
    closedAs index else? (.item t :: body) (split?.map fun s => (.item t :: s.1, s.2)) =
      closedAs (index + 1) else? body split? := by
  have hcount : ∀ ps, index + count (.item t :: ps) = index + 1 + count ps := fun ps => by
    rw [count_item, Nat.add_comm (count ps), Nat.add_assoc]
  cases split? with
  | none => exact congrArg (fun n => some (ConditionalEnd.mk else? n)) (hcount body)
  | some s =>
      rw [Option.map_some, closedAs, closedAs, hcount, hcount]

/-- A conditional is closed where splitting the pieces behind its header closes it. -/
theorem closeFrom_located (index d : Nat) (else? : Option Nat) (n : Nat)
    (ps : List (Piece Template.Token)) :
    closeFrom index d else? (located n ps) =
      (splitEndIf d ps).bind fun s => closedAs index else? s.1 (splitElse d s.1) := by
  induction ps generalizing index d else? n with
  | nil => rfl
  | cons p ps ih =>
      cases p with
      | char c =>
          rw [located, ih, cuts_endIf.char, Option.bind_map]
          refine congrArg _ (funext fun s => ?_)
          show _ = closedAs index else? (.char c :: s.1) (splitElse d (.char c :: s.1))
          rw [cuts_else.char]
          cases splitElse d s.1 <;> rfl
      | item t =>
          rw [located]
          cases hEnd : endIfStep t.marker d with
          | none =>
              rw [closeFrom_stop hEnd, cuts_endIf.stop hEnd]
              rfl
          | some e =>
              rw [cuts_endIf.pass hEnd, Option.bind_map]
              cases hElse : elseStep t.marker d with
              | none =>
                  obtain ⟨hm, rfl⟩ := elseLine_of_stop hElse
                  obtain rfl : e = 0 := by
                    rw [hm] at hEnd
                    exact (Option.some.inj hEnd).symm
                  rw [closeFrom_else hElse, ih]
                  cases splitEndIf 0 ps with
                  | none => exact ite_self _
                  | some s =>
                      show _ = closedAs index else? (.item t :: s.1) (splitElse 0 (.item t :: s.1))
                      rw [cuts_else.stop hElse, Option.bind_some]
                      cases else? with
                      | some j => rfl
                      | none =>
                          cases hs : splitElse 0 s.1 with
                          | none => simp [closedAs, hs, count_item, Nat.add_assoc, Nat.add_comm 1]; rfl
                          | some s' => simp [closedAs, hs]
              | some e' =>
                  cases step_eq hEnd hElse
                  rw [closeFrom_pass hEnd hElse, ih]
                  refine congrArg _ (funext fun s => ?_)
                  show _ = closedAs index else? (.item t :: s.1) (splitElse d (.item t :: s.1))
                  rw [cuts_else.pass hElse, closedAs_item]

/-- The indices of the markers that close a conditional whose body starts with the token at
    `index`. -/
def indices (index : Nat) (c : Closing) : ConditionalEnd where
  elseIndex? := c.otherwise?.map fun _ => index + count c.whenTrue
  endIndex := index + count c.whenTrue + count c.otherwise

theorem closeFrom_eq (index n : Nat) (ps : List (Piece Template.Token)) :
    closeFrom index 0 none (located n ps) = (closeConditional? ps).map (indices index) := by
  rw [closeFrom_located, closeConditional?]
  cases splitEndIf 0 ps with
  | none => rfl
  | some s =>
      obtain ⟨body, endIf, rest⟩ := s
      dsimp only [Option.bind_some]
      cases hElse : splitElse 0 body with
      | none => rfl
      | some s =>
          obtain ⟨whenTrue, elseLine, whenFalse⟩ := s
          have hcount : index + count body = index + count whenTrue + (count whenFalse + 1) := by
            rw [← splitElse_append hElse, count_append, count_item, Nat.add_assoc]
          cases hLast : splitElse 0 whenFalse with
          | none => simp [closedAs, hLast, indices, hcount, Closing.otherwise, count_item]
          | some s => simp [closedAs, hLast]

/-- A block is closed where splitting the pieces behind its header closes it. -/
theorem findIdx?_located (n : Nat) (ps : List (Piece Template.Token)) :
    (located n ps).findIdx? (·.marker == .endBlock) =
      (splitEndBlock ps).map fun s => count s.1 := by
  induction ps generalizing n with
  | nil => rfl
  | cons p ps ih =>
      cases p with
      | char c =>
          rw [located, ih, splitEndBlock, Option.map_map]
          rfl
      | item t =>
          rw [located, List.findIdx?_cons, ih]
          by_cases hm : t.marker = .endBlock
          · simp [splitEndBlock, hm, count]
          · have hsplit : splitEndBlock (.item t :: ps) =
                (splitEndBlock ps).map fun s => (.item t :: s.1, s.2) := by
              rw [splitEndBlock]
              split
              · contradiction
              · rfl
            rw [hsplit, if_neg (by simpa using hm), Option.map_map, Option.map_map]
            rfl

-- ── Regions ──────────────────────────────────────────────────────────────────

/-- A slice stands between two offsets of a text and is cut out between characters. -/
structure Slice.Within (s : Slice) (cs : List Char) (start stop : Nat) : Prop where
  start_le : start ≤ s.start
  le_stop : s.start ≤ s.stop
  stop_le : s.stop ≤ stop
  cut : slice cs s.start s.stop = .ok s.text

/-- What is found between two markers is the content of the text between them. -/
theorem exists_contentSlice {cs region rest : List Char} {n : Nat} (h : At cs n (region ++ rest)) :
    ∃ s, contentSlice cs n (n + byteLength region) = .ok s ∧ s.text = content region ∧
      ∀ start stop, start ≤ n → n + byteLength region ≤ stop → s.Within cs start stop := by
  refine ⟨_, contentSlice_eq h, rfl, fun start stop hstart hstop => ?_⟩
  obtain ⟨tail, htail⟩ := content_prefix region
  have hlen : byteLength (content region) ≤ byteLength region := by
    rw [← htail, byteLength_append, htail]
    exact Nat.le_add_right _ _
  rw [← htail, List.append_assoc] at h
  exact ⟨hstart, Nat.le_add_right _ _, Nat.le_trans (Nat.add_le_add_left hlen n) hstop, h.slice_eq⟩

theorem stop_le_append (n : Nat) (a b : List Char) : n + byteLength a ≤ n + byteLength (a ++ b) := by
  rw [byteLength_append, ← Nat.add_assoc]
  exact Nat.le_add_right _ _

/-- The pieces are what is left of a text at an offset, and their tokens are what is left of its
    tokens at an index. -/
structure Remains (cs : List Char) (ts : List Token) (index n : Nat)
    (ps : List (Piece Template.Token)) : Prop where
  tokens_eq : ts.drop index = located n ps
  at_text : At cs n (tokenSource ps)

namespace Remains

variable {cs : List Char} {ts : List Token} {index n : Nat} {t : Template.Token} {c : Char}
  {ps front : List (Piece Template.Token)}

theorem skip (h : Remains cs ts index n (front ++ ps)) :
    Remains cs ts (index + count front) (n + byteLength (tokenSource front)) ps where
  tokens_eq := by
    rw [← List.drop_drop, h.tokens_eq, located_append, ← length_located n front, List.drop_left]
  at_text := by
    have hat := h.at_text
    rw [tokenSource_append] at hat
    exact hat.skip

theorem skip_char (h : Remains cs ts index n (.char c :: ps)) :
    Remains cs ts index (n + c.utf8Size) ps :=
  skip (show Remains cs ts index n ([.char c] ++ ps) from h)

theorem skip_item (h : Remains cs ts index n (.item t :: ps)) :
    Remains cs ts (index + 1) (n + byteLength t.source) ps := by
  have hskip : Remains cs ts (index + 1) (n + byteLength (tokenSource [.item t])) ps :=
    skip (show Remains cs ts index n ([.item t] ++ ps) from h)
  rwa [tokenSource_item, tokenSource_nil, List.append_nil] at hskip

theorem getElem?_eq (h : Remains cs ts index n (.item t :: ps)) :
    ts[index]? = some ⟨t.marker, n, n + byteLength t.source, t.line⟩ := by
  rw [← List.head?_drop, h.tokens_eq]
  rfl

theorem tokenAt_eq (h : Remains cs ts index n (.item t :: ps)) :
    tokenAt ts index = .ok ⟨t.marker, n, n + byteLength t.source, t.line⟩ := by
  rw [tokenAt, h.getElem?_eq]

/-- The header of a directive is one of the tokens. -/
theorem mem (h : Remains cs ts index n (.item t :: ps)) :
    (⟨t.marker, n, n + byteLength t.source, t.line⟩ : Token) ∈ ts :=
  List.mem_of_getElem? h.getElem?_eq

theorem length_le (h : Remains cs ts index n []) : ts.length ≤ index :=
  List.drop_eq_nil_iff.1 h.tokens_eq

end Remains

-- ── Conditionals ─────────────────────────────────────────────────────────────

/-- A conditional is found at an offset: from its header to its end marker, with its branches cut
    out of what is between. -/
structure FindsConditional (cs : List Char) (ts : List Token) (n : Nat) (c : Template.Conditional)
    (found : Conditional) : Prop where
  name_eq : found.name = c.name
  default_eq : found.default? = c.default?
  start_eq : found.start = n
  stop_eq : found.stop = n + byteLength c.source
  header : ∃ t ∈ ts, t.start = found.start ∧ t.line = found.line ∧ t.stop ≤ found.stop
  line_eq : found.line = c.line
  branch_eq : ∀ value, found.branch value = c.branch value
  whenTrue : found.whenTrue.Within cs found.start found.stop
  whenFalse : ∀ s ∈ found.whenFalse?, s.Within cs found.start found.stop

section

variable {cs : List Char} {ts : List Token} {index n : Nat} {t elseLine endIf : Template.Token}
  {body whenTrue whenFalse rest ps : List (Piece Template.Token)} {name : String}
  {default? : Option Bool} {c : Closing}

/-- A conditional without an `@else`. -/
theorem exists_conditionalAt_one
    (h : Remains cs ts index n (.item t :: (body ++ .item endIf :: rest))) :
    ∃ found, conditionalAt cs ts ⟨t.marker, n, n + byteLength t.source, t.line⟩ name default?
        (indices (index + 1) ⟨body, none, endIf, rest⟩) = .ok found ∧
      FindsConditional cs ts n
        (Closing.toConditional ⟨body, none, endIf, rest⟩ t name default?) found := by
  have hbody := h.skip_item
  have hat := hbody.at_text
  rw [tokenSource_append] at hat
  have hend : tokenAt ts (index + 1 + count body) = .ok _ := hbody.skip.tokenAt_eq
  obtain ⟨s, hs, htext, hwithin⟩ := exists_contentSlice hat
  have hlen : n + byteLength (t.source ++ (tokenSource body ++ [] ++ endIf.source)) =
      n + byteLength t.source + byteLength (tokenSource body) + byteLength endIf.source := by
    simp only [List.append_nil, byteLength_append, Nat.add_assoc]
  refine ⟨⟨name, default?, n, _, t.line, s, none⟩, ?_, rfl, rfl, rfl, rfl,
    ⟨_, h.mem, rfl, rfl, stop_le_append n _ _⟩, rfl, fun value => ?_,
    hwithin _ _ (Nat.le_add_right _ _) ?_, ?_⟩
  · unfold conditionalAt
    show (do let stop ← tokenAt ts (index + 1 + count body); _) = _
    rw [hend, ok_bind]
    show (do let s ← contentSlice cs _ _; _) = _
    rw [hs, ok_bind]
    exact congrArg (fun stop => Except.ok (Conditional.mk name default? n stop t.line s none))
      hlen.symm
  · cases value with
    | true => exact htext
    | false => rfl
  · refine Nat.le_trans ?_ (Nat.le_of_eq hlen.symm)
    exact Nat.le_add_right _ _
  · intro s' hs'
    cases hs'

/-- A conditional with an `@else`. -/
theorem exists_conditionalAt_two (h : Remains cs ts index n
      (.item t :: (whenTrue ++ .item elseLine :: (whenFalse ++ .item endIf :: rest)))) :
    ∃ found, conditionalAt cs ts ⟨t.marker, n, n + byteLength t.source, t.line⟩ name default?
        (indices (index + 1) ⟨whenTrue, some (elseLine, whenFalse), endIf, rest⟩) = .ok found ∧
      FindsConditional cs ts n
        (Closing.toConditional ⟨whenTrue, some (elseLine, whenFalse), endIf, rest⟩ t name default?)
        found := by
  have htrue := h.skip_item
  have hfalse := htrue.skip.skip_item
  have hatTrue := htrue.at_text
  have hatFalse := hfalse.at_text
  rw [tokenSource_append] at hatTrue hatFalse
  have hother : tokenAt ts (index + 1 + count whenTrue) = .ok _ := htrue.skip.tokenAt_eq
  have hend := hfalse.skip.tokenAt_eq
  rw [Nat.add_assoc (index + 1 + count whenTrue), Nat.add_comm 1 (count whenFalse)] at hend
  obtain ⟨s, hs, htext, hwithin⟩ := exists_contentSlice hatTrue
  obtain ⟨s', hs', htext', hwithin'⟩ := exists_contentSlice hatFalse
  have hlen : n + byteLength (t.source ++ (tokenSource whenTrue ++
        (elseLine.source ++ tokenSource whenFalse) ++ endIf.source)) =
      n + byteLength t.source + byteLength (tokenSource whenTrue) + byteLength elseLine.source +
        byteLength (tokenSource whenFalse) + byteLength endIf.source := by
    simp only [List.append_assoc, byteLength_append, Nat.add_assoc]
  refine ⟨⟨name, default?, n, _, t.line, s, some s'⟩, ?_, rfl, rfl, rfl, rfl,
    ⟨_, h.mem, rfl, rfl, stop_le_append n _ _⟩, rfl, fun value => ?_,
    hwithin _ _ (Nat.le_add_right _ _) ?_, ?_⟩
  · unfold conditionalAt
    show (do let stop ← tokenAt ts (index + 1 + count whenTrue + (count whenFalse + 1)); _) = _
    rw [hend, ok_bind]
    show (do let otherwise ← tokenAt ts (index + 1 + count whenTrue); _) = _
    rw [hother, ok_bind]
    show (do let s ← contentSlice cs _ _; _) = _
    rw [hs, ok_bind]
    show (do let s ← contentSlice cs _ _; _) = _
    rw [hs', ok_bind]
    exact congrArg (fun stop => Except.ok (Conditional.mk name default? n stop t.line s (some s')))
      hlen.symm
  · cases value with
    | true => exact htext
    | false => exact htext'
  · refine Nat.le_trans ?_ (Nat.le_of_eq hlen.symm)
    omega
  · rintro _ ⟨⟩
    refine hwithin' _ _ ?_ (Nat.le_trans ?_ (Nat.le_of_eq hlen.symm))
    · show n ≤ _
      omega
    · omega

/-- The conditional that a header and its closing make is found at the offset of the header. -/
theorem exists_conditionalAt (name : String) (default? : Option Bool)
    (h : Remains cs ts index n (.item t :: ps)) (hc : c.Divides ps) :
    ∃ found, conditionalAt cs ts ⟨t.marker, n, n + byteLength t.source, t.line⟩ name default?
        (indices (index + 1) c) = .ok found ∧
      FindsConditional cs ts n (c.toConditional t name default?) found := by
  rw [hc.pieces] at h
  obtain ⟨whenTrue, otherwise?, endIf, rest⟩ := c
  cases otherwise? with
  | none => exact exists_conditionalAt_one h
  | some o =>
      obtain ⟨elseLine, whenFalse⟩ := o
      exact exists_conditionalAt_two h

theorem conditionalsFrom_closed {header : Token} {closing : ConditionalEnd}
    (hget : ts[index]? = some header) (hm : header.marker = .ifHeader name default?)
    (hclosing : findConditionalEnd ts index = some closing) :
    conditionalsFrom cs ts index = do
      let c ← conditionalAt cs ts header name default? closing
      let rest ← conditionalsFrom cs ts (closing.endIndex + 1)
      return c :: rest := by
  obtain ⟨hlt, rfl⟩ := List.getElem?_eq_some_iff.1 hget
  rw [conditionalsFrom, dif_pos hlt]
  split
  · next name' default' hm' =>
      cases hm.symm.trans hm'
      split
      · next closing' hclosing' =>
          cases hclosing.symm.trans hclosing'
          rfl
      · next hnone => cases hclosing.symm.trans hnone
  · next hother => exact absurd hm (hother name default?)

theorem conditionalsFrom_skip {header : Token} (hget : ts[index]? = some header)
    (h : ∀ name default?, header.marker = .ifHeader name default? →
      findConditionalEnd ts index = none) :
    conditionalsFrom cs ts index = conditionalsFrom cs ts (index + 1) := by
  obtain ⟨hlt, rfl⟩ := List.getElem?_eq_some_iff.1 hget
  rw [conditionalsFrom, dif_pos hlt]
  split
  · next name default? hm =>
      split
      · next closing hclosing => cases (h name default? hm).symm.trans hclosing
      · rfl
  · rfl

theorem Remains.findConditionalEnd_eq (h : Remains cs ts index n (.item t :: ps)) :
    findConditionalEnd ts index = (closeConditional? ps).map (indices (index + 1)) := by
  rw [findConditionalEnd, h.skip_item.tokens_eq, closeFrom_eq]

/-- The conditionals that are found by offsets are those that are gathered from the pieces. -/
theorem placed_conditionalsFrom (ps : List (Piece Template.Token)) :
    ∀ index n, Remains cs ts index n ps → ∃ found, conditionalsFrom cs ts index = .ok found ∧
      Placed Conditional.source (FindsConditional cs ts) n (gatherConditionals ps) found := by
  induction ps using gathering_induction with
  | nil =>
      intro index n h
      refine ⟨[], ?_, ?_⟩
      · rw [conditionalsFrom, dif_neg (Nat.not_lt.2 h.length_le)]
      · rw [gatherConditionals]
        exact .nil n
  | char c ps ih =>
      intro index n h
      obtain ⟨found, hfound, hplaced⟩ := ih _ _ h.skip_char
      refine ⟨found, hfound, ?_⟩
      rw [gatherConditionals]
      exact .char hplaced
  | closed t name default? c ps hm hc ih =>
      intro index n h
      have hdivides := divides_of_closeConditional? hc
      obtain ⟨one, hone, hfinds⟩ := exists_conditionalAt name default? h hdivides
      have hclosing := h.findConditionalEnd_eq
      rw [hc] at hclosing
      have hbehind := h.skip_item
      rw [hdivides.pieces] at hbehind
      obtain ⟨found, hfound, hplaced⟩ := ih _ _ hbehind.skip.skip.skip_item
      refine ⟨one :: found, ?_, ?_⟩
      · rw [conditionalsFrom_closed h.getElem?_eq hm hclosing, hone, ok_bind]
        show (do let rest ← conditionalsFrom cs ts
                      (index + 1 + count c.whenTrue + count c.otherwise + 1)
                 _) = _
        rw [hfound]
        rfl
      · rw [gatherConditionals_closed hm hc]
        refine .item hfinds ?_
        have hlen : n + byteLength (c.toConditional t name default?).source =
            n + byteLength t.source + byteLength (tokenSource c.whenTrue) +
              byteLength (tokenSource c.otherwise) + byteLength c.endIf.source := by
          rw [Closing.toConditional, c.source_eq]
          simp only [byteLength_append, Nat.add_assoc]
        rw [hlen]
        exact hplaced
  | plain t ps hplain ih =>
      intro index n h
      obtain ⟨found, hfound, hplaced⟩ := ih _ _ h.skip_item
      refine ⟨found, ?_, ?_⟩
      · rw [conditionalsFrom_skip h.getElem?_eq fun name default? hm => ?_, hfound]
        rw [h.findConditionalEnd_eq, hplain name default? hm]
        rfl
      · rw [gatherConditionals_plain hplain]
        exact hplaced.plain_append

end

-- ── Blocks ───────────────────────────────────────────────────────────────────

/-- A block is found at an offset: from its header to its end marker, with its body cut out of what
    is between. -/
structure FindsBlock (cs : List Char) (ts : List Token) (n : Nat) (b : Template.Block)
    (found : Block) : Prop where
  name_eq : found.name = b.name
  start_eq : found.start = n
  stop_eq : found.stop = n + byteLength b.source
  header : ∃ t ∈ ts, t.start = found.start ∧ t.line = found.line ∧ t.stop ≤ found.stop
  line_eq : found.line = b.line
  body_eq : found.body.text = b.body
  body : found.body.Within cs found.start found.stop

section

variable {cs : List Char} {ts : List Token} {index n endIndex : Nat} {t stop : Template.Token}
  {body ps : List (Piece Template.Token)} {name : String}

theorem blocksFrom_closed {header : Token} (hget : ts[index]? = some header)
    (hm : header.marker = .blockHeader name) (hend : findBlockEnd ts index = some endIndex) :
    blocksFrom cs ts index = do
      let stop ← tokenAt ts endIndex
      let body ← contentSlice cs header.stop stop.start
      let rest ← blocksFrom cs ts (endIndex + 1)
      return ⟨name, header.start, stop.stop, header.line, body⟩ :: rest := by
  obtain ⟨hlt, rfl⟩ := List.getElem?_eq_some_iff.1 hget
  rw [blocksFrom, dif_pos hlt]
  split
  · next name' hm' =>
      cases hm.symm.trans hm'
      split
      · next endIndex' hend' =>
          cases hend.symm.trans hend'
          rfl
      · next hnone => cases hend.symm.trans hnone
  · next hother => exact absurd hm (hother name)

theorem blocksFrom_skip {header : Token} (hget : ts[index]? = some header)
    (h : ∀ name, header.marker = .blockHeader name → findBlockEnd ts index = none) :
    blocksFrom cs ts index = blocksFrom cs ts (index + 1) := by
  obtain ⟨hlt, rfl⟩ := List.getElem?_eq_some_iff.1 hget
  rw [blocksFrom, dif_pos hlt]
  split
  · next name hm =>
      split
      · next endIndex hend => cases (h name hm).symm.trans hend
      · rfl
  · rfl

theorem Remains.findBlockEnd_eq (h : Remains cs ts index n (.item t :: ps)) :
    findBlockEnd ts index = (splitEndBlock ps).map fun s => index + 1 + count s.1 := by
  rw [findBlockEnd, h.skip_item.tokens_eq, findIdx?_located, Option.map_map]
  rfl

/-- The blocks that are found by offsets are those that are gathered from the pieces. -/
theorem placed_blocksFrom (ps : List (Piece Template.Token)) :
    ∀ index n, Remains cs ts index n ps → ∃ found, blocksFrom cs ts index = .ok found ∧
      Placed Block.source (FindsBlock cs ts) n (gatherBlocks ps) found := by
  fun_induction gatherBlocks ps with
  | case1 =>
      intro index n h
      refine ⟨[], ?_, .nil n⟩
      rw [blocksFrom, dif_neg (Nat.not_lt.2 h.length_le)]
  | case2 c ps ih =>
      intro index n h
      obtain ⟨found, hfound, hplaced⟩ := ih _ _ h.skip_char
      exact ⟨found, hfound, .char hplaced⟩
  | case3 t ps name hm body stop after hsplit ih =>
      intro index n h
      have hend := h.findBlockEnd_eq
      rw [hsplit] at hend
      have hinside := h.skip_item
      rw [← splitEndBlock_append hsplit] at hinside
      have hat := hinside.at_text
      rw [tokenSource_append] at hat
      have hstop := hinside.skip.tokenAt_eq
      obtain ⟨s, hs, htext, hwithin⟩ := exists_contentSlice hat
      obtain ⟨found, hfound, hplaced⟩ := ih _ _ hinside.skip.skip_item
      have hlen : n + byteLength (t.source ++ (tokenSource body ++ stop.source)) =
          n + byteLength t.source + byteLength (tokenSource body) + byteLength stop.source := by
        simp only [byteLength_append, Nat.add_assoc]
      refine ⟨⟨name, n, _, t.line, s⟩ :: found, ?_, .item ⟨rfl, rfl, rfl,
        ⟨_, h.mem, rfl, rfl, stop_le_append n _ _⟩, rfl, htext,
        hwithin _ _ (Nat.le_add_right _ _) ?_⟩ ?_⟩
      · rw [blocksFrom_closed h.getElem?_eq hm hend, hstop, ok_bind, hs, ok_bind, hfound, hlen]
        rfl
      · refine Nat.le_trans ?_ (Nat.le_of_eq hlen.symm)
        exact Nat.le_add_right _ _
      · rw [hlen]
        exact hplaced
  | case4 t ps name hm hsplit ih =>
      intro index n h
      obtain ⟨found, hfound, hplaced⟩ := ih _ _ h.skip_item
      refine ⟨found, ?_, hplaced.plain_append⟩
      rw [blocksFrom_skip h.getElem?_eq fun _ _ => ?_, hfound]
      rw [h.findBlockEnd_eq, hsplit]
      rfl
  | case5 t ps hother ih =>
      intro index n h
      obtain ⟨found, hfound, hplaced⟩ := ih _ _ h.skip_item
      refine ⟨found, ?_, hplaced.plain_append⟩
      rw [blocksFrom_skip h.getElem?_eq fun name hm => absurd hm (hother name), hfound]

end

end ShaderTemplates.Template.Offsets
