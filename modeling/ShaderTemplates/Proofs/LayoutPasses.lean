import ShaderTemplates.Proofs.Layout
import ShaderTemplates.Proofs.Pieces

/-!
# The passes over a layout

Every layout opens as many conditionals as it closes and has no `@else` of its own, so markers
pair across it as if it were not there (`Layout.balanced_tokens`).  From this follow

* `Layout.gatherConditionals_tokens` and `Layout.ofText_print`: the conditionals that are found are
  those of the layout, and so are the conditionals in their branches;
* `Layout.blockEntries_tokens`: the blocks that are found are those of the layout.
-/

namespace ShaderTemplates.Template

open Text

-- ── Pairing ──────────────────────────────────────────────────────────────────

section Pairing

/-- How a text is cut at a marker, given how many conditionals are open. -/
abbrev Cut :=
  Nat → List (Piece Token) → Option (List (Piece Token) × Token × List (Piece Token))

/-- A cut goes past the pieces; `e` conditionals are open behind them if `d` are open before. -/
def Passes (cut : Cut) (d : Nat) (ps : List (Piece Token)) (e : Nat) : Prop :=
  ∀ qs, cut d (ps ++ qs) = (cut e qs).map fun s => (ps ++ s.1, s.2)

variable {cut : Cut} {d e f : Nat} {ps qs : List (Piece Token)}

theorem Passes.nil : Passes cut d [] d := by
  intro qs
  cases h : cut d qs with
  | none => simp [h]
  | some s => simp [h]

theorem Passes.append (hp : Passes cut d ps e) (hq : Passes cut e qs f) :
    Passes cut d (ps ++ qs) f := by
  intro rs
  rw [List.append_assoc, hp, hq, Option.map_map]
  cases cut f rs with
  | none => rfl
  | some s => simp

theorem Passes.cons {p : Piece Token} (hp : Passes cut d [p] e) (hq : Passes cut e qs f) :
    Passes cut d (p :: qs) f :=
  hp.append hq

/-- The markers that play no part in a conditional. -/
def Marker.Inert : Marker → Prop
  | .ifHeader .. | .elseLine | .endIf => False
  | _ => True

theorem passes_endIf_char (d : Nat) (c : Char) : Passes splitEndIf d [.char c] d :=
  fun _ => rfl

theorem passes_else_char (d : Nat) (c : Char) : Passes splitElse d [.char c] d :=
  fun _ => rfl

theorem passes_endIf_inert (d : Nat) {t : Token} (h : t.marker.Inert) :
    Passes splitEndIf d [.item t] d := by
  intro qs
  obtain ⟨m, source, line⟩ := t
  cases m with
  | ifHeader name default? => exact h.elim
  | elseLine => exact h.elim
  | endIf => exact h.elim
  | blockHeader name => rfl
  | endBlock => rfl
  | «variable» name alternatives => rfl

theorem passes_else_inert (d : Nat) {t : Token} (h : t.marker.Inert) :
    Passes splitElse d [.item t] d := by
  intro qs
  obtain ⟨m, source, line⟩ := t
  cases m with
  | ifHeader name default? => exact h.elim
  | elseLine => exact h.elim
  | endIf => exact h.elim
  | blockHeader name => rfl
  | endBlock => rfl
  | «variable» name alternatives => rfl

/-- The pieces hold whole conditionals only, and no alternative outside of them. -/
structure Balanced (ps : List (Piece Token)) : Prop where
  endIf : ∀ d, Passes splitEndIf d ps d
  otherwise : ∀ d, Passes splitElse d ps d

theorem Balanced.append (hp : Balanced ps) (hq : Balanced qs) : Balanced (ps ++ qs) :=
  ⟨fun d => (hp.endIf d).append (hq.endIf d), fun d => (hp.otherwise d).append (hq.otherwise d)⟩

theorem balanced_char (c : Char) : Balanced [.char c] :=
  ⟨fun d => passes_endIf_char d c, fun d => passes_else_char d c⟩

theorem balanced_inert {t : Token} (h : t.marker.Inert) : Balanced [.item t] :=
  ⟨fun d => passes_endIf_inert d h, fun d => passes_else_inert d h⟩

theorem balanced_of_inert (h : ∀ t, .item t ∈ ps → t.marker.Inert) : Balanced ps := by
  induction ps with
  | nil =>
      constructor
      · intro _
        exact .nil
      · intro _
        exact .nil
  | cons p ps ih =>
      have hps := ih fun t ht => h t (List.mem_cons_of_mem _ ht)
      cases p with
      | char c => exact (balanced_char c).append hps
      | item t => exact (balanced_inert (h t List.mem_cons_self)).append hps

theorem balanced_text {s : List Char} (hs : '@' ∉ s) (p : Position) :
    Balanced (piecesFrom p s) := by
  refine balanced_of_inert ?_
  intro t ht
  obtain ⟨name, alternatives, hm⟩ := variable_of_mem_text hs ht
  rw [hm]
  trivial

theorem balanced_bodyPieces {body : List Char} (h : '@' ∉ body) (n : Nat) :
    Balanced (bodyPieces n body) := by
  rw [bodyPieces]
  split
  · exact balanced_of_inert fun t ht => absurd ht List.not_mem_nil
  · exact (balanced_text h _).append (balanced_char '\n')

/-- A header, whole conditionals and an end marker are a whole conditional. -/
theorem balanced_ifThen (hp : Balanced ps) (n m : Nat) (name : List Char)
    (default? : Option Bool) :
    Balanced (.item (ifToken n name default?) :: (ps ++ .char '\n' :: [.item (endIfToken m)])) := by
  refine ⟨fun d => ?_, fun d => ?_⟩
  · have hopen : Passes splitEndIf d [.item (ifToken n name default?)] (d + 1) := fun _ => rfl
    have hclose : Passes splitEndIf (d + 1) [.item (endIfToken m)] d := fun _ => rfl
    exact hopen.cons ((hp.endIf _).append ((passes_endIf_char _ _).cons hclose))
  · have hopen : Passes splitElse d [.item (ifToken n name default?)] (d + 1) := fun _ => rfl
    have hclose : Passes splitElse (d + 1) [.item (endIfToken m)] d := fun _ => rfl
    exact hopen.cons ((hp.otherwise _).append ((passes_else_char _ _).cons hclose))

/-- A header, two branches of whole conditionals with `@else` between them, and an end marker are a
    whole conditional. -/
theorem balanced_ifElse (hp : Balanced ps) (hq : Balanced qs) {t u w : Token}
    {name : String} {default? : Option Bool} (hheader : t.marker = .ifHeader name default?)
    (helse : u.marker = .elseLine) (hend : w.marker = .endIf) :
    Balanced (.item t :: (ps ++ .item u :: (qs ++ [.item w]))) := by
  obtain ⟨_, source, line⟩ := t
  obtain ⟨_, source', line'⟩ := u
  obtain ⟨_, source'', line''⟩ := w
  cases hheader
  cases helse
  cases hend
  refine ⟨fun d => ?_, fun d => ?_⟩
  · have hopen : Passes splitEndIf d [.item ⟨.ifHeader name default?, source, line⟩] (d + 1) :=
      fun _ => rfl
    have helse : Passes splitEndIf (d + 1) [.item ⟨.elseLine, source', line'⟩] (d + 1) :=
      fun _ => rfl
    have hclose : Passes splitEndIf (d + 1) [.item ⟨.endIf, source'', line''⟩] d := fun _ => rfl
    exact hopen.cons ((hp.endIf _).append (helse.cons ((hq.endIf _).append hclose)))
  · have hopen : Passes splitElse d [.item ⟨.ifHeader name default?, source, line⟩] (d + 1) :=
      fun _ => rfl
    have helse : Passes splitElse (d + 1) [.item ⟨.elseLine, source', line'⟩] (d + 1) :=
      fun _ => rfl
    have hclose : Passes splitElse (d + 1) [.item ⟨.endIf, source'', line''⟩] d := fun _ => rfl
    exact hopen.cons ((hp.otherwise _).append (helse.cons ((hq.otherwise _).append hclose)))

end Pairing

/-- A layout holds whole conditionals only. -/
theorem Layout.balanced_tokens {l : Layout} (h : l.Readable) (n : Nat) :
    Balanced (l.tokens n) := by
  induction l generalizing n with
  | plain s => exact balanced_text h _
  | block name body =>
      obtain ⟨-, hat, -⟩ := h
      have hheader : Balanced [.item (blockToken n name body)] := balanced_inert trivial
      have hend : Balanced [.item (endBlockToken (n + 2 + lineBreaks body))] :=
        balanced_inert trivial
      exact hheader.append ((balanced_bodyPieces hat _).append hend)
  | ifThen name default? t iht =>
      obtain ⟨-, -, ht⟩ := h
      exact balanced_ifThen (iht ht _) _ _ _ _
  | ifElse name default? t u iht ihu =>
      obtain ⟨-, -, -, ht, hu⟩ := h
      have h := balanced_ifElse ((iht ht (n + 1)).append (balanced_char '\n'))
        ((ihu hu (n + 3 + lineBreaks t.print)).append (balanced_char '\n'))
        (t := ifToken n name default?) (u := elseToken (n + 2 + lineBreaks t.print))
        (w := endIfToken (n + 4 + lineBreaks t.print + lineBreaks u.print)) rfl rfl rfl
      simpa [tokens] using h
  | seq a b iha ihb =>
      obtain ⟨ha, hb⟩ := h
      exact (iha ha _).append ((balanced_char '\n').append (ihb hb _))

-- ── Conditionals ─────────────────────────────────────────────────────────────

section Closing

variable {ps qs : List (Piece Token)}

/-- A conditional without an alternative ends at its own end marker. -/
theorem closeConditional?_ifThen (hp : Balanced ps) (m : Nat) (rs : List (Piece Token)) :
    closeConditional? (ps ++ .char '\n' :: .item (endIfToken m) :: rs) =
      some ⟨ps ++ [.char '\n'], none, endIfToken m, rs⟩ := by
  have hbody : Balanced (ps ++ [.char '\n']) := hp.append (balanced_char '\n')
  have hend : splitEndIf 0 (ps ++ .char '\n' :: .item (endIfToken m) :: rs) =
      some (ps ++ [.char '\n'], endIfToken m, rs) := by
    have h := hbody.endIf 0 (.item (endIfToken m) :: rs)
    rw [List.append_assoc] at h
    rw [show ps ++ .char '\n' :: .item (endIfToken m) :: rs =
      ps ++ ([.char '\n'] ++ .item (endIfToken m) :: rs) from rfl, h]
    exact congrArg some (by simp)
  have helse : splitElse 0 (ps ++ [.char '\n']) = none := by
    have h := hbody.otherwise 0 []
    rw [List.append_nil] at h
    rw [h]
    rfl
  simp only [closeConditional?, hend, helse]

/-- The alternative of a conditional is the one between its own branches. -/
theorem closeConditional?_ifElse (hp : Balanced ps) (hq : Balanced qs) {u w : Token}
    (helse : u.marker = .elseLine) (hend : w.marker = .endIf)
    (rs : List (Piece Token)) :
    closeConditional? (ps ++ .item u :: (qs ++ .item w :: rs)) =
      some ⟨ps, some (u, qs), w, rs⟩ := by
  obtain ⟨_, source, line⟩ := u
  obtain ⟨_, source', line'⟩ := w
  cases helse
  cases hend
  have hcut : splitEndIf 0 (ps ++ .item ⟨.elseLine, source, line⟩ ::
      (qs ++ .item ⟨.endIf, source', line'⟩ :: rs)) =
        some (ps ++ .item ⟨.elseLine, source, line⟩ :: qs, ⟨.endIf, source', line'⟩, rs) := by
    have hmid : Passes splitEndIf 0 [.item ⟨.elseLine, source, line⟩] 0 := fun _ => rfl
    have h := (hp.endIf 0).append (hmid.append (hq.endIf 0))
      (.item ⟨.endIf, source', line'⟩ :: rs)
    rw [show splitEndIf 0 (.item ⟨.endIf, source', line'⟩ :: rs) =
      some ([], ⟨.endIf, source', line'⟩, rs) from rfl] at h
    simpa using h
  have hother : splitElse 0 (ps ++ .item ⟨.elseLine, source, line⟩ :: qs) =
      some (ps, ⟨.elseLine, source, line⟩, qs) := by
    have h := hp.otherwise 0 (.item ⟨.elseLine, source, line⟩ :: qs)
    rw [show splitElse 0 (.item ⟨.elseLine, source, line⟩ :: qs) =
      some ([], ⟨.elseLine, source, line⟩, qs) from rfl] at h
    simpa using h
  have hlast : splitElse 0 qs = none := by
    have h := hq.otherwise 0 []
    rw [List.append_nil] at h
    rw [h]
    rfl
  simp only [closeConditional?, hcut, hother, hlast, Option.isSome_none, Bool.false_eq_true,
    if_false]

end Closing

theorem gatherConditionals_closed {t : Token} {name : String} {default? : Option Bool}
    {rest : List (Piece Token)} {c : Closing} (hm : t.marker = .ifHeader name default?)
    (hc : closeConditional? rest = some c) :
    gatherConditionals (.item t :: rest) =
      .item (c.toConditional t name default?) :: gatherConditionals c.rest := by
  obtain ⟨m, source, line⟩ := t
  cases hm
  rw [gatherConditionals]
  split
  · next name' default' hm =>
      cases hm
      split
      · next c' hc' =>
          rw [hc] at hc'
          cases hc'
          rfl
      · next hn =>
          rw [hc] at hn
          cases hn
  · next hn => exact absurd rfl (hn name default?)

theorem gatherConditionals_inert {t : Token} (h : t.marker.Inert) (rest : List (Piece Token)) :
    gatherConditionals (.item t :: rest) = Piece.plain t.source ++ gatherConditionals rest := by
  obtain ⟨m, source, line⟩ := t
  cases m with
  | ifHeader name default? => exact h.elim
  | elseLine => exact h.elim
  | endIf => exact h.elim
  | blockHeader name => rw [gatherConditionals]
  | endBlock => rw [gatherConditionals]
  | «variable» name alternatives => rw [gatherConditionals]

/-- Pieces without markers of conditionals are plain text. -/
theorem gatherConditionals_of_inert {ps : List (Piece Token)}
    (h : ∀ t, .item t ∈ ps → t.marker.Inert) (qs : List (Piece Token)) :
    gatherConditionals (ps ++ qs) = Piece.plain (tokenSource ps) ++ gatherConditionals qs := by
  induction ps with
  | nil => rfl
  | cons p ps ih =>
      have hps := ih fun t ht => h t (List.mem_cons_of_mem _ ht)
      cases p with
      | char c =>
          rw [List.cons_append, gatherConditionals, hps]
          rfl
      | item t =>
          rw [List.cons_append, gatherConditionals_inert (h t List.mem_cons_self), hps,
            tokenSource_item, Piece.plain_append, List.append_assoc]

namespace Layout

/-- The outermost conditionals of a layout that starts on a given line. -/
def conditionalPieces (n : Nat) : Layout → List (Piece Conditional)
  | plain s => Piece.plain s
  | block name body => Piece.plain (blockText name body)
  | ifThen name default? t =>
    [.item
      { name := String.ofList name, default?, line := n, whenTrue := t.print, whenFalse := [],
        source := (ifThen name default? t).print }]
  | ifElse name default? t u =>
    [.item
      { name := String.ofList name, default?, line := n, whenTrue := t.print,
        whenFalse := u.print, source := (ifElse name default? t u).print }]
  | seq a b => a.conditionalPieces n ++ .char '\n' :: b.conditionalPieces (n + 1 + lineBreaks a.print)

theorem inert_of_mem_block {name body : List Char} (hat : '@' ∉ body) {n : Nat} {t : Token}
    (h : .item t ∈ (Layout.block name body).tokens n) : t.marker.Inert := by
  rcases List.mem_cons.mp h with h | h
  · cases h
    trivial
  · rcases List.mem_append.mp h with h | h
    · rw [bodyPieces] at h
      split at h
      · exact absurd h List.not_mem_nil
      · rcases List.mem_append.mp h with h | h
        · obtain ⟨name, alternatives, hm⟩ := variable_of_mem_text hat h
          rw [hm]
          trivial
        · cases List.mem_singleton.mp h
    · cases List.mem_singleton.mp h
      trivial

/-- The conditionals that are found in a layout are its own. -/
theorem gatherConditionals_tokens {l : Layout} (h : l.Readable) (n : Nat)
    (qs : List (Piece Token)) :
    gatherConditionals (l.tokens n ++ qs) = l.conditionalPieces n ++ gatherConditionals qs := by
  induction l generalizing n qs with
  | plain s =>
      have hinert : ∀ t, .item t ∈ piecesFrom (.lineAt n) s → t.marker.Inert := by
        intro t ht
        obtain ⟨name, alternatives, hm⟩ := variable_of_mem_text h ht
        rw [hm]
        trivial
      rw [tokens, gatherConditionals_of_inert hinert, tokenSource_piecesFrom]
      rfl
  | block name body =>
      obtain ⟨hname, hat, hbody⟩ := h
      rw [gatherConditionals_of_inert fun t ht => inert_of_mem_block hat ht,
        tokenSource_tokens (l := .block name body) ⟨hname, hat, hbody⟩]
      rfl
  | ifThen name default? t iht =>
      obtain ⟨-, hframed, ht⟩ := h
      have hclose := closeConditional?_ifThen (balanced_tokens ht (n + 1))
        (n + 2 + lineBreaks t.print) qs
      have hgather := gatherConditionals_closed (t := ifToken n name default?) rfl hclose
      have hshape : (ifThen name default? t).tokens n ++ qs =
          .item (ifToken n name default?) :: (t.tokens (n + 1) ++ .char '\n' ::
            .item (endIfToken (n + 2 + lineBreaks t.print)) :: qs) := by
        simp [tokens]
      have hcontent : content (tokenSource (t.tokens (n + 1) ++ [.char '\n'])) = t.print := by
        rw [tokenSource_append, tokenSource_tokens ht]
        exact content_of_closes hframed.closes
      rw [hshape, hgather, Closing.toConditional, hcontent, Closing.source, tokenSource_append,
        tokenSource_tokens ht]
      simp [conditionalPieces, print, ifToken, endIfToken]
  | ifElse name default? t u iht ihu =>
      obtain ⟨-, hframedT, hframedU, ht, hu⟩ := h
      have hclose := closeConditional?_ifElse
        ((balanced_tokens ht (n + 1)).append (balanced_char '\n'))
        ((balanced_tokens hu (n + 3 + lineBreaks t.print)).append (balanced_char '\n'))
        (u := elseToken (n + 2 + lineBreaks t.print))
        (w := endIfToken (n + 4 + lineBreaks t.print + lineBreaks u.print)) rfl rfl qs
      have hgather := gatherConditionals_closed (t := ifToken n name default?) rfl hclose
      have hshape : (ifElse name default? t u).tokens n ++ qs =
          .item (ifToken n name default?) :: (t.tokens (n + 1) ++ [.char '\n'] ++
            .item (elseToken (n + 2 + lineBreaks t.print)) ::
              (u.tokens (n + 3 + lineBreaks t.print) ++ [.char '\n'] ++
                .item (endIfToken (n + 4 + lineBreaks t.print + lineBreaks u.print)) :: qs)) := by
        simp [tokens]
      have hcontent : content (tokenSource (t.tokens (n + 1) ++ [.char '\n'])) = t.print := by
        rw [tokenSource_append, tokenSource_tokens ht]
        exact content_of_closes hframedT.closes
      have hother : content (tokenSource (u.tokens (n + 3 + lineBreaks t.print) ++
          [.char '\n'])) = u.print := by
        rw [tokenSource_append, tokenSource_tokens hu]
        exact content_of_closes hframedU.closes
      rw [hshape, hgather, Closing.toConditional, Closing.source]
      simp only [hcontent, hother]
      simp [conditionalPieces, print, ifToken, elseToken, endIfToken, tokenSource_tokens ht,
        tokenSource_tokens hu]
  | seq a b iha ihb =>
      obtain ⟨ha, hb⟩ := h
      have hshape : (seq a b).tokens n ++ qs =
          a.tokens n ++ .char '\n' :: (b.tokens (n + 1 + lineBreaks a.print) ++ qs) := by
        simp [tokens]
      rw [hshape, iha ha, gatherConditionals, ihb hb, conditionalPieces]
      simp

end Layout

-- ── Outlines ─────────────────────────────────────────────────────────────────

/-- Puts plain characters in front of an outline. -/
def Outline.chars (cs : List Char) (rest : Outline) : Outline := cs.foldr .char rest

/-- The outline of a layout that starts on a given line, in front of another outline. -/
def Layout.outline (n : Nat) : Layout → Outline → Outline
  | plain s, rest => .chars s rest
  | block name body, rest => .chars (blockText name body) rest
  | ifThen name default? t, rest =>
    .choice (String.ofList name) default? n (t.outline 1 .done) .done rest
  | ifElse name default? t u, rest =>
    .choice (String.ofList name) default? n (t.outline 1 .done) (u.outline 1 .done) rest
  | seq a b, rest => a.outline n (.char '\n' (b.outline (n + 1 + lineBreaks a.print) rest))

theorem Outline.foldr_plain (read : List Char → Outline) (cs : List Char) (rest : Outline) :
    (Piece.plain cs).foldr (Outline.consPiece read) rest = .chars cs rest := by
  induction cs with
  | nil => rfl
  | cons c cs ih => exact congrArg (Outline.char c) ih

theorem Outline.ofText_nil : Outline.ofText [] = .done := by
  have hnone : conditionalPieces [] = [] := by
    rw [conditionalPieces, tokenize_eq_piecesFrom, piecesFrom_nil, gatherConditionals]
  rw [Outline.ofText_eq, hnone]
  rfl

namespace Layout

theorem conditionalPieces_print {l : Layout} (h : l.Readable) :
    Template.conditionalPieces l.print = l.conditionalPieces 1 := by
  have hg := gatherConditionals_tokens h 1 []
  rw [List.append_nil, gatherConditionals, List.append_nil] at hg
  rw [Template.conditionalPieces, tokenize_print h, hg]

theorem foldr_conditionalPieces {l : Layout} (h : l.Readable) (n : Nat) (rest : Outline) :
    (l.conditionalPieces n).foldr (Outline.consPiece Outline.ofText) rest = l.outline n rest := by
  -- the branches are texts of their own, so the induction goes through their outlines
  have branch : ∀ {t : Layout}, t.Readable →
      (∀ n rest, (t.conditionalPieces n).foldr (Outline.consPiece Outline.ofText) rest =
        t.outline n rest) → Outline.ofText t.print = t.outline 1 .done := by
    intro t ht ih
    rw [Outline.ofText_eq, conditionalPieces_print ht, ih]
  induction l generalizing n rest with
  | plain s => exact Outline.foldr_plain _ s rest
  | block name body => exact Outline.foldr_plain _ _ rest
  | ifThen name default? t iht =>
      obtain ⟨-, -, ht⟩ := h
      show Outline.choice _ _ _ (Outline.ofText t.print) (Outline.ofText []) rest = _
      rw [branch ht fun n rest => iht ht n rest, Outline.ofText_nil]
      rfl
  | ifElse name default? t u iht ihu =>
      obtain ⟨-, -, -, ht, hu⟩ := h
      show Outline.choice _ _ _ (Outline.ofText t.print) (Outline.ofText u.print) rest = _
      rw [branch ht fun n rest => iht ht n rest, branch hu fun n rest => ihu hu n rest]
      rfl
  | seq a b iha ihb =>
      obtain ⟨ha, hb⟩ := h
      rw [conditionalPieces, List.foldr_append, List.foldr_cons, ihb hb, iha ha]
      rfl

/-- The outline of the text of a layout. -/
theorem ofText_print {l : Layout} (h : l.Readable) :
    Outline.ofText l.print = l.outline 1 .done := by
  rw [Outline.ofText_eq, conditionalPieces_print h, foldr_conditionalPieces h]

end Layout

-- ── Blocks ───────────────────────────────────────────────────────────────────

/-- The name and the body of a block. -/
def Block.entry (b : Block) : String × List Char := (b.name, b.body)

/-- The blocks among the pieces of a text, in their places. -/
def blockEntries (ps : List (Piece Token)) : List (Piece (String × List Char)) :=
  (gatherBlocks ps).map (Piece.map Block.entry)

theorem blockEntries_char (c : Char) (ps : List (Piece Token)) :
    blockEntries (.char c :: ps) = .char c :: blockEntries ps := by
  rw [blockEntries, gatherBlocks]
  rfl

/-- A header that an end marker follows opens a block. -/
theorem gatherBlocks_closed {t stop : Token} {name : String} {ps body after : List (Piece Token)}
    (ht : t.marker = .blockHeader name) (hs : splitEndBlock ps = some (body, stop, after)) :
    gatherBlocks (.item t :: ps) =
      .item ⟨name, t.line, content (tokenSource body),
        t.source ++ (tokenSource body ++ stop.source)⟩ :: gatherBlocks after := by
  rw [gatherBlocks]
  split
  · next name' hm =>
      rw [ht] at hm
      cases hm
      split
      · next body' stop' after' hs' =>
          rw [hs] at hs'
          cases hs'
          rfl
      · next hn =>
          rw [hs] at hn
          cases hn
  · next hn => exact absurd ht (hn name)

/-- A token that opens no block is plain text. -/
theorem gatherBlocks_plain {t : Token} {ps : List (Piece Token)}
    (h : ∀ name, t.marker = .blockHeader name → splitEndBlock ps = none) :
    gatherBlocks (.item t :: ps) = Piece.plain t.source ++ gatherBlocks ps := by
  rw [gatherBlocks]
  split
  · next name hm =>
      split
      · next hs =>
          rw [h name hm] at hs
          cases hs
      · rfl
  · rfl

theorem gatherBlocks_item {t : Token} (h : ∀ name, t.marker ≠ .blockHeader name)
    (ps : List (Piece Token)) :
    gatherBlocks (.item t :: ps) = Piece.plain t.source ++ gatherBlocks ps :=
  gatherBlocks_plain fun name hm => absurd hm (h name)

theorem blockEntries_item {t : Token} (h : ∀ name, t.marker ≠ .blockHeader name)
    (ps : List (Piece Token)) :
    blockEntries (.item t :: ps) = Piece.plain t.source ++ blockEntries ps := by
  rw [blockEntries, gatherBlocks_item h, List.map_append, Piece.map_plain]
  rfl

/-- The marker at which the pieces are split ends a block. -/
theorem splitEndBlock_marker {ps before after : List (Piece Token)} {t : Token}
    (h : splitEndBlock ps = some (before, t, after)) : t.marker = .endBlock := by
  fun_induction splitEndBlock ps generalizing before with
  | case1 => cases h
  | case2 | case4 =>
      rename_i ih
      obtain ⟨⟨_, _⟩, hs, he⟩ := Option.map_eq_some_iff.mp h
      cases he
      exact ih hs
  | case3 rest t hm =>
      cases h
      exact hm

theorem splitEndBlock_found {ps : List (Piece Token)} (h : ∀ t, .item t ∈ ps → t.marker ≠ .endBlock)
    {stop : Token} (hstop : stop.marker = .endBlock) (qs : List (Piece Token)) :
    splitEndBlock (ps ++ .item stop :: qs) = some (ps, stop, qs) := by
  induction ps with
  | nil =>
      obtain ⟨m, source, line⟩ := stop
      cases hstop
      rfl
  | cons p ps ih =>
      have hps := ih fun t ht => h t (List.mem_cons_of_mem _ ht)
      cases p with
      | char c =>
          rw [List.cons_append, splitEndBlock, hps]
          rfl
      | item t =>
          have ht := h t List.mem_cons_self
          obtain ⟨m, source, line⟩ := t
          rw [List.cons_append, splitEndBlock]
          cases m with
          | endBlock => exact absurd rfl ht
          | blockHeader name => rw [hps]; rfl
          | ifHeader name default? => rw [hps]; rfl
          | elseLine => rw [hps]; rfl
          | endIf => rw [hps]; rfl
          | «variable» name alternatives => rw [hps]; rfl

/-- A block goes from its header to the first end marker. -/
theorem blockEntries_block {t : Token} {name : String} (ht : t.marker = .blockHeader name)
    {ps : List (Piece Token)} (hps : ∀ t, .item t ∈ ps → t.marker ≠ .endBlock)
    (stop : Token) (hstop : stop.marker = .endBlock) (qs : List (Piece Token)) :
    blockEntries (.item t :: (ps ++ .item stop :: qs)) =
      .item (name, content (tokenSource ps)) :: blockEntries qs := by
  rw [blockEntries, gatherBlocks_closed ht (splitEndBlock_found hps hstop qs)]
  rfl

theorem blockEntries_text {s : List Char} (hs : '@' ∉ s) (p : Position) (qs : List (Piece Token)) :
    blockEntries (piecesFrom p s ++ qs) = Piece.plain s ++ blockEntries qs := by
  have key : ∀ ps : List (Piece Token), (∀ t, .item t ∈ ps → ∀ name, t.marker ≠ .blockHeader name) →
      blockEntries (ps ++ qs) = Piece.plain (tokenSource ps) ++ blockEntries qs := by
    intro ps h
    induction ps with
    | nil => rfl
    | cons p ps ih =>
        have hps := ih fun t ht => h t (List.mem_cons_of_mem _ ht)
        cases p with
        | char c =>
            rw [List.cons_append, blockEntries_char, hps]
            rfl
        | item t =>
            rw [List.cons_append, blockEntries_item (h t List.mem_cons_self), hps,
              tokenSource_item, Piece.plain_append, List.append_assoc]
  rw [key _ ?_, tokenSource_piecesFrom]
  intro t ht name
  obtain ⟨name', alternatives, hm⟩ := variable_of_mem_text hs ht
  rw [hm]
  exact Marker.noConfusion

namespace Layout

/-- A layout with its blocks in their places; the markers of conditionals are plain text. -/
def entries : Layout → List (Piece (String × List Char))
  | plain s => Piece.plain s
  | block name body => [.item (String.ofList name, body)]
  | ifThen name default? t =>
    Piece.plain (ifLine name default? ++ ['\n']) ++
      (t.entries ++ Piece.plain ('\n' :: endIfKeyword))
  | ifElse name default? t u =>
    Piece.plain (ifLine name default? ++ ['\n']) ++
      (t.entries ++ (Piece.plain ('\n' :: (elseKeyword ++ ['\n'])) ++
        (u.entries ++ Piece.plain ('\n' :: endIfKeyword))))
  | seq a b => a.entries ++ .char '\n' :: b.entries

theorem content_bodyPieces {body : List Char} (h : body = [] ∨ Framed body) (n : Nat) :
    content (tokenSource (bodyPieces n body)) = body := by
  rw [bodyPieces]
  split
  · next hnil => rw [hnil]; rfl
  · next hne =>
      rw [tokenSource_append, tokenSource_piecesFrom]
      exact content_of_closes (h.resolve_left hne).closes

theorem ne_endBlock_of_mem_bodyPieces {body : List Char} (hat : '@' ∉ body) {n : Nat} {t : Token}
    (h : .item t ∈ bodyPieces n body) : t.marker ≠ .endBlock := by
  rw [bodyPieces] at h
  split at h
  · exact absurd h List.not_mem_nil
  · rcases List.mem_append.mp h with h | h
    · obtain ⟨name, alternatives, hm⟩ := variable_of_mem_text hat h
      rw [hm]
      exact Marker.noConfusion
    · cases List.mem_singleton.mp h

/-- The blocks that are found in a layout are its own. -/
theorem blockEntries_tokens {l : Layout} (h : l.Readable) (n : Nat) (qs : List (Piece Token)) :
    blockEntries (l.tokens n ++ qs) = l.entries ++ blockEntries qs := by
  induction l generalizing n qs with
  | plain s => exact blockEntries_text h _ qs
  | block name body =>
      obtain ⟨-, hat, hbody⟩ := h
      have hblock := blockEntries_block (t := blockToken n name body) rfl
        (fun t ht => ne_endBlock_of_mem_bodyPieces hat (n := n + 1) ht)
        (endBlockToken (n + 2 + lineBreaks body)) rfl qs
      rw [content_bodyPieces hbody] at hblock
      rw [tokens, List.cons_append, List.append_assoc]
      exact hblock
  | ifThen name default? t iht =>
      obtain ⟨-, -, ht⟩ := h
      have hif := blockEntries_item (t := ifToken n name default?) fun _ => Marker.noConfusion
      have hend := blockEntries_item (t := endIfToken (n + 2 + lineBreaks t.print))
        fun _ => Marker.noConfusion
      rw [tokens, List.cons_append, hif, List.append_assoc, iht ht, List.cons_append,
        blockEntries_char, List.cons_append, hend, entries]
      simp [ifToken, endIfToken, Piece.plain]
  | ifElse name default? t u iht ihu =>
      obtain ⟨-, -, -, ht, hu⟩ := h
      have hif := blockEntries_item (t := ifToken n name default?) fun _ => Marker.noConfusion
      have helse := blockEntries_item (t := elseToken (n + 2 + lineBreaks t.print))
        fun _ => Marker.noConfusion
      have hend := blockEntries_item
        (t := endIfToken (n + 4 + lineBreaks t.print + lineBreaks u.print))
        fun _ => Marker.noConfusion
      rw [tokens, List.cons_append, hif, List.append_assoc, iht ht, List.cons_append,
        blockEntries_char, List.cons_append, helse, List.append_assoc, ihu hu, List.cons_append,
        blockEntries_char, List.cons_append, hend, entries]
      simp [ifToken, elseToken, endIfToken, Piece.plain]
  | seq a b iha ihb =>
      obtain ⟨ha, hb⟩ := h
      rw [tokens, List.append_assoc, iha ha, List.cons_append, blockEntries_char, ihb hb, entries]
      simp

/-- The blocks of the text of a layout. -/
theorem blockPieces_print {l : Layout} (h : l.Readable) :
    (blockPieces l.print).map (Piece.map Block.entry) = l.entries := by
  have hb := blockEntries_tokens h 1 []
  rw [List.append_nil] at hb
  rw [blockPieces, tokenize_print h]
  show blockEntries (l.tokens 1) = _
  rw [hb, blockEntries, gatherBlocks]
  exact List.append_nil _

end Layout

end ShaderTemplates.Template
