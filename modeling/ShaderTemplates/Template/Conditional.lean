import ShaderTemplates.Template.Content
import ShaderTemplates.Template.Token.Stream

/-!
# Conditionals and outlines

A header `@if` opens a conditional, and each `@endif` closes the innermost open one. Between them
there may be one `@else` that belongs to the conditional itself; with a second one the conditional
is malformed. A header that nothing closes, or whose conditional is malformed, is ordinary text,
and reading goes on directly after it.

The branches are kept as texts. A branch is shorter than the text in which its conditional was
found (`branch_length_lt`), so branches can be read in their turn.

The outline of a template is its text with all conditionals read, the ones inside branches
included. A branch is read as a text of its own, which ends because branches get shorter.
`Outline.ofText_eq` is the equation that the reading satisfies.
-/

namespace ShaderTemplates.Template

open Text

/-- A well-formed conditional: its condition, the line of its header, the texts of its branches,
    and the whole text from the header to the end marker. -/
structure Conditional where
  name : String
  default? : Option Bool
  line : Nat
  whenTrue : List Char
  whenFalse : List Char
  source : List Char
deriving DecidableEq, Repr

/-- The branch that a value of the condition selects. -/
def Conditional.branch (c : Conditional) (value : Bool) : List Char :=
  if value then c.whenTrue else c.whenFalse

-- ── Pairing ──────────────────────────────────────────────────────────────────

/-- Splits the pieces at the `@endif` that closes a conditional inside which `depth` further ones
    are open: the pieces before it, the marker, and the pieces after it. -/
def splitEndIf (depth : Nat) :
    List (Piece Token) → Option (List (Piece Token) × Token × List (Piece Token))
  | [] => none
  | .char c :: rest => (splitEndIf depth rest).map fun s => (.char c :: s.1, s.2)
  | .item t :: rest =>
    match t.marker, depth with
    | .endIf, 0 => some ([], t, rest)
    | .endIf, depth + 1 => (splitEndIf depth rest).map fun s => (.item t :: s.1, s.2)
    | .ifHeader .., _ => (splitEndIf (depth + 1) rest).map fun s => (.item t :: s.1, s.2)
    | _, _ => (splitEndIf depth rest).map fun s => (.item t :: s.1, s.2)

/-- Splits the pieces at the first `@else` outside the conditionals they hold, `depth` of which are
    open at the start. -/
def splitElse (depth : Nat) :
    List (Piece Token) → Option (List (Piece Token) × Token × List (Piece Token))
  | [] => none
  | .char c :: rest => (splitElse depth rest).map fun s => (.char c :: s.1, s.2)
  | .item t :: rest =>
    match t.marker, depth with
    | .elseLine, 0 => some ([], t, rest)
    | .endIf, _ => (splitElse (depth - 1) rest).map fun s => (.item t :: s.1, s.2)
    | .ifHeader .., _ => (splitElse (depth + 1) rest).map fun s => (.item t :: s.1, s.2)
    | _, _ => (splitElse depth rest).map fun s => (.item t :: s.1, s.2)

/-- How a conditional is closed: the pieces of its branches, the markers that delimit them, and the
    pieces after it. -/
structure Closing where
  whenTrue : List (Piece Token)
  otherwise? : Option (Token × List (Piece Token))
  endIf : Token
  rest : List (Piece Token)
deriving DecidableEq, Repr

/-- Closes the conditional whose header stands directly before the pieces. -/
def closeConditional? (ps : List (Piece Token)) : Option Closing :=
  match splitEndIf 0 ps with
  | none => none
  | some (body, endIf, rest) =>
    match splitElse 0 body with
    | none => some ⟨body, none, endIf, rest⟩
    | some (whenTrue, elseLine, whenFalse) =>
      if (splitElse 0 whenFalse).isSome then none
      else some ⟨whenTrue, some (elseLine, whenFalse), endIf, rest⟩

namespace Closing

/-- The text from after the header to the end marker. -/
def source (c : Closing) : List Char :=
  tokenSource c.whenTrue ++
    (match c.otherwise? with
      | none => []
      | some (elseLine, whenFalse) => elseLine.source ++ tokenSource whenFalse) ++
    c.endIf.source

/-- The conditional that a header and its closing make. -/
def toConditional (c : Closing) (header : Token) (name : String) (default? : Option Bool) :
    Conditional where
  name
  default?
  line := header.line
  whenTrue := content (tokenSource c.whenTrue)
  whenFalse :=
    match c.otherwise? with
    | none => []
    | some (_, whenFalse) => content (tokenSource whenFalse)
  source := header.source ++ c.source

end Closing

theorem splitEndIf_append {depth : Nat} {ps before after : List (Piece Token)} {t : Token}
    (h : splitEndIf depth ps = some (before, t, after)) : before ++ .item t :: after = ps := by
  fun_induction splitEndIf depth ps generalizing before with
  | case1 => cases h
  | case2 depth rest c ih | case4 rest t _ depth ih | case5 depth rest t _ _ _ ih
  | case6 depth rest t _ _ _ ih =>
    obtain ⟨⟨_, _⟩, hs, he⟩ := Option.map_eq_some_iff.1 h
    cases he
    exact congrArg (_ :: ·) (ih hs)
  | case3 => cases h; rfl

theorem splitElse_append {depth : Nat} {ps before after : List (Piece Token)} {t : Token}
    (h : splitElse depth ps = some (before, t, after)) : before ++ .item t :: after = ps := by
  fun_induction splitElse depth ps generalizing before with
  | case1 => cases h
  | case2 | case4 | case5 | case6 =>
    rename_i ih
    obtain ⟨⟨_, _⟩, hs, he⟩ := Option.map_eq_some_iff.1 h
    cases he
    exact congrArg (_ :: ·) (ih hs)
  | case3 => cases h; rfl

theorem closeConditional?_source {ps : List (Piece Token)} {c : Closing}
    (h : closeConditional? ps = some c) : c.source ++ tokenSource c.rest = tokenSource ps := by
  unfold closeConditional? at h
  split at h
  · cases h
  next body endIf rest hEnd =>
    rw [← splitEndIf_append hEnd]
    split at h
    · cases h
      simp [Closing.source]
    next whenTrue elseLine whenFalse hElse =>
      split at h
      · cases h
      · cases h
        rw [← splitElse_append hElse]
        simp [Closing.source]

theorem closeConditional?_rest_length {ps : List (Piece Token)} {c : Closing}
    (h : closeConditional? ps = some c) : c.rest.length < ps.length := by
  have key : ∀ {body rest : List (Piece Token)} {t : Token},
      splitEndIf 0 ps = some (body, t, rest) → rest.length < ps.length := fun hs => by
    rw [← splitEndIf_append hs]
    simp only [List.length_append, List.length_cons]
    omega
  unfold closeConditional? at h
  split at h
  · cases h
  next hEnd =>
    split at h
    · cases h; exact key hEnd
    · split at h
      · cases h
      · cases h; exact key hEnd

-- ── The conditionals of a text ───────────────────────────────────────────────

/-- Gathers the outermost conditionals; every other token becomes plain text again. -/
def gatherConditionals (ps : List (Piece Token)) : List (Piece Conditional) :=
  match ps with
  | [] => []
  | .char c :: rest => .char c :: gatherConditionals rest
  | .item t :: rest =>
    match t.marker with
    | .ifHeader name default? =>
      match _h : closeConditional? rest with
      | some c => .item (c.toConditional t name default?) :: gatherConditionals c.rest
      | none => Piece.plain t.source ++ gatherConditionals rest
    | _ => Piece.plain t.source ++ gatherConditionals rest
termination_by ps.length
decreasing_by
  · exact Nat.lt_succ_self _
  · exact Nat.lt_succ_of_lt (closeConditional?_rest_length _h)
  · exact Nat.lt_succ_self _
  · exact Nat.lt_succ_self _

/-- A text with its outermost conditionals. -/
def conditionalPieces (cs : List Char) : List (Piece Conditional) :=
  gatherConditionals (tokenize cs)

/-- The outermost conditionals of a text, in order. -/
def conditionals (cs : List Char) : List Conditional :=
  Piece.items (conditionalPieces cs)

theorem source_gatherConditionals (ps : List (Piece Token)) :
    Piece.source Conditional.source (gatherConditionals ps) = tokenSource ps := by
  fun_induction gatherConditionals ps with
  | case1 => rfl
  | case2 rest c ih => simp [ih]
  | case3 =>
    rename_i t rest name default? _ c hc ih
    rw [Piece.source_item, ih, tokenSource_item, ← closeConditional?_source hc]
    exact List.append_assoc _ _ _
  | case4 => rename_i ih; simp [ih]
  | case5 => rename_i ih; simp [ih]

/-- Nothing of a text is lost when its conditionals are gathered. -/
theorem source_conditionalPieces (cs : List Char) :
    Piece.source Conditional.source (conditionalPieces cs) = cs :=
  (source_gatherConditionals _).trans (tokenSource_tokenize cs)

-- ── Branches are shorter ─────────────────────────────────────────────────────

theorem item_mem_of_closeConditional? {ps : List (Piece Token)} {c : Closing}
    (h : closeConditional? ps = some c) {p : Piece Token} (hp : p ∈ c.rest) : p ∈ ps := by
  have key : ∀ {body rest : List (Piece Token)} {t : Token},
      splitEndIf 0 ps = some (body, t, rest) → p ∈ rest → p ∈ ps := fun hs hp => by
    rw [← splitEndIf_append hs]
    exact List.mem_append_right _ (List.mem_cons_of_mem _ hp)
  unfold closeConditional? at h
  split at h
  · cases h
  next hEnd =>
    split at h
    · cases h; exact key hEnd hp
    · split at h
      · cases h
      · cases h; exact key hEnd hp

/-- A branch is shorter than the conditional, because the header takes part of it. -/
theorem branch_length_lt_source {header : Token} (h : header.source ≠ []) (c : Closing)
    (name : String) (default? : Option Bool) (value : Bool) :
    ((c.toConditional header name default?).branch value).length <
      (c.toConditional header name default?).source.length := by
  have hh := List.length_pos_iff.2 h
  have ht := content_length_le (tokenSource c.whenTrue)
  cases value with
  | true =>
    simp only [Closing.toConditional, Conditional.branch, Closing.source, List.length_append,
      if_true]
    omega
  | false =>
    cases ho : c.otherwise? with
    | none =>
      simp only [Closing.toConditional, Conditional.branch, Closing.source, List.length_append, ho,
        Bool.false_eq_true, if_false, List.length_nil]
      omega
    | some o =>
      have hf := content_length_le (tokenSource o.2)
      simp only [Closing.toConditional, Conditional.branch, Closing.source, List.length_append, ho,
        Bool.false_eq_true, if_false]
      omega

theorem branch_length_lt_gather {ps : List (Piece Token)}
    (hps : ∀ t, .item t ∈ ps → t.source ≠ []) {c : Conditional}
    (h : .item c ∈ gatherConditionals ps) (value : Bool) :
    (c.branch value).length < (tokenSource ps).length := by
  fun_induction gatherConditionals ps with
  | case1 => simp at h
  | case2 rest c ih =>
    rcases List.mem_cons.1 h with h | h
    · cases h
    · have := ih (fun t ht => hps t (List.mem_cons_of_mem _ ht)) h
      simp only [tokenSource_char, List.length_cons]
      omega
  | case3 =>
    rename_i t rest name default? _ closing hc ih
    rw [tokenSource_item, ← closeConditional?_source hc]
    rcases List.mem_cons.1 h with h | h
    · cases h
      have := branch_length_lt_source (hps t List.mem_cons_self) closing name default? value
      rw [Closing.toConditional, List.length_append] at this
      simp only [List.length_append]
      exact Nat.lt_of_lt_of_le this (by omega)
    · have := ih (fun t ht => hps t (List.mem_cons_of_mem _ (item_mem_of_closeConditional? hc ht))) h
      simp only [List.length_append]
      omega
  | case4 | case5 =>
    rename_i ih
    rcases List.mem_append.1 h with h | h
    · simp [Piece.plain] at h
    · have := ih (fun t ht => hps t (List.mem_cons_of_mem _ ht)) h
      rw [tokenSource_item, List.length_append]
      omega

/-- A branch is shorter than the text in which its conditional was found. -/
theorem branch_length_lt {cs : List Char} {c : Conditional} (h : .item c ∈ conditionalPieces cs)
    (value : Bool) : (c.branch value).length < cs.length := by
  have := branch_length_lt_gather (fun _ => source_ne_nil_of_mem_readPieces) h value
  rwa [tokenSource_readPieces] at this

-- ── Outlines ─────────────────────────────────────────────────────────────────

/-- A text whose conditionals have been read through all levels. -/
inductive Outline where
  | done
  | char (c : Char) (rest : Outline)
  | choice (name : String) (default? : Option Bool) (line : Nat)
      (whenTrue whenFalse rest : Outline)
deriving DecidableEq, Repr

namespace Outline

/-- Puts one piece of a text in front of an outline, given how branches are read. -/
def consPiece (read : List Char → Outline) : Piece Conditional → Outline → Outline
  | .char c, rest => .char c rest
  | .item c, rest =>
    .choice c.name c.default? c.line (read (c.branch true)) (read (c.branch false)) rest

/-- The outline of a text. -/
def ofText (cs : List Char) : Outline :=
  (conditionalPieces cs).attach.foldr
    (fun p rest =>
      match p with
      | ⟨.char c, _⟩ => .char c rest
      | ⟨.item c, _h⟩ =>
        .choice c.name c.default? c.line (ofText (c.branch true)) (ofText (c.branch false)) rest)
    .done
termination_by cs.length
decreasing_by
  · exact branch_length_lt _h true
  · exact branch_length_lt _h false

/-- The outline of a text is put together from its pieces, each branch being read by itself. -/
theorem ofText_eq (cs : List Char) :
    ofText cs = (conditionalPieces cs).foldr (consPiece ofText) .done := by
  have key : ∀ (ps : List (Piece Conditional)) (f : {p // p ∈ ps} → Outline → Outline),
      (∀ p rest, f p rest = consPiece ofText p.1 rest) →
        ps.attach.foldr f .done = ps.foldr (consPiece ofText) .done := fun ps f hf => by
    rw [show f = fun p rest => consPiece ofText p.1 rest from funext fun p => funext (hf p)]
    exact List.foldr_attach
  rw [ofText]
  refine key _ _ fun p rest => ?_
  obtain ⟨p, hp⟩ := p
  cases p <;> rfl

end Outline

end ShaderTemplates.Template
