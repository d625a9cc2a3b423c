import ShaderTemplates.Template.Content
import ShaderTemplates.Template.Token.Stream

/-!
# Blocks

A block runs from its header to the next `@endblock`. Blocks do not nest: a header inside a body
is part of that body. A header that no `@endblock` follows is ordinary text.

However a block was written, it is printed in one form (`Block.canonical`), with a plain comment
leader in front of both markers.
-/

namespace ShaderTemplates.Template

/-- A well-formed block: its name, the line of its header, its body, and the whole text from the
    header to the end marker. -/
structure Block where
  name : String
  line : Nat
  body : List Char
  source : List Char
deriving DecidableEq, Repr

/-- The form in which a block is printed. -/
def Block.canonical (name body : List Char) : List Char :=
  "// @block ".toList ++ name ++ '\n' :: body ++ "\n// @endblock".toList

/-- Splits the pieces at the first `@endblock`. -/
def splitEndBlock : List (Piece Token) → Option (List (Piece Token) × Token × List (Piece Token))
  | [] => none
  | .char c :: rest => (splitEndBlock rest).map fun s => (.char c :: s.1, s.2)
  | .item t :: rest =>
    match t.marker with
    | .endBlock => some ([], t, rest)
    | _ => (splitEndBlock rest).map fun s => (.item t :: s.1, s.2)

theorem splitEndBlock_append {ps before after : List (Piece Token)} {t : Token}
    (h : splitEndBlock ps = some (before, t, after)) : before ++ .item t :: after = ps := by
  fun_induction splitEndBlock ps generalizing before with
  | case1 => cases h
  | case2 | case4 =>
    rename_i ih
    obtain ⟨⟨_, _⟩, hs, he⟩ := Option.map_eq_some_iff.1 h
    cases he
    exact congrArg (_ :: ·) (ih hs)
  | case3 => cases h; rfl

theorem splitEndBlock_length {ps before after : List (Piece Token)} {t : Token}
    (h : splitEndBlock ps = some (before, t, after)) : after.length < ps.length := by
  rw [← splitEndBlock_append h]
  simp only [List.length_append, List.length_cons]
  omega

/-- Gathers the blocks; every other token becomes plain text again. -/
def gatherBlocks (ps : List (Piece Token)) : List (Piece Block) :=
  match ps with
  | [] => []
  | .char c :: rest => .char c :: gatherBlocks rest
  | .item t :: rest =>
    match t.marker with
    | .blockHeader name =>
      match _h : splitEndBlock rest with
      | some (body, stop, after) =>
        .item
          { name
            line := t.line
            body := content (tokenSource body)
            source := t.source ++ (tokenSource body ++ stop.source) } :: gatherBlocks after
      | none => Piece.plain t.source ++ gatherBlocks rest
    | _ => Piece.plain t.source ++ gatherBlocks rest
termination_by ps.length
decreasing_by
  · exact Nat.lt_succ_self _
  · exact Nat.lt_succ_of_lt (splitEndBlock_length _h)
  · exact Nat.lt_succ_self _
  · exact Nat.lt_succ_self _

/-- A text with its blocks. -/
def blockPieces (cs : List Char) : List (Piece Block) :=
  gatherBlocks (tokenize cs)

/-- The blocks of a text, in order. -/
def blocks (cs : List Char) : List Block :=
  Piece.items (blockPieces cs)

theorem source_gatherBlocks (ps : List (Piece Token)) :
    Piece.source Block.source (gatherBlocks ps) = tokenSource ps := by
  fun_induction gatherBlocks ps with
  | case1 => rfl
  | case2 rest c ih => simp [ih]
  | case3 =>
    rename_i hs ih
    rw [Piece.source_item, ih, tokenSource_item, ← splitEndBlock_append hs]
    simp
  | case4 => rename_i ih; simp [ih]
  | case5 => rename_i ih; simp [ih]

/-- Nothing of a text is lost when its blocks are gathered. -/
theorem source_blockPieces (cs : List Char) :
    Piece.source Block.source (blockPieces cs) = cs :=
  (source_gatherBlocks _).trans (tokenSource_tokenize cs)

end ShaderTemplates.Template
