import ShaderTemplates.Template.Token.Stream

/-!
# Variables

A variable stands for one value. It may list the alternatives that the value is chosen from; the
first of them is the default.
-/

namespace ShaderTemplates.Template

/-- An occurrence of a variable. -/
structure Variable where
  name : String
  alternatives : List String
  line : Nat
  source : List Char
deriving DecidableEq, Repr

/-- A token is a variable or plain text. -/
def variablePiece : Piece Token → List (Piece Variable)
  | .char c => [.char c]
  | .item t =>
    match t.marker with
    | .variable name alternatives => [.item ⟨name, alternatives, t.line, t.source⟩]
    | _ => Piece.plain t.source

/-- A text with its variables. -/
def variablePieces (cs : List Char) : List (Piece Variable) :=
  (tokenize cs).flatMap variablePiece

/-- The variables of a text, in order. -/
def vars (cs : List Char) : List Variable :=
  Piece.items (variablePieces cs)

/-- Nothing of a text is lost when its variables are gathered. -/
theorem source_variablePieces (cs : List Char) :
    Piece.source Variable.source (variablePieces cs) = cs := by
  have key : ∀ ps : List (Piece Token),
      Piece.source Variable.source (ps.flatMap variablePiece) = tokenSource ps := fun ps => by
    induction ps with
    | nil => rfl
    | cons p ps ih =>
      rw [List.flatMap_cons, Piece.source_append, ih]
      cases p with
      | char c => rfl
      | item t =>
        rw [tokenSource_item]
        congr 1
        simp only [variablePiece]
        split
        · exact List.append_nil _
        · exact Piece.source_plain _ _
  exact (key _).trans (tokenSource_tokenize cs)

end ShaderTemplates.Template
