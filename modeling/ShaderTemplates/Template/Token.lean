/-!
# Texts with items, and tokens

A text in which some stretches have been recognised is a list of pieces: plain characters and
items. The same shape carries tokens, conditionals, blocks and variables, so every pass over a
template is one of three things: the items of a list of pieces, the text they stand for
(`Piece.source`), or the text with every item replaced (`Piece.substitute`).

A token is one directive marker of a template together with the text it was written as. Six kinds
of markers exist: the header, the alternative and the end of a conditional, the header and the end
of a block, and a variable.
-/

namespace ShaderTemplates.Template

/-- A character that stands for itself, or a recognised item. -/
inductive Piece (α : Type) where
  | char (c : Char)
  | item (a : α)
deriving DecidableEq, Repr

namespace Piece

variable {α β ε : Type}

/-- A stretch of text without items. -/
def plain (cs : List Char) : List (Piece α) := cs.map .char

/-- The items, in order. -/
def items (ps : List (Piece α)) : List α :=
  ps.filterMap fun
    | .char _ => none
    | .item a => some a

/-- The text that the pieces stand for, given the text of each item. -/
def source (text : α → List Char) (ps : List (Piece α)) : List Char :=
  ps.flatMap fun
    | .char c => [c]
    | .item a => text a

/-- Replaces every item. Plain characters stay, and the first item that is refused decides. -/
def substitute (replace : α → Except ε (List Char)) : List (Piece α) → Except ε (List Char)
  | [] => .ok []
  | .char c :: rest => (substitute replace rest).map (c :: ·)
  | .item a :: rest => do
    let text ← replace a
    let after ← substitute replace rest
    return text ++ after

-- ── Equations ────────────────────────────────────────────────────────────────

@[simp] theorem source_nil (text : α → List Char) : source text [] = [] := rfl

@[simp] theorem source_char (text : α → List Char) (c : Char) (ps : List (Piece α)) :
    source text (.char c :: ps) = c :: source text ps := rfl

@[simp] theorem source_item (text : α → List Char) (a : α) (ps : List (Piece α)) :
    source text (.item a :: ps) = text a ++ source text ps := rfl

@[simp] theorem source_append (text : α → List Char) (ps qs : List (Piece α)) :
    source text (ps ++ qs) = source text ps ++ source text qs :=
  List.flatMap_append

@[simp] theorem source_plain (text : α → List Char) (cs : List Char) :
    source text (plain cs) = cs := by
  induction cs with
  | nil => rfl
  | cons c cs ih => exact congrArg (c :: ·) ih

@[simp] theorem items_nil : items ([] : List (Piece α)) = [] := rfl

@[simp] theorem items_char (c : Char) (ps : List (Piece α)) : items (.char c :: ps) = items ps := rfl

@[simp] theorem items_item (a : α) (ps : List (Piece α)) :
    items (.item a :: ps) = a :: items ps := rfl

@[simp] theorem items_append (ps qs : List (Piece α)) : items (ps ++ qs) = items ps ++ items qs :=
  List.filterMap_append

@[simp] theorem items_plain (cs : List Char) : items (plain cs : List (Piece α)) = [] := by
  induction cs with
  | nil => rfl
  | cons c cs ih => exact ih

end Piece

-- ── Tokens ───────────────────────────────────────────────────────────────────

/-- What a marker means. -/
inductive Marker where
  /-- The line `@if Name` or `@if Name:literal`. -/
  | ifHeader (name : String) (default? : Option Bool)
  /-- The line `@else`. -/
  | elseLine
  /-- The word `@endif` at the start of a line. -/
  | endIf
  /-- The line `@block Name`, behind any number of comment leaders. -/
  | blockHeader (name : String)
  /-- The word `@endblock` at the start of a line, behind any number of comment leaders. -/
  | endBlock
  /-- The word `<Name>` or `<Name = a | b>`. -/
  | variable (name : String) (alternatives : List String)
deriving DecidableEq, Repr

/-- A marker, the text it was written as, and the line on which it starts. -/
structure Token where
  marker : Marker
  source : List Char
  line : Nat
deriving DecidableEq, Repr

/-- The text that a list of pieces with tokens was read from. -/
def tokenSource (ps : List (Piece Token)) : List Char :=
  Piece.source Token.source ps

@[simp] theorem tokenSource_nil : tokenSource [] = [] := rfl

@[simp] theorem tokenSource_char (c : Char) (ps : List (Piece Token)) :
    tokenSource (.char c :: ps) = c :: tokenSource ps := rfl

@[simp] theorem tokenSource_item (t : Token) (ps : List (Piece Token)) :
    tokenSource (.item t :: ps) = t.source ++ tokenSource ps := rfl

@[simp] theorem tokenSource_append (ps qs : List (Piece Token)) :
    tokenSource (ps ++ qs) = tokenSource ps ++ tokenSource qs :=
  Piece.source_append Token.source ps qs

@[simp] theorem tokenSource_plain (cs : List Char) : tokenSource (Piece.plain cs) = cs :=
  Piece.source_plain Token.source cs

end ShaderTemplates.Template
