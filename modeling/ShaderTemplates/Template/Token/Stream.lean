import ShaderTemplates.Template.Token.Match

/-!
# Reading a whole text

`tokenize` walks over a text once, from the left: at each position it takes the marker that starts
there or passes one character. What it has to remember is small (`Position`): whether only blanks
stand since the start of the line, and the number of the line.

The walk has a budget of three steps for each byte of the text. `tokenSource_tokenize` states that
nothing is lost, whatever the budget.
-/

namespace ShaderTemplates.Template

open Text

/-- Where the reader stands. -/
structure Position where
  /-- Only blanks stand between the start of the line and the reader. -/
  lineStart : Bool
  /-- The number of the line, from one. -/
  line : Nat
deriving DecidableEq, Repr

namespace Position

/-- The start of a text. -/
def start : Position := ⟨true, 1⟩

/-- The position after a character that belongs to no marker. -/
def pastChar (p : Position) (c : Char) : Position :=
  if c = '\n' then ⟨true, p.line + 1⟩
  else if isInlineBlank c then p
  else ⟨false, p.line⟩

/-- The position after a marker; it is the start of a line if the marker took the line break. -/
def pastMarker (p : Position) (source : List Char) : Position :=
  ⟨source.getLast? == some '\n', p.line + lineBreaks source⟩

end Position

/-- The pieces of a text from a position on, in at most `budget` steps. Text that is out of reach
    stays plain. -/
def readPieces : (budget : Nat) → Position → List Char → List (Piece Token)
  | 0, _, cs => Piece.plain cs
  | _ + 1, _, [] => []
  | budget + 1, p, c :: rest =>
    match marker? p.lineStart (c :: rest) with
    | some f =>
      .item ⟨f.marker, f.source, p.line⟩ :: readPieces budget (p.pastMarker f.source) f.rest
    | none => .char c :: readPieces budget (p.pastChar c) rest

/-- The length of a text in bytes. -/
def byteLength : List Char → Nat
  | [] => 0
  | c :: rest => c.utf8Size + byteLength rest

theorem byteLength_append (a b : List Char) :
    byteLength (a ++ b) = byteLength a + byteLength b := by
  induction a with
  | nil => exact (Nat.zero_add _).symm
  | cons c a ih =>
    rw [List.cons_append, byteLength, byteLength, ih]
    omega

/-- The number of steps that the reader may take for each byte. -/
def stepsPerByte : Nat := 3

/-- The pieces of a text. -/
def tokenize (cs : List Char) : List (Piece Token) :=
  readPieces (stepsPerByte * byteLength cs) .start cs

/-- The pieces stand for the text they were read from. -/
theorem tokenSource_readPieces (budget : Nat) (p : Position) (cs : List Char) :
    tokenSource (readPieces budget p cs) = cs := by
  induction budget generalizing p cs with
  | zero => exact tokenSource_plain cs
  | succ budget ih =>
    cases cs with
    | nil => rfl
    | cons c rest =>
      unfold readPieces
      split
      next f h =>
        rw [tokenSource_item, ih]
        exact marker?_append h
      next => rw [tokenSource_char, ih]

theorem tokenSource_tokenize (cs : List Char) : tokenSource (tokenize cs) = cs :=
  tokenSource_readPieces _ _ cs

/-- No token is empty. -/
theorem source_ne_nil_of_mem_readPieces {budget : Nat} {p : Position} {cs : List Char} {t : Token}
    (h : .item t ∈ readPieces budget p cs) : t.source ≠ [] := by
  induction budget generalizing p cs with
  | zero => simp [readPieces, Piece.plain] at h
  | succ budget ih =>
    cases cs with
    | nil => simp [readPieces] at h
    | cons c rest =>
      unfold readPieces at h
      split at h
      next f hf =>
        rcases List.mem_cons.1 h with h | h
        · cases h; exact marker?_source_ne_nil hf
        · exact ih h
      next =>
        rcases List.mem_cons.1 h with h | h
        · cases h
        · exact ih h

end ShaderTemplates.Template
