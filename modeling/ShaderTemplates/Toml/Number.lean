/-!
# Numbers

The written forms of numbers. Integers are read with their value and have to fit 64 bits; of a
float only the form matters, and that its value is not beyond the largest finite number.
-/

namespace ShaderTemplates.Toml

/-- Digits of a base, with single underscores allowed between two of them. -/
def isGrouped (isDigit : Char → Bool) : List Char → Bool
  | [] => false
  | [c] => isDigit c
  | c :: '_' :: rest => isDigit c && isGrouped isDigit rest
  | c :: rest => isDigit c && isGrouped isDigit rest

/-- The value of grouped digits. -/
def groupedValue (base : Nat) (cs : List Char) : Nat :=
  (cs.filter (· ≠ '_')).foldl (fun n c =>
    base * n + (if c.isDigit then c.toNat - 48 else if c.isUpper then c.toNat - 55
      else c.toNat - 87)) 0

/-- A decimal whole number: grouped digits, of which the first is no zero if there are others. -/
def isWhole (cs : List Char) : Bool :=
  isGrouped Char.isDigit cs && (cs.head? ≠ some '0' || cs.length = 1)

/-- Splits a sign off; a number is negative if the sign is a minus. -/
def splitSign : List Char → Bool × List Char
  | '+' :: rest => (false, rest)
  | '-' :: rest => (true, rest)
  | cs => (false, cs)

def isHexDigit (c : Char) : Bool :=
  c.isDigit || ('a' ≤ c && c ≤ 'f') || ('A' ≤ c && c ≤ 'F')

/-- An integer without its bounds. -/
def integerValue? : List Char → Option Int
  | '0' :: 'x' :: digits =>
    if isGrouped isHexDigit digits then some (groupedValue 16 digits) else none
  | '0' :: 'o' :: digits =>
    if isGrouped (fun c => '0' ≤ c && c ≤ '7') digits then some (groupedValue 8 digits) else none
  | '0' :: 'b' :: digits =>
    if isGrouped (fun c => c = '0' || c = '1') digits then some (groupedValue 2 digits) else none
  | cs =>
    let (negative, digits) := splitSign cs
    if isWhole digits then
      some (if negative then -(groupedValue 10 digits : Int) else groupedValue 10 digits)
    else none

/-- The least integer of 64 bits. -/
def leastInteger : Int := -0x8000000000000000

/-- The greatest integer of 64 bits. -/
def greatestInteger : Int := 0x7fffffffffffffff

/-- An integer, which has to fit 64 bits. -/
def readInteger? (cs : List Char) : Option Int :=
  (integerValue? cs).filter fun i => leastInteger ≤ i && i ≤ greatestInteger

/-- The parts of a decimal number: its digits as one whole number, and the power of ten that these
    are multiplied by. -/
structure Decimal where
  digits : Nat
  exponent : Int

/-- The exponent after an `e`; no text is no exponent. -/
def exponent? : List Char → Option Int
  | [] => some 0
  | e :: cs =>
    let (negative, digits) := splitSign cs
    if (e = 'e' || e = 'E') && isGrouped Char.isDigit digits then
      some (if negative then -(groupedValue 10 digits : Int) else groupedValue 10 digits)
    else none

/-- A decimal number with a point, an exponent or both, without its sign. -/
def decimal? (cs : List Char) : Option Decimal :=
  let whole := cs.takeWhile fun c => c.isDigit || c = '_'
  match cs.dropWhile fun c => c.isDigit || c = '_' with
  | [] => none
  | '.' :: rest =>
    let places := rest.takeWhile fun c => c.isDigit || c = '_'
    if isWhole whole && isGrouped Char.isDigit places then
      (exponent? (rest.dropWhile fun c => c.isDigit || c = '_')).map fun e =>
        ⟨groupedValue 10 (whole ++ places), e - (places.filter (· ≠ '_')).length⟩
    else none
  | rest => if isWhole whole then (exponent? rest).map (⟨groupedValue 10 whole, ·⟩) else none

/-- Whether a number rounds to a value beyond the largest 64-bit float: it is at least halfway
    between that float and the next power of two. The two tests in front keep the powers small. -/
def Decimal.overflows (d : Decimal) : Bool :=
  let limit := Nat.pow 2 1024 - Nat.pow 2 970
  if d.digits = 0 then false
  else if 400 < d.exponent then true
  else if 0 ≤ d.exponent then limit ≤ d.digits * Nat.pow 10 d.exponent.toNat
  else if d.digits.log2 < (-d.exponent).toNat then false
  else limit * Nat.pow 10 (-d.exponent).toNat ≤ d.digits

/-- Whether a text is a float. Only positive numbers are refused for their size. -/
def isFloat (cs : List Char) : Bool :=
  let (negative, number) := splitSign cs
  if number = ['i', 'n', 'f'] || number = ['n', 'a', 'n'] then true
  else
    match decimal? number with
    | none => false
    | some d => negative || !d.overflows

end ShaderTemplates.Toml
