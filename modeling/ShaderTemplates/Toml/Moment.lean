/-!
# Dates and times

A moment is a date, a time or both; with both there may be an offset from universal time. `moment?`
reads one and gives it in the canonical form: `T` between date and time, `Z` in capitals, and the
fraction of a second cut to nine digits without zeros at its end.
-/

namespace ShaderTemplates.Toml

/-- A number of exactly two digits within bounds. -/
def twoDigits? (low high : Nat) (a b : Char) : Option Nat :=
  let n := 10 * (a.toNat - 48) + (b.toNat - 48)
  if a.isDigit && b.isDigit && low ≤ n && n ≤ high then some n else none

def isLeapYear (year : Nat) : Bool := year % 4 = 0 && (year % 100 ≠ 0 || year % 400 = 0)

def daysInMonth (year month : Nat) : Nat :=
  if month = 2 then if isLeapYear year then 29 else 28
  else if month = 4 || month = 6 || month = 9 || month = 11 then 30
  else 31

/-- A date, which fills ten characters. -/
def isDate : List Char → Bool
  | [y₁, y₂, y₃, y₄, '-', m₁, m₂, '-', d₁, d₂] =>
    match twoDigits? 0 99 y₁ y₂, twoDigits? 0 99 y₃ y₄, twoDigits? 1 12 m₁ m₂ with
    | some century, some years, some month =>
      (twoDigits? 1 (daysInMonth (100 * century + years) month) d₁ d₂).isSome
    | _, _, _ => false
  | _ => false

/-- The fraction of a second, which follows a point, in canonical form. -/
def secondFraction (digits : List Char) : List Char :=
  match ((digits.take 9).reverse.dropWhile (· = '0')).reverse with
  | [] => []
  | places => '.' :: places

/-- The offset after a time in canonical form, where no offset is one as well. -/
def offset? : List Char → Option (List Char)
  | [] => some []
  | ['Z'] | ['z'] => some ['Z']
  | [sign, h₁, h₂, ':', m₁, m₂] =>
    if (sign = '+' || sign = '-') && (twoDigits? 0 23 h₁ h₂).isSome &&
        (twoDigits? 0 59 m₁ m₂).isSome then
      some [if [h₁, h₂, m₁, m₂].all (· = '0') then '+' else sign, h₁, h₂, ':', m₁, m₂]
    else none
  | _ => none

/-- A time in canonical form and what follows it. -/
def time? : List Char → Option (List Char × List Char)
  | h₁ :: h₂ :: ':' :: m₁ :: m₂ :: ':' :: s₁ :: s₂ :: rest =>
    if (twoDigits? 0 23 h₁ h₂).isSome && (twoDigits? 0 59 m₁ m₂).isSome &&
        (twoDigits? 0 60 s₁ s₂).isSome then
      let time := [h₁, h₂, ':', m₁, m₂, ':', s₁, s₂]
      match rest with
      | '.' :: fraction =>
        let digits := fraction.takeWhile Char.isDigit
        if digits.isEmpty then none
        else some (time ++ secondFraction digits, fraction.dropWhile Char.isDigit)
      | rest => some (time, rest)
    else none
  | _ => none

/-- A moment in canonical form. -/
def moment? (cs : List Char) : Option String :=
  if isDate (cs.take 10) then
    match cs.drop 10 with
    | [] => some (String.ofList cs)
    | separator :: rest =>
      if separator = 'T' || separator = 't' || separator = ' ' then do
        let (time, after) ← time? rest
        let offset ← offset? after
        return String.ofList (cs.take 10 ++ 'T' :: (time ++ offset))
      else none
  else
    match time? cs with
    | some (time, []) => some (String.ofList time)
    | _ => none

end ShaderTemplates.Toml
