import ShaderTemplates.Template.Offsets.Stream

/-!
# Conditionals and blocks by offsets

Markers are paired by their indices in the list of tokens: `findConditionalEnd` counts how many
conditionals are open on its way to the end marker, `findBlockEnd` takes the next end marker. The
branches of a conditional and the body of a block are then cut out of the text between the markers
(`contentSlice`), and the line break in front of a marker line is left to the marker (`contentEnd`).
-/

namespace ShaderTemplates.Template.Offsets

open Text

-- ── Pairing ──────────────────────────────────────────────────────────────────

/-- The indices of the markers that close a conditional. -/
structure ConditionalEnd where
  elseIndex? : Option Nat
  endIndex : Nat
deriving DecidableEq, Repr

/-- Looks for the markers that close a conditional among the tokens from `index` on: `depth`
    conditionals are open inside of it, and `else?` is its `@else` so far. -/
def closeFrom (index depth : Nat) (else? : Option Nat) : List Token → Option ConditionalEnd
  | [] => none
  | t :: rest =>
    match t.marker, depth with
    | .ifHeader .., depth => closeFrom (index + 1) (depth + 1) else? rest
    | .elseLine, 0 =>
      if else?.isSome then none else closeFrom (index + 1) 0 (some index) rest
    | .endIf, 0 => some ⟨else?, index⟩
    | .endIf, depth + 1 => closeFrom (index + 1) depth else? rest
    | _, depth => closeFrom (index + 1) depth else? rest

/-- The markers that close the conditional whose header has the index `header`. -/
def findConditionalEnd (tokens : List Token) (header : Nat) : Option ConditionalEnd :=
  closeFrom (header + 1) 0 none (tokens.drop (header + 1))

/-- The end marker of the block whose header has the index `header`. -/
def findBlockEnd (tokens : List Token) (header : Nat) : Option Nat :=
  ((tokens.drop (header + 1)).findIdx? (·.marker == .endBlock)).map (header + 1 + ·)

theorem le_of_closeFrom {index depth : Nat} {else? : Option Nat} {ts : List Token}
    {e : ConditionalEnd} (h : closeFrom index depth else? ts = some e) : index ≤ e.endIndex := by
  fun_induction closeFrom index depth else? ts with
  | case1 => cases h
  | case2 | case4 | case6 | case7 => rename_i ih; exact Nat.le_of_succ_le (ih h)
  | case3 => cases h
  | case5 => cases h; exact Nat.le_refl _

-- ── Contents ─────────────────────────────────────────────────────────────────

/-- A stretch of a text. -/
structure Slice where
  start : Nat
  stop : Nat
  text : List Char
deriving DecidableEq, Repr

/-- The offset of the first line break of a text. -/
def findBreak? : List Char → Option Nat
  | [] => none
  | c :: rest => if c = '\n' then some 0 else (findBreak? rest).map (c.utf8Size + ·)

/-- The end of the content between an offset and a marker. -/
def contentEnd (cs : List Char) (start marker : Nat) : Except OutOfRange Nat := do
  let region ← slice cs start marker
  let stop := start + byteLength (trimEnd region)
  let blanks ← sliceFrom region (byteLength (trimEnd region))
  match findBreak? blanks with
  | none => return stop
  | some n =>
    if stop < stop + n then
      let last ← byteBefore (utf8 cs) (stop + n)
      return if last == '\r'.toUInt8 then stop + n - 1 else stop + n
    else return stop + n

/-- The content between an offset and a marker. -/
def contentSlice (cs : List Char) (start marker : Nat) : Except OutOfRange Slice := do
  let stop ← contentEnd cs start marker
  let text ← slice cs start stop
  return ⟨start, stop, text⟩

-- ── Conditionals ─────────────────────────────────────────────────────────────

/-- A well-formed conditional with the offsets between which it stands. -/
structure Conditional where
  name : String
  default? : Option Bool
  start : Nat
  stop : Nat
  line : Nat
  whenTrue : Slice
  /-- There is no such branch without an `@else`. -/
  whenFalse? : Option Slice
deriving DecidableEq, Repr

/-- The text of the branch that a value of the condition selects. -/
def Conditional.branch (c : Conditional) (value : Bool) : List Char :=
  if value then c.whenTrue.text else (c.whenFalse?.map Slice.text).getD []

def tokenAt (tokens : List Token) (index : Nat) : Except OutOfRange Token :=
  match tokens[index]? with
  | some t => .ok t
  | none => .error (.token index)

/-- The conditional that a header and the markers closing it make. -/
def conditionalAt (cs : List Char) (tokens : List Token) (header : Token) (name : String)
    (default? : Option Bool) (closing : ConditionalEnd) : Except OutOfRange Conditional := do
  let stop ← tokenAt tokens closing.endIndex
  match closing.elseIndex? with
  | some index =>
    let otherwise ← tokenAt tokens index
    let whenTrue ← contentSlice cs header.stop otherwise.start
    let whenFalse ← contentSlice cs otherwise.stop stop.start
    return ⟨name, default?, header.start, stop.stop, header.line, whenTrue, some whenFalse⟩
  | none =>
    let whenTrue ← contentSlice cs header.stop stop.start
    return ⟨name, default?, header.start, stop.stop, header.line, whenTrue, none⟩

/-- The outermost conditionals among the tokens from `index` on. -/
def conditionalsFrom (cs : List Char) (tokens : List Token) (index : Nat) :
    Except OutOfRange (List Conditional) :=
  if _h : index < tokens.length then
    match tokens[index].marker with
    | .ifHeader name default? =>
      match _he : findConditionalEnd tokens index with
      | some closing => do
        let c ← conditionalAt cs tokens tokens[index] name default? closing
        let rest ← conditionalsFrom cs tokens (closing.endIndex + 1)
        return c :: rest
      | none => conditionalsFrom cs tokens (index + 1)
    | _ => conditionalsFrom cs tokens (index + 1)
  else .ok []
termination_by tokens.length - index
decreasing_by
  · have := le_of_closeFrom _he
    omega
  · omega
  · omega

/-- The outermost conditionals of a text, in order. -/
def conditionals (cs : List Char) : Except OutOfRange (List Conditional) := do
  let ts ← tokens cs
  conditionalsFrom cs ts 0

-- ── Blocks ───────────────────────────────────────────────────────────────────

/-- A well-formed block with the offsets between which it stands. -/
structure Block where
  name : String
  start : Nat
  stop : Nat
  line : Nat
  body : Slice
deriving DecidableEq, Repr

/-- The blocks among the tokens from `index` on. -/
def blocksFrom (cs : List Char) (tokens : List Token) (index : Nat) :
    Except OutOfRange (List Block) :=
  if _h : index < tokens.length then
    match tokens[index].marker with
    | .blockHeader name =>
      match _he : findBlockEnd tokens index with
      | some endIndex => do
        let stop ← tokenAt tokens endIndex
        let body ← contentSlice cs tokens[index].stop stop.start
        let rest ← blocksFrom cs tokens (endIndex + 1)
        return ⟨name, tokens[index].start, stop.stop, tokens[index].line, body⟩ :: rest
      | none => blocksFrom cs tokens (index + 1)
    | _ => blocksFrom cs tokens (index + 1)
  else .ok []
termination_by tokens.length - index
decreasing_by
  · obtain ⟨n, _, rfl⟩ := Option.map_eq_some_iff.1 _he
    omega
  · omega
  · omega

/-- The blocks of a text, in order. -/
def blocks (cs : List Char) : Except OutOfRange (List Block) := do
  let ts ← tokens cs
  blocksFrom cs ts 0

end ShaderTemplates.Template.Offsets
