import ShaderTemplates.Proofs.Computations
import ShaderTemplates.Template.Offsets.Slice

/-!
# Markers by offsets

`matchMarker` decides whether a marker starts at a byte of a text, for each kind of marker by
moving an offset over the bytes it is made of. It is the reading of `marker?` on bytes, with one
difference: a block header is not found at its comment leaders but at its keyword, and only then
the leaders in front of it are gathered, backwards (`leaderStart`), though never past the end of
the marker before.

A match that fails is no error; an error is an access to the text that is `OutOfRange`.
-/

namespace ShaderTemplates.Template.Offsets

/-- A marker with the offsets between which it stands and the line on which it starts. -/
structure Token where
  marker : Marker
  start : Nat
  stop : Nat
  line : Nat
deriving DecidableEq, Repr

/-- Where the reader stands. -/
structure Cursor extends Position where
  /-- The offset of the next byte. -/
  pos : Nat
  /-- The end of the last marker; comment leaders are never taken from before it. -/
  lastStop : Nat
deriving DecidableEq, Repr

/-- A marker that is found by a reader. -/
def Cursor.token (s : Cursor) (marker : Marker) (start stop : Nat) : Token :=
  ⟨marker, start, stop, s.line⟩

-- ── Bytes ────────────────────────────────────────────────────────────────────

/-- Space, tab or carriage return. -/
def isInlineBlankByte (b : UInt8) : Bool :=
  b == ' '.toUInt8 || b == '\t'.toUInt8 || b == '\r'.toUInt8

/-- The five ASCII blanks. -/
def isAsciiBlankByte (b : UInt8) : Bool :=
  b == ' '.toUInt8 || b == '\t'.toUInt8 || b == '\n'.toUInt8 || b == '\x0c'.toUInt8 ||
    b == '\r'.toUInt8

/-- The bytes of a block's name, and of a default's literal. -/
def isWordByte (b : UInt8) : Bool := !isAsciiBlankByte b

/-- The bytes of a condition's name. -/
def isConditionByte (b : UInt8) : Bool := !(b == ':'.toUInt8 || isAsciiBlankByte b)

/-- The bytes of a variable's name. -/
def isVariableByte (b : UInt8) : Bool :=
  !(b == '='.toUInt8 || b == '<'.toUInt8 || b == '>'.toUInt8 || isAsciiBlankByte b)

/-- The bytes of an alternative. -/
def isAlternativeByte (b : UInt8) : Bool :=
  !(b == '|'.toUInt8 || b == '<'.toUInt8 || b == '>'.toUInt8 || isAsciiBlankByte b)

/-- The first offset from `pos` on whose byte does not pass the test. -/
def scanWhile (bs : List UInt8) (pos : Nat) (p : UInt8 → Bool) : Nat :=
  if h : pos < bs.length then
    if p bs[pos] then scanWhile bs (pos + 1) p else pos
  else pos
termination_by bs.length - pos

/-- The first offset from `pos` on that holds no blank of the line. -/
def skipBlanks (bs : List UInt8) (pos : Nat) : Nat := scanWhile bs pos isInlineBlankByte

/-- The offset behind the last line break of the blanks at `pos`; `last?` is the offset behind the
    last line break so far. -/
def nextLine? (bs : List UInt8) (pos : Nat) (last? : Option Nat) : Option Nat :=
  if h : pos < bs.length then
    if isAsciiBlankByte bs[pos] then
      nextLine? bs (pos + 1) (if bs[pos] == '\n'.toUInt8 then some (pos + 1) else last?)
    else last?
  else last?
termination_by bs.length - pos

theorem le_scanWhile (bs : List UInt8) (pos : Nat) (p : UInt8 → Bool) :
    pos ≤ scanWhile bs pos p := by
  fun_induction scanWhile bs pos p with
  | case1 pos h hp ih => omega
  | case2 | case3 => exact Nat.le_refl _

theorem lt_of_nextLine? {bs : List UInt8} {pos n : Nat} {last? : Option Nat}
    (h : nextLine? bs pos last? = some n) : last? = some n ∨ pos < n := by
  fun_induction nextLine? bs pos last? with
  | case1 pos last? hpos hblank ih =>
    rcases ih h with h | h
    · split at h
      · cases h
        exact .inr (Nat.lt_succ_self _)
      · exact .inl h
    · exact .inr (Nat.lt_of_succ_lt h)
  | case2 | case3 => exact .inl h

-- ── Comment leaders ──────────────────────────────────────────────────────────

/-- The bytes `//`. -/
def slashes : List UInt8 := ['/'.toUInt8, '/'.toUInt8]

/-- The offset behind the comment leaders at `cursor`. -/
def skipLeaders (bs : List UInt8) (cursor : Nat) : Except OutOfRange Nat :=
  let probe := if bs[cursor]? = some ':'.toUInt8 then cursor + 1 else cursor
  match _h : byteSlice bs probe bs.length with
  | .error e => .error e
  | .ok tail =>
    if _hs : slashes.isPrefixOf tail then skipLeaders bs (skipBlanks bs (probe + 2))
    else .ok cursor
termination_by bs.length - cursor
decreasing_by
  have hle : cursor ≤ probe := by dsimp only [probe]; split <;> omega
  have hskip : probe + 2 ≤ skipBlanks bs (probe + 2) := le_scanWhile _ _ _
  unfold byteSlice at _h
  split at _h
  next hrange =>
    have hlen := (List.isPrefixOf_iff_prefix.1 _hs).length_le
    cases _h
    rw [List.length_take, List.length_drop] at hlen
    have : slashes.length = 2 := rfl
    show bs.length - skipBlanks bs (probe + 2) < bs.length - cursor
    omega
  next => cases _h

/-- The offset of the first of the blanks in front of an offset, though not before `first`. -/
def backOverBlanks (bs : List UInt8) (first : Nat) : Nat → Except OutOfRange Nat
  | 0 => .ok 0
  | n + 1 =>
    if first < n + 1 then
      match byteAt bs n with
      | .error e => .error e
      | .ok b => if isInlineBlankByte b then backOverBlanks bs first n else .ok (n + 1)
    else .ok (n + 1)

theorem backOverBlanks_le {bs : List UInt8} {first n probe : Nat}
    (h : backOverBlanks bs first n = .ok probe) : probe ≤ n := by
  fun_induction backOverBlanks bs first n with
  | case1 => cases h; exact Nat.le_refl _
  | case2 => cases h
  | case3 n _ _ _ _ ih => exact Nat.le_succ_of_le (ih h)
  | case4 | case5 => cases h; exact Nat.le_refl _

/-- The offset of the comment leaders in front of `start`, though not before `first`. -/
def leaderStart (bs : List UInt8) (first start : Nat) : Except OutOfRange Nat :=
  match _h : backOverBlanks bs first start with
  | .error e => .error e
  | .ok probe =>
    if first + 2 ≤ probe then
      match byteSlice bs (probe - 2) probe with
      | .error e => .error e
      | .ok two => if two = slashes then leaderStart bs first (probe - 2) else .ok start
    else .ok start
termination_by start
decreasing_by
  have := backOverBlanks_le _h
  omega

-- ── The markers ──────────────────────────────────────────────────────────────

/-- The default of a condition, and the offset behind it. -/
def conditionDefault (cs : List Char) (cursor : Nat) :
    Except OutOfRange (Option (Option Bool × Nat)) :=
  let bs := utf8 cs
  if bs[cursor]? = some ':'.toUInt8 then
    let start := skipBlanks bs (cursor + 1)
    let stop := scanWhile bs start isWordByte
    if start < stop then
      (slice cs start stop).map fun literal =>
        (boolLiteral? literal).map fun value => (some value, stop)
    else .ok (some (none, stop))
  else .ok (some (none, cursor))

/-- The header of a conditional. -/
def matchIf (cs : List Char) (s : Cursor) : Except OutOfRange (Option Token) :=
  let bs := utf8 cs
  let afterKeyword := s.pos + ifKeyword.length
  let nameStart := skipBlanks bs afterKeyword
  let nameStop := scanWhile bs nameStart isConditionByte
  if nameStart = afterKeyword ∨ nameStop = nameStart then .ok none
  else do
    match ← conditionDefault cs (skipBlanks bs nameStop) with
    | none => return none
    | some (default?, cursor) =>
      match nextLine? bs cursor none with
      | none => return none
      | some stop =>
        let name ← slice cs nameStart nameStop
        return some (s.token (.ifHeader (String.ofList name) default?) s.pos stop)

/-- The line between the branches of a conditional. -/
def matchElse (cs : List Char) (s : Cursor) : Option Token :=
  (nextLine? (utf8 cs) (s.pos + elseKeyword.length) none).map fun stop =>
    s.token .elseLine s.pos stop

/-- The header of a block, whose keyword is at the reader. -/
def matchBlock (cs : List Char) (s : Cursor) : Except OutOfRange (Option Token) :=
  let bs := utf8 cs
  let afterKeyword := s.pos + blockKeyword.length
  let nameStart := skipBlanks bs afterKeyword
  let nameStop := scanWhile bs nameStart isWordByte
  if nameStart = afterKeyword ∨ nameStop = nameStart then .ok none
  else
    match nextLine? bs nameStop none with
    | none => .ok none
    | some stop => do
      let name ← slice cs nameStart nameStop
      let start ← leaderStart bs s.lastStop s.pos
      return some (s.token (.blockHeader (String.ofList name)) start stop)

/-- The end of a block, comment leaders included. -/
def matchEndBlock (cs : List Char) (s : Cursor) : Except OutOfRange (Option Token) := do
  let cursor ← skipLeaders (utf8 cs) s.pos
  let rest ← sliceFrom cs cursor
  if endBlockKeyword.isPrefixOf rest then
    return some (s.token .endBlock s.pos (cursor + endBlockKeyword.length))
  else return none

/-- The alternatives of a variable behind the sign at `cursor`, after the ones already seen, and
    the offset behind them. -/
def alternativesFrom (cs : List Char) (cursor : Nat) (seen : List String) :
    Except OutOfRange (Option (List String × Nat)) :=
  let bs := utf8 cs
  let start := skipBlanks bs (cursor + 1)
  let stop := scanWhile bs start isAlternativeByte
  if _h : stop = start then .ok none
  else
    match slice cs start stop with
    | .error e => .error e
    | .ok text =>
      let value := String.ofList text
      let values := if value ∈ seen then seen else seen ++ [value]
      let next := skipBlanks bs stop
      if _hnext : bs[next]? = some '|'.toUInt8 then alternativesFrom cs next values
      else .ok (some (values, next))
termination_by (utf8 cs).length - cursor
decreasing_by
  have hstart : cursor + 1 ≤ start := le_scanWhile _ _ _
  have hstop : start ≤ stop := le_scanWhile _ _ _
  have hnext : stop ≤ next := le_scanWhile _ _ _
  obtain ⟨hlt, _⟩ := List.getElem?_eq_some_iff.1 _hnext
  show bs.length - next < bs.length - cursor
  omega

/-- The alternatives of a variable whose name ends at `cursor`, if it has any, and the offset behind
    them. -/
def alternativesAt (cs : List Char) (cursor : Nat) :
    Except OutOfRange (Option (List String × Nat)) :=
  if (utf8 cs)[cursor]? = some '='.toUInt8 then alternativesFrom cs cursor []
  else .ok (some ([], cursor))

/-- A variable with or without alternatives. -/
def matchVariable (cs : List Char) (s : Cursor) : Except OutOfRange (Option Token) :=
  let bs := utf8 cs
  let nameStart := s.pos + 1
  let nameStop := scanWhile bs nameStart isVariableByte
  if nameStop = nameStart then .ok none
  else do
    match ← alternativesAt cs (skipBlanks bs nameStop) with
    | none => return none
    | some (alternatives, cursor) =>
      if bs[cursor]? = some '>'.toUInt8 then
        let name ← slice cs nameStart nameStop
        return some (s.token (.variable (String.ofList name) alternatives) s.pos (cursor + 1))
      else return none

/-- The marker that starts with the `@` at the reader. -/
def matchAtSign (cs : List Char) (s : Cursor) : Except OutOfRange (Option Token) := do
  let rest ← sliceFrom cs s.pos
  if ifKeyword.isPrefixOf rest then matchIf cs s
  else if s.lineStart ∧ elseKeyword.isPrefixOf rest then return matchElse cs s
  else if s.lineStart ∧ endIfKeyword.isPrefixOf rest then
    return some (s.token .endIf s.pos (s.pos + endIfKeyword.length))
  else if s.lineStart ∧ endBlockKeyword.isPrefixOf rest then matchEndBlock cs s
  else if blockKeyword.isPrefixOf rest then matchBlock cs s
  else return none

/-- The marker that starts with the byte `b` at the reader. -/
def matchMarker (cs : List Char) (s : Cursor) (b : UInt8) : Except OutOfRange (Option Token) :=
  if b = '@'.toUInt8 then matchAtSign cs s
  else if b = '<'.toUInt8 then matchVariable cs s
  else if (b = '/'.toUInt8 ∨ b = ':'.toUInt8) ∧ s.lineStart then matchEndBlock cs s
  else .ok none

-- ── A match moves on ─────────────────────────────────────────────────────────

section

variable {cs : List Char} {s : Cursor} {t : Token}

theorem le_conditionDefault {cursor n : Nat} {default? : Option Bool}
    (h : conditionDefault cs cursor = .ok (some (default?, n))) : cursor ≤ n := by
  have hstart := le_scanWhile (utf8 cs) (cursor + 1) isInlineBlankByte
  have hstop := le_scanWhile (utf8 cs) (skipBlanks (utf8 cs) (cursor + 1)) isWordByte
  unfold skipBlanks at hstop
  unfold conditionDefault skipBlanks at h
  dsimp only at h
  split at h
  · split at h
    · obtain ⟨literal, _, h⟩ := map_eq_ok.1 h
      obtain ⟨value, _, h⟩ := Option.map_eq_some_iff.1 h
      cases h
      omega
    · cases h
      omega
  · cases h
    exact Nat.le_refl _

theorem lt_stop_of_matchIf (h : matchIf cs s = .ok (some t)) : s.pos < t.stop := by
  unfold matchIf at h
  dsimp only at h
  split at h
  · cases h
  · obtain ⟨found?, hdefault, h⟩ := bind_eq_ok.1 h
    split at h
    · cases h
    next default? cursor =>
      split at h
      · cases h
      next stop hstop =>
        obtain ⟨name, _, h⟩ := bind_eq_ok.1 h
        cases h
        have hgap := le_scanWhile (utf8 cs) (s.pos + ifKeyword.length) isInlineBlankByte
        have hname := le_scanWhile (utf8 cs)
          (skipBlanks (utf8 cs) (s.pos + ifKeyword.length)) isConditionByte
        have hblanks := le_scanWhile (utf8 cs) (scanWhile (utf8 cs)
          (skipBlanks (utf8 cs) (s.pos + ifKeyword.length)) isConditionByte) isInlineBlankByte
        have hcursor := le_conditionDefault hdefault
        rcases lt_of_nextLine? hstop with hlast | hlast
        · cases hlast
        · simp only [skipBlanks, Cursor.token] at *
          omega

theorem lt_stop_of_matchElse (h : matchElse cs s = some t) : s.pos < t.stop := by
  obtain ⟨stop, hstop, rfl⟩ := Option.map_eq_some_iff.1 h
  rcases lt_of_nextLine? hstop with hlast | hlast
  · cases hlast
  · exact Nat.lt_of_le_of_lt (Nat.le_add_right _ _) hlast

theorem lt_stop_of_matchBlock (h : matchBlock cs s = .ok (some t)) : s.pos < t.stop := by
  unfold matchBlock at h
  dsimp only at h
  split at h
  · cases h
  · split at h
    · cases h
    next stop hstop =>
      obtain ⟨name, _, h⟩ := bind_eq_ok.1 h
      obtain ⟨start, _, h⟩ := bind_eq_ok.1 h
      cases h
      have hgap := le_scanWhile (utf8 cs) (s.pos + blockKeyword.length) isInlineBlankByte
      have hname := le_scanWhile (utf8 cs)
        (skipBlanks (utf8 cs) (s.pos + blockKeyword.length)) isWordByte
      rcases lt_of_nextLine? hstop with hlast | hlast
      · cases hlast
      · simp only [skipBlanks, Cursor.token] at *
        omega

theorem le_skipLeaders {bs : List UInt8} {cursor n : Nat} (h : skipLeaders bs cursor = .ok n) :
    cursor ≤ n := by
  fun_induction skipLeaders bs cursor with
  | case1 => cases h
  | case2 cursor probe _ _ _ ih =>
    have hprobe : cursor ≤ probe := by dsimp only [probe]; split <;> omega
    have hskip : probe + 2 ≤ skipBlanks bs (probe + 2) := le_scanWhile _ _ _
    have := ih h
    omega
  | case3 => cases h; exact Nat.le_refl _

theorem lt_stop_of_matchEndBlock (h : matchEndBlock cs s = .ok (some t)) : s.pos < t.stop := by
  obtain ⟨cursor, hcursor, h⟩ := bind_eq_ok.1 h
  obtain ⟨rest, _, h⟩ := bind_eq_ok.1 h
  split at h
  · cases h
    exact Nat.lt_of_le_of_lt (le_skipLeaders hcursor) (Nat.lt_add_of_pos_right (by decide))
  · cases h

theorem lt_alternativesFrom {cursor n : Nat} {seen values : List String}
    (h : alternativesFrom cs cursor seen = .ok (some (values, n))) : cursor < n := by
  fun_induction alternativesFrom cs cursor seen with
  | case1 => cases h
  | case2 => cases h
  | case3 =>
    rename_i cursor seen bs start stop _ text _ value values' next _ ih
    have hstart : cursor + 1 ≤ start := le_scanWhile _ _ _
    have hstop : start ≤ stop := le_scanWhile _ _ _
    have hnext : stop ≤ next := le_scanWhile _ _ _
    have := ih h
    omega
  | case4 =>
    rename_i cursor seen bs start stop _ text _ value values' next _
    have hstart : cursor + 1 ≤ start := le_scanWhile _ _ _
    have hstop : start ≤ stop := le_scanWhile _ _ _
    have hnext : stop ≤ next := le_scanWhile _ _ _
    simp only [Except.ok.injEq, Option.some.injEq, Prod.mk.injEq] at h
    omega

theorem le_alternativesAt {cursor n : Nat} {values : List String}
    (h : alternativesAt cs cursor = .ok (some (values, n))) : cursor ≤ n := by
  unfold alternativesAt at h
  split at h
  · exact Nat.le_of_lt (lt_alternativesFrom h)
  · cases h
    exact Nat.le_refl _

theorem lt_stop_of_matchVariable (h : matchVariable cs s = .ok (some t)) : s.pos < t.stop := by
  unfold matchVariable at h
  dsimp only at h
  split at h
  · cases h
  · obtain ⟨found?, hfound, h⟩ := bind_eq_ok.1 h
    split at h
    · cases h
    next alternatives cursor =>
      split at h
      · obtain ⟨name, _, h⟩ := bind_eq_ok.1 h
        cases h
        have hname := le_scanWhile (utf8 cs) (s.pos + 1) isVariableByte
        have hblanks := le_scanWhile (utf8 cs) (scanWhile (utf8 cs) (s.pos + 1) isVariableByte)
          isInlineBlankByte
        have hcursor := le_alternativesAt hfound
        simp only [skipBlanks, Cursor.token] at *
        omega
      · cases h

/-- A marker ends behind the byte at which it was found. -/
theorem lt_stop_of_matchMarker {b : UInt8} (h : matchMarker cs s b = .ok (some t)) :
    s.pos < t.stop := by
  unfold matchMarker at h
  split at h
  · obtain ⟨rest, _, h⟩ := bind_eq_ok.1 h
    split at h
    · exact lt_stop_of_matchIf h
    · split at h
      · exact lt_stop_of_matchElse (Except.ok.inj h)
      · split at h
        · cases h
          exact Nat.lt_add_of_pos_right (by decide)
        · split at h
          · exact lt_stop_of_matchEndBlock h
          · split at h
            · exact lt_stop_of_matchBlock h
            · cases h
  · split at h
    · exact lt_stop_of_matchVariable h
    · split at h
      · exact lt_stop_of_matchEndBlock h
      · cases h

end

end ShaderTemplates.Template.Offsets
