import ShaderTemplates.Template.Offsets.Match

/-!
# Reading byte by byte

The reader walks over the bytes of a text. At each byte it takes the marker that it finds there, or
passes the byte, those inside of a character included. It hands out one marker at a time
(`Stream.next`) and keeps its place in between.

Two meters run along. `steps` counts how often the reader asked whether it may go on, `inspected`
how many bytes it looked at. With a limit the reader stops for good once it has asked more often
than that; without one it stops at the end of the text only.
-/

namespace ShaderTemplates.Template.Offsets

open Text

/-- A reader with its meters. -/
structure Stream extends Cursor where
  /-- How often the reader asked whether it may go on. -/
  steps : Nat
  /-- How many bytes the reader looked at. -/
  inspected : Nat
deriving DecidableEq, Repr

/-- The reader at the start of a text. -/
def Stream.start : Stream where
  toPosition := .start
  pos := 0
  lastStop := 0
  steps := 0
  inspected := 0

/-- The cursor behind a byte that starts no marker. -/
def Cursor.pastByte (s : Cursor) (b : UInt8) : Cursor :=
  if b = '\n'.toUInt8 then { s with lineStart := true, line := s.line + 1, pos := s.pos + 1 }
  else if isInlineBlankByte b then { s with pos := s.pos + 1 }
  else { s with lineStart := false, pos := s.pos + 1 }

/-- The cursor behind a token. -/
def Cursor.pastToken (s : Cursor) (cs : List Char) (t : Token) : Except OutOfRange Cursor := do
  let taken ← slice cs s.pos t.stop
  let last ← byteBefore (utf8 cs) t.stop
  return {
    lineStart := last == '\n'.toUInt8
    line := s.line + lineBreaks taken
    pos := t.stop
    lastStop := t.stop }

/-- What the reader did. -/
inductive Outcome where
  /-- The text is over, or the limit is reached. -/
  | stopped (s : Stream)
  /-- A byte was passed. -/
  | passed (s : Stream)
  /-- A token was found. -/
  | found (t : Token) (s : Stream)
deriving DecidableEq, Repr

namespace Stream

variable {limit? : Option Nat} {cs : List Char} {s s' : Stream} {t : Token}

/-- One round of the reader. -/
def step (limit? : Option Nat) (cs : List Char) (s : Stream) : Except OutOfRange Outcome :=
  let asked := { s with steps := s.steps + 1 }
  if limit?.all (asked.steps ≤ ·) ∧ s.pos < (utf8 cs).length then do
    let b ← byteAt (utf8 cs) s.pos
    let looked := { asked with inspected := s.inspected + 1 }
    match ← matchMarker cs s.toCursor b with
    | none => return .passed { looked with toCursor := s.pastByte b }
    | some t => return .found t { looked with toCursor := ← s.pastToken cs t }
  else return .stopped asked

theorem pos_pastByte (s : Cursor) (b : UInt8) : (s.pastByte b).pos = s.pos + 1 := by
  unfold Cursor.pastByte
  split
  · rfl
  · split <;> rfl

/-- A round happens at a byte of the text. -/
theorem lt_of_step_passed (h : s.step limit? cs = .ok (.passed s')) :
    s.pos < (utf8 cs).length ∧ s'.pos = s.pos + 1 := by
  unfold step at h
  dsimp only at h
  split at h
  next hgo =>
    obtain ⟨b, _, h⟩ := bind_eq_ok.1 h
    obtain ⟨found?, _, h⟩ := bind_eq_ok.1 h
    split at h
    · cases h
      exact ⟨hgo.2, pos_pastByte _ _⟩
    · obtain ⟨_, _, h⟩ := bind_eq_ok.1 h
      cases h
  next => cases h

/-- A round that finds a token moves the reader to its end. -/
theorem lt_of_step_found (h : s.step limit? cs = .ok (.found t s')) :
    s.pos < (utf8 cs).length ∧ s.pos < t.stop ∧ s'.pos = t.stop := by
  unfold step at h
  dsimp only at h
  split at h
  next hgo =>
    obtain ⟨b, _, h⟩ := bind_eq_ok.1 h
    obtain ⟨found?, hfound, h⟩ := bind_eq_ok.1 h
    split at h
    · cases h
    · obtain ⟨c, hc, h⟩ := bind_eq_ok.1 h
      cases h
      obtain ⟨_, _, hc⟩ := bind_eq_ok.1 hc
      obtain ⟨_, _, hc⟩ := bind_eq_ok.1 hc
      cases hc
      exact ⟨hgo.2, lt_stop_of_matchMarker hfound, rfl⟩
  next => cases h

/-- The next token of a text. -/
def next (limit? : Option Nat) (cs : List Char) (s : Stream) :
    Except OutOfRange (Option Token × Stream) :=
  match _h : s.step limit? cs with
  | .error e => .error e
  | .ok (.stopped s') => .ok (none, s')
  | .ok (.passed s') => next limit? cs s'
  | .ok (.found t s') => .ok (some t, s')
termination_by (utf8 cs).length - s.pos
decreasing_by
  have := lt_of_step_passed _h
  omega

theorem lt_of_next_some (h : s.next limit? cs = .ok (some t, s')) :
    s.pos < (utf8 cs).length ∧ s.pos < t.stop ∧ s'.pos = t.stop := by
  fun_induction next limit? cs s with
  | case1 => cases h
  | case2 => cases h
  | case3 s s₁ hstep ih =>
    have := lt_of_step_passed hstep
    obtain ⟨hlt, hstop, hpos⟩ := ih h
    exact ⟨this.1, by omega, hpos⟩
  | case4 s t s₁ hstep => cases h; exact lt_of_step_found hstep

/-- All tokens of a text from the reader on, and the reader after it has found no more. -/
def drain (limit? : Option Nat) (cs : List Char) (s : Stream) :
    Except OutOfRange (List Token × Stream) :=
  match _h : s.next limit? cs with
  | .error e => .error e
  | .ok (none, s') => .ok ([], s')
  | .ok (some t, s') => (drain limit? cs s').map fun r => (t :: r.1, r.2)
termination_by (utf8 cs).length - s.pos
decreasing_by
  have := lt_of_next_some _h
  omega

-- ── Equations ────────────────────────────────────────────────────────────────

theorem next_of_stopped (h : s.step limit? cs = .ok (.stopped s')) :
    s.next limit? cs = .ok (none, s') := by
  rw [next]
  split <;> simp_all

theorem drain_of_stopped (h : s.step limit? cs = .ok (.stopped s')) :
    s.drain limit? cs = .ok ([], s') := by
  have hnext := next_of_stopped h
  rw [drain]
  split <;> simp_all

theorem drain_of_passed (h : s.step limit? cs = .ok (.passed s')) :
    s.drain limit? cs = s'.drain limit? cs := by
  have hnext : s.next limit? cs = s'.next limit? cs := by
    rw [next]
    split <;> simp_all
  rw [drain, drain, hnext]

theorem drain_of_found (h : s.step limit? cs = .ok (.found t s')) :
    s.drain limit? cs = (s'.drain limit? cs).map fun r => (t :: r.1, r.2) := by
  have hnext : s.next limit? cs = .ok (some t, s') := by
    rw [next]
    split <;> simp_all
  rw [drain]
  split <;> simp_all

/-- Every token ends behind a byte of the text. -/
theorem stop_pos_of_mem_drain {r : List Token × Stream} (h : s.drain limit? cs = .ok r)
    (ht : t ∈ r.1) : 0 < t.stop := by
  fun_induction drain limit? cs s generalizing r with
  | case1 => cases h
  | case2 => cases h; exact absurd ht List.not_mem_nil
  | case3 s t₁ s₁ hnext ih =>
    obtain ⟨r₁, hr, rfl⟩ := map_eq_ok.1 h
    rcases List.mem_cons.1 ht with rfl | ht
    · have := lt_of_next_some hnext
      omega
    · exact ih hr ht

end Stream

/-- The tokens of a text. -/
def tokens (cs : List Char) : Except OutOfRange (List Token) :=
  (Stream.start.drain (some (stepsPerByte * byteLength cs)) cs).map Prod.fst

end ShaderTemplates.Template.Offsets
