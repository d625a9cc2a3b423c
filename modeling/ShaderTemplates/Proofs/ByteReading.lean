import Mathlib.Data.List.Basic
import ShaderTemplates.Proofs.ByteMarkers
import ShaderTemplates.Template.Offsets.Stream

/-!
# Reading on bytes and on characters

The reader on bytes finds the tokens that the reader on characters finds, at the offsets at which
they stand in the text (`drain_eq`).  Both walk from left to right, but not in step:

* a character of several bytes is passed in one step or in several (`drain_of_char`);
* a block header is found at its comment leaders or behind them (`drain_of_leaders`).

What relates the two on their way is `Follows`: the reader on bytes has reached a character, and
nothing between its last token and this character is the start of a block header that reaches over
it.  The reader on characters would have found that header.
-/

namespace ShaderTemplates.Template.Offsets

open Text

-- ── Steps ────────────────────────────────────────────────────────────────────

/-- The limit leaves the reader `n` more steps. -/
def Allows (limit? : Option Nat) (s : Stream) (n : Nat) : Prop :=
  ∀ limit ∈ limit?, s.steps + n ≤ limit

section

variable {limit? : Option Nat} {cs rest : List Char} {s : Stream} {b : UInt8} {t : Token}

theorem Allows.mono {s' : Stream} {n m : Nat} (h : Allows limit? s n)
    (hle : s'.steps + m ≤ s.steps + n) : Allows limit? s' m :=
  fun limit hmem => Nat.le_trans hle (h limit hmem)

theorem Allows.all (h : Allows limit? s 1) : limit?.all (s.steps + 1 ≤ ·) = true := by
  cases limit? with
  | none => rfl
  | some limit => simpa using h limit rfl

theorem lt_length_of_byte (hbyte : (utf8 cs)[s.pos]? = some b) : s.pos < (utf8 cs).length :=
  (List.getElem?_eq_some_iff.1 hbyte).1

/-- At the end of a text the reader stops, however often it is asked to go on. -/
theorem step_of_end (h : s.pos = byteLength cs) :
    s.step limit? cs = .ok (.stopped { s with steps := s.steps + 1 }) := by
  rw [Stream.step, if_neg (by rw [utf8_length, h]; exact fun hc => Nat.lt_irrefl _ hc.2)]
  rfl

theorem drain_of_byte (hlimit : Allows limit? s 1) (hbyte : (utf8 cs)[s.pos]? = some b)
    (hnone : matchMarker cs s.toCursor b = .ok none) :
    s.drain limit? cs =
      Stream.drain limit? cs ⟨s.pastByte b, s.steps + 1, s.inspected + 1⟩ := by
  refine Stream.drain_of_passed ?_
  rw [Stream.step, if_pos ⟨hlimit.all, lt_length_of_byte hbyte⟩, byteAt_eq hbyte, ok_bind, hnone]
  rfl

theorem drain_of_token {c : Cursor} (hlimit : Allows limit? s 1)
    (hbyte : (utf8 cs)[s.pos]? = some b) (hfound : matchMarker cs s.toCursor b = .ok (some t))
    (hpast : s.pastToken cs t = .ok c) :
    s.drain limit? cs =
      (Stream.drain limit? cs ⟨c, s.steps + 1, s.inspected + 1⟩).map fun r => (t :: r.1, r.2) := by
  refine Stream.drain_of_found ?_
  rw [Stream.step, if_pos ⟨hlimit.all, lt_length_of_byte hbyte⟩, byteAt_eq hbyte, ok_bind, hfound,
    ok_bind]
  dsimp only
  rw [hpast]
  rfl

end

/-- The reader `n` bytes further on the same line, not at its start. -/
def Stream.pastBytes (s : Stream) (n : Nat) : Stream where
  lineStart := false
  line := s.line
  pos := s.pos + n
  lastStop := s.lastStop
  steps := s.steps + n
  inspected := s.inspected + n

/-- The reader behind a character that starts no marker. -/
def Stream.pastChar (s : Stream) (c : Char) : Stream where
  toPosition := s.toPosition.pastChar c
  pos := s.pos + c.utf8Size
  lastStop := s.lastStop
  steps := s.steps + c.utf8Size
  inspected := s.inspected + c.utf8Size

/-- The reader behind a marker whose text from the reader on is `own`. -/
def Stream.pastMarker (s : Stream) (own : List Char) : Stream where
  toPosition := s.toPosition.pastMarker own
  pos := s.pos + byteLength own
  lastStop := s.pos + byteLength own
  steps := s.steps + 1
  inspected := s.inspected + 1

section

variable {limit? : Option Nat} {cs rest : List Char} {s : Stream} {c : Char}

/-- A byte is passed as the character that it belongs to. -/
theorem pastByte_eq {b : UInt8} (hb : b ∈ String.utf8EncodeChar c) (s : Cursor) :
    s.pastByte b = ⟨s.toPosition.pastChar c, s.pos + 1, s.lastStop⟩ := by
  have hnl : b = '\n'.toUInt8 ↔ c = '\n' := eq_toUInt8_iff (by decide) hb
  have hblank : isInlineBlankByte b = isInlineBlank c := reads_isInlineBlank c b hb
  unfold Cursor.pastByte Position.pastChar
  by_cases hc : c = '\n'
  · rw [if_pos (hnl.2 hc), if_pos hc]
  · rw [if_neg (mt hnl.1 hc), if_neg hc, hblank]
    cases isInlineBlank c <;> rfl

theorem pastChar_of_not_ascii (hc : ¬ IsAscii c) (p : Position) : p.pastChar c = ⟨false, p.line⟩ := by
  have hnl : c ≠ '\n' := fun h => hc (by rw [h]; decide)
  have hblank : ¬ isInlineBlank c = true := fun h =>
    hc (isAscii_of_isAsciiBlank (isAsciiBlank_of_isInlineBlank h))
  rw [Position.pastChar, if_neg hnl, if_neg hblank]

theorem matchMarker_of_not_ascii {b : UInt8} (hc : ¬ IsAscii c) (hb : b ∈ String.utf8EncodeChar c)
    (cs : List Char) (s : Cursor) : matchMarker cs s b = .ok none := by
  have hne : ∀ a, IsAscii a → c ≠ a := fun a ha h => hc (h ▸ ha)
  rw [matchMarker_of_char hb, if_neg (hne _ (by decide)), if_neg (hne _ (by decide)),
    if_neg fun h => h.1.elim (hne _ (by decide)) (hne _ (by decide))]

/-- Bytes of characters of several bytes are passed one by one. -/
theorem drain_of_bytes {n : Nat} (hc : ¬ IsAscii c) (hlimit : Allows limit? s (n + 1))
    (hbytes : ∀ i ≤ n, ∃ b ∈ String.utf8EncodeChar c, (utf8 cs)[s.pos + i]? = some b) :
    s.drain limit? cs = (s.pastBytes (n + 1)).drain limit? cs := by
  induction n with
  | zero =>
    obtain ⟨b, hb, hbyte⟩ := hbytes 0 (Nat.le_refl 0)
    rw [drain_of_byte hlimit hbyte (matchMarker_of_not_ascii hc hb _ _), pastByte_eq hb,
      pastChar_of_not_ascii hc]
    rfl
  | succ n ih =>
    obtain ⟨b, hb, hbyte⟩ := hbytes (n + 1) (Nat.le_refl _)
    have hlimit' : Allows limit? s (n + 1) := hlimit.mono (by omega)
    have hlast : Allows limit? (s.pastBytes (n + 1)) 1 := hlimit
    rw [ih hlimit' fun i hi => hbytes i (Nat.le_succ_of_le hi),
      drain_of_byte hlast hbyte (matchMarker_of_not_ascii hc hb _ _), pastByte_eq hb,
      pastChar_of_not_ascii hc]
    rfl

/-- A character that starts no marker is passed byte by byte. -/
theorem drain_of_char (h : At cs s.pos (c :: rest)) (hlimit : Allows limit? s c.utf8Size)
    (hnone : ∀ b ∈ String.utf8EncodeChar c, matchMarker cs s.toCursor b = .ok none) :
    s.drain limit? cs = (s.pastChar c).drain limit? cs := by
  by_cases hc : IsAscii c
  · obtain ⟨b, hb, hbyte⟩ := h.head_byte
    have hsize := utf8Size_ascii hc
    rw [drain_of_byte (hsize ▸ hlimit) hbyte (hnone b hb), pastByte_eq hb, Stream.pastChar, hsize]
  · obtain ⟨n, hn⟩ : ∃ n, c.utf8Size = n + 1 :=
      ⟨c.utf8Size - 1, by have := Char.utf8Size_pos c; omega⟩
    rw [drain_of_bytes hc (hn ▸ hlimit) fun i hi => h.char_byte (by omega), Stream.pastChar,
      pastChar_of_not_ascii hc, hn]
    rfl

theorem Allows.pastChar (h : Allows limit? s (byteLength (c :: rest))) :
    Allows limit? s c.utf8Size ∧ Allows limit? (s.pastChar c) (byteLength rest) := by
  rw [byteLength] at h
  exact ⟨h.mono (by omega), h.mono (Nat.le_of_eq (Nat.add_assoc _ _ _))⟩

/-- A marker is passed as a whole. -/
theorem pastToken_eq {own : List Char} {t : Token} {s : Cursor} (h : At cs s.pos (own ++ rest))
    (hown : own ≠ []) (ht : t.stop = s.pos + byteLength own) :
    s.pastToken cs t = .ok ⟨s.toPosition.pastMarker own, t.stop, t.stop⟩ := by
  obtain ⟨init, last, rfl⟩ : ∃ init last, own = init ++ [last] :=
    ⟨own.dropLast, own.getLast hown, (List.dropLast_concat_getLast hown).symm⟩
  obtain ⟨b, hb, hbefore⟩ := h.byteBefore_eq
  have hnl : (b == '\n'.toUInt8) = (last == '\n') := reads_beq (by decide) last b hb
  have hlast : (last == '\n') = ((init ++ [last]).getLast? == some '\n') := by simp
  rw [Cursor.pastToken, ht, h.slice_eq, ok_bind, hbefore, ok_bind, hnl, hlast]
  rfl

theorem drain_of_marker {own : List Char} {t : Token} {b : UInt8} (hlimit : Allows limit? s 1)
    (h : At cs s.pos (own ++ rest)) (hown : own ≠ []) (hbyte : (utf8 cs)[s.pos]? = some b)
    (hfound : matchMarker cs s.toCursor b = .ok (some t))
    (ht : t.stop = s.pos + byteLength own) :
    s.drain limit? cs =
      ((s.pastMarker own).drain limit? cs).map fun r => (t :: r.1, r.2) := by
  rw [drain_of_token hlimit hbyte hfound (pastToken_eq h hown ht), Stream.pastMarker, ht]

/-- Inside of a line, slashes and blanks in front of a block header are passed. -/
theorem drain_of_slashes {x : List Char} (hx : ∀ c ∈ x, c = '/' ∨ isInlineBlank c = true)
    (hstart : s.lineStart = false) (h : At cs s.pos (x ++ rest))
    (hlimit : Allows limit? s (byteLength x)) :
    s.drain limit? cs = (s.pastBytes (byteLength x)).drain limit? cs := by
  induction x generalizing s with
  | nil =>
    have hs : s.pastBytes 0 = s := by
      obtain ⟨⟨⟨lineStart, line⟩, pos, lastStop⟩, steps, inspected⟩ := s
      obtain rfl : lineStart = false := hstart
      rfl
    rw [byteLength, hs]
  | cons c x ih =>
    have hc := hx c List.mem_cons_self
    have hline : s.toPosition.pastChar c = ⟨false, s.line⟩ := by
      have hs : s.toPosition = ⟨false, s.line⟩ := by rw [← hstart]
      obtain rfl | hblank := hc
      · rfl
      · have hnl : c ≠ '\n' := by
          rintro rfl
          cases hblank
        rw [Position.pastChar, if_neg hnl, if_pos hblank, hs]
    have hne : c ≠ '@' ∧ c ≠ '<' := by
      obtain rfl | hblank := hc
      · exact ⟨by decide, by decide⟩
      · constructor <;> rintro rfl <;> cases hblank
    obtain ⟨hfirst, hrest⟩ := hlimit.pastChar
    have hnone : ∀ b ∈ String.utf8EncodeChar c, matchMarker cs s.toCursor b = .ok none :=
      fun b hb => by
        rw [matchMarker_of_char hb, if_neg hne.1, if_neg hne.2, if_neg (by simp [hstart])]
    have hinside : (s.pastChar c).lineStart = false := by rw [Stream.pastChar, hline]
    rw [drain_of_char h hfirst hnone, ih (fun c hc => hx c (List.mem_cons_of_mem _ hc)) hinside
      h.skip_char hrest]
    simp only [Stream.pastBytes, Stream.pastChar, hline, byteLength, Nat.add_assoc]

end

-- ── The whole walk ───────────────────────────────────────────────────────────

/-- The tokens of a text that starts at an offset, with the offsets between which they stand. -/
def located (start : Nat) : List (Piece Template.Token) → List Token
  | [] => []
  | .char c :: ps => located (start + c.utf8Size) ps
  | .item t :: ps =>
    ⟨t.marker, start, start + byteLength t.source, t.line⟩ ::
      located (start + byteLength t.source) ps

/-- The reader has read a text up to `rest`, and `back` is what it passed since its last token,
    written from right to left. -/
structure Follows (cs : List Char) (s : Cursor) (back rest : List Char) : Prop where
  at_last : At cs s.lastStop (back.reverse ++ rest)
  pos_eq : s.pos = s.lastStop + byteLength back
  /-- No block header starts in what was passed. -/
  clear : ∀ ahead front, ahead ≠ [] → ahead.reverse ++ front = back →
    blockHeader? (ahead ++ rest) = none

namespace Follows

variable {cs back rest : List Char} {s : Cursor} {c : Char}

theorem at_pos (h : Follows cs s back rest) : At cs s.pos rest := h.pos_eq ▸ h.at_last.skip_back

theorem start (cs : List Char) : Follows cs Stream.start.toCursor [] cs where
  at_last := at_zero cs
  pos_eq := rfl
  clear ahead front hne h := absurd (List.append_eq_nil_iff.1 h).1 (by simpa using hne)

/-- No block header ends behind the reader unless one starts there. -/
theorem no_header (h : Follows cs s back rest) (hnone : blockHeader? rest = none)
    {ahead front : List Char} (hback : ahead.reverse ++ front = back) :
    blockHeader? (ahead ++ rest) = none := by
  by_cases hne : ahead = []
  · rw [hne]
    exact hnone
  · exact h.clear ahead front hne hback

/-- In front of a block header stand no comment leaders that belong to it. -/
theorem beforeLeaders_eq (h : Follows cs s back rest) {f : Found}
    (hf : blockHeader? rest = some f) : beforeLeaders back = back := by
  obtain ⟨a, ha, hback⟩ := exists_isLeaders back
  by_cases hne : a = []
  · rw [hne] at hback
    exact hback
  · obtain ⟨ahead, r, own, hahead, rfl, -⟩ := exists_of_blockHeader? hf
    have hafter : afterLeaders false (a ++ (ahead ++ (blockKeyword ++ r))) =
        afterLeaders false (ahead ++ (blockKeyword ++ r)) := by
      have hjoint : afterLeaders false ((a ++ ahead) ++ (blockKeyword ++ r)) = blockKeyword ++ r :=
        (ha.append hahead).afterLeaders_eq false _
      rw [← List.append_assoc, hjoint]
      exact (hahead.afterLeaders_eq false _).symm
    have hsome := blockHeader?_isSome hafter
    rw [h.clear a _ hne hback, hf] at hsome
    cases hsome

/-- The reader passes a character at which no block header starts. -/
theorem pastChar (h : Follows cs s back (c :: rest)) (hnone : blockHeader? (c :: rest) = none)
    {s' : Cursor} (hpos : s'.pos = s.pos + c.utf8Size) (hlast : s'.lastStop = s.lastStop) :
    Follows cs s' (c :: back) rest where
  at_last := by
    rw [hlast]
    simpa using h.at_last
  pos_eq := by
    rw [hpos, hlast, h.pos_eq, byteLength]
    omega
  clear ahead front hne hback := by
    obtain ⟨init, last, rfl⟩ : ∃ init last, ahead = init ++ [last] :=
      ⟨ahead.dropLast, ahead.getLast hne, (List.dropLast_concat_getLast hne).symm⟩
    rw [List.reverse_append, List.append_assoc] at hback
    obtain ⟨hlast, hfront⟩ := List.cons.inj hback
    rw [List.append_assoc, hlast]
    exact h.no_header hnone hfront

/-- Behind a marker nothing has been passed. -/
theorem pastMarker {own : List Char} (h : At cs s.pos (own ++ rest)) {s' : Cursor}
    (hpos : s'.pos = s.pos + byteLength own) (hlast : s'.lastStop = s'.pos) :
    Follows cs s' [] rest where
  at_last := by
    rw [hlast, hpos]
    exact h.skip
  pos_eq := hlast.symm
  clear ahead front hne hback := absurd (List.append_eq_nil_iff.1 hback).1 (by simpa using hne)

end Follows

section

variable {cs back rest : List Char} {s : Stream} {c : Char}

/-- The reader passes a character at which reading on characters finds no marker. -/
theorem Follows.matchMarker_none (h : Follows cs s.toCursor back (c :: rest))
    (hnone : marker? s.lineStart (c :: rest) = none) :
    ∀ b ∈ String.utf8EncodeChar c, matchMarker cs s.toCursor b = .ok none := by
  intro b hb
  rw [marker?_eq_or, Option.or_eq_none_iff] at hnone
  obtain ⟨ahead, hahead, hback⟩ := exists_isLeaders back
  rw [matchMarker_eq hb h.at_last h.pos_eq hahead hback, hnone.1, h.no_header hnone.2 hback]
  cases decide (c = '@') <;> simp

/-- The reader finds a marker that is no block header where it starts. -/
theorem Follows.matchMarker_own (h : Follows cs s.toCursor back (c :: rest)) {f : Found}
    (hf : ownMarker? s.lineStart (c :: rest) = some f) :
    ∀ b ∈ String.utf8EncodeChar c,
      matchMarker cs s.toCursor b = .ok (some (s.toCursor.tokenOf f)) := by
  intro b hb
  obtain ⟨ahead, hahead, hback⟩ := exists_isLeaders back
  rw [matchMarker_eq hb h.at_last h.pos_eq hahead hback, hf]
  rfl

/-- The reader passes the comment leaders of a block header. -/
theorem Follows.reach_keyword {ahead : List Char} (hahead : IsLeaders ahead)
    (h : Follows cs s.toCursor back (ahead ++ (blockKeyword ++ rest))) :
    ∃ s' : Stream, s'.line = s.line ∧ s'.lastStop = s.lastStop ∧
      s'.pos = s.pos + byteLength ahead ∧ s'.steps = s.steps + byteLength ahead ∧
      s'.inspected = s.inspected + byteLength ahead ∧
      ∀ limit?, Allows limit? s (byteLength ahead) → s.drain limit? cs = s'.drain limit? cs := by
  have hown := ownMarker?_of_leaders hahead s.lineStart rest
  have hslashes := hahead.forall_mem
  cases ahead with
  | nil => exact ⟨s, rfl, rfl, rfl, rfl, rfl, fun _ _ => rfl⟩
  | cons c x =>
    obtain rfl : c = '/' := by
      cases hahead
      rfl
    rw [List.cons_append] at h hown
    refine ⟨(s.pastChar '/').pastBytes (byteLength x), rfl, rfl, ?_, ?_, ?_, fun limit? hlimit => ?_⟩
    · simp only [Stream.pastBytes, Stream.pastChar, byteLength, Nat.add_assoc]
    · simp only [Stream.pastBytes, Stream.pastChar, byteLength, Nat.add_assoc]
    · simp only [Stream.pastBytes, Stream.pastChar, byteLength, Nat.add_assoc]
    · obtain ⟨hfirst, hrest⟩ := hlimit.pastChar
      have hnone : ∀ b ∈ String.utf8EncodeChar '/', matchMarker cs s.toCursor b = .ok none := by
        intro b hb
        obtain ⟨a, ha, hback⟩ := exists_isLeaders back
        rw [matchMarker_eq hb h.at_last h.pos_eq ha hback, hown, if_neg (by decide)]
        rfl
      rw [drain_of_char h.at_pos hfirst hnone, drain_of_slashes
        (fun c hc => hslashes c (List.mem_cons_of_mem _ hc)) rfl h.at_pos.skip_char hrest]

/-- The reader finds a block header at its keyword. -/
theorem Follows.matchMarker_block {ahead : List Char} (hahead : IsLeaders ahead)
    (h : Follows cs s.toCursor back (ahead ++ (blockKeyword ++ rest))) {f : Found}
    (hf : blockHeader? (ahead ++ (blockKeyword ++ rest)) = some f) {s' : Stream}
    (hlast : s'.lastStop = s.lastStop) (hpos : s'.pos = s.pos + byteLength ahead) :
    ∀ b ∈ String.utf8EncodeChar '@', matchMarker cs s'.toCursor b =
      .ok (some (s'.token f.marker s.pos (s.pos + byteLength f.source))) := by
  intro b hb
  have hback := h.beforeLeaders_eq hf
  have hwhole : beforeLeaders (ahead.reverse ++ back) = back := by
    rw [hahead.beforeLeaders_eq, hback]
  have hat : At cs s'.lastStop ((ahead.reverse ++ back).reverse ++ (blockKeyword ++ rest)) := by
    simpa [hlast] using h.at_last
  have hlen : s'.pos = s'.lastStop + byteLength (ahead.reverse ++ back) := by
    rw [hpos, hlast, h.pos_eq, byteLength_append, byteLength_reverse]
    omega
  have hown : ownMarker? s'.lineStart (blockKeyword ++ rest) = none :=
    ownMarker?_of_leaders .nil _ _
  have hstart : s'.lastStop + byteLength back = s.pos := by rw [hlast, h.pos_eq]
  rw [matchMarker_eq hb hat hlen hahead (by rw [hwhole]), hwhole, hstart]
  show Except.ok (((ownMarker? s'.lineStart (blockKeyword ++ rest)).map s'.tokenOf).or
    (if '@' = '@' then (blockHeader? (ahead ++ (blockKeyword ++ rest))).map _ else none)) = _
  rw [hown, hf]
  rfl

/-- The reader comes to the place where a marker is found: behind its leaders, if it is the header of a
    block, else where it starts. `ahead` and `own` are the text of the marker in front of that place
    and behind. -/
structure Reaches (cs : List Char) (s : Stream) (f : Found) (s' : Stream) (ahead own : List Char) :
    Prop where
  own_ne : own ≠ []
  source_eq : f.source = ahead ++ own
  no_break : lineBreaks ahead = 0
  at_pos : At cs s'.pos (own ++ f.rest)
  line_eq : s'.line = s.line
  pos_eq : s'.pos = s.pos + byteLength ahead
  steps_eq : s'.steps = s.steps + byteLength ahead
  inspected_eq : s'.inspected = s.inspected + byteLength ahead
  drain_eq : ∀ limit?, Allows limit? s (byteLength ahead) → s.drain limit? cs = s'.drain limit? cs
  found : ∃ b, (utf8 cs)[s'.pos]? = some b ∧ matchMarker cs s'.toCursor b =
    .ok (some (s'.token f.marker s.pos (s.pos + byteLength f.source)))

theorem Follows.reaches (h : Follows cs s.toCursor back rest) {f : Found}
    (hm : marker? s.lineStart rest = some f) :
    ∃ s' ahead own, Reaches cs s f s' ahead own := by
  have happ := marker?_append hm
  have hsource := marker?_source_ne_nil hm
  rw [marker?_eq_or] at hm
  cases hf : ownMarker? s.lineStart rest with
  | some f' =>
    rw [hf] at hm
    cases hm
    obtain ⟨c, r, rfl⟩ : ∃ c r, rest = c :: r := by
      rw [← happ]
      exact List.exists_cons_of_ne_nil (List.append_ne_nil_of_left_ne_nil hsource _)
    obtain ⟨b, hb, hbyte⟩ := h.at_pos.head_byte
    have hat : At cs s.pos (f.source ++ f.rest) := by
      rw [happ]
      exact h.at_pos
    exact ⟨s, [], f.source, hsource, rfl, rfl, hat, rfl, rfl, rfl, rfl, fun _ _ => rfl, b, hbyte,
      h.matchMarker_own hf b hb⟩
  | none =>
    rw [hf, Option.none_or] at hm
    obtain ⟨ahead, r, own, hahead, hrest, hne, hsplit, hown⟩ := exists_of_blockHeader? hm
    rw [hrest] at h hm
    obtain ⟨s', hline, hlast, hpos, hsteps, hinspected, hdrain⟩ := h.reach_keyword hahead
    have hat : At cs s'.pos (blockKeyword ++ r) := by
      rw [hpos]
      exact h.at_pos.skip
    obtain ⟨b, hb, hbyte⟩ := At.head_byte (c := '@') hat
    have hbreaks : lineBreaks ahead = 0 := by
      refine List.count_eq_zero.2 fun hmem => ?_
      rcases hahead.forall_mem _ hmem with hc | hc <;> cases hc
    exact ⟨s', ahead, own, hne, hsplit, hbreaks, by rwa [hown], hline, hpos, hsteps, hinspected, hdrain,
      b, hbyte, h.matchMarker_block hahead hm hlast hpos b hb⟩

end

/-- Reading a text byte by byte gives the tokens that reading it character by character gives, with
    the offsets between which they stand.  The reader looks at no more bytes than there are, and asks
    once more than it looks; so a limit that leaves it a step for each byte changes nothing. -/
theorem drain_eq {cs : List Char} (p : Position) (rest : List Char) :
    ∀ (s : Stream) (back : List Char), Follows cs s.toCursor back rest → s.toPosition = p →
      ∃ (final : Stream) (looks : Nat), final.pos = byteLength cs ∧ looks ≤ byteLength rest ∧
        final.inspected = s.inspected + looks ∧ final.steps = s.steps + looks + 1 ∧
        ∀ limit?, Allows limit? s (byteLength rest) →
          s.drain limit? cs = .ok (located s.pos (piecesFrom p rest), final) := by
  induction p, rest using reading_induction with
  | nil p =>
    rintro s back h rfl
    have hend : s.pos = byteLength cs := h.at_pos.length_eq
    exact ⟨{ s with steps := s.steps + 1 }, 0, hend, Nat.le_refl _, rfl, rfl,
      fun limit? _ => Stream.drain_of_stopped (step_of_end hend)⟩
  | char p c rest hm ih =>
    rintro s back h rfl
    have hblock : blockHeader? (c :: rest) = none := by
      rw [marker?_eq_or, Option.or_eq_none_iff] at hm
      exact hm.2
    obtain ⟨final, looks, hpos, hlooks, hinspected, hsteps, hdrain⟩ :=
      ih (s.pastChar c) (c :: back) (h.pastChar hblock rfl rfl) rfl
    refine ⟨final, c.utf8Size + looks, hpos, by rw [byteLength]; omega,
      by rw [hinspected, Stream.pastChar, Nat.add_assoc],
      by rw [hsteps, Stream.pastChar, Nat.add_assoc s.steps], fun limit? hlimit => ?_⟩
    obtain ⟨hfirst, hrest⟩ := hlimit.pastChar
    rw [drain_of_char h.at_pos hfirst (h.matchMarker_none hm), hdrain limit? hrest,
      piecesFrom_char hm]
    rfl
  | marker p cs' f hm ih =>
    rintro s back h rfl
    obtain ⟨s', ahead, own, hs'⟩ := h.reaches hm
    have hlen : byteLength cs' = byteLength ahead + byteLength own + byteLength f.rest := by
      rw [← marker?_append hm, hs'.source_eq, byteLength_append, byteLength_append]
    have hown : 0 < byteLength own := Nat.pos_of_ne_zero (mt byteLength_eq_zero.1 hs'.own_ne)
    have hposition : s'.toPosition.pastMarker own = s.toPosition.pastMarker f.source := by
      rw [Position.pastMarker, Position.pastMarker, hs'.source_eq, lineBreaks_append, hs'.no_break,
        hs'.line_eq, List.getLast?_append_of_ne_nil _ hs'.own_ne, Nat.zero_add]
    have hsteps' : (s'.pastMarker own).steps = s'.steps + 1 := rfl
    have hinspected' : (s'.pastMarker own).inspected = s'.inspected + 1 := rfl
    obtain ⟨final, looks, hpos, hlooks, hinspected, hsteps, hdrain⟩ :=
      ih (s'.pastMarker own) [] (.pastMarker hs'.at_pos rfl rfl) hposition
    refine ⟨final, byteLength ahead + (1 + looks), hpos, by omega, ?_, ?_, fun limit? hlimit => ?_⟩
    · rw [hinspected, hinspected', hs'.inspected_eq]
      omega
    · rw [hsteps, hsteps', hs'.steps_eq]
      omega
    · obtain ⟨b, hbyte, hfound⟩ := hs'.found
      have hahead : Allows limit? s (byteLength ahead) := hlimit.mono (by omega)
      have hone : Allows limit? s' 1 := hlimit.mono (by rw [hs'.steps_eq]; omega)
      have hrest : Allows limit? (s'.pastMarker own) (byteLength f.rest) :=
        hlimit.mono (by rw [hsteps', hs'.steps_eq]; omega)
      have hstop : s.pos + byteLength f.source = s'.pos + byteLength own := by
        rw [hs'.pos_eq, hs'.source_eq, byteLength_append, Nat.add_assoc]
      rw [hs'.drain_eq limit? hahead, drain_of_marker hone hs'.at_pos hs'.own_ne hbyte hfound hstop,
        hdrain limit? hrest, piecesFrom_marker hm, located, hstop, Cursor.token, hs'.line_eq]
      rfl

-- ── Whole texts ──────────────────────────────────────────────────────────────

/-- A whole text is read to its end, in at most one look per byte. -/
theorem drain_start (cs : List Char) :
    ∃ final : Stream, final.pos = byteLength cs ∧ final.inspected ≤ byteLength cs ∧
      final.steps = final.inspected + 1 ∧
      ∀ limit?, (∀ limit ∈ limit?, byteLength cs ≤ limit) →
        Stream.start.drain limit? cs = .ok (located 0 (tokenize cs), final) := by
  obtain ⟨final, looks, hpos, hlooks, hinspected, hsteps, hdrain⟩ :=
    drain_eq .start cs Stream.start [] (.start cs) rfl
  have hinspected' : final.inspected = looks := by rw [hinspected, Stream.start, Nat.zero_add]
  refine ⟨final, hpos, by omega, ?_, fun limit? hlimit => ?_⟩
  · rw [hsteps, Stream.start, hinspected', Nat.zero_add]
  · rw [tokenize_eq_piecesFrom]
    refine hdrain limit? fun limit hmem => ?_
    rw [Stream.start, Nat.zero_add]
    exact hlimit limit hmem

theorem le_stepsPerByte_mul (n : Nat) : n ≤ stepsPerByte * n :=
  Nat.le_mul_of_pos_left n (by decide)

/-- The tokens of a text are those that are found on its characters. -/
theorem tokens_eq (cs : List Char) : tokens cs = .ok (located 0 (tokenize cs)) := by
  obtain ⟨final, -, -, -, hdrain⟩ := drain_start cs
  rw [tokens, hdrain]
  · rfl
  · rintro limit ⟨⟩
    exact le_stepsPerByte_mul _

/-- The limit on the steps of the reader is never what stops it. Without a limit the reader comes to
    the end of every text, after it looked at no more bytes than the text has, and there it stops for
    good. With any limit that leaves it a step for each byte, the one of three steps per byte among
    them, it does the same and finds the same tokens. -/
theorem drain_unlimited (cs : List Char) :
    ∃ found final, Stream.start.drain none cs = .ok (found, final) ∧
      final.pos = byteLength cs ∧ final.inspected ≤ byteLength cs ∧
      final.steps = final.inspected + 1 ∧
      (∀ limit?, ∃ s, final.next limit? cs = .ok (none, s) ∧ s.pos = final.pos) ∧
      (∀ limit, byteLength cs ≤ limit → Stream.start.drain (some limit) cs = .ok (found, final)) ∧
      Stream.start.drain (some (stepsPerByte * byteLength cs)) cs = .ok (found, final) ∧
      tokens cs = .ok found ∧ found = located 0 (tokenize cs) := by
  obtain ⟨final, hpos, hinspected, hsteps, hdrain⟩ := drain_start cs
  have hlimit : ∀ limit, byteLength cs ≤ limit →
      Stream.start.drain (some limit) cs = .ok (located 0 (tokenize cs), final) := by
    intro limit hle
    refine hdrain (some limit) ?_
    rintro _ ⟨⟩
    exact hle
  have hnone : Stream.start.drain none cs = .ok (located 0 (tokenize cs), final) := by
    refine hdrain none ?_
    rintro _ ⟨⟩
  exact ⟨_, final, hnone, hpos, hinspected, hsteps,
    fun limit? => ⟨_, Stream.next_of_stopped (step_of_end hpos), rfl⟩, hlimit,
    hlimit _ (le_stepsPerByte_mul _), tokens_eq cs, rfl⟩

/-- A variable behind four other bytes is found without a limit, and with one of a step per byte. -/
theorem drain_unlimited_sample :
    byteLength "<@é<V>".toList ≤ 7 ∧ ∃ final,
      Stream.start.drain none "<@é<V>".toList = .ok ([⟨.variable "V" [], 4, 7, 1⟩], final) ∧
      Stream.start.drain (some 7) "<@é<V>".toList = .ok ([⟨.variable "V" [], 4, 7, 1⟩], final) := by
  have hlength : byteLength "<@é<V>".toList ≤ 7 := by decide +kernel
  have hfound : located 0 (tokenize "<@é<V>".toList) = [⟨.variable "V" [], 4, 7, 1⟩] := by
    decide +kernel
  obtain ⟨found, final, hnone, -, -, -, -, hlimit, -, -, rfl⟩ := drain_unlimited "<@é<V>".toList
  rw [← hfound]
  exact ⟨hlength, final, hnone, hlimit 7 hlength⟩

end ShaderTemplates.Template.Offsets
