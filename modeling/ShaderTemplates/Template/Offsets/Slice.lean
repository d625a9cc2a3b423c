import ShaderTemplates.Template.Token.Stream

/-!
# Bytes and slices

The reader works on the bytes of a text in UTF-8 and names a stretch of the text by the offsets of
its first byte and of the byte after its last. Such an offset can be wrong in two ways: it can lie
outside of the text, or inside of a character. Here both are errors (`OutOfRange`), so that a
theorem can say that they never happen.

`At cs n rest` states that a character of `cs` ends at offset `n` and that `rest` is what follows.
It is how offsets and texts are compared: a slice exists exactly between two such offsets
(`slice_eq_ok_iff`).
-/

namespace ShaderTemplates.Template.Offsets

/-- The bytes of a text. -/
def utf8 (cs : List Char) : List UInt8 := cs.flatMap String.utf8EncodeChar

/-- An access to a text or to its tokens that fails. -/
inductive OutOfRange where
  /-- There is no byte with this offset. -/
  | byte (n : Nat)
  /-- The text cannot be cut at these offsets. -/
  | slice (start stop : Nat)
  /-- There is no token with this index. -/
  | token (index : Nat)
deriving DecidableEq, Repr

/-- Divides a text behind its first `n` bytes, if a character ends there. -/
def divide? : Nat → List Char → Option (List Char × List Char)
  | 0, cs => some ([], cs)
  | _ + 1, [] => none
  | n + 1, c :: rest =>
    if c.utf8Size ≤ n + 1 then
      (divide? (n + 1 - c.utf8Size) rest).map fun d => (c :: d.1, d.2)
    else none

/-- The text from one offset up to another. -/
def slice (cs : List Char) (start stop : Nat) : Except OutOfRange (List Char) :=
  if start ≤ stop then
    match (divide? start cs).bind fun d => divide? (stop - start) d.2 with
    | some d => .ok d.1
    | none => .error (.slice start stop)
  else .error (.slice start stop)

/-- The text from an offset on. -/
def sliceFrom (cs : List Char) (start : Nat) : Except OutOfRange (List Char) :=
  match divide? start cs with
  | some d => .ok d.2
  | none => .error (.slice start (byteLength cs))

/-- The byte with an offset. -/
def byteAt (bs : List UInt8) (n : Nat) : Except OutOfRange UInt8 :=
  match bs[n]? with
  | some b => .ok b
  | none => .error (.byte n)

/-- The byte before an offset. -/
def byteBefore (bs : List UInt8) : Nat → Except OutOfRange UInt8
  | 0 => .error (.byte 0)
  | n + 1 => byteAt bs n

/-- The bytes from one offset up to another. -/
def byteSlice (bs : List UInt8) (start stop : Nat) : Except OutOfRange (List UInt8) :=
  if start ≤ stop ∧ stop ≤ bs.length then .ok ((bs.drop start).take (stop - start))
  else .error (.slice start stop)

-- ── Lengths ──────────────────────────────────────────────────────────────────

@[simp] theorem utf8_nil : utf8 [] = [] := rfl

theorem utf8_cons (c : Char) (cs : List Char) :
    utf8 (c :: cs) = String.utf8EncodeChar c ++ utf8 cs := rfl

@[simp] theorem utf8_append (a b : List Char) : utf8 (a ++ b) = utf8 a ++ utf8 b :=
  List.flatMap_append

@[simp] theorem utf8_length (cs : List Char) : (utf8 cs).length = byteLength cs := by
  induction cs with
  | nil => rfl
  | cons c cs ih => rw [utf8_cons, List.length_append, String.length_utf8EncodeChar, ih, byteLength]

-- ── Offsets at which a character ends ────────────────────────────────────────

/-- A character ends at the offset, and `rest` is the text after it. -/
def At (cs : List Char) (n : Nat) (rest : List Char) : Prop :=
  ∃ before, before ++ rest = cs ∧ byteLength before = n

theorem at_zero (cs : List Char) : At cs 0 cs := ⟨[], rfl, rfl⟩

theorem at_append (before rest : List Char) : At (before ++ rest) (byteLength before) rest :=
  ⟨before, rfl, rfl⟩

namespace At

variable {cs rest a b : List Char} {c : Char} {n : Nat}

theorem skip (h : At cs n (a ++ rest)) : At cs (n + byteLength a) rest := by
  obtain ⟨before, rfl, rfl⟩ := h
  exact ⟨before ++ a, List.append_assoc _ _ _, byteLength_append _ _⟩

theorem skip_char (h : At cs n (c :: rest)) : At cs (n + c.utf8Size) rest :=
  skip (a := [c]) h

theorem length_eq (h : At cs n rest) : n + byteLength rest = byteLength cs := by
  obtain ⟨before, rfl, rfl⟩ := h
  exact (byteLength_append _ _).symm

theorem utf8_drop (h : At cs n rest) : (utf8 cs).drop n = utf8 rest := by
  obtain ⟨before, rfl, rfl⟩ := h
  rw [utf8_append, ← utf8_length before, List.drop_left]

end At

theorem divide?_append (a rest : List Char) : divide? (byteLength a) (a ++ rest) = some (a, rest) := by
  induction a with
  | nil => unfold divide? byteLength; rfl
  | cons c a ih =>
    have hpos := Char.utf8Size_pos c
    obtain ⟨n, hn⟩ : ∃ n, byteLength (c :: a) = n + 1 :=
      ⟨byteLength (c :: a) - 1, by rw [byteLength]; omega⟩
    have hsize : n + 1 - c.utf8Size = byteLength a := by rw [byteLength] at hn; omega
    rw [hn, List.cons_append, divide?, if_pos (by rw [byteLength] at hn; omega), hsize, ih]
    rfl

theorem divide?_eq_some {n : Nat} {cs : List Char} {d : List Char × List Char}
    (h : divide? n cs = some d) : d.1 ++ d.2 = cs ∧ byteLength d.1 = n := by
  fun_induction divide? n cs generalizing d with
  | case1 => cases h; exact ⟨rfl, rfl⟩
  | case2 => cases h
  | case3 n c rest hle ih =>
    obtain ⟨e, he, rfl⟩ := Option.map_eq_some_iff.1 h
    obtain ⟨happ, hlen⟩ := ih he
    refine ⟨congrArg (c :: ·) happ, ?_⟩
    rw [byteLength, hlen]
    omega
  | case4 => cases h

/-- A slice exists exactly where the text can be cut into what is before it, the slice itself and
    what is after it. -/
theorem slice_eq_ok_iff {cs text : List Char} {start stop : Nat} :
    slice cs start stop = .ok text ↔
      ∃ after, At cs start (text ++ after) ∧ stop = start + byteLength text := by
  constructor
  · intro h
    unfold slice at h
    split at h
    next hle =>
      split at h
      next d hd =>
        obtain ⟨e, he, hd⟩ := Option.bind_eq_some_iff.1 hd
        obtain ⟨happ, hlen⟩ := divide?_eq_some he
        obtain ⟨happ', hlen'⟩ := divide?_eq_some hd
        cases h
        exact ⟨d.2, ⟨e.1, by rw [happ', happ], hlen⟩, by omega⟩
      next => cases h
    next => cases h
  · rintro ⟨after, ⟨before, rfl, rfl⟩, rfl⟩
    unfold slice
    rw [if_pos (Nat.le_add_right _ _), divide?_append, Option.bind_some, Nat.add_sub_cancel_left,
      divide?_append]

theorem sliceFrom_eq_ok_iff {cs text : List Char} {start : Nat} :
    sliceFrom cs start = .ok text ↔ At cs start text := by
  constructor
  · intro h
    unfold sliceFrom at h
    split at h
    next d hd => cases h; exact ⟨d.1, divide?_eq_some hd⟩
    next => cases h
  · rintro ⟨before, rfl, rfl⟩
    unfold sliceFrom
    rw [divide?_append]

theorem At.sliceFrom_eq {cs rest : List Char} {n : Nat} (h : At cs n rest) :
    sliceFrom cs n = .ok rest :=
  sliceFrom_eq_ok_iff.2 h

theorem At.slice_eq {cs text rest : List Char} {n : Nat} (h : At cs n (text ++ rest)) :
    slice cs n (n + byteLength text) = .ok text :=
  slice_eq_ok_iff.2 ⟨rest, h, rfl⟩

-- ── Bytes and characters ─────────────────────────────────────────────────────

/-- A character that is a single byte. -/
def IsAscii (c : Char) : Prop := c.toNat ≤ 127

instance (c : Char) : Decidable (IsAscii c) := inferInstanceAs (Decidable (c.toNat ≤ 127))

theorem utf8EncodeChar_ascii {c : Char} (h : IsAscii c) :
    String.utf8EncodeChar c = [c.toUInt8] := by
  unfold String.utf8EncodeChar
  rw [if_pos (show c.val.toNat ≤ 127 from h)]
  rfl

theorem utf8Size_ascii {c : Char} (h : IsAscii c) : c.utf8Size = 1 := by
  rw [← String.length_utf8EncodeChar, utf8EncodeChar_ascii h]
  rfl

/-- The bytes of all other characters are none of the ASCII bytes. -/
theorem le_of_mem_utf8EncodeChar {c : Char} (h : ¬ IsAscii c) {b : UInt8}
    (hb : b ∈ String.utf8EncodeChar c) : 128 ≤ b.toNat := by
  have h' : ¬ c.val.toNat ≤ 127 := h
  unfold String.utf8EncodeChar at hb
  rw [if_neg h'] at hb
  split at hb
  · simp only [List.mem_cons, List.not_mem_nil, or_false] at hb
    rcases hb with rfl | rfl <;> rw [UInt8.toNat_ofNat'] <;> omega
  · split at hb
    · simp only [List.mem_cons, List.not_mem_nil, or_false] at hb
      rcases hb with rfl | rfl | rfl <;> rw [UInt8.toNat_ofNat'] <;> omega
    · simp only [List.mem_cons, List.not_mem_nil, or_false] at hb
      rcases hb with rfl | rfl | rfl | rfl <;> rw [UInt8.toNat_ofNat'] <;> omega

theorem exists_utf8EncodeChar (c : Char) : ∃ b bs, String.utf8EncodeChar c = b :: bs := by
  refine List.exists_cons_of_length_pos ?_
  rw [String.length_utf8EncodeChar]
  exact Char.utf8Size_pos c

/-- A test of bytes decides every byte of a character as a test of characters decides the
    character. -/
def Reads (p : UInt8 → Bool) (q : Char → Bool) : Prop :=
  ∀ c, ∀ b ∈ String.utf8EncodeChar c, p b = q c

/-- The bytes of a character are an ASCII byte only if the character is that of the byte. -/
theorem eq_toUInt8_iff {a c : Char} (ha : IsAscii a) {b : UInt8}
    (hb : b ∈ String.utf8EncodeChar c) : b = a.toUInt8 ↔ c = a := by
  have hbyte : ∀ x : Char, IsAscii x → x.toUInt8.toNat = x.toNat := fun x hx => by
    have hx' : x.val.toNat ≤ 127 := hx
    show x.val.toUInt8.toNat = x.val.toNat
    rw [UInt32.toNat_toUInt8]
    omega
  by_cases hc : IsAscii c
  · rw [utf8EncodeChar_ascii hc, List.mem_singleton] at hb
    subst hb
    refine ⟨fun h => ?_, congrArg _⟩
    have := congrArg UInt8.toNat h
    rw [hbyte c hc, hbyte a ha] at this
    exact Char.ext (UInt32.toNat_inj.1 this)
  · have hle := le_of_mem_utf8EncodeChar hc hb
    constructor
    · rintro rfl
      rw [hbyte a ha] at hle
      exact absurd (show a.toNat ≤ 127 from ha) (by omega)
    · rintro rfl
      exact absurd ha hc

theorem reads_beq {a : Char} (ha : IsAscii a) : Reads (· == a.toUInt8) (· == a) := fun c b hb => by
  rw [Bool.eq_iff_iff, beq_iff_eq, beq_iff_eq, eq_toUInt8_iff ha hb]

theorem Reads.or {p p' : UInt8 → Bool} {q q' : Char → Bool} (h : Reads p q) (h' : Reads p' q') :
    Reads (fun b => p b || p' b) fun c => q c || q' c :=
  fun c b hb => by simp only [h c b hb, h' c b hb]

theorem Reads.not {p : UInt8 → Bool} {q : Char → Bool} (h : Reads p q) :
    Reads (fun b => !p b) fun c => !q c :=
  fun c b hb => congrArg Bool.not (h c b hb)

/-- The bytes of a character stand next to each other. -/
theorem At.char_byte {cs rest : List Char} {c : Char} {n i : Nat} (h : At cs n (c :: rest))
    (hi : i < c.utf8Size) :
    ∃ b ∈ String.utf8EncodeChar c, (utf8 cs)[n + i]? = some b := by
  have hlen : i < (String.utf8EncodeChar c).length := by rwa [String.length_utf8EncodeChar]
  refine ⟨(String.utf8EncodeChar c)[i], List.getElem_mem hlen, ?_⟩
  rw [← List.getElem?_drop, h.utf8_drop, utf8_cons, List.getElem?_append_left hlen,
    List.getElem?_eq_getElem hlen]

/-- Where a text goes on, it goes on with the first byte of its next character. -/
theorem At.head_byte {cs rest : List Char} {c : Char} {n : Nat} (h : At cs n (c :: rest)) :
    ∃ b ∈ String.utf8EncodeChar c, (utf8 cs)[n]? = some b :=
  h.char_byte (i := 0) (Char.utf8Size_pos c)

theorem At.no_byte {cs : List Char} {n : Nat} (h : At cs n []) : (utf8 cs)[n]? = none := by
  rw [← List.head?_drop, h.utf8_drop]
  rfl

/-- An ASCII byte stands for its character. -/
theorem At.byte_eq_iff {cs rest : List Char} {n : Nat} (h : At cs n rest) {a : Char}
    (ha : IsAscii a) : (utf8 cs)[n]? = some a.toUInt8 ↔ rest.head? = some a := by
  cases rest with
  | nil => simp [h.no_byte]
  | cons c rest =>
    obtain ⟨b, hb, hbyte⟩ := h.head_byte
    rw [hbyte, Option.some_inj, eq_toUInt8_iff ha hb]
    simp

end ShaderTemplates.Template.Offsets
