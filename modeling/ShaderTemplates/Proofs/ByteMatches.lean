import ShaderTemplates.Proofs.MarkerLines
import ShaderTemplates.Template.Offsets.Match

/-!
# Matching on bytes and on characters

A match on the bytes of a text finds what the match on its characters finds, and never looks
outside of the text or cuts a character.  Every theorem here is about an offset at which a character
ends (`At`), and shows that the offsets reached from there are of that kind again.

* `At.scanWhile_eq`: a run of bytes is a run of characters, since the tests look for ASCII
  characters only and no other character has an ASCII byte (`Reads`);
* `matchIf_eq`, `matchElse_eq`, `matchEndBlock_eq` and `matchVariable_eq`: the markers that are
  found where they start;
* `matchBlock_eq`: the header of a block, which is found at its keyword.
-/

namespace ShaderTemplates.Template.Offsets

open Text

-- ── Runs ─────────────────────────────────────────────────────────────────────

theorem scanWhile_eq (bs : List UInt8) (n : Nat) (p : UInt8 → Bool) :
    scanWhile bs n p = n + ((bs.drop n).takeWhile p).length := by
  fun_induction scanWhile bs n p with
  | case1 n h hp ih =>
    rw [ih, List.drop_eq_getElem_cons h, List.takeWhile_cons_of_pos hp, List.length_cons]
    omega
  | case2 n h hp => rw [List.drop_eq_getElem_cons h, List.takeWhile_cons_of_neg hp]; rfl
  | case3 n h => rw [List.drop_eq_nil_of_le (Nat.le_of_not_lt h)]; rfl

theorem utf8_takeWhile {p : UInt8 → Bool} {q : Char → Bool} (h : Reads p q) (cs : List Char) :
    (utf8 cs).takeWhile p = utf8 (cs.takeWhile q) := by
  induction cs with
  | nil => rfl
  | cons c cs ih =>
    rw [utf8_cons]
    cases hc : q c with
    | true =>
      rw [List.takeWhile_append_of_pos fun b hb => (h c b hb).trans hc, ih,
        List.takeWhile_cons_of_pos hc, utf8_cons]
    | false =>
      obtain ⟨b, bs, hb⟩ := exists_utf8EncodeChar c
      have hp : p b = false := (h c b (hb ▸ List.mem_cons_self)).trans hc
      rw [hb, List.cons_append, List.takeWhile_cons_of_neg (by simp [hp]),
        List.takeWhile_cons_of_neg (by simp [hc])]
      rfl

theorem byteLength_eq_zero {cs : List Char} : byteLength cs = 0 ↔ cs = [] := by
  cases cs with
  | nil => exact ⟨fun _ => rfl, fun _ => rfl⟩
  | cons c cs =>
    have := Char.utf8Size_pos c
    rw [byteLength]
    constructor
    · omega
    · rintro h
      cases h

section

variable {cs rest : List Char} {n : Nat} {p : UInt8 → Bool} {q : Char → Bool}

theorem At.scanWhile_eq (h : At cs n rest) (hr : Reads p q) :
    scanWhile (utf8 cs) n p = n + byteLength (rest.takeWhile q) := by
  rw [Offsets.scanWhile_eq, h.utf8_drop, utf8_takeWhile hr, utf8_length]

theorem At.dropWhile (h : At cs n rest) (q : Char → Bool) :
    At cs (n + byteLength (rest.takeWhile q)) (rest.dropWhile q) :=
  At.skip (by rwa [List.takeWhile_append_dropWhile])

/-- A run can be cut out of the text. -/
theorem At.slice_takeWhile (h : At cs n rest) (q : Char → Bool) :
    slice cs n (n + byteLength (rest.takeWhile q)) = .ok (rest.takeWhile q) :=
  At.slice_eq (by rwa [List.takeWhile_append_dropWhile])

end

theorem reads_isInlineBlank : Reads isInlineBlankByte isInlineBlank :=
  ((reads_beq (by decide)).or (reads_beq (by decide))).or (reads_beq (by decide))

theorem reads_isAsciiBlank : Reads isAsciiBlankByte isAsciiBlank :=
  ((((reads_beq (by decide)).or (reads_beq (by decide))).or (reads_beq (by decide))).or
    (reads_beq (by decide))).or (reads_beq (by decide))

theorem reads_isWordChar : Reads isWordByte isWordChar := reads_isAsciiBlank.not

theorem reads_isConditionChar : Reads isConditionByte isConditionChar :=
  ((reads_beq (by decide)).or reads_isAsciiBlank).not

theorem reads_isVariableChar : Reads isVariableByte isVariableChar :=
  ((((reads_beq (by decide)).or (reads_beq (by decide))).or (reads_beq (by decide))).or
    reads_isAsciiBlank).not

theorem reads_isAlternativeChar : Reads isAlternativeByte isAlternativeChar :=
  ((((reads_beq (by decide)).or (reads_beq (by decide))).or (reads_beq (by decide))).or
    reads_isAsciiBlank).not

theorem isAscii_of_isAsciiBlank {c : Char} (h : isAsciiBlank c = true) : IsAscii c := by
  simp only [isAsciiBlank, Bool.or_eq_true, beq_iff_eq] at h
  rcases h with (((h | h) | h) | h) | h <;> subst h <;> decide

/-- The offset behind the blank lines at the end of a header. -/
theorem At.nextLine?_eq {cs rest : List Char} {n : Nat} (h : At cs n rest) (last? : Option Nat) :
    nextLine? (utf8 cs) n last? =
      ((headerEnd? rest).map fun k => n + byteLength (rest.take k)).or last? := by
  induction rest generalizing n last? with
  | nil =>
    have hn : ¬ n < (utf8 cs).length := by
      have := h.length_eq
      rw [utf8_length]
      simp only [byteLength] at this
      omega
    rw [nextLine?, dif_neg hn]
    rfl
  | cons c rest ih =>
    obtain ⟨b, hb, hbyte⟩ := h.head_byte
    obtain ⟨hn, hget⟩ := List.getElem?_eq_some_iff.1 hbyte
    rw [nextLine?, dif_pos hn, hget, reads_isAsciiBlank c b hb, headerEnd?]
    cases hc : isAsciiBlank c with
    | false => rfl
    | true =>
      have hbreak : (b == '\n'.toUInt8) = (c == '\n') := reads_beq (by decide) c b hb
      have hsize : c.utf8Size = 1 := utf8Size_ascii (isAscii_of_isAsciiBlank hc)
      have hskip : At cs (n + 1) rest := hsize ▸ h.skip_char
      rw [if_pos rfl, if_pos rfl, ih hskip, hbreak]
      cases headerEnd? rest with
      | some k =>
        simp only [Option.map_some, Option.some_or, List.take_succ_cons, byteLength, hsize,
          Nat.add_assoc]
      | none =>
        by_cases hnl : c = '\n'
        · simp [hnl, byteLength]
          rfl
        · simp [hnl]

-- ── The parts of markers ─────────────────────────────────────────────────────

/-- The token that a match at the reader gives. -/
def Cursor.tokenOf (s : Cursor) (f : Found) : Token :=
  s.token f.marker s.pos (s.pos + byteLength f.source)

/-- The end of a header is found on the bytes behind what the header consists of so far. -/
theorem At.header_eq {cs taken rest : List Char} {n : Nat} (h : At cs (n + byteLength taken) rest)
    (marker : Marker) :
    nextLine? (utf8 cs) (n + byteLength taken) none =
      (endHeader marker taken rest).map fun f => n + byteLength f.source := by
  rw [h.nextLine?_eq, Option.or_none, endHeader, Option.map_map]
  refine congrArg (fun k => (headerEnd? rest).map k) (funext fun k => ?_)
  simp only [Function.comp_apply, byteLength_append, Nat.add_assoc]

theorem endHeader_marker {marker : Marker} {taken rest : List Char} {f : Found}
    (h : endHeader marker taken rest = some f) : f.marker = marker := by
  obtain ⟨_, _, rfl⟩ := Option.map_eq_some_iff.1 h
  rfl

theorem conditionDefault_eq {cs rest : List Char} {n : Nat} (h : At cs n rest) :
    conditionDefault cs (skipBlanks (utf8 cs) n) =
      .ok ((conditionDefault? rest).map fun d => (d.1, n + byteLength d.2.1)) := by
  have hblanks := h.dropWhile isInlineBlank
  have hcolon := hblanks.byte_eq_iff (a := ':') (by decide)
  rw [skipBlanks, h.scanWhile_eq reads_isInlineBlank, conditionDefault, conditionDefault?]
  dsimp only
  split
  next hbyte =>
    obtain ⟨afterColon, hrest⟩ := List.head?_eq_some_iff.1 (hcolon.1 hbyte)
    rw [hrest] at hblanks ⊢
    have hsize : (':' : Char).utf8Size = 1 := by decide
    have hafter : At cs (n + byteLength (rest.takeWhile isInlineBlank) + 1) afterColon :=
      hblanks.skip_char
    have hgap := hafter.dropWhile isInlineBlank
    rw [skipBlanks, hafter.scanWhile_eq reads_isInlineBlank, hgap.scanWhile_eq reads_isWordChar,
      hgap.slice_takeWhile]
    simp only [List.isEmpty_iff]
    generalize afterColon.takeWhile isInlineBlank = gap
    generalize (afterColon.dropWhile isInlineBlank).takeWhile isWordChar = literal
    have hlen : n + byteLength (rest.takeWhile isInlineBlank ++ ':' :: (gap ++ literal)) =
        n + byteLength (rest.takeWhile isInlineBlank) + 1 + byteLength gap + byteLength literal := by
      rw [byteLength_append, byteLength, byteLength_append, hsize]
      omega
    by_cases hlit : literal = []
    · rw [if_pos hlit, if_neg (by rw [hlit]; exact Nat.lt_irrefl _), Option.map_some, hlen]
    · rw [if_neg hlit, if_pos (by have := mt byteLength_eq_zero.1 hlit; omega), Option.map_map]
      simp only [Except.map, Function.comp_def, hlen]
  next hbyte =>
    split
    next afterColon hrest => exact absurd (hcolon.2 (by rw [hrest]; rfl)) hbyte
    next => rfl

-- ── Conditionals ─────────────────────────────────────────────────────────────

theorem matchIf_eq {cs rest : List Char} {s : Cursor} (h : At cs s.pos (ifKeyword ++ rest)) :
    matchIf cs s = .ok ((ifHeader? (ifKeyword ++ rest)).map s.tokenOf) := by
  have hkeyword := h.skip
  have hgap := hkeyword.dropWhile isInlineBlank
  have hname := hgap.dropWhile isConditionChar
  have hstart := hkeyword.scanWhile_eq reads_isInlineBlank
  have hstop := hgap.scanWhile_eq reads_isConditionChar
  have hdefault := conditionDefault_eq hname
  have hlen : ifKeyword.length = byteLength ifKeyword := by decide
  rw [skipBlanks] at hdefault
  rw [matchIf, ifHeader?, afterKeyword?_prefix, Option.bind_some]
  simp only [skipBlanks, hlen, hstart, hstop, hdefault, hgap.slice_takeWhile, Nat.add_eq_left,
    byteLength_eq_zero, Bool.or_eq_true, List.isEmpty_iff, ok_bind]
  split
  next hempty => rfl
  next hfull =>
    cases hd : conditionDefault? ((rest.dropWhile isInlineBlank).dropWhile isConditionChar) with
    | none => rfl
    | some d =>
      obtain ⟨default?, taken, left⟩ := d
      rw [← conditionDefault?_append hd] at hname
      have hleft : At cs (s.pos + byteLength (ifKeyword ++ (rest.takeWhile isInlineBlank ++
          ((rest.dropWhile isInlineBlank).takeWhile isConditionChar ++ taken)))) left := by
        simpa only [byteLength_append, Nat.add_assoc] using hname.skip
      have hend := hleft.header_eq (.ifHeader (String.ofList
        ((rest.dropWhile isInlineBlank).takeWhile isConditionChar)) default?)
      simp only [byteLength_append, ← Nat.add_assoc] at hend
      simp only [Option.map_some, Option.bind_some, hend]
      cases hf : endHeader _ _ left with
      | none => rfl
      | some f =>
        simp only [Option.map_some, Cursor.tokenOf, endHeader_marker hf]
        rfl

theorem matchElse_eq {cs rest : List Char} {s : Cursor} (h : At cs s.pos (elseKeyword ++ rest)) :
    matchElse cs s = (elseLine? (elseKeyword ++ rest)).map s.tokenOf := by
  have hlen : elseKeyword.length = byteLength elseKeyword := by decide
  rw [matchElse, elseLine?, afterKeyword?_prefix, Option.bind_some, hlen,
    h.skip.header_eq .elseLine]
  cases hf : endHeader .elseLine elseKeyword rest with
  | none => rfl
  | some f =>
    rw [Option.map_some, Option.map_some, Option.map_some, Cursor.tokenOf, endHeader_marker hf]

-- ── Blocks ───────────────────────────────────────────────────────────────────

/-- The header of a block is found at its keyword, with the leaders in front of it. -/
theorem matchBlock_eq {cs rest : List Char} {s : Cursor} (h : At cs s.pos (blockKeyword ++ rest))
    {ahead : List Char} (hahead : leaders false (ahead ++ (blockKeyword ++ rest)) = ahead)
    {start : Nat} (hstart : leaderStart (utf8 cs) s.lastStop s.pos = .ok start)
    (hpos : start + byteLength ahead = s.pos) :
    matchBlock cs s =
      .ok ((blockHeader? (ahead ++ (blockKeyword ++ rest))).map fun f =>
        s.token f.marker start (start + byteLength f.source)) := by
  have hbehind : afterLeaders false (ahead ++ (blockKeyword ++ rest)) = blockKeyword ++ rest := by
    have := leaders_append false (ahead ++ (blockKeyword ++ rest))
    rw [hahead] at this
    exact List.append_cancel_left this
  have hkeyword := h.skip
  have hgap := hkeyword.dropWhile isInlineBlank
  have hname := hgap.dropWhile isWordChar
  have hgapStop := hkeyword.scanWhile_eq reads_isInlineBlank
  have hnameStop := hgap.scanWhile_eq reads_isWordChar
  have hlen : blockKeyword.length = byteLength blockKeyword := by decide
  rw [matchBlock, blockHeader?, hbehind, hahead, afterKeyword?_prefix, Option.bind_some]
  simp only [skipBlanks, hlen, hgapStop, hnameStop, hgap.slice_takeWhile, hstart, Nat.add_eq_left,
    byteLength_eq_zero, Bool.or_eq_true, List.isEmpty_iff, ok_bind]
  split
  next hempty => rfl
  next hfull =>
    have hheader : At cs (start + byteLength (ahead ++ (blockKeyword ++
        (rest.takeWhile isInlineBlank ++ (rest.dropWhile isInlineBlank).takeWhile isWordChar))))
        ((rest.dropWhile isInlineBlank).dropWhile isWordChar) := by
      simpa only [byteLength_append, Nat.add_assoc, ← hpos] using hname
    have hend := hheader.header_eq (.blockHeader (String.ofList
      ((rest.dropWhile isInlineBlank).takeWhile isWordChar)))
    simp only [byteLength_append, ← Nat.add_assoc, hpos] at hend
    rw [hend]
    cases hf : endHeader _ _ ((rest.dropWhile isInlineBlank).dropWhile isWordChar) with
    | none => rfl
    | some f =>
      simp only [Option.map_some, endHeader_marker hf]
      rfl

theorem isPrefixOf_utf8 {keyword : List Char} (h : ∀ c ∈ keyword, IsAscii c) (cs : List Char) :
    (utf8 keyword).isPrefixOf (utf8 cs) = keyword.isPrefixOf cs := by
  induction keyword generalizing cs with
  | nil => cases cs <;> simp [List.isPrefixOf]
  | cons a keyword ih =>
    have ha := h a List.mem_cons_self
    rw [utf8_cons, utf8EncodeChar_ascii ha]
    cases cs with
    | nil => rfl
    | cons c cs =>
      obtain ⟨b, bs, hb⟩ := exists_utf8EncodeChar c
      have hbyte : (b == a.toUInt8) = (c == a) := reads_beq ha c b (hb ▸ List.mem_cons_self)
      rw [utf8_cons, hb, List.cons_append, List.nil_append, List.cons_append,
        List.isPrefixOf_cons_cons, List.isPrefixOf_cons_cons, BEq.comm, hbyte, BEq.comm (a := a)]
      by_cases hc : c = a
      · subst hc
        rw [utf8EncodeChar_ascii ha] at hb
        cases hb
        rw [List.nil_append, ih fun c hc => h c (List.mem_cons_of_mem _ hc)]
      · rw [beq_false_of_ne hc, Bool.false_and, Bool.false_and]

theorem At.byteSlice_eq {cs rest : List Char} {n : Nat} (h : At cs n rest) :
    byteSlice (utf8 cs) n (utf8 cs).length = .ok (utf8 rest) := by
  have hlen := h.length_eq
  rw [byteSlice, if_pos ⟨by rw [utf8_length]; omega, Nat.le_refl _⟩, h.utf8_drop]
  refine congrArg Except.ok (List.take_of_length_le ?_)
  rw [utf8_length, utf8_length]
  omega

theorem isPrefixOf_slashes (cs : List Char) :
    slashes.isPrefixOf (utf8 cs) = ['/', '/'].isPrefixOf cs :=
  isPrefixOf_utf8 (by simp [IsAscii] : ∀ c ∈ ['/', '/'], IsAscii c) cs

theorem skipLeaders_step {bs tail : List UInt8} {n probe : Nat}
    (hprobe : (if bs[n]? = some ':'.toUInt8 then n + 1 else n) = probe)
    (htail : byteSlice bs probe bs.length = .ok tail) :
    skipLeaders bs n =
      if slashes.isPrefixOf tail then skipLeaders bs (skipBlanks bs (probe + 2)) else .ok n := by
  subst hprobe
  rw [skipLeaders]
  split
  next e he => cases htail.symm.trans he
  next tail' htail' =>
    cases htail.symm.trans htail'
    rfl

/-- Comment leaders, with or without a colon, are skipped. -/
theorem skipLeaders_eq {cs rest : List Char} {n : Nat} (h : At cs n rest) :
    skipLeaders (utf8 cs) n = .ok (n + byteLength (leaders true rest)) := by
  have hslash : ('/' : Char).utf8Size = 1 := by decide
  have hcolon : (':' : Char).utf8Size = 1 := by decide
  have hyes : ∀ rest, ['/', '/'].isPrefixOf ('/' :: '/' :: rest) = true := fun _ => rfl
  have hbyte := h.byte_eq_iff (a := ':') (by decide)
  fun_induction leaders true rest generalizing n with
  | case1 rest ih =>
    have hbehind : At cs (n + 2) rest := At.skip (a := ['/', '/']) h
    have hgap := hbehind.dropWhile isInlineBlank
    rw [skipLeaders_step (if_neg (by simp [hbyte])) h.byteSlice_eq, isPrefixOf_slashes,
      if_pos (hyes rest), skipBlanks, hbehind.scanWhile_eq reads_isInlineBlank,
      ih hgap (hgap.byte_eq_iff (by decide))]
    simp only [byteLength, byteLength_append, hslash, ← Nat.add_assoc]
  | case2 rest _ ih =>
    have hprobe : At cs (n + 1) ('/' :: '/' :: rest) := h.skip_char
    have hbehind : At cs (n + 1 + 2) rest := At.skip (a := ['/', '/']) hprobe
    have hgap := hbehind.dropWhile isInlineBlank
    rw [skipLeaders_step (if_pos (hbyte.2 rfl)) hprobe.byteSlice_eq, isPrefixOf_slashes,
      if_pos (hyes rest), skipBlanks, hbehind.scanWhile_eq reads_isInlineBlank,
      ih hgap (hgap.byte_eq_iff (by decide))]
    simp only [byteLength, byteLength_append, hslash, hcolon, ← Nat.add_assoc]
  | case3 rest hc => exact absurd rfl hc
  | case4 rest hslashes hcolons =>
    by_cases hhead : rest.head? = some ':'
    · obtain ⟨tail, rfl⟩ := List.head?_eq_some_iff.1 hhead
      have hprobe : At cs (n + 1) tail := h.skip_char
      have hno : ['/', '/'].isPrefixOf tail = false := by
        rw [Bool.eq_false_iff, ne_eq, List.isPrefixOf_iff_prefix]
        rintro ⟨r, rfl⟩
        exact hcolons r rfl
      rw [skipLeaders_step (if_pos (hbyte.2 rfl)) hprobe.byteSlice_eq, isPrefixOf_slashes, hno]
      rfl
    · have hno : ['/', '/'].isPrefixOf rest = false := by
        rw [Bool.eq_false_iff, ne_eq, List.isPrefixOf_iff_prefix]
        rintro ⟨r, rfl⟩
        exact hslashes r rfl
      rw [skipLeaders_step (if_neg (mt hbyte.1 hhead)) h.byteSlice_eq, isPrefixOf_slashes, hno]
      rfl

theorem matchEndBlock_eq {cs rest : List Char} {s : Cursor} (h : At cs s.pos rest) :
    matchEndBlock cs s = .ok ((endBlock? rest).map s.tokenOf) := by
  have hbehind : At cs (s.pos + byteLength (leaders true rest)) (afterLeaders true rest) :=
    At.skip (by rwa [leaders_append])
  have hlen : byteLength (leaders true rest ++ endBlockKeyword) =
      byteLength (leaders true rest) + endBlockKeyword.length := byteLength_append _ _
  rw [matchEndBlock, skipLeaders_eq h, ok_bind, hbehind.sliceFrom_eq, ok_bind, endBlock?,
    afterKeyword?]
  split
  · rw [Option.map_some, Option.map_some, Cursor.tokenOf, hlen, Nat.add_assoc]
    rfl
  · rfl

-- ── Variables ────────────────────────────────────────────────────────────────

/-- An alternative is added to the ones before it unless it is one of them. -/
theorem eraseDups_snoc (seen : List String) (value : String) :
    (seen ++ [value]).eraseDups =
      if value ∈ seen.eraseDups then seen.eraseDups else seen.eraseDups ++ [value] := by
  rw [List.eraseDups_append]
  by_cases h : value ∈ seen <;> simp [h, List.removeAll, List.eraseDups_cons]

theorem At.afterFirstValue {cs rest : List Char} {n : Nat} (h : At cs n rest) :
    At cs (n + byteLength (firstValueSource rest)) (afterFirstValue rest) := by
  have hblanks := h.dropWhile isInlineBlank
  have hvalue := (hblanks.dropWhile isAlternativeChar).dropWhile isInlineBlank
  simpa only [firstValueSource, firstValue, byteLength_append, Nat.add_assoc,
    Template.afterFirstValue] using hvalue

section

variable {cs rest : List Char} {n : Nat}

theorem alternativesFrom_none (h : At cs (n + 1) rest) (hvalue : firstValue rest = [])
    (seen : List String) : alternativesFrom cs n seen = .ok none := by
  have hstart := h.scanWhile_eq reads_isInlineBlank
  have hstop : scanWhile (utf8 cs) _ isAlternativeByte = _ + byteLength (firstValue rest) :=
    (h.dropWhile isInlineBlank).scanWhile_eq reads_isAlternativeChar
  rw [alternativesFrom]
  simp only [skipBlanks, hstart, hstop, Nat.add_eq_left, byteLength_eq_zero, hvalue, dite_true]

/-- One alternative is read from the bytes as it is from the characters. -/
theorem alternativesFrom_step (h : At cs (n + 1) rest) (hvalue : firstValue rest ≠ [])
    (seen : List String) :
    alternativesFrom cs n seen.eraseDups =
      if (utf8 cs)[n + 1 + byteLength (firstValueSource rest)]? = some '|'.toUInt8 then
        alternativesFrom cs (n + 1 + byteLength (firstValueSource rest))
          (seen ++ [String.ofList (firstValue rest)]).eraseDups
      else
        .ok (some ((seen ++ [String.ofList (firstValue rest)]).eraseDups,
          n + 1 + byteLength (firstValueSource rest))) := by
  have hblanks := h.dropWhile isInlineBlank
  have hstart := h.scanWhile_eq reads_isInlineBlank
  have hstop : scanWhile (utf8 cs) _ isAlternativeByte = _ + byteLength (firstValue rest) :=
    hblanks.scanWhile_eq reads_isAlternativeChar
  have hnext : scanWhile (utf8 cs) (n + 1 + byteLength (rest.takeWhile isInlineBlank) +
      byteLength (firstValue rest)) isInlineBlankByte = n + 1 + byteLength (firstValueSource rest) := by
    rw [firstValueSource, byteLength_append, byteLength_append, ← Nat.add_assoc, ← Nat.add_assoc]
    exact (hblanks.dropWhile isAlternativeChar).scanWhile_eq reads_isInlineBlank
  have htext : slice cs _ (_ + byteLength (firstValue rest)) = .ok (firstValue rest) :=
    hblanks.slice_takeWhile isAlternativeChar
  rw [alternativesFrom]
  simp only [skipBlanks, hstart, hstop, hnext, Nat.add_eq_left, byteLength_eq_zero, hvalue,
    dite_false]
  split
  next e he => cases htext.symm.trans he
  next text htext' =>
    cases htext.symm.trans htext'
    simp only [eraseDups_snoc, dite_eq_ite]

end

/-- The alternatives of a variable are read from the bytes as they are from the characters, up to
    the bracket that has to close them. -/
theorem alternativesFrom_eq {cs rest : List Char} {n : Nat} (h : At cs (n + 1) rest)
    (seen : List String) :
    ∃ found?, alternativesFrom cs n seen.eraseDups = .ok found? ∧
      found?.filter (fun f => (utf8 cs)[f.2]? = some '>'.toUInt8) =
        (alternatives? rest).map fun f => ((seen ++ f.1).eraseDups, n + byteLength f.2.1) := by
  induction hn : rest.length using Nat.strongRecOn generalizing rest n seen with
  | ind len ih =>
    subst hn
    have hafter := h.afterFirstValue
    have hlen := afterFirstValue_length_le rest
    rw [alternatives?_eq]
    simp only [List.isEmpty_iff]
    by_cases hvalue : firstValue rest = []
    · rw [if_pos hvalue]
      exact ⟨none, alternativesFrom_none h hvalue _, rfl⟩
    · rw [alternativesFrom_step h hvalue, if_neg hvalue]
      generalize hnext : n + 1 + byteLength (firstValueSource rest) = next at hafter ⊢
      have hbar := hafter.byte_eq_iff (a := '|') (by decide)
      have hclose := hafter.byte_eq_iff (a := '>') (by decide)
      cases hrest : afterFirstValue rest with
      | nil =>
        rw [hrest] at hbar hclose
        refine ⟨_, if_neg (by simp [hbar]), ?_⟩
        simp [hclose]
      | cons c more =>
        rw [hrest] at hbar hclose hafter hlen
        by_cases hc : c = '|'
        · subst hc
          obtain ⟨found?, hfound, hfilter⟩ := ih more.length
            (by rw [List.length_cons] at hlen; omega) (n := next)
            hafter.skip_char (seen ++ [String.ofList (firstValue rest)]) rfl
          refine ⟨found?, (if_pos (hbar.2 rfl)).trans hfound, ?_⟩
          have hsize : ('|' : Char).utf8Size = 1 := by decide
          have hoffset : ∀ text, next + byteLength text =
              n + byteLength (firstValueSource rest ++ '|' :: text) := fun text => by
            rw [byteLength_append, byteLength, hsize]
            omega
          simp [hfilter, Function.comp_def, hoffset]
        · have hstop : ¬ (utf8 cs)[next]? = some '|'.toUInt8 := by simp [hbar, hc]
          refine ⟨_, if_neg hstop, ?_⟩
          by_cases hc' : c = '>'
          · subst hc'
            have hsize : ('>' : Char).utf8Size = 1 := by decide
            have hoffset : n + byteLength (firstValueSource rest ++ ['>']) = next := by
              rw [byteLength_append, byteLength, hsize, byteLength]
              omega
            simp [hclose, hoffset]
          · simp [hclose, hc, hc']

/-- What follows the name of a variable is read from the bytes as it is from the characters. -/
theorem alternativesAt_eq {cs rest taken : List Char} {s : Cursor} (name : List Char)
    (h : At cs (s.pos + byteLength taken) rest) :
    ∃ found?, alternativesAt cs (s.pos + byteLength taken) = .ok found? ∧
      (found?.filter fun f => (utf8 cs)[f.2]? = some '>'.toUInt8).map (fun f =>
          s.token (.variable (String.ofList name) f.1) s.pos (f.2 + 1)) =
        (variableEnd? name taken rest).map s.tokenOf := by
  have heq := h.byte_eq_iff (a := '=') (by decide)
  have hclose := h.byte_eq_iff (a := '>') (by decide)
  unfold alternativesAt
  cases rest with
  | nil =>
    refine ⟨_, if_neg (by simp [heq]), ?_⟩
    simp [hclose, variableEnd?]
  | cons c rest =>
    by_cases hc : c = '='
    · subst hc
      have hsize : ('=' : Char).utf8Size = 1 := by decide
      obtain ⟨found?, hfound, hfilter⟩ := alternativesFrom_eq h.skip_char []
      refine ⟨found?, (if_pos (heq.2 rfl)).trans hfound, ?_⟩
      have hstop : ∀ text, s.pos + byteLength taken + byteLength text + 1 =
          s.pos + byteLength (taken ++ '=' :: text) := fun text => by
        rw [byteLength_append, byteLength, hsize]
        omega
      simp [hfilter, variableEnd?, Function.comp_def, Cursor.tokenOf, hstop]
    · refine ⟨_, if_neg (by simp [heq, hc]), ?_⟩
      by_cases hc' : c = '>'
      · subst hc'
        have hsize : ('>' : Char).utf8Size = 1 := by decide
        have hstop : s.pos + byteLength taken + 1 = s.pos + byteLength (taken ++ ['>']) := by
          rw [byteLength_append, byteLength, hsize, byteLength]
          omega
        rw [Option.filter_some, if_pos (decide_eq_true (hclose.2 rfl)), Option.map_some, hstop]
        rfl
      · simp [hclose, hc', variableEnd?_of_ne hc' hc]

theorem matchVariable_eq {cs rest : List Char} {s : Cursor} (h : At cs s.pos ('<' :: rest)) :
    matchVariable cs s = .ok ((variableWord? ('<' :: rest)).map s.tokenOf) := by
  have hsize : ('<' : Char).utf8Size = 1 := by decide
  have hopen : At cs (s.pos + 1) rest := h.skip_char
  have hname := hopen.dropWhile isVariableChar
  have hstop := hopen.scanWhile_eq reads_isVariableChar
  have hblanks := hname.scanWhile_eq reads_isInlineBlank
  rw [matchVariable, variableWord?_eq]
  simp only [skipBlanks, hstop, hblanks, hopen.slice_takeWhile, Nat.add_eq_left, byteLength_eq_zero,
    List.isEmpty_iff, ok_bind]
  split
  next hempty => rfl
  next hfull =>
    generalize htaken : '<' :: (rest.takeWhile isVariableChar ++
      (rest.dropWhile isVariableChar).takeWhile isInlineBlank) = taken
    have hlen : s.pos + byteLength taken = s.pos + 1 + byteLength (rest.takeWhile isVariableChar) +
        byteLength ((rest.dropWhile isVariableChar).takeWhile isInlineBlank) := by
      rw [← htaken, byteLength, byteLength_append, hsize]
      omega
    obtain ⟨found?, hfound, hend⟩ := alternativesAt_eq (rest.takeWhile isVariableChar)
      (by rw [hlen]; exact hname.dropWhile isInlineBlank)
    rw [← hlen, hfound, ← hend]
    cases found? with
    | none => rfl
    | some f =>
      simp only [ok_bind, Option.filter_some, decide_eq_true_eq]
      split <;> rfl

end ShaderTemplates.Template.Offsets
