import ShaderTemplates.Proofs.ByteMatches

/-!
# Comment leaders read backwards

A block header is found at its keyword, and the comment leaders that belong to it are gathered
backwards from there.  They are the leaders that reading forwards would have taken, because a run of
leaders is the same from both sides (`IsLeaders`): from the left each leader is `//` with the blanks
behind it, from the right it is a run of blanks with `//` in front of it.

`beforeLeaders` is the walk back on characters, with the text written from right to left;
`leaderStart_eq` states that the walk back on bytes ends where it ends.
-/

namespace ShaderTemplates.Template

open Text

/-- A run of comment leaders. -/
inductive IsLeaders : List Char → Prop where
  | nil : IsLeaders []
  | cons {blanks more : List Char} (hblanks : ∀ c ∈ blanks, isInlineBlank c = true)
      (hmore : IsLeaders more) : IsLeaders ('/' :: '/' :: (blanks ++ more))

theorem isLeaders_leaders (cs : List Char) : IsLeaders (leaders false cs) := by
  fun_induction leaders false cs with
  | case1 rest ih => exact .cons (fun c hc => List.all_eq_true.1 List.all_takeWhile c hc) ih
  | case2 _ hc => cases hc
  | case3 => exact .nil
  | case4 => exact .nil

/-- Leaders in front of an at sign are found there as a whole. -/
theorem IsLeaders.leaders_eq {ahead : List Char} (h : IsLeaders ahead) (colon : Bool)
    (rest : List Char) : leaders colon (ahead ++ '@' :: rest) = ahead := by
  induction h with
  | nil => simp [leaders]
  | @cons blanks more hblanks hmore ih =>
    have hhead : ∀ c, (more ++ '@' :: rest).head? = some c → isInlineBlank c = false := by
      cases hmore with
      | nil => rintro c ⟨⟩; rfl
      | cons => rintro c ⟨⟩; rfl
    have hstop : (more ++ '@' :: rest).takeWhile isInlineBlank = [] ∧
        (more ++ '@' :: rest).dropWhile isInlineBlank = more ++ '@' :: rest := by
      cases hm : more ++ '@' :: rest with
      | nil => exact ⟨rfl, rfl⟩
      | cons c tail =>
        have hc := hhead c (by rw [hm]; rfl)
        exact ⟨List.takeWhile_cons_of_neg (by simp [hc]), List.dropWhile_cons_of_neg (by simp [hc])⟩
    rw [List.cons_append, List.cons_append, List.append_assoc, leaders,
      List.takeWhile_append_of_pos hblanks, List.dropWhile_append_of_pos hblanks, hstop.1, hstop.2,
      ih, List.append_nil]

theorem IsLeaders.afterLeaders_eq {ahead : List Char} (h : IsLeaders ahead) (colon : Bool)
    (rest : List Char) : afterLeaders colon (ahead ++ '@' :: rest) = '@' :: rest := by
  have happ := leaders_append colon (ahead ++ '@' :: rest)
  rw [h.leaders_eq] at happ
  exact List.append_cancel_left happ

/-- Leaders are slashes and blanks. -/
theorem IsLeaders.forall_mem {ahead : List Char} (h : IsLeaders ahead) :
    ∀ c ∈ ahead, c = '/' ∨ isInlineBlank c = true := by
  induction h with
  | nil => exact fun c hc => absurd hc List.not_mem_nil
  | cons hblanks _ ih =>
    intro c hc
    simp only [List.mem_cons, List.mem_append] at hc
    rcases hc with hc | hc | hc | hc
    · exact .inl hc
    · exact .inl hc
    · exact .inr (hblanks c hc)
    · exact ih c hc

-- ── The walk back on characters ──────────────────────────────────────────────

/-- What is left of a text, written from right to left, in front of the comment leaders at its
    end. -/
def beforeLeaders (back : List Char) : List Char :=
  match _h : back.dropWhile isInlineBlank with
  | '/' :: '/' :: rest => beforeLeaders rest
  | _ => back
termination_by back.length
decreasing_by
  have h := (List.dropWhile_sublist isInlineBlank (l := back)).length_le
  rw [_h] at h
  simp only [List.length_cons] at h
  omega

theorem beforeLeaders_slashes {blanks : List Char} (h : ∀ c ∈ blanks, isInlineBlank c = true)
    (rest : List Char) : beforeLeaders (blanks ++ '/' :: '/' :: rest) = beforeLeaders rest := by
  have hdrop : (blanks ++ '/' :: '/' :: rest).dropWhile isInlineBlank = '/' :: '/' :: rest := by
    rw [List.dropWhile_append_of_pos h]
    rfl
  rw [beforeLeaders]
  split
  next rest' hr =>
    cases hdrop.symm.trans hr
    rfl
  next hne => exact absurd hdrop (hne rest)

/-- Leaders at the end of a text are walked over. -/
theorem IsLeaders.beforeLeaders_eq {ahead : List Char} (h : IsLeaders ahead) (back : List Char) :
    beforeLeaders (ahead.reverse ++ back) = beforeLeaders back := by
  induction h generalizing back with
  | nil => rfl
  | @cons blanks more hblanks hmore ih =>
    have hblanks' : ∀ c ∈ blanks.reverse, isInlineBlank c = true := fun c hc =>
      hblanks c (List.mem_reverse.1 hc)
    have htext : ('/' :: '/' :: (blanks ++ more)).reverse ++ back =
        more.reverse ++ (blanks.reverse ++ '/' :: '/' :: back) := by simp
    rw [htext, ih, beforeLeaders_slashes hblanks']

theorem IsLeaders.append {a b : List Char} (ha : IsLeaders a) (hb : IsLeaders b) :
    IsLeaders (a ++ b) := by
  induction ha with
  | nil => exact hb
  | @cons blanks more hblanks _ ih =>
    rw [List.cons_append, List.cons_append, List.append_assoc]
    exact .cons hblanks ih

/-- What is walked over is a run of leaders. -/
theorem exists_isLeaders (back : List Char) :
    ∃ ahead, IsLeaders ahead ∧ ahead.reverse ++ beforeLeaders back = back := by
  fun_induction beforeLeaders back with
  | case1 back rest hrest ih =>
    obtain ⟨ahead, hahead, htext⟩ := ih
    have hlast : IsLeaders ('/' :: '/' :: ((back.takeWhile isInlineBlank).reverse ++ [])) :=
      .cons (fun c hc => List.all_eq_true.1 List.all_takeWhile c (List.mem_reverse.1 hc)) .nil
    refine ⟨_, hahead.append hlast, ?_⟩
    have hback := takeWhile_append_of_dropWhile_eq hrest
    rw [← htext] at hback
    simpa using hback
  | case2 back => exact ⟨[], .nil, rfl⟩

-- ── The walk back on bytes ───────────────────────────────────────────────────

theorem byteLength_reverse (cs : List Char) : byteLength cs.reverse = byteLength cs := by
  induction cs with
  | nil => rfl
  | cons c cs ih =>
    rw [List.reverse_cons, byteLength_append, ih, byteLength, byteLength, byteLength]
    omega

namespace Offsets

variable {cs back rest : List Char} {first : Nat}

/-- An offset moves over a text that is written from right to left. -/
theorem At.skip_back (h : At cs first (back.reverse ++ rest)) :
    At cs (first + byteLength back) rest := byteLength_reverse back ▸ h.skip

theorem byteAt_eq {bs : List UInt8} {n : Nat} {b : UInt8} (h : bs[n]? = some b) :
    byteAt bs n = .ok b := by
  rw [byteAt, h]

theorem byteSlice_pair {bs : List UInt8} {n : Nat} (h : n + 2 ≤ bs.length) :
    byteSlice bs n (n + 2) = .ok [bs[n], bs[n + 1]] := by
  rw [byteSlice, if_pos ⟨Nat.le_add_right _ _, h⟩, Nat.add_sub_cancel_left,
    List.drop_eq_getElem_cons (by omega), List.drop_eq_getElem_cons (by omega)]
  rfl

/-- The last character of a text that is written from right to left. -/
theorem At.last_char {c : Char} (h : At cs first ((c :: back).reverse ++ rest)) :
    At cs first (back.reverse ++ c :: rest) ∧ At cs (first + byteLength back) (c :: rest) := by
  have h' : At cs first (back.reverse ++ c :: rest) := by simpa using h
  exact ⟨h', h'.skip_back⟩

/-- The byte in front of an offset belongs to the last character in front of it. -/
theorem At.last_byte {c : Char} (h : At cs first ((c :: back).reverse ++ rest)) :
    ∃ b ∈ String.utf8EncodeChar c, ∃ n, n + 1 = first + byteLength (c :: back) ∧
      (utf8 cs)[n]? = some b := by
  have hpos := Char.utf8Size_pos c
  obtain ⟨b, hb, hbyte⟩ := h.last_char.2.char_byte (i := c.utf8Size - 1) (by omega)
  refine ⟨b, hb, _, ?_, hbyte⟩
  rw [byteLength]
  omega

/-- The byte in front of an offset can be read, and belongs to the last character in front of it. -/
theorem At.byteBefore_eq {init : List Char} {last : Char} {n : Nat}
    (h : At cs n ((init ++ [last]) ++ rest)) :
    ∃ b ∈ String.utf8EncodeChar last,
      byteBefore (utf8 cs) (n + byteLength (init ++ [last])) = .ok b := by
  have hback : At cs n ((last :: init.reverse).reverse ++ rest) := by simpa using h
  obtain ⟨b, hb, m, hm, hbyte⟩ := hback.last_byte
  have hstop : n + byteLength (init ++ [last]) = m + 1 := by
    rw [hm, ← byteLength_reverse]
    simp
  refine ⟨b, hb, ?_⟩
  rw [hstop, byteBefore, byteAt_eq hbyte]

theorem backOverBlanks_self (bs : List UInt8) (first : Nat) :
    backOverBlanks bs first first = .ok first := by
  cases first with
  | zero => rfl
  | succ n => rw [backOverBlanks, if_neg (Nat.lt_irrefl _)]

theorem backOverBlanks_eq (h : At cs first (back.reverse ++ rest)) :
    backOverBlanks (utf8 cs) first (first + byteLength back) =
      .ok (first + byteLength (back.dropWhile isInlineBlank)) := by
  induction back generalizing rest with
  | nil => exact backOverBlanks_self _ _
  | cons c back ih =>
    obtain ⟨b, hb, n, hn, hbyte⟩ := h.last_byte
    have hlt : first < n + 1 := by
      have := Char.utf8Size_pos c
      rw [hn, byteLength]
      omega
    rw [← hn, backOverBlanks, if_pos hlt, byteAt_eq hbyte]
    dsimp only
    rw [reads_isInlineBlank c b hb]
    cases hc : isInlineBlank c with
    | true =>
      have hsize : c.utf8Size = 1 :=
        utf8Size_ascii (isAscii_of_isAsciiBlank (isAsciiBlank_of_isInlineBlank hc))
      have hn' : n = first + byteLength back := by
        rw [byteLength, hsize] at hn
        omega
      rw [if_pos rfl, hn', ih h.last_char.1, List.dropWhile_cons_of_pos hc]
    | false =>
      rw [if_neg Bool.false_ne_true, hn, List.dropWhile_cons_of_neg (by simp [hc])]

theorem leaderStart_step {bs : List UInt8} {start probe : Nat}
    (h : backOverBlanks bs first start = .ok probe) :
    leaderStart bs first start =
      if first + 2 ≤ probe then
        match byteSlice bs (probe - 2) probe with
        | .error e => .error e
        | .ok two => if two = slashes then leaderStart bs first (probe - 2) else .ok start
      else .ok start := by
  rw [leaderStart]
  split
  next e he => cases h.symm.trans he
  next probe' hprobe =>
    cases h.symm.trans hprobe
    rfl

/-- An ASCII byte in front of an offset is the last character in front of it. -/
theorem At.last_byte_iff {a c : Char} (ha : IsAscii a) {n : Nat}
    (h : At cs first ((c :: back).reverse ++ rest))
    (hn : n + 1 = first + byteLength (c :: back)) :
    (utf8 cs)[n]? = some a.toUInt8 ↔ c = a := by
  obtain ⟨b, hb, n', hn', hbyte⟩ := h.last_byte
  obtain rfl : n = n' := by omega
  rw [hbyte, Option.some_inj, eq_toUInt8_iff ha hb]

/-- Two slashes in front of an offset are the last two characters in front of it. -/
theorem At.last_slashes (h : At cs first (back.reverse ++ rest))
    (hlen : first + 2 ≤ first + byteLength back) :
    ∃ two, byteSlice (utf8 cs) (first + byteLength back - 2) (first + byteLength back) = .ok two ∧
      (two = slashes ↔ ∃ more, back = '/' :: '/' :: more) := by
  have hslash : ('/' : Char).utf8Size = 1 := by decide
  obtain ⟨n, hn⟩ : ∃ n, n + 2 = first + byteLength back := ⟨first + byteLength back - 2, by omega⟩
  have hend : n + 2 ≤ (utf8 cs).length := by
    have := h.skip_back.length_eq
    rw [utf8_length]
    omega
  rw [← hn, Nat.add_sub_cancel]
  refine ⟨_, byteSlice_pair hend, ?_⟩
  have htwo : [(utf8 cs)[n], (utf8 cs)[n + 1]] = slashes ↔
      (utf8 cs)[n]? = some '/'.toUInt8 ∧ (utf8 cs)[n + 1]? = some '/'.toUInt8 := by
    have hlt : n < (utf8 cs).length := by omega
    have hlt' : n + 1 < (utf8 cs).length := by omega
    simp [slashes, List.getElem?_eq_getElem hlt, List.getElem?_eq_getElem hlt']
  rw [htwo]
  cases back with
  | nil => exact absurd hlen (by rw [byteLength]; omega)
  | cons c back =>
    rw [h.last_byte_iff (by decide) hn]
    cases back with
    | nil =>
      constructor
      · rintro ⟨-, rfl⟩
        simp [byteLength, hslash] at hlen
      · rintro ⟨more, hmore⟩
        simp at hmore
    | cons d back =>
      by_cases hc : c = '/'
      · have hn' : n + 1 = first + byteLength (d :: back) := by
          rw [byteLength, hc, hslash] at hn
          omega
        rw [h.last_char.1.last_byte_iff (by decide) hn']
        simp [hc]
      · simp [hc]

/-- The walk back on bytes ends where the walk back on characters ends. -/
theorem leaderStart_eq (h : At cs first (back.reverse ++ rest)) :
    leaderStart (utf8 cs) first (first + byteLength back) =
      .ok (first + byteLength (beforeLeaders back)) := by
  have hslash : ('/' : Char).utf8Size = 1 := by decide
  fun_induction beforeLeaders back generalizing rest with
  | case1 back more hmore ih =>
    have htext : back.reverse ++ rest =
        ('/' :: '/' :: more).reverse ++ ((back.takeWhile isInlineBlank).reverse ++ rest) := by
      rw [← hmore, ← List.append_assoc, ← List.reverse_append, List.takeWhile_append_dropWhile]
    have hprobe := backOverBlanks_eq h
    rw [htext] at h
    rw [hmore] at hprobe
    have hlen : first + byteLength ('/' :: '/' :: more) - 2 = first + byteLength more := by
      rw [byteLength, byteLength, hslash]
      omega
    obtain ⟨two, htwo, hiff⟩ := h.last_slashes (by rw [byteLength, byteLength, hslash]; omega)
    rw [leaderStart_step hprobe, if_pos (by rw [byteLength, byteLength, hslash]; omega), htwo]
    dsimp only
    rw [if_pos (hiff.2 ⟨more, rfl⟩), hlen, ih h.last_char.1.last_char.1]
  | case2 back hne =>
    have htext : back.reverse ++ rest = (back.dropWhile isInlineBlank).reverse ++
        ((back.takeWhile isInlineBlank).reverse ++ rest) := by
      rw [← List.append_assoc, ← List.reverse_append, List.takeWhile_append_dropWhile]
    rw [leaderStart_step (backOverBlanks_eq h)]
    rw [htext] at h
    split
    next hlen =>
      obtain ⟨two, htwo, hiff⟩ := h.last_slashes hlen
      rw [htwo]
      dsimp only
      rw [if_neg fun hs => ?_]
      obtain ⟨more, hmore⟩ := hiff.1 hs
      exact hne more hmore
    next => rfl

end Offsets

end ShaderTemplates.Template
