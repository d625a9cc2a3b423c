import ShaderTemplates.Toml.Quoted

/-!
# Reading quoted texts back

Whichever of the four forms a text is written in, reading it gives the text and leaves what
follows it.  The forms between single marks end at the first mark.  Between triple marks one or
two marks can stand anywhere, also before the closing ones, so these two proofs look at the
marks in front of the reader: they are part of the text unless there are three of them.

* `readText?_quoteChars`: every text is read back;
* `readKey?_quoteKeyChars`: so is every key.
-/

namespace ShaderTemplates.Toml

-- ── Characters ───────────────────────────────────────────────────────────────

@[simp] theorem readThen_some (c : Char) (text rest : List Char) :
    readThen (some c) (some (text, rest)) = some (c :: text, rest) := rfl

/-- The escape of a control character by its code is read as the character. -/
theorem scalar?_code {c : Char} (h : isControl c = true) :
    scalar? ['0', '0', hexDigit (c.toNat / 16), hexDigit (c.toNat % 16)] = some c := by
  have hcodes : ∀ n < 128, n ≤ 31 ∨ n = 127 →
      scalar? ['0', '0', hexDigit (n / 16), hexDigit (n % 16)] = some (Char.ofNat n) := by
    decide
  have hcode : c.toNat ≤ 31 ∨ c.toNat = 127 := by
    simp only [isControl, Bool.or_eq_true, Bool.and_eq_true, decide_eq_true_eq] at h
    exact h.imp And.left id
  have hread := hcodes c.toNat (by omega) hcode
  rwa [Char.ofNat_toNat] at hread

/-- The three shapes of a character between double quotes. -/
inductive Escaped (c : Char) : List Char → Prop
  | short {mark : Char} (h : unescape? mark = some c) : Escaped c ['\\', mark]
  | code (h : isControl c = true) :
      Escaped c ['\\', 'u', '0', '0', hexDigit (c.toNat / 16), hexDigit (c.toNat % 16)]
  | plain (hquote : c ≠ '"') (hslash : c ≠ '\\') (h : isPlain c = true) : Escaped c [c]

theorem escaped_escapeChar (c : Char) : Escaped c (escapeChar c) := by
  rw [escapeChar]
  split
  next h =>
    subst h
    exact .short rfl
  split
  next h =>
    subst h
    exact .short rfl
  split
  next h =>
    subst h
    exact .short rfl
  split
  next h =>
    subst h
    exact .short rfl
  split
  next h =>
    subst h
    exact .short rfl
  split
  next h =>
    subst h
    exact .short rfl
  next hquote =>
    split
    next h =>
      subst h
      exact .short rfl
    next hslash =>
      split
      next h => exact .code h
      next h => exact .plain hquote hslash (by simpa [isPlain] using h)

-- ── Between double quotes ────────────────────────────────────────────────────

/-- A character between double quotes is read as itself. -/
theorem readBasic?_escapeChar (c : Char) (rest : List Char) :
    readBasic? (escapeChar c ++ rest) = readThen (some c) (readBasic? rest) := by
  have hshape := escaped_escapeChar c
  generalize escapeChar c = shape at hshape
  cases hshape with
  | short h =>
      unfold unescape? at h
      split at h <;> cases h <;> rfl
  | code h =>
      show readThen (scalar? _) (readBasic? rest) = _
      rw [scalar?_code h]
  | plain hquote hslash h =>
      show readBasic? (c :: rest) = _
      rw [readBasic?.eq_def]
      split <;> simp_all

theorem readBasic?_escaped (cs rest : List Char) :
    readBasic? (cs.flatMap escapeChar ++ '"' :: rest) = some (cs, rest) := by
  induction cs with
  | nil => rfl
  | cons c cs ih =>
      rw [List.flatMap_cons, List.append_assoc, readBasic?_escapeChar, ih, readThen_some]

-- ── Between apostrophes ──────────────────────────────────────────────────────

theorem readLiteral?_plain {cs : List Char} (hplain : ∀ c ∈ cs, isPlain c = true)
    (hmark : '\'' ∉ cs) (rest : List Char) :
    readLiteral? (cs ++ '\'' :: rest) = some (cs, rest) := by
  induction cs with
  | nil => rfl
  | cons c cs ih =>
      have hc : c ≠ '\'' := fun h => hmark (h ▸ List.mem_cons_self)
      have hcs := ih (fun d hd => hplain d (List.mem_cons_of_mem _ hd))
        (fun h => hmark (List.mem_cons_of_mem _ h))
      rw [List.cons_append, readLiteral?.eq_3 _ _ hc, hcs, hplain c List.mem_cons_self,
        if_pos rfl, readThen_some]

-- ── Between three double quotes ──────────────────────────────────────────────

/-- What ends a text between triple marks. -/
def closing (mark : Char) (rest : List Char) : List Char := mark :: mark :: mark :: rest

/-- A quote that is not followed by two more belongs to the text. -/
theorem readBasicLines?_quote (cs : List Char) (h : ¬ ['"', '"'] <+: cs) :
    readBasicLines? false ('"' :: cs) = readThen (some '"') (readBasicLines? false cs) := by
  rw [readBasicLines?.eq_def]
  split
  all_goals simp_all
  next hc =>
    obtain ⟨rfl, rfl⟩ := hc
    rfl

theorem readBasicLines?_escapeChar (c : Char) (rest : List Char) :
    readBasicLines? false (escapeChar c ++ rest) =
      readThen (some c) (readBasicLines? false rest) := by
  have hshape := escaped_escapeChar c
  generalize escapeChar c = shape at hshape
  cases hshape with
  | short h =>
      unfold unescape? at h
      split at h <;> cases h <;> rfl
  | code h =>
      show readThen (scalar? _) (readBasicLines? false rest) = _
      rw [scalar?_code h]
  | plain hquote hslash h =>
      show readBasicLines? false (c :: rest) = _
      rw [readBasicLines?.eq_def]
      split <;> simp_all

/-- One or two quotes before the closing ones belong to the text. -/
theorem readBasicLines?_closing {rest : List Char} (h : rest.head? ≠ some '"') :
    readBasicLines? false (closing '"' rest) = some ([], rest) ∧
      readBasicLines? false ('"' :: closing '"' rest) = some (['"'], rest) ∧
      readBasicLines? false ('"' :: '"' :: closing '"' rest) = some (['"', '"'], rest) := by
  cases rest with
  | nil => exact ⟨rfl, rfl, rfl⟩
  | cons c rest =>
      have hc : c ≠ '"' := fun hc => h (hc ▸ rfl)
      refine ⟨?_, ?_, rfl⟩
      · exact readBasicLines?.eq_4 _ _ (by simp [hc]) (by simp [hc])
      · exact readBasicLines?.eq_3 _ _ (by simp [hc])

/-- The written text starts with a quote only if the text does and no two quotes stand before. -/
theorem head?_escapeLines {run : Nat} {c : Char} (h : c ≠ '"' ∨ run = 2) (cs more : List Char) :
    (escapeLines run (c :: cs) ++ more).head? ≠ some '"' := by
  have hshape := escaped_escapeChar c
  by_cases hquote : c = '"'
  · subst hquote
    have hrun : run = 2 := h.resolve_left (fun hne => hne rfl)
    rw [escapeLines, if_pos rfl, if_pos hrun]
    simp
  · rw [escapeLines, if_neg hquote]
    split
    · simp
    · generalize escapeChar c = shape at hshape
      cases hshape <;> simp [hquote]

theorem readBasicLines?_escapeLines {rest : List Char} (h : rest.head? ≠ some '"') :
    ∀ (cs : List Char) {run : Nat}, run ≤ 2 →
      readBasicLines? false (escapeLines run cs ++ closing '"' rest) = some (cs, rest) := by
  have hlone : ∀ {cs : List Char}, cs.head? ≠ some '"' → ¬ ['"', '"'] <+: '"' :: cs := by
    rintro cs hne ⟨more, hcs⟩
    exact hne ((List.cons.inj hcs).2 ▸ rfl)
  intro cs
  induction cs with
  | nil => exact fun _ => (readBasicLines?_closing h).1
  | cons c cs ih =>
      intro run hrun
      by_cases hquote : c = '"'
      · subst hquote
        rw [escapeLines, if_pos rfl]
        split
        next =>
          show readBasicLines? false (escapeChar '"' ++ (escapeLines 0 cs ++ closing '"' rest)) = _
          rw [readBasicLines?_escapeChar, ih (by omega), readThen_some]
        next hlt =>
          -- the next two characters decide whether this quote is among the closing ones
          cases cs with
          | nil => exact (readBasicLines?_closing h).2.1
          | cons d cs =>
              have hread := readBasicLines?_quote
                (escapeLines (run + 1) (d :: cs) ++ closing '"' rest)
              rw [ih (by omega)] at hread
              by_cases hd : d ≠ '"' ∨ run + 1 = 2
              · have hhead := head?_escapeLines hd cs (closing '"' rest)
                refine hread ?_
                rintro ⟨more, hmore⟩
                exact hhead (hmore ▸ rfl)
              · obtain ⟨rfl, rfl⟩ : d = '"' ∧ run = 0 := by
                  constructor
                  · exact Classical.not_not.mp fun hne => hd (.inl hne)
                  · have hne : run + 1 ≠ 2 := fun heq => hd (.inr heq)
                    omega
                cases cs with
                | nil => exact (readBasicLines?_closing h).2.2
                | cons e cs =>
                    exact hread (hlone (head?_escapeLines (.inr rfl) cs (closing '"' rest)))
      · rw [escapeLines, if_neg hquote]
        split
        next hbreak =>
          subst hbreak
          show readThen (some '\n') (readBasicLines? false (escapeLines 0 cs ++ closing '"' rest)) = _
          rw [ih (by omega), readThen_some]
        next => rw [List.append_assoc, readBasicLines?_escapeChar, ih (by omega), readThen_some]

-- ── Between three apostrophes ────────────────────────────────────────────────

theorem readLiteralLines?_closing {rest : List Char} (h : rest.head? ≠ some '\'') :
    readLiteralLines? (closing '\'' rest) = some ([], rest) ∧
      readLiteralLines? ('\'' :: closing '\'' rest) = some (['\''], rest) ∧
      readLiteralLines? ('\'' :: '\'' :: closing '\'' rest) = some (['\'', '\''], rest) := by
  cases rest with
  | nil => exact ⟨rfl, rfl, rfl⟩
  | cons c rest =>
      have hc : c ≠ '\'' := fun hc => h (hc ▸ rfl)
      refine ⟨?_, ?_, rfl⟩
      · exact readLiteralLines?.eq_4 _ (by simp [hc]) (by simp [hc])
      · exact readLiteralLines?.eq_3 _ (by simp [hc])

/-- A character that does not start three apostrophes in a row belongs to the text. -/
theorem readLiteralLines?_char {c : Char} {cs : List Char} (hc : isPlain c = true ∨ c = '\n')
    (h : ¬ ['\'', '\'', '\''] <+: c :: cs) :
    readLiteralLines? (c :: cs) = readThen (some c) (readLiteralLines? cs) := by
  rw [readLiteralLines?.eq_def]
  split <;> simp_all

theorem hasTriple_cons_eq_false {mark c : Char} {cs : List Char}
    (h : hasTriple mark (c :: cs) = false) :
    hasTriple mark cs = false ∧ ¬ [mark, mark, mark] <+: c :: cs := by
  match cs with
  | [] => exact ⟨rfl, fun hp => by simpa using hp.length_le⟩
  | [_] => exact ⟨rfl, fun hp => by simpa using hp.length_le⟩
  | a :: b :: cs =>
      rw [hasTriple, Bool.or_eq_false_iff] at h
      refine ⟨h.2, ?_⟩
      rintro ⟨more, hmore⟩
      cases hmore
      simp at h

theorem readLiteralLines?_plain {rest : List Char} (h : rest.head? ≠ some '\'') (cs : List Char)
    (hplain : ∀ c ∈ cs, isPlain c = true ∨ c = '\n') (htriple : hasTriple '\'' cs = false) :
    readLiteralLines? (cs ++ closing '\'' rest) = some (cs, rest) := by
  induction cs with
  | nil => exact (readLiteralLines?_closing h).1
  | cons c cs ih =>
      have ⟨htail, hlead⟩ := hasTriple_cons_eq_false htriple
      have hread := ih (fun d hd => hplain d (List.mem_cons_of_mem _ hd)) htail
      by_cases hends : ¬ ['\'', '\'', '\''] <+: c :: (cs ++ closing '\'' rest)
      · rw [List.cons_append, readLiteralLines?_char (hplain c List.mem_cons_self) hends, hread,
          readThen_some]
      · -- the text ends in one or two apostrophes
        obtain ⟨more, hmore⟩ := Classical.not_not.mp hends
        match cs with
        | [] =>
            cases hmore
            exact (readLiteralLines?_closing h).2.1
        | [d] =>
            cases hmore
            exact (readLiteralLines?_closing h).2.2
        | d :: e :: cs =>
            cases hmore
            exact absurd ⟨cs, rfl⟩ hlead

-- ── Any text, any key ────────────────────────────────────────────────────────

/-- A line break after the opening marks is not part of the text. -/
theorem dropOpeningBreak_openingBreak {cs shown : List Char} {mark : Char} {rest : List Char}
    (hmark : mark ≠ '\n') (hshown : shown.head? = some '\n' → '\n' ∈ cs) :
    dropOpeningBreak (openingBreak cs ++ (shown ++ closing mark rest)) =
      shown ++ closing mark rest := by
  cases hcs : cs.contains '\n' with
  | true =>
      rw [openingBreak, if_pos hcs]
      rfl
  | false =>
      rw [openingBreak, if_neg (by simp only [hcs, Bool.false_eq_true, not_false_eq_true]),
        List.nil_append]
      have hnone : (shown ++ closing mark rest).head? ≠ some '\n' := by
        cases shown with
        | nil => simpa [closing] using hmark
        | cons c shown =>
            intro hc
            have hmem := hshown hc
            rw [← List.contains_iff_mem, hcs] at hmem
            cases hmem
      generalize shown ++ closing mark rest = text at hnone
      unfold dropOpeningBreak
      split
      next => simp at hnone
      next => rfl

theorem readText?_quoteBasic (cs : List Char) {rest : List Char} (h : rest.head? ≠ some '"') :
    readText? (quoteBasic cs ++ rest) = some (cs, rest) := by
  have hread : readBasic? (cs.flatMap escapeChar ++ ['"'] ++ rest) = some (cs, rest) := by
    rw [List.append_assoc]
    exact readBasic?_escaped cs rest
  rw [← hread]
  have hone : ¬ ['"', '"'] <+: cs.flatMap escapeChar ++ ['"'] ++ rest := by
    rintro ⟨more, hmore⟩
    cases cs with
    | nil =>
        cases hmore
        simp at h
    | cons c cs =>
        have hshape := escaped_escapeChar c
        rw [List.flatMap_cons] at hmore
        generalize escapeChar c = shape at hshape hmore
        cases hshape with
        | short => cases hmore
        | code => cases hmore
        | plain hquote => exact hquote (List.cons.inj hmore).1.symm
  show readText? ('"' :: (cs.flatMap escapeChar ++ ['"'] ++ rest)) = _
  generalize cs.flatMap escapeChar ++ ['"'] ++ rest = text at hone
  exact readText?.eq_2 text (by
    rintro more rfl
    exact hone ⟨more, rfl⟩)

theorem readText?_quoteLiteral {cs rest : List Char} (hplain : ∀ c ∈ cs, isPlain c = true)
    (hmark : '\'' ∉ cs) (h : rest.head? ≠ some '\'') :
    readText? (quoteLiteral cs ++ rest) = some (cs, rest) := by
  have hread : readLiteral? (cs ++ ['\''] ++ rest) = some (cs, rest) := by
    rw [List.append_assoc]
    exact readLiteral?_plain hplain hmark rest
  rw [← hread]
  have hone : ¬ ['\'', '\''] <+: cs ++ ['\''] ++ rest := by
    rintro ⟨more, hmore⟩
    cases cs with
    | nil =>
        cases hmore
        simp at h
    | cons c cs => exact hmark ((List.cons.inj hmore).1 ▸ List.mem_cons_self)
  show readText? ('\'' :: (cs ++ ['\''] ++ rest)) = _
  generalize cs ++ ['\''] ++ rest = text at hone
  exact readText?.eq_4 text (by
    rintro more rfl
    exact hone ⟨more, rfl⟩)

theorem readText?_quoteBasicLines (cs : List Char) {rest : List Char}
    (h : rest.head? ≠ some '"') :
    readText? (quoteBasicLines cs ++ rest) = some (cs, rest) := by
  have hshown : (escapeLines 0 cs).head? = some '\n' → '\n' ∈ cs := by
    cases cs with
    | nil => exact fun hnil => by cases hnil
    | cons c cs =>
        intro hc
        rw [escapeLines] at hc
        split at hc
        next => simp at hc
        next =>
          split at hc
          next hbreak => exact hbreak ▸ List.mem_cons_self
          next hbreak =>
            have hshape := escaped_escapeChar c
            generalize escapeChar c = shape at hshape hc
            cases hshape with
            | short => cases hc
            | code => cases hc
            | plain => exact absurd (Option.some.inj hc) hbreak
  have htext : quoteBasicLines cs ++ rest =
      '"' :: '"' :: '"' :: (openingBreak cs ++ (escapeLines 0 cs ++ closing '"' rest)) := by
    simp [quoteBasicLines, closing]
  rw [htext]
  show readBasicLines? false (dropOpeningBreak _) = _
  rw [dropOpeningBreak_openingBreak (by decide) hshown]
  exact readBasicLines?_escapeLines h cs (by omega)

theorem readText?_quoteLiteralLines {cs rest : List Char}
    (hplain : ∀ c ∈ cs, isPlain c = true ∨ c = '\n') (htriple : hasTriple '\'' cs = false)
    (h : rest.head? ≠ some '\'') :
    readText? (quoteLiteralLines cs ++ rest) = some (cs, rest) := by
  have htext : quoteLiteralLines cs ++ rest =
      '\'' :: '\'' :: '\'' :: (openingBreak cs ++ (cs ++ closing '\'' rest)) := by
    simp [quoteLiteralLines, closing]
  rw [htext]
  show readLiteralLines? (dropOpeningBreak _) = _
  rw [dropOpeningBreak_openingBreak (by decide) fun hc => List.mem_of_mem_head? hc]
  exact readLiteralLines?_plain h cs hplain htriple

/-- A text is read back whatever follows it, if that is no quote. -/
theorem readText?_quoteChars (cs : List Char) {rest : List Char} (hquote : rest.head? ≠ some '"')
    (hmark : rest.head? ≠ some '\'') : readText? (quoteChars cs ++ rest) = some (cs, rest) := by
  have hplain : (cs.any fun c => isControl c && c ≠ '\n') = false →
      ∀ c ∈ cs, isPlain c = true ∨ c = '\n' := by
    intro hcontrol c hc
    have hnot := List.any_eq_false.mp hcontrol c hc
    by_cases hbreak : c = '\n'
    · exact .inr hbreak
    · exact .inl (by simpa [isPlain, hbreak] using hnot)
  unfold quoteChars
  dsimp only
  split
  next => exact readText?_quoteBasic cs hquote
  split
  next h =>
    simp only [Bool.and_eq_true, Bool.not_eq_true'] at h
    obtain ⟨⟨hcontrol, hnone⟩, hlines⟩ := h
    refine readText?_quoteLiteral (fun c hc => ?_) (by simpa using hnone) hmark
    refine (hplain hcontrol c hc).resolve_right ?_
    rintro rfl
    simp [hc] at hlines
  split
  next => exact readText?_quoteBasicLines cs hquote
  split
  next h =>
    simp only [Bool.and_eq_true, Bool.not_eq_true'] at h
    exact readText?_quoteLiteralLines (hplain h.1) h.2 hmark
  split
  next => exact readText?_quoteBasicLines cs hquote
  next => exact readText?_quoteBasic cs hquote

/-- A key is read back if no bare character follows it. -/
theorem readKey?_quoteKeyChars (cs rest : List Char)
    (h : ∀ c, rest.head? = some c → isBare c = false) :
    readKey? (quoteKeyChars cs ++ rest) = some (cs, rest) := by
  have hbasic : readKey? (quoteBasic cs ++ rest) = some (cs, rest) := by
    show readBasic? (cs.flatMap escapeChar ++ ['"'] ++ rest) = _
    rw [List.append_assoc]
    exact readBasic?_escaped cs rest
  unfold quoteKeyChars
  dsimp only
  split
  next hbare =>
    simp only [Bool.and_eq_true, Bool.not_eq_true', List.all_eq_true] at hbare
    obtain ⟨hne, hall⟩ := hbare
    have htake : (cs ++ rest).takeWhile isBare = cs ∧ (cs ++ rest).dropWhile isBare = rest := by
      rw [List.takeWhile_append_of_pos hall, List.dropWhile_append_of_pos hall]
      cases rest with
      | nil => simp
      | cons c rest =>
          have hc : ¬ isBare c = true := by rw [h c rfl]; exact Bool.false_ne_true
          rw [List.takeWhile_cons_of_neg hc, List.dropWhile_cons_of_neg hc, List.append_nil]
          exact ⟨rfl, rfl⟩
    have hread : readKey? (cs ++ rest) =
        if ((cs ++ rest).takeWhile isBare).isEmpty then none
        else some ((cs ++ rest).takeWhile isBare, (cs ++ rest).dropWhile isBare) := by
      cases cs with
      | nil => cases hne
      | cons c cs =>
          have hc := hall c List.mem_cons_self
          refine readKey?.eq_3 _ ?_ ?_
          · rintro more hmore
            cases hmore
            exact absurd hc (by decide)
          · rintro more hmore
            cases hmore
            exact absurd hc (by decide)
    rw [hread, htake.1, htake.2, hne]
    rfl
  split
  next => exact hbasic
  split
  next hliteral =>
    simp only [Bool.and_eq_true, Bool.not_eq_true', List.any_eq_false] at hliteral
    show readLiteral? (cs ++ ['\''] ++ rest) = _
    rw [List.append_assoc]
    exact readLiteral?_plain (fun c hc => by simpa [isPlain] using hliteral.1 c hc)
      (by simpa using hliteral.2) rest
  next => exact hbasic

end ShaderTemplates.Toml
