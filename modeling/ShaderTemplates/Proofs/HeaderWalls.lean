import ShaderTemplates.Proofs.CutTexts
import ShaderTemplates.Proofs.WellFormed

/-!
# Headers that nothing reads past

A marker that starts in front of a word may take up the word into a name or a value, but it ends at
the blank behind the word, unless what stands there fits the marker (`marker?_fence`).  So a text
keeps apart what is read before and behind it if it starts with such a word.

Where the text `@if Name` stands, a marker starts, whatever stands in front of it: no marker that
starts before it goes on behind its at sign (`marker?_wall`).
-/

namespace ShaderTemplates.Template

open Text

-- ── Fences ───────────────────────────────────────────────────────────────────

/-- A word with a blank and another character behind it. -/
def fence (word : List Char) (n : Char) (rest : List Char) : List Char := word ++ ' ' :: n :: rest

/-- The word goes into names and values but not into keywords, and the character behind the blank
    goes on with none of the markers. -/
structure Fence (word : List Char) (n : Char) : Prop where
  start : ∃ c more, word = c :: more ∧ c.isAlpha = false
  fits : word.all (fun c => isConditionChar c && (isVariableChar c && isAlternativeChar c)) = true
  visible : isAsciiBlank n = false
  not_colon : n ≠ ':'
  not_bar : n ≠ '|'
  not_close : n ≠ '>'
  not_equals : n ≠ '='

section Fence

variable {word : List Char} {n : Char} (hf : Fence word n) {r : List Char}

/-- What is left of a text in front of or inside a fence, behind its word. -/
def AtFence (word : List Char) (n : Char) (r z : List Char) : Prop :=
  z = ' ' :: n :: r ∨ z = n :: r ∨ ∃ u, z = u ++ fence word n r

/-- A word ends before the word of the fence, or it takes it up and ends at the blank. -/
theorem dropWhile_word_fence {p : Char → Bool} (hblank : p ' ' = false)
    (hword : ∀ c ∈ word, p c = true) (y : List Char) :
    (y ++ fence word n r).dropWhile p = ' ' :: n :: r ∨
      ∃ u, (y ++ fence word n r).dropWhile p = u ++ fence word n r := by
  have hstop : (y ++ fence word n r).dropWhile p = (y ++ word).dropWhile p ++ ' ' :: n :: r := by
    rw [fence, ← List.append_assoc]
    exact dropWhile_append_stop hblank _ _
  rw [hstop, List.dropWhile_append]
  split
  · rw [dropWhile_eq_nil hword]
    exact .inl rfl
  · exact .inr ⟨y.dropWhile p, List.append_assoc _ _ _⟩

theorem word_fence {p : Char → Bool} (hblank : p ' ' = false) (hword : ∀ c ∈ word, p c = true)
    (y : List Char) : AtFence word n r ((y ++ fence word n r).dropWhile p) := by
  obtain h | h := dropWhile_word_fence hblank hword y
  · exact .inl h
  · exact .inr (.inr h)

/-- A keyword does not go on behind a character that is no letter. -/
theorem afterKeyword?_before {keyword x z t : List Char} {c : Char} (hc : c.isAlpha = false)
    (hkey : keyword.tail.all Char.isAlpha = true)
    (hx : x ≠ [] ∨ afterKeyword? keyword (c :: t) = none)
    (h : afterKeyword? keyword (x ++ c :: t) = some z) : ∃ y, x = keyword ++ y ∧ z = y ++ c :: t := by
  have happ := afterKeyword?_append h
  obtain ⟨a, hxa, hz⟩ | ⟨a, ha, hz⟩ := List.append_eq_append_iff.mp happ
  · exact ⟨a, hxa, hz⟩
  · cases a with
    | nil => exact ⟨[], by simpa using ha.symm, by simpa using hz.symm⟩
    | cons d a =>
        obtain rfl : c = d := (List.cons.inj hz).1
        cases x with
        | nil =>
            rw [List.nil_append] at h
            obtain hx | hx := hx
            · exact absurd rfl hx
            · rw [h] at hx
              cases hx
        | cons d x =>
            have hmem : c ∈ keyword.tail := by
              rw [ha]
              exact List.mem_append_right x List.mem_cons_self
            rw [List.all_eq_true.mp hkey c hmem] at hc
            cases hc

include hf

theorem Fence.chars : ∀ c ∈ word,
    isConditionChar c = true ∧ isVariableChar c = true ∧ isAlternativeChar c = true := by
  intro c hc
  have hfits := List.all_eq_true.mp hf.fits c hc
  rwa [Bool.and_eq_true, Bool.and_eq_true] at hfits

theorem Fence.inline_visible : isInlineBlank n = false :=
  not_inlineBlank_of_wordChar (by rw [isWordChar, hf.visible]; rfl)

/-- A fence starts with a character that is no blank and closes nothing. -/
theorem Fence.head : ∃ c more, fence word n r = c :: more ∧ c.isAlpha = false ∧
    isConditionChar c = true ∧ isVariableChar c = true ∧ isAlternativeChar c = true ∧
    isAsciiBlank c = false := by
  obtain ⟨c, more, rfl, hc⟩ := hf.start
  obtain ⟨hcondition, hvariable, halternative⟩ := hf.chars c List.mem_cons_self
  refine ⟨c, _, rfl, hc, hcondition, hvariable, halternative, ?_⟩
  have hword := wordChar_of_conditionChar hcondition
  simpa [isWordChar] using hword

theorem dropWhile_blanks_fence (y : List Char) :
    (y ++ fence word n r).dropWhile isInlineBlank =
      y.dropWhile isInlineBlank ++ fence word n r := by
  obtain ⟨c, more, hhead, -, hcondition, -⟩ := hf.head (r := r)
  rw [hhead]
  exact dropWhile_append_stop
    (not_inlineBlank_of_wordChar (wordChar_of_conditionChar hcondition)) y _

/-- A keyword does not take up a part of the fence. -/
theorem keyword_fence {keyword x z : List Char} (hkey : keyword.tail.all Char.isAlpha = true)
    (hx : x ≠ []) (h : afterKeyword? keyword (x ++ fence word n r) = some z) :
    ∃ y, z = y ++ fence word n r := by
  obtain ⟨c, more, hhead, hc, -⟩ := hf.head (r := r)
  rw [hhead] at h ⊢
  obtain ⟨y, -, hy⟩ := afterKeyword?_before hc hkey (.inl hx) h
  exact ⟨y, hy⟩

theorem endHeader_fence {m : Marker} {taken z : List Char} {f : Found} (hz : AtFence word n r z)
    (h : endHeader m taken z = some f) : ∃ y, f.rest = y ++ fence word n r := by
  obtain ⟨k, hk, rfl⟩ := Option.map_eq_some_iff.mp h
  obtain rfl | rfl | ⟨u, rfl⟩ := hz
  · have hnone := headerEnd?_stop hf.visible [' '] r
    rw [List.singleton_append, hk] at hnone
    cases hnone
  · have hnone := headerEnd?_stop hf.visible [] r
    rw [List.nil_append, hk] at hnone
    cases hnone
  · obtain ⟨c, more, hhead, -, -, -, -, hblank⟩ := hf.head (r := r)
    rw [hhead] at hk ⊢
    have hu : headerEnd? (u ++ c :: more) = headerEnd? u := headerEnd?_stop hblank u _
    rw [hk] at hu
    exact ⟨u.drop k, List.drop_append_of_le_length (headerEnd?_le hu.symm)⟩

theorem conditionDefault?_fence {z : List Char} {found : Option Bool × List Char × List Char}
    (hz : AtFence word n r z) (h : conditionDefault? z = some found) :
    AtFence word n r found.2.2 := by
  have hwords : ∀ c ∈ word, isWordChar c = true := fun c hc =>
    wordChar_of_conditionChar (hf.chars c hc).1
  rw [conditionDefault?_eq] at h
  generalize z.takeWhile isInlineBlank = blanks at h
  have hafter : z.dropWhile isInlineBlank = n :: r ∨
      ∃ u, z.dropWhile isInlineBlank = u ++ fence word n r := by
    obtain rfl | rfl | ⟨u, rfl⟩ := hz
    · left
      rw [List.dropWhile_cons_of_pos rfl, List.dropWhile_cons_of_neg (by simp [hf.inline_visible])]
    · left
      rw [List.dropWhile_cons_of_neg (by simp [hf.inline_visible])]
    · exact .inr ⟨_, dropWhile_blanks_fence hf u⟩
  obtain hafter | ⟨u, hafter⟩ := hafter
  · rw [hafter, defaultAt?_of_ne hf.not_colon] at h
    cases h
    exact .inr (.inl rfl)
  · rw [hafter] at h
    cases u with
    | nil =>
        obtain ⟨c, more, hhead, -, hcondition, -⟩ := hf.head (r := r)
        have hcolon : c ≠ ':' := by rintro rfl; cases hcondition
        rw [List.nil_append, hhead, defaultAt?_of_ne hcolon] at h
        cases h
        exact .inr (.inr ⟨[], hhead.symm⟩)
    | cons c u =>
        by_cases hc : c = ':'
        · subst hc
          rw [List.cons_append, defaultAt?, dropWhile_blanks_fence hf] at h
          have hliteral := word_fence (n := n) (r := r) (p := isWordChar) rfl hwords
            (u.dropWhile isInlineBlank)
          split at h
          · cases h
            exact hliteral
          · obtain ⟨value, -, rfl⟩ := Option.map_eq_some_iff.mp h
            exact hliteral
        · rw [List.cons_append, defaultAt?_of_ne hc] at h
          cases h
          exact .inr (.inr ⟨c :: u, rfl⟩)

/-- What follows the name of a block is left in front of the fence or inside it. -/
theorem blanks_name_fence (y : List Char) :
    AtFence word n r
      (((y ++ fence word n r).dropWhile isInlineBlank).dropWhile isWordChar) := by
  rw [dropWhile_blanks_fence hf]
  exact word_fence rfl (fun c hc => wordChar_of_conditionChar (hf.chars c hc).1) _

theorem ifHeader?_fence {x : List Char} (hx : x ≠ []) {f : Found}
    (h : ifHeader? (x ++ fence word n r) = some f) : ∃ y, f.rest = y ++ fence word n r := by
  obtain ⟨z, hkey, h⟩ := Option.bind_eq_some_iff.mp h
  obtain ⟨y, rfl⟩ := keyword_fence hf (by decide) hx hkey
  dsimp only at h
  split at h
  · cases h
  · obtain ⟨found, hdefault, h⟩ := Option.bind_eq_some_iff.mp h
    rw [dropWhile_blanks_fence hf] at hdefault
    have hname := word_fence (n := n) (r := r) (p := isConditionChar) rfl
      (fun c hc => (hf.chars c hc).1) (y.dropWhile isInlineBlank)
    exact endHeader_fence hf (conditionDefault?_fence hf hname hdefault) h

theorem elseLine?_fence {x : List Char} (hx : x ≠ []) {f : Found}
    (h : elseLine? (x ++ fence word n r) = some f) : ∃ y, f.rest = y ++ fence word n r := by
  obtain ⟨z, hkey, h⟩ := Option.bind_eq_some_iff.mp h
  obtain ⟨y, rfl⟩ := keyword_fence hf (by decide) hx hkey
  exact endHeader_fence hf (.inr (.inr ⟨y, rfl⟩)) h

theorem endIf?_fence {x : List Char} (hx : x ≠ []) {f : Found}
    (h : endIf? (x ++ fence word n r) = some f) : ∃ y, f.rest = y ++ fence word n r := by
  obtain ⟨z, hkey, rfl⟩ := Option.map_eq_some_iff.mp h
  exact keyword_fence hf (by decide) hx hkey

/-- Behind a word and the blanks after it stands what was there before the fence, or the character
    behind its blank. -/
theorem blanks_word_fence {p : Char → Bool} (hblank : p ' ' = false)
    (hword : ∀ c ∈ word, p c = true) (y : List Char) :
    ((y ++ fence word n r).dropWhile p).dropWhile isInlineBlank = n :: r ∨
      ∃ u, ((y ++ fence word n r).dropWhile p).dropWhile isInlineBlank = u ++ fence word n r ∧
        u.length ≤ y.length := by
  obtain h | ⟨u, h⟩ := dropWhile_word_fence (n := n) (r := r) hblank hword y
  · left
    rw [h, List.dropWhile_cons_of_pos rfl,
      List.dropWhile_cons_of_neg (by simp [hf.inline_visible])]
  · right
    have hlen := (List.dropWhile_sublist p (l := y ++ fence word n r)).length_le
    have hlen' := (List.dropWhile_sublist isInlineBlank (l := u)).length_le
    rw [h] at hlen
    simp only [List.length_append] at hlen
    exact ⟨_, by rw [h, dropWhile_blanks_fence hf], by omega⟩

theorem alternatives?_fence {y : List Char} {found : List String × List Char × List Char}
    (h : alternatives? (y ++ fence word n r) = some found) :
    ∃ z, found.2.2 = z ++ fence word n r := by
  induction hlen : y.length using Nat.strongRecOn generalizing y found with
  | ind k ih =>
      subst hlen
      have hafter : afterFirstValue (y ++ fence word n r) = n :: r ∨
          ∃ u, afterFirstValue (y ++ fence word n r) = u ++ fence word n r ∧
            u.length ≤ y.length := by
        have hlen := (List.dropWhile_sublist isInlineBlank (l := y)).length_le
        rw [afterFirstValue, dropWhile_blanks_fence hf]
        obtain h | ⟨u, h, hu⟩ := blanks_word_fence hf (r := r) (p := isAlternativeChar) rfl
          (fun c hc => (hf.chars c hc).2.2) (y.dropWhile isInlineBlank)
        · exact .inl h
        · exact .inr ⟨u, h, by omega⟩
      rw [alternatives?_eq] at h
      split at h
      · cases h
      · obtain hafter | ⟨u, hafter, hu⟩ := hafter
        · simp [hafter, hf.not_bar, hf.not_close] at h
        · rw [hafter] at h
          cases u with
          | nil =>
              obtain ⟨c, more, hhead, -, -, -, halternative, -⟩ := hf.head (r := r)
              have hbar : c ≠ '|' := by rintro rfl; cases halternative
              have hclose : c ≠ '>' := by rintro rfl; cases halternative
              simp [hhead, hbar, hclose] at h
          | cons c u =>
              by_cases hbar : c = '|'
              · subst hbar
                obtain ⟨found', hmore, rfl⟩ := Option.map_eq_some_iff.mp h
                have hshort : u.length < y.length := by
                  rw [List.length_cons] at hu
                  omega
                have hrest := ih u.length hshort hmore rfl
                exact hrest
              · by_cases hclose : c = '>'
                · subst hclose
                  cases h
                  exact ⟨u, rfl⟩
                · simp [hbar, hclose] at h

theorem variableWord?_fence {x : List Char} (hx : x ≠ []) {f : Found}
    (h : variableWord? (x ++ fence word n r) = some f) : ∃ y, f.rest = y ++ fence word n r := by
  obtain ⟨c, x, rfl⟩ := List.exists_cons_of_ne_nil hx
  by_cases hopen : c = '<'
  · subst hopen
    rw [List.cons_append, variableWord?_eq] at h
    split at h
    · cases h
    · obtain hafter | ⟨u, hafter, -⟩ := blanks_word_fence hf (r := r) (p := isVariableChar) rfl
        (fun c hc => (hf.chars c hc).2.1) x
      · rw [hafter, variableEnd?_of_ne hf.not_close hf.not_equals] at h
        cases h
      · rw [hafter] at h
        cases u with
        | nil =>
            obtain ⟨c, more, hhead, -, -, hvariable, -⟩ := hf.head (r := r)
            have hclose : c ≠ '>' := by rintro rfl; cases hvariable
            have heq : c ≠ '=' := by rintro rfl; cases hvariable
            rw [List.nil_append, hhead, variableEnd?_of_ne hclose heq] at h
            cases h
        | cons c u =>
            by_cases hclose : c = '>'
            · subst hclose
              cases h
              exact ⟨u, rfl⟩
            · by_cases heq : c = '='
              · subst heq
                obtain ⟨found, hmore, rfl⟩ := Option.map_eq_some_iff.mp h
                exact alternatives?_fence hf hmore
              · rw [List.cons_append, variableEnd?_of_ne hclose heq] at h
                cases h
  · rw [List.cons_append, variableWord?_of_ne hopen] at h
    cases h

/-- A marker in front of a fence does not take up a part of it, unless it is one of a block. -/
theorem marker?_fence {b : Bool} {x : List Char} (hx : x ≠ []) {f : Found}
    (h : marker? b (x ++ fence word n r) = some f) :
    (∃ y, f.rest = y ++ fence word n r) ∨ blockHeader? (x ++ fence word n r) = some f ∨
      endBlock? (x ++ fence word n r) = some f := by
  obtain h | h | h | ⟨-, h | h | h⟩ := marker?_eq_some h
  · exact .inl (variableWord?_fence hf hx h)
  · exact .inl (ifHeader?_fence hf hx h)
  · exact .inr (.inl h)
  · exact .inl (elseLine?_fence hf hx h)
  · exact .inl (endIf?_fence hf hx h)
  · exact .inr (.inr h)

end Fence

-- ── Walls ────────────────────────────────────────────────────────────────────

/-- The beginning of a header, with a name that starts with `n`. -/
def wall (n : Char) (rest : List Char) : List Char := ifKeyword ++ ' ' :: n :: rest

theorem not_asciiBlank_of_nameChar {c : Char} (h : isNameChar c = true) :
    isAsciiBlank c = false := by
  cases hblank : isAsciiBlank c with
  | false => rfl
  | true =>
      simp only [isAsciiBlank, Bool.or_eq_true, beq_iff_eq] at hblank
      obtain (((rfl | rfl) | rfl) | rfl) | rfl := hblank <;> revert h <;> decide

theorem ne_of_nameChar {c d : Char} (h : isNameChar c = true) (hd : isNameChar d = false) :
    c ≠ d := by
  rintro rfl
  rw [hd] at h
  cases h

theorem fence_wall {n : Char} (hn : isNameChar n = true) : Fence ifKeyword n where
  start := ⟨'@', _, rfl, by decide⟩
  fits := by decide
  visible := not_asciiBlank_of_nameChar hn
  not_colon := ne_of_nameChar hn (by decide)
  not_bar := ne_of_nameChar hn (by decide)
  not_close := ne_of_nameChar hn (by decide)
  not_equals := ne_of_nameChar hn (by decide)

section Wall

variable {n : Char} (hn : isNameChar n = true) {r : List Char}

theorem afterLeaders_wall (colon : Bool) (x : List Char) :
    afterLeaders colon (x ++ wall n r) = afterLeaders colon x ++ wall n r :=
  afterLeaders_append rfl (by decide) (by decide) colon x _

theorem endBlock?_wall {x : List Char} {f : Found} (h : endBlock? (x ++ wall n r) = some f) :
    ∃ y, f.rest = y ++ wall n r := by
  obtain ⟨z, hkey, rfl⟩ := Option.map_eq_some_iff.mp h
  rw [afterLeaders_wall] at hkey
  obtain ⟨y, -, hy⟩ := afterKeyword?_before (by decide) (by decide) (.inr rfl) hkey
  exact ⟨y, hy⟩

include hn

theorem blockHeader?_wall {x : List Char} {f : Found}
    (h : blockHeader? (x ++ wall n r) = some f) : ∃ y, f.rest = y ++ wall n r := by
  obtain ⟨z, hkey, h⟩ := Option.bind_eq_some_iff.mp h
  rw [afterLeaders_wall] at hkey
  obtain ⟨y, -, hy⟩ := afterKeyword?_before (by decide) (by decide) (.inr rfl) hkey
  obtain rfl : z = y ++ fence ifKeyword n r := hy
  dsimp only at h
  split at h
  · cases h
  · exact endHeader_fence (fence_wall hn) (blanks_name_fence (fence_wall hn) y) h

/-- A marker in front of the header does not go on behind the at sign of the header. -/
theorem marker?_wall {b : Bool} {x : List Char} (hx : x ≠ []) {f : Found}
    (h : marker? b (x ++ wall n r) = some f) : ∃ y, f.rest = y ++ wall n r := by
  obtain h | h | h := marker?_fence (fence_wall hn) hx h
  · exact h
  · exact blockHeader?_wall hn h
  · exact endBlock?_wall h

end Wall

end ShaderTemplates.Template
