import ShaderTemplates.Proofs.MarkerLines

/-!
# Markers and what follows their line

A marker sees of the text behind its line only that there is a line break; a header takes the
blank lines behind it as well.  So two texts that agree up to the end of a line have the same
marker at their start, whatever comes after that line and whatever blanks stand at its end
(`marker?_alike`).
-/

namespace ShaderTemplates.Template

open Text

/-- The end of a line, which may have blanks, and the text behind it. -/
def Breaks (tail after : List Char) : Prop :=
  ∃ blanks, (∀ c ∈ blanks, isInlineBlank c = true) ∧ tail = blanks ++ '\n' :: after

theorem breaks_plain (after : List Char) : Breaks ('\n' :: after) after :=
  ⟨[], by simp, rfl⟩

theorem noBlank_of_any {keyword : List Char} (h : keyword.any isAsciiBlank = false) :
    ∀ c ∈ keyword, isAsciiBlank c = false :=
  fun c hc => Bool.eq_false_iff.mpr (List.any_eq_false.mp h c hc)

theorem isWordChar_of_blank (c : Char) (h : isAsciiBlank c = true) : isWordChar c = false := by
  simp [isWordChar, h]

-- ── Runs that meet the end of a line ─────────────────────────────────────────

section Tails

variable {tail after : List Char} (ht : Breaks tail after)
include ht

theorem Breaks.head : ∃ c rest, tail = c :: rest ∧ isAsciiBlank c = true := by
  obtain ⟨blanks, hb, rfl⟩ := ht
  cases blanks with
  | nil => exact ⟨'\n', after, rfl, rfl⟩
  | cons c blanks =>
      exact ⟨c, _, rfl, isAsciiBlank_of_isInlineBlank (hb c List.mem_cons_self)⟩

/-- A word does not go past the end of its line. -/
theorem Breaks.word {p : Char → Bool} (hp : ∀ c, isAsciiBlank c = true → p c = false)
    (x : List Char) :
    (x ++ tail).takeWhile p = x.takeWhile p ∧ (x ++ tail).dropWhile p = x.dropWhile p ++ tail := by
  obtain ⟨c, rest, rfl, hc⟩ := ht.head
  exact ⟨takeWhile_append_stop (hp c hc) x rest, dropWhile_append_stop (hp c hc) x rest⟩

/-- Blanks go up to the line break, or they end before. -/
theorem Breaks.blanks (x : List Char) :
    x.dropWhile isInlineBlank = [] ∧ (x ++ tail).dropWhile isInlineBlank = '\n' :: after ∨
      x.dropWhile isInlineBlank ≠ [] ∧
        (x ++ tail).takeWhile isInlineBlank = x.takeWhile isInlineBlank ∧
        (x ++ tail).dropWhile isInlineBlank = x.dropWhile isInlineBlank ++ tail := by
  induction x with
  | nil =>
      obtain ⟨blanks, hb, rfl⟩ := ht
      exact .inl ⟨rfl, dropWhile_run hb rfl after⟩
  | cons c x ih =>
      rw [List.cons_append]
      cases hc : isInlineBlank c with
      | false =>
          refine .inr ⟨?_, ?_, ?_⟩
          · rw [List.dropWhile_cons_of_neg (by simp [hc])]
            exact List.cons_ne_nil _ _
          · rw [List.takeWhile_cons_of_neg (by simp [hc]),
              List.takeWhile_cons_of_neg (by simp [hc])]
          · rw [List.dropWhile_cons_of_neg (by simp [hc]),
              List.dropWhile_cons_of_neg (by simp [hc])]
            rfl
      | true =>
          rw [List.dropWhile_cons_of_pos hc, List.dropWhile_cons_of_pos hc,
            List.takeWhile_cons_of_pos hc, List.takeWhile_cons_of_pos hc]
          obtain ⟨h1, h2⟩ | ⟨h1, h2, h3⟩ := ih
          · exact .inl ⟨h1, h2⟩
          · exact .inr ⟨h1, by rw [h2], h3⟩

/-- A keyword does not go past the end of its line. -/
theorem Breaks.keyword {keyword : List Char} (hk : ∀ c ∈ keyword, isAsciiBlank c = false)
    (x : List Char) :
    afterKeyword? keyword (x ++ tail) = (afterKeyword? keyword x).map (· ++ tail) := by
  have hprefix : keyword.isPrefixOf (x ++ tail) = keyword.isPrefixOf x := by
    obtain ⟨c, rest, rfl, hc⟩ := ht.head
    induction keyword generalizing x with
    | nil => rfl
    | cons k keyword ih =>
        cases x with
        | nil =>
            have hne : k ≠ c := by
              rintro rfl
              rw [hk k List.mem_cons_self] at hc
              cases hc
            simp [List.isPrefixOf, hne]
        | cons y x =>
            rw [List.cons_append, List.isPrefixOf, List.isPrefixOf,
              ih (fun c hc => hk c (List.mem_cons_of_mem _ hc))]
  rw [afterKeyword?, afterKeyword?, hprefix]
  split
  · next h =>
      obtain ⟨rest, rfl⟩ := List.isPrefixOf_iff_prefix.mp h
      simp
  · rfl

/-- Header blanks end on the line or go on through the blank lines behind it. -/
theorem Breaks.headerEnd (x : List Char) :
    headerEnd? (x ++ tail) = none ∧ headerEnd? (x ++ ['\n']) = none ∨
      (∃ n y, headerEnd? (x ++ tail) = some n ∧ headerEnd? (x ++ ['\n']) = some n ∧
        (x ++ tail).drop n = y ++ tail ∧ (x ++ ['\n']).drop n = y ++ ['\n']) ∨
      ∃ n m, headerEnd? (x ++ tail) = some n ∧ headerEnd? (x ++ ['\n']) = some m ∧
        (x ++ tail).drop n = afterBlankLines after ∧ (x ++ ['\n']).drop m = [] := by
  induction x with
  | nil =>
      refine .inr (.inr ?_)
      obtain ⟨blanks, hb, rfl⟩ := ht
      have hplain : ∃ n, headerEnd? ('\n' :: after) = some n ∧
          ('\n' :: after).drop n = afterBlankLines after := by
        rw [headerEnd?, afterBlankLines]
        cases headerEnd? after with
        | none => exact ⟨1, rfl, rfl⟩
        | some n => exact ⟨n + 1, rfl, rfl⟩
      have hblanks : ∃ n, headerEnd? (blanks ++ '\n' :: after) = some n ∧
          (blanks ++ '\n' :: after).drop n = afterBlankLines after := by
        induction blanks with
        | nil => exact hplain
        | cons c blanks ih =>
            obtain ⟨n, hn, hd⟩ := ih fun c hc => hb c (List.mem_cons_of_mem _ hc)
            have hc := isAsciiBlank_of_isInlineBlank (hb c List.mem_cons_self)
            exact ⟨n + 1, by rw [List.cons_append, headerEnd?, if_pos hc, hn], hd⟩
      obtain ⟨n, hn, hd⟩ := hblanks
      exact ⟨n, 1, hn, rfl, hd, rfl⟩
  | cons c x ih =>
      rw [List.cons_append, List.cons_append, headerEnd?, headerEnd?]
      by_cases hc : isAsciiBlank c = true
      · rw [if_pos hc, if_pos hc]
        obtain ⟨h1, h2⟩ | ⟨n, y, h1, h2, h3, h4⟩ | ⟨n, m, h1, h2, h3, h4⟩ := ih
        · rw [h1, h2]
          by_cases hbreak : c = '\n'
          · exact .inr (.inl ⟨1, x, if_pos hbreak, if_pos hbreak, rfl, rfl⟩)
          · exact .inl ⟨if_neg hbreak, if_neg hbreak⟩
        · rw [h1, h2]
          exact .inr (.inl ⟨n + 1, y, rfl, rfl, h3, h4⟩)
        · rw [h1, h2]
          exact .inr (.inr ⟨n + 1, m + 1, rfl, rfl, h3, h4⟩)
      · rw [if_neg hc, if_neg hc]
        exact .inl ⟨rfl, rfl⟩

end Tails

-- ── Texts without a leader ───────────────────────────────────────────────────

/-- No comment leader stands at the start of the text. -/
structure NoLeader (cs : List Char) : Prop where
  slashes : ∀ rest, cs ≠ '/' :: '/' :: rest
  colon : ∀ rest, cs ≠ ':' :: '/' :: '/' :: rest

/-- A leader does not start in front of another character and end behind it. -/
theorem NoLeader.append {x : List Char} (h : NoLeader x) {c : Char} (hslash : c ≠ '/')
    (hcolon : c ≠ ':') (rest : List Char) : NoLeader (x ++ c :: rest) := by
  constructor
  · intro r hr
    match x, h with
    | [], _ => exact hslash (List.cons.inj hr).1
    | [a], _ => exact hslash (List.cons.inj (List.cons.inj hr).2).1
    | a :: b :: y, h =>
        obtain ⟨ha, hr⟩ := List.cons.inj hr
        obtain ⟨hb, -⟩ := List.cons.inj hr
        exact h.slashes y (by rw [ha, hb])
  · intro r hr
    match x, h with
    | [], _ => exact hcolon (List.cons.inj hr).1
    | [a], _ => exact hslash (List.cons.inj (List.cons.inj hr).2).1
    | [a, b], _ => exact hslash (List.cons.inj (List.cons.inj (List.cons.inj hr).2).2).1
    | a :: b :: d :: y, h =>
        obtain ⟨ha, hr⟩ := List.cons.inj hr
        obtain ⟨hb, hr⟩ := List.cons.inj hr
        obtain ⟨hd, -⟩ := List.cons.inj hr
        exact h.colon y (by rw [ha, hb, hd])

-- ── Markers that meet the end of a line ──────────────────────────────────────

/-- How two texts go on that agree up to the end of a line: they still agree, or both are at the
    line break. -/
inductive Parallel (tail after : List Char) : List Char → List Char → Prop where
  | onLine (x : List Char) : Parallel tail after (x ++ tail) (x ++ ['\n'])
  | atBreak : Parallel tail after ('\n' :: after) ['\n']

/-- Markers at the start of two texts that agree up to the end of a line: there is none, or the
    same one on that line, or the same header that takes the line break. -/
inductive Alike (tail after : List Char) : Option Found → Option Found → Prop where
  | none : Alike tail after none none
  | onLine (m : Marker) (s s' x : List Char) :
      Alike tail after (some ⟨m, s, x ++ tail⟩) (some ⟨m, s', x ++ ['\n']⟩)
  | pastBreak (m : Marker) (s s' : List Char) (hm : ∀ name alternatives,
      m ≠ .variable name alternatives) :
      Alike tail after (some ⟨m, s, afterBlankLines after⟩) (some ⟨m, s', []⟩)

theorem Alike.orElse {tail after : List Char} {a a' b b' : Option Found}
    (ha : Alike tail after a a') (hb : Alike tail after b b') :
    Alike tail after (a <|> b) (a' <|> b') := by
  cases ha with
  | none => simpa using hb
  | onLine m s s' x => exact .onLine m s s' x
  | pastBreak m s s' hm => exact .pastBreak m s s' hm

section Alike

variable {tail after : List Char} (ht : Breaks tail after)
include ht

theorem endHeader_alike {m : Marker} (hm : ∀ name alternatives, m ≠ .variable name alternatives)
    (taken taken' : List Char) {z z' : List Char} (hz : Parallel tail after z z') :
    Alike tail after (endHeader m taken z) (endHeader m taken' z') := by
  have key : ∀ {tail} (_ : Breaks tail after) x,
      Alike tail after (endHeader m taken (x ++ tail)) (endHeader m taken' (x ++ ['\n'])) := by
    intro tail ht x
    rw [endHeader, endHeader]
    obtain ⟨h1, h2⟩ | ⟨n, y, h1, h2, h3, h4⟩ | ⟨n, n', h1, h2, h3, h4⟩ := ht.headerEnd x
    · rw [h1, h2]
      exact .none
    · rw [h1, h2, Option.map_some, Option.map_some, h3, h4]
      exact .onLine m _ _ y
    · rw [h1, h2, Option.map_some, Option.map_some, h3, h4]
      exact .pastBreak m _ _ hm
  cases hz with
  | onLine x => exact key ht x
  | atBreak =>
      obtain ⟨h1, -⟩ | ⟨n, y, h1, h2, h3, h4⟩ | ⟨n, n', h1, h2, h3, h4⟩ :=
        (breaks_plain after).headerEnd []
      · exact absurd h1 (by rw [List.nil_append, headerEnd?]; cases headerEnd? after <;> simp [isAsciiBlank])
      · have hn : n = 1 := (Option.some.inj h2).symm
        subst hn
        exact absurd h4 (by simp)
      · rw [List.nil_append] at h1 h2 h3 h4
        rw [endHeader, endHeader, h1, h2, Option.map_some, Option.map_some, h3, h4]
        exact .pastBreak m _ _ hm

/-- The blanks of a line go up to its break in both texts, or they end before it in both. -/
theorem Breaks.blanks_alike (x : List Char) :
    ((x ++ tail).dropWhile isInlineBlank = '\n' :: after ∧
        (x ++ ['\n']).dropWhile isInlineBlank = ['\n']) ∨
      ((x ++ tail).takeWhile isInlineBlank = x.takeWhile isInlineBlank ∧
          (x ++ ['\n']).takeWhile isInlineBlank = x.takeWhile isInlineBlank) ∧
        (x ++ tail).dropWhile isInlineBlank = x.dropWhile isInlineBlank ++ tail ∧
          (x ++ ['\n']).dropWhile isInlineBlank = x.dropWhile isInlineBlank ++ ['\n'] := by
  obtain ⟨h1, h2⟩ | ⟨h1, h2, h3⟩ := ht.blanks x
  · obtain ⟨-, h2'⟩ | ⟨h1', -⟩ := (breaks_plain []).blanks x
    · exact .inl ⟨h2, h2'⟩
    · exact absurd h1 h1'
  · obtain ⟨h1', -⟩ | ⟨-, h2', h3'⟩ := (breaks_plain []).blanks x
    · exact absurd h1' h1
    · exact .inr ⟨⟨h2, h2'⟩, h3, h3'⟩

/-- Blanks lead to parallel texts. -/
theorem Breaks.blanks_parallel (x : List Char) :
    Parallel tail after ((x ++ tail).dropWhile isInlineBlank)
      ((x ++ ['\n']).dropWhile isInlineBlank) := by
  obtain ⟨h, h'⟩ | ⟨-, h, h'⟩ := ht.blanks_alike x
  · rw [h, h']
    exact .atBreak
  · rw [h, h']
    exact .onLine _

/-- Behind the blanks of a line there is no word in either text, or there is the same one in both
    and the line goes on alike. -/
theorem Breaks.word_alike {p : Char → Bool} (hp : ∀ c, isAsciiBlank c = true → p c = false)
    (x : List Char) :
    (((x ++ tail).dropWhile isInlineBlank).takeWhile p = [] ∧
        ((x ++ ['\n']).dropWhile isInlineBlank).takeWhile p = []) ∨
      ∃ gap word rest,
        ((x ++ tail).takeWhile isInlineBlank = gap ∧
          ((x ++ tail).dropWhile isInlineBlank).takeWhile p = word ∧
          ((x ++ tail).dropWhile isInlineBlank).dropWhile p = rest ++ tail) ∧
        (x ++ ['\n']).takeWhile isInlineBlank = gap ∧
          ((x ++ ['\n']).dropWhile isInlineBlank).takeWhile p = word ∧
          ((x ++ ['\n']).dropWhile isInlineBlank).dropWhile p = rest ++ ['\n'] := by
  obtain ⟨h, h'⟩ | ⟨⟨hgap, hgap'⟩, h, h'⟩ := ht.blanks_alike x
  · have hbreak : p '\n' = false := hp '\n' rfl
    refine .inl ⟨?_, ?_⟩
    · rw [h, List.takeWhile_cons_of_neg (by simp [hbreak])]
    · rw [h', List.takeWhile_cons_of_neg (by simp [hbreak])]
  · rw [h, h']
    exact .inr ⟨_, _, _, ⟨hgap, ht.word hp _⟩, hgap', (breaks_plain []).word hp _⟩

theorem alternatives?_alike (x : List Char) :
    (alternatives? (x ++ tail) = none ∧ alternatives? (x ++ ['\n']) = none) ∨
      ∃ values s s' y, alternatives? (x ++ tail) = some (values, s, y ++ tail) ∧
        alternatives? (x ++ ['\n']) = some (values, s', y ++ ['\n']) := by
  have hword : ∀ c, isAsciiBlank c = true → isAlternativeChar c = false := by
    intro c hc
    simp [isAlternativeChar, hc]
  have ht' := breaks_plain []
  induction hn : x.length using Nat.strongRecOn generalizing x with
  | ind n ih =>
      rw [alternatives?_eq, alternatives?_eq (x ++ ['\n'])]
      obtain ⟨h, h'⟩ | ⟨-, h, h'⟩ := ht.blanks_alike x
      · -- only blanks are left of the line, so there is no value
        have hv : firstValue (x ++ tail) = [] := by rw [firstValue, h]; rfl
        have hv' : firstValue (x ++ ['\n']) = [] := by rw [firstValue, h']; rfl
        rw [hv, hv']
        exact .inl ⟨rfl, rfl⟩
      · have hvalue : firstValue (x ++ tail) = firstValue x := by
          rw [firstValue, h, (ht.word hword _).1, firstValue]
        have hvalue' : firstValue (x ++ ['\n']) = firstValue x := by
          rw [firstValue, h', (ht'.word hword _).1, firstValue]
        have hafter : Parallel tail after (afterFirstValue (x ++ tail))
            (afterFirstValue (x ++ ['\n'])) := by
          rw [afterFirstValue, afterFirstValue, h, h', (ht.word hword _).2,
            (ht'.word hword _).2]
          exact ht.blanks_parallel _
        have hlen : (afterFirstValue (x ++ ['\n'])).length ≤ x.length + 1 := by
          simpa using afterFirstValue_length_le (x ++ ['\n'])
        rw [hvalue, hvalue']
        by_cases hv : (firstValue x).isEmpty = true
        · rw [if_pos hv, if_pos hv]
          exact .inl ⟨rfl, rfl⟩
        · rw [if_neg hv, if_neg hv]
          generalize afterFirstValue (x ++ tail) = z at hafter
          generalize afterFirstValue (x ++ ['\n']) = z' at hafter hlen
          cases hafter with
          | atBreak => exact .inl ⟨rfl, rfl⟩
          | onLine y =>
              cases y with
              | nil =>
                  obtain ⟨c, rest, rfl, hc⟩ := ht.head
                  have hbar : c ≠ '|' := by rintro rfl; cases hc
                  have hclose : c ≠ '>' := by rintro rfl; cases hc
                  refine .inl ⟨?_, rfl⟩
                  simp [hbar, hclose]
              | cons c y =>
                  rw [List.length_append, List.length_cons, List.length_singleton] at hlen
                  by_cases hbar : c = '|'
                  · subst hbar
                    obtain ⟨e, e'⟩ | ⟨values, s, s', w, e, e'⟩ := ih y.length (by omega) y rfl
                    · refine .inl ⟨?_, ?_⟩
                      · show Option.map _ (alternatives? (y ++ tail)) = _
                        rw [e]
                        rfl
                      · show Option.map _ (alternatives? (y ++ ['\n'])) = _
                        rw [e']
                        rfl
                    · refine .inr ⟨String.ofList (firstValue x) :: values,
                        firstValueSource (x ++ tail) ++ '|' :: s,
                        firstValueSource (x ++ ['\n']) ++ '|' :: s', w, ?_, ?_⟩
                      · show Option.map _ (alternatives? (y ++ tail)) = _
                        rw [e]
                        rfl
                      · show Option.map _ (alternatives? (y ++ ['\n'])) = _
                        rw [e']
                        rfl
                  · by_cases hclose : c = '>'
                    · subst hclose
                      exact .inr ⟨_, _, _, y, rfl, rfl⟩
                    · refine .inl ⟨?_, ?_⟩ <;> simp [hbar, hclose]

theorem variableWord?_alike (x : List Char) :
    Alike tail after (variableWord? (x ++ tail)) (variableWord? (x ++ ['\n'])) := by
  have hword : ∀ c, isAsciiBlank c = true → isVariableChar c = false := by
    intro c hc
    simp [isVariableChar, hc]
  have ht' := breaks_plain []
  cases x with
  | nil =>
      obtain ⟨c, rest, rfl, hc⟩ := ht.head
      have hopen : c ≠ '<' := by rintro rfl; cases hc
      rw [List.nil_append, variableWord?_of_ne hopen]
      exact .none
  | cons c x =>
      by_cases hopen : c = '<'
      · subst hopen
        have hafter := ht.blanks_parallel (x.dropWhile isVariableChar)
        rw [List.cons_append, List.cons_append, variableWord?_eq, variableWord?_eq,
          (ht.word hword x).1, (ht.word hword x).2, (ht'.word hword x).1, (ht'.word hword x).2]
        by_cases hname : (x.takeWhile isVariableChar).isEmpty = true
        · rw [if_pos hname, if_pos hname]
          exact .none
        · rw [if_neg hname, if_neg hname]
          generalize (x.dropWhile isVariableChar ++ tail).dropWhile isInlineBlank = z at hafter
          generalize (x.dropWhile isVariableChar ++ ['\n']).dropWhile isInlineBlank = z' at hafter
          cases hafter with
          | atBreak => exact .none
          | onLine y =>
              cases y with
              | nil =>
                  obtain ⟨c, rest, rfl, hc⟩ := ht.head
                  have hclose : c ≠ '>' := by rintro rfl; cases hc
                  have heq : c ≠ '=' := by rintro rfl; cases hc
                  rw [List.nil_append, variableEnd?_of_ne hclose heq]
                  exact .none
              | cons c y =>
                  by_cases hclose : c = '>'
                  · subst hclose
                    exact .onLine _ _ _ y
                  · by_cases heq : c = '='
                    · subst heq
                      rw [List.cons_append, List.cons_append, variableEnd?, variableEnd?]
                      obtain ⟨e, e'⟩ | ⟨values, s, s', w, e, e'⟩ := alternatives?_alike ht y
                      · rw [e, e']
                        exact .none
                      · rw [e, e']
                        exact .onLine _ _ _ w
                    · rw [List.cons_append, List.cons_append, variableEnd?_of_ne hclose heq,
                        variableEnd?_of_ne hclose heq]
                      exact .none
      · rw [List.cons_append, List.cons_append, variableWord?_of_ne hopen,
          variableWord?_of_ne hopen]
        exact .none

/-- The default of a condition, behind the blanks that follow its name. -/
def defaultAt? (blanks : List Char) : List Char → Option (Option Bool × List Char × List Char)
  | ':' :: afterColon =>
    let gap := afterColon.takeWhile isInlineBlank
    let afterGap := afterColon.dropWhile isInlineBlank
    let literal := afterGap.takeWhile isWordChar
    let taken := blanks ++ ':' :: (gap ++ literal)
    let rest := afterGap.dropWhile isWordChar
    if literal.isEmpty then some (none, taken, rest)
    else (boolLiteral? literal).map fun value => (some value, taken, rest)
  | rest => some (none, blanks, rest)

omit ht in
theorem conditionDefault?_eq (cs : List Char) :
    conditionDefault? cs =
      defaultAt? (cs.takeWhile isInlineBlank) (cs.dropWhile isInlineBlank) := rfl

omit ht in
theorem defaultAt?_of_ne {c : Char} (h : c ≠ ':') (blanks rest : List Char) :
    defaultAt? blanks (c :: rest) = some (none, blanks, c :: rest) := by
  simp [defaultAt?, h]

theorem conditionDefault?_alike (x : List Char) :
    (conditionDefault? (x ++ tail) = none ∧ conditionDefault? (x ++ ['\n']) = none) ∨
      ∃ value s s' z z', conditionDefault? (x ++ tail) = some (value, s, z) ∧
        conditionDefault? (x ++ ['\n']) = some (value, s', z') ∧ Parallel tail after z z' := by
  rw [conditionDefault?_eq, conditionDefault?_eq (x ++ ['\n'])]
  generalize (x ++ tail).takeWhile isInlineBlank = blanks
  generalize (x ++ ['\n']).takeWhile isInlineBlank = blanks'
  have hafter := ht.blanks_parallel x
  generalize (x ++ tail).dropWhile isInlineBlank = z at hafter
  generalize (x ++ ['\n']).dropWhile isInlineBlank = z' at hafter
  cases hafter with
  | atBreak => exact .inr ⟨none, blanks, blanks', _, _, rfl, rfl, .atBreak⟩
  | onLine y =>
      cases y with
      | nil =>
          obtain ⟨c, rest, rfl, hc⟩ := ht.head
          have hcolon : c ≠ ':' := by rintro rfl; cases hc
          exact .inr ⟨none, blanks, blanks', _, _, defaultAt?_of_ne hcolon _ _, rfl, .onLine []⟩
      | cons c y =>
          by_cases hcolon : c = ':'
          · subst hcolon
            have hgap := ht.blanks_parallel y
            rw [List.cons_append, List.cons_append, defaultAt?, defaultAt?]
            generalize (y ++ tail).takeWhile isInlineBlank = gap
            generalize (y ++ ['\n']).takeWhile isInlineBlank = gap'
            generalize (y ++ tail).dropWhile isInlineBlank = w at hgap
            generalize (y ++ ['\n']).dropWhile isInlineBlank = w' at hgap
            cases hgap with
            | atBreak => exact .inr ⟨none, _, _, _, _, rfl, rfl, .atBreak⟩
            | onLine u =>
                obtain ⟨hliteral, hrest⟩ := ht.word isWordChar_of_blank u
                obtain ⟨hliteral', hrest'⟩ := (breaks_plain []).word isWordChar_of_blank u
                rw [hliteral, hrest, hliteral', hrest']
                by_cases hempty : (u.takeWhile isWordChar).isEmpty = true
                · rw [if_pos hempty, if_pos hempty]
                  exact .inr ⟨none, _, _, _, _, rfl, rfl, .onLine _⟩
                · rw [if_neg hempty, if_neg hempty]
                  cases boolLiteral? (u.takeWhile isWordChar) with
                  | none => exact .inl ⟨rfl, rfl⟩
                  | some value => exact .inr ⟨some value, _, _, _, _, rfl, rfl, .onLine _⟩
          · exact .inr ⟨none, blanks, blanks', _, _, defaultAt?_of_ne hcolon _ _,
              defaultAt?_of_ne hcolon _ _, .onLine (c :: y)⟩

theorem ifHeader?_alike (x : List Char) :
    Alike tail after (ifHeader? (x ++ tail)) (ifHeader? (x ++ ['\n'])) := by
  have hword : ∀ c, isAsciiBlank c = true → isConditionChar c = false := by
    intro c hc
    simp [isConditionChar, hc]
  have hkey : ∀ c ∈ ifKeyword, isAsciiBlank c = false := noBlank_of_any rfl
  rw [ifHeader?, ifHeader?, ht.keyword hkey, (breaks_plain []).keyword hkey]
  cases afterKeyword? ifKeyword x with
  | none => exact .none
  | some y =>
      show Alike tail after (if _ then _ else _) (if _ then _ else _)
      obtain ⟨hname, hname'⟩ | ⟨gap, name, rest, ⟨hgap, hname, hrest⟩, hgap', hname', hrest'⟩ :=
        ht.word_alike hword y
      · rw [hname, hname', if_pos (by simp), if_pos (by simp)]
        exact .none
      · rw [hgap, hgap', hname, hname', hrest, hrest']
        split
        · exact .none
        · obtain ⟨e, e'⟩ | ⟨value, s, s', z, z', e, e', hz⟩ := conditionDefault?_alike ht rest
          · rw [e, e']
            exact .none
          · rw [e, e']
            exact endHeader_alike ht (fun _ _ => Marker.noConfusion) _ _ hz

theorem elseLine?_alike (x : List Char) :
    Alike tail after (elseLine? (x ++ tail)) (elseLine? (x ++ ['\n'])) := by
  have hkey : ∀ c ∈ elseKeyword, isAsciiBlank c = false := noBlank_of_any rfl
  rw [elseLine?, elseLine?, ht.keyword hkey, (breaks_plain []).keyword hkey]
  cases afterKeyword? elseKeyword x with
  | none => exact .none
  | some y => exact endHeader_alike ht (fun _ _ => Marker.noConfusion) _ _ (.onLine y)

theorem endIf?_alike (x : List Char) :
    Alike tail after (endIf? (x ++ tail)) (endIf? (x ++ ['\n'])) := by
  have hkey : ∀ c ∈ endIfKeyword, isAsciiBlank c = false := noBlank_of_any rfl
  rw [endIf?, endIf?, ht.keyword hkey, (breaks_plain []).keyword hkey]
  cases afterKeyword? endIfKeyword x with
  | none => exact .none
  | some y => exact .onLine _ _ _ y

omit ht in
/-- Where no leader stands there is none to skip. -/
theorem afterLeaders_of_not {colon : Bool} {cs : List Char} (h : NoLeader cs) :
    afterLeaders colon cs = cs := by
  unfold afterLeaders
  split
  · next rest => exact absurd rfl (h.slashes rest)
  · next rest => exact absurd rfl (h.colon rest)
  · rfl

omit ht in
theorem afterLeaders_slashes (colon : Bool) (rest : List Char) :
    afterLeaders colon ('/' :: '/' :: rest) =
      afterLeaders colon (rest.dropWhile isInlineBlank) := by
  rw [afterLeaders]

omit ht in
theorem afterLeaders_colon (colon : Bool) (rest : List Char) :
    afterLeaders colon (':' :: '/' :: '/' :: rest) =
      if colon then afterLeaders colon (rest.dropWhile isInlineBlank)
      else ':' :: '/' :: '/' :: rest := by
  rw [afterLeaders]

/-- Leaders lead to parallel texts. -/
theorem afterLeaders_parallel (colon : Bool) (x : List Char) :
    Parallel tail after (afterLeaders colon (x ++ tail)) (afterLeaders colon (x ++ ['\n'])) := by
  induction hn : x.length using Nat.strongRecOn generalizing x with
  | ind n ih =>
      -- behind a leader the blanks end at the line break, or a shorter text is left
      have skip : ∀ y : List Char, y.length < n →
          Parallel tail after (afterLeaders colon ((y ++ tail).dropWhile isInlineBlank))
            (afterLeaders colon ((y ++ ['\n']).dropWhile isInlineBlank)) := by
        intro y hy
        have hlen := (List.dropWhile_sublist isInlineBlank (l := y ++ ['\n'])).length_le
        have hp := ht.blanks_parallel y
        generalize (y ++ tail).dropWhile isInlineBlank = z at hp
        generalize (y ++ ['\n']).dropWhile isInlineBlank = z' at hp hlen
        cases hp with
        | atBreak =>
            rw [afterLeaders_of_head rfl, afterLeaders_of_head rfl]
            exact .atBreak
        | onLine w =>
            simp only [List.length_append, List.length_singleton] at hlen
            exact ih w.length (by omega) w rfl
      by_cases hslash : ∃ y, x = '/' :: '/' :: y
      · obtain ⟨y, rfl⟩ := hslash
        simp only [List.cons_append, afterLeaders_slashes]
        exact skip y (by simp at hn; omega)
      · by_cases hcolon : ∃ y, x = ':' :: '/' :: '/' :: y
        · obtain ⟨y, rfl⟩ := hcolon
          simp only [List.cons_append, afterLeaders_colon]
          cases colon with
          | false => exact .onLine (':' :: '/' :: '/' :: y)
          | true => exact skip y (by simp at hn; omega)
        · have hx : NoLeader x := ⟨fun y hy => hslash ⟨y, hy⟩, fun y hy => hcolon ⟨y, hy⟩⟩
          have hshort : ∀ {tail after : List Char}, Breaks tail after →
              afterLeaders colon (x ++ tail) = x ++ tail := by
            intro tail after ht
            obtain ⟨c, rest, rfl, hc⟩ := ht.head
            refine afterLeaders_of_not (hx.append ?_ ?_ rest)
            · rintro rfl
              cases hc
            · rintro rfl
              cases hc
          rw [hshort ht, hshort (breaks_plain [])]
          exact .onLine x

/-- A keyword behind leaders is found on the line or not at all. -/
theorem keyword_leaders_alike (keyword : List Char)
    (hkey : ∀ c ∈ keyword, isAsciiBlank c = false) (hne : keyword ≠ []) (colon : Bool) (x : List Char) :
    (afterKeyword? keyword (afterLeaders colon (x ++ tail)) = none ∧
        afterKeyword? keyword (afterLeaders colon (x ++ ['\n'])) = none) ∨
      ∃ y, afterKeyword? keyword (afterLeaders colon (x ++ tail)) = some (y ++ tail) ∧
        afterKeyword? keyword (afterLeaders colon (x ++ ['\n'])) = some (y ++ ['\n']) := by
  have hp := afterLeaders_parallel ht colon x
  generalize afterLeaders colon (x ++ tail) = z at hp
  generalize afterLeaders colon (x ++ ['\n']) = z' at hp
  cases hp with
  | atBreak =>
      have hbreak : ∀ rest, afterKeyword? keyword ('\n' :: rest) = none := by
        intro rest
        have h := (breaks_plain rest).keyword hkey []
        rw [List.nil_append] at h
        rw [h]
        obtain ⟨c, cs, rfl⟩ := List.exists_cons_of_ne_nil hne
        simp [afterKeyword?]
      exact .inl ⟨hbreak after, hbreak []⟩
  | onLine y =>
      rw [ht.keyword hkey, (breaks_plain []).keyword hkey]
      cases afterKeyword? keyword y with
      | none => exact .inl ⟨rfl, rfl⟩
      | some w => exact .inr ⟨w, rfl, rfl⟩

theorem blockHeader?_alike (x : List Char) :
    Alike tail after (blockHeader? (x ++ tail)) (blockHeader? (x ++ ['\n'])) := by
  rw [blockHeader?, blockHeader?]
  obtain ⟨e, e'⟩ | ⟨y, e, e'⟩ := keyword_leaders_alike ht blockKeyword (noBlank_of_any rfl)
    (List.cons_ne_nil _ _) false x
  · rw [e, e']
    exact .none
  · rw [e, e']
    show Alike tail after (if _ then _ else _) (if _ then _ else _)
    obtain ⟨hname, hname'⟩ | ⟨gap, name, rest, ⟨hgap, hname, hrest⟩, hgap', hname', hrest'⟩ :=
      ht.word_alike isWordChar_of_blank y
    · rw [hname, hname', if_pos (by simp), if_pos (by simp)]
      exact .none
    · rw [hgap, hgap', hname, hname', hrest, hrest']
      split
      · exact .none
      · exact endHeader_alike ht (fun _ _ => Marker.noConfusion) _ _ (.onLine _)

theorem endBlock?_alike (x : List Char) :
    Alike tail after (endBlock? (x ++ tail)) (endBlock? (x ++ ['\n'])) := by
  rw [endBlock?, endBlock?]
  obtain ⟨e, e'⟩ | ⟨y, e, e'⟩ := keyword_leaders_alike ht endBlockKeyword (noBlank_of_any rfl)
    (List.cons_ne_nil _ _) true x
  · rw [e, e']
    exact .none
  · rw [e, e']
    exact .onLine _ _ _ y

/-- Two texts that agree up to the end of a line have the same marker at their start. -/
theorem marker?_alike (b : Bool) (x : List Char) :
    Alike tail after (marker? b (x ++ tail)) (marker? b (x ++ ['\n'])) := by
  rw [marker?_eq_anyMarker?, marker?_eq_anyMarker?, anyMarker?, anyMarker?]
  refine (variableWord?_alike ht x).orElse ((ifHeader?_alike ht x).orElse
    ((blockHeader?_alike ht x).orElse ?_))
  cases b with
  | false => exact .none
  | true =>
      exact (elseLine?_alike ht x).orElse ((endIf?_alike ht x).orElse (endBlock?_alike ht x))

end Alike

end ShaderTemplates.Template
