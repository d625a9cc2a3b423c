import ShaderTemplates.Text

/-!
# Where the spaces of a label stand

A label is its name with spaces in it.  A space stands in front of every capital that starts a
further word: some capital has come before it, so that a word is there to be ended, and none stands
directly before it, so that this word has more than one letter (`StartsWord`).  Nothing else about
the name changes (`spaces_of_display`).

`spaced` puts its spaces behind the words and `display` trims the last one away.  What is left has
the spaces in front of the words instead, and can be written from the left with one look at each
character (`broken`, `trimEnd_spaced`).  Everything about the spaces is read off that form.
-/

namespace ShaderTemplates.Label

open Text

-- ── Spaces in front of words ─────────────────────────────────────────────────

/-- A name with a space in front of each of its words but the first. `begun` tells whether a capital
    has come, `joined` whether it came directly before. -/
def broken (begun joined : Bool) : List Char → List Char
  | [] => []
  | c :: rest =>
    if c.isUpper && begun && !joined then ' ' :: c :: broken true true rest
    else c :: broken (begun || c.isUpper) c.isUpper rest

/-- A space stands in a label in front of the character with index `i` of the name. -/
def HasSpaceBefore (label : List Char) (i : Nat) : Prop :=
  ∃ before after, label = before ++ ' ' :: after ∧ (before.filter (· != ' ')).length = i

/-- The character with index `i` is a capital, the one before it is none, and some character before
    it is one. -/
structure StartsWord (name : List Char) (i : Nat) : Prop where
  capital : ∃ c, name[i]? = some c ∧ c.isUpper = true
  apart : ∃ c, 0 < i ∧ name[i - 1]? = some c ∧ c.isUpper = false
  begun : ∃ j c, j < i ∧ name[j]? = some c ∧ c.isUpper = true

section Runs

variable {c : Char} {rest : List Char}

theorem broken_lower (h : c.isUpper = false) (begun joined : Bool) :
    broken begun joined (c :: rest) = c :: broken begun false rest := by
  simp [broken, h]

theorem broken_joined (h : c.isUpper = true) (begun : Bool) :
    broken begun true (c :: rest) = c :: broken true true rest := by
  simp [broken, h]

theorem broken_first (h : c.isUpper = true) (joined : Bool) :
    broken false joined (c :: rest) = c :: broken true true rest := by
  simp [broken, h]

theorem broken_word (h : c.isUpper = true) :
    broken true false (c :: rest) = ' ' :: c :: broken true true rest := by
  simp [broken, h]

/-- The letters behind a capital go with it. -/
theorem broken_run {run : List Char} (hrun : ∀ c ∈ run, c.isUpper = false) (hne : run ≠ [])
    (begun joined : Bool) (rest : List Char) :
    broken begun joined (run ++ rest) = run ++ broken begun false rest := by
  induction run generalizing joined with
  | nil => exact absurd rfl hne
  | cons c run ih =>
      rw [List.cons_append, broken_lower (hrun c List.mem_cons_self)]
      by_cases hnil : run = []
      · rw [hnil]
        rfl
      · rw [ih (fun d hd => hrun d (List.mem_cons_of_mem _ hd)) hnil]
        rfl

end Runs

-- ── Trimming ─────────────────────────────────────────────────────────────────

theorem trimEnd_cons_of_visible {c : Char} (h : isBlank c = false) (cs : List Char) :
    trimEnd (c :: cs) = c :: trimEnd cs := by
  rw [trimEnd, trimEnd, List.reverse_cons, List.dropWhile_append]
  split
  next hnil => simp [h, List.isEmpty_iff.mp hnil]
  next => simp

theorem trimEnd_append_of_visible {a : List Char} (h : ∀ c ∈ a, isBlank c = false)
    (cs : List Char) : trimEnd (a ++ cs) = a ++ trimEnd cs := by
  induction a with
  | nil => rfl
  | cons c a ih =>
      rw [List.cons_append, trimEnd_cons_of_visible (h c List.mem_cons_self),
        ih fun d hd => h d (List.mem_cons_of_mem _ hd)]
      rfl

/-- A space in front of something that is not trimmed away stays. -/
theorem trimEnd_space {cs : List Char} (h : trimEnd cs ≠ []) :
    trimEnd (' ' :: cs) = ' ' :: trimEnd cs := by
  have hdrop : cs.reverse.dropWhile isBlank ≠ [] := fun hnil => h (by rw [trimEnd, hnil]; rfl)
  rw [trimEnd, trimEnd, List.reverse_cons, List.dropWhile_append,
    if_neg (by simpa using hdrop)]
  simp

theorem trimEnd_single_space : trimEnd [' '] = [] := by decide

theorem isUpper_of_mem_run {cs : List Char} :
    ∀ c ∈ cs.takeWhile (!·.isUpper), c.isUpper = false := by
  intro c hc
  simpa using List.all_eq_true.mp List.all_takeWhile c hc

/-- What comes after the letters behind a capital starts with a capital. -/
theorem dropWhile_run (cs : List Char) :
    cs.dropWhile (!·.isUpper) = [] ∨
      ∃ c rest, cs.dropWhile (!·.isUpper) = c :: rest ∧ c.isUpper = true := by
  cases h : cs.dropWhile (!·.isUpper) with
  | nil => exact .inl rfl
  | cons c rest =>
      have hhead := List.head?_dropWhile_not (!·.isUpper) cs
      rw [h] at hhead
      exact .inr ⟨c, rest, rfl, by simpa using hhead⟩

/-- At the end of a word trimming leaves its space in front of the next word, if there is one. -/
theorem trimEnd_afterWord {rest : List Char}
    (hrest : rest = [] ∨ ∃ c more, rest = c :: more ∧ c.isUpper = true)
    (ih : trimEnd (spaced rest) = broken false false rest) :
    trimEnd (' ' :: spaced rest) = broken true false rest := by
  obtain rfl | ⟨c, more, rfl, hc⟩ := hrest
  · rw [spaced]
    exact trimEnd_single_space
  · rw [broken_first hc] at ih
    rw [trimEnd_space (by rw [ih]; exact List.cons_ne_nil _ _), ih, broken_word hc]

/-- A label has its spaces in front of the words of the name. -/
theorem trimEnd_spaced {cs : List Char} (h : ∀ c ∈ cs, isBlank c = false) :
    trimEnd (spaced cs) = broken false false cs := by
  fun_induction spaced cs with
  | case1 => rfl
  | case2 c rest hword ih =>
      simp only [Bool.and_eq_true, Bool.not_eq_true', List.isEmpty_eq_false_iff] at hword
      have hrest : ∀ d ∈ rest, isBlank d = false := fun d hd => h d (List.mem_cons_of_mem _ hd)
      have hrun : ∀ d ∈ rest.takeWhile (!·.isUpper), isBlank d = false :=
        fun d hd => hrest d ((List.takeWhile_sublist _).mem hd)
      have hafter := ih fun d hd => hrest d ((List.dropWhile_sublist _).mem hd)
      rw [trimEnd_cons_of_visible (h c List.mem_cons_self), trimEnd_append_of_visible hrun,
        trimEnd_afterWord (dropWhile_run rest) hafter, broken_first hword.1]
      have hbroken := broken_run isUpper_of_mem_run hword.2 true true (rest.dropWhile (!·.isUpper))
      rw [List.takeWhile_append_dropWhile] at hbroken
      rw [hbroken]
  | case3 c rest hno ih =>
      have hrest := ih fun d hd => h d (List.mem_cons_of_mem _ hd)
      rw [trimEnd_cons_of_visible (h c List.mem_cons_self), hrest]
      cases hc : c.isUpper with
      | false => rw [broken_lower hc]
      | true =>
          -- the capital is followed by another one or by nothing
          rw [broken_first hc]
          simp only [hc, Bool.true_and, Bool.not_eq_true', Bool.not_eq_false,
            List.isEmpty_iff] at hno
          have hdrop : rest.dropWhile (!·.isUpper) = rest := by
            have happ := List.takeWhile_append_dropWhile (p := (!·.isUpper)) (l := rest)
            rwa [hno, List.nil_append] at happ
          obtain hnil | ⟨d, more, hd, hupper⟩ := dropWhile_run rest
          · rw [← hdrop, hnil]
            rfl
          · rw [← hdrop, hd, broken_joined hupper, broken_first hupper]

-- ── Spaces of a label ────────────────────────────────────────────────────────

theorem hasSpaceBefore_cons {c : Char} (hc : c ≠ ' ') (label : List Char) (i : Nat) :
    HasSpaceBefore (c :: label) i ↔ ∃ k, i = k + 1 ∧ HasSpaceBefore label k := by
  constructor
  · rintro ⟨before, after, h, rfl⟩
    cases before with
    | nil => exact absurd (List.cons.inj h).1 hc
    | cons d before =>
        obtain ⟨rfl, rfl⟩ := List.cons.inj h
        exact ⟨_, by simp [hc], before, after, rfl, rfl⟩
  · rintro ⟨k, rfl, before, after, rfl, rfl⟩
    exact ⟨c :: before, after, rfl, by simp [hc]⟩

theorem hasSpaceBefore_space (label : List Char) (i : Nat) :
    HasSpaceBefore (' ' :: label) i ↔ i = 0 ∨ HasSpaceBefore label i := by
  constructor
  · rintro ⟨before, after, h, rfl⟩
    cases before with
    | nil => exact .inl rfl
    | cons d before =>
        obtain ⟨rfl, rfl⟩ := List.cons.inj h
        exact .inr ⟨before, after, rfl, rfl⟩
  · rintro (rfl | ⟨before, after, rfl, rfl⟩)
    · exact ⟨[], label, rfl, rfl⟩
    · exact ⟨' ' :: before, after, rfl, rfl⟩

/-- The character with index `i` starts a word of a text that comes behind other characters. -/
def StartsWordBehind (begun joined : Bool) (cs : List Char) (i : Nat) : Prop :=
  ∃ c, cs[i]? = some c ∧ c.isUpper = true ∧ (begun || (cs.take i).any Char.isUpper) = true ∧
    ((cs.take i).getLast?.map Char.isUpper).getD joined = false

theorem startsWordBehind_cons (begun joined : Bool) (c : Char) (cs : List Char) (i : Nat) :
    StartsWordBehind begun joined (c :: cs) i ↔
      i = 0 ∧ (c.isUpper && begun && !joined) = true ∨
        ∃ k, i = k + 1 ∧ StartsWordBehind (begun || c.isUpper) c.isUpper cs k := by
  cases i with
  | zero => simp [StartsWordBehind, and_assoc]
  | succ k =>
      have hlast : ∀ l : List Char,
          (((c :: l).getLast?.map Char.isUpper).getD joined) =
            (l.getLast?.map Char.isUpper).getD c.isUpper := by
        intro l
        rw [List.getLast?_cons]
        cases l.getLast? <;> rfl
      simp [StartsWordBehind, hlast, Bool.or_assoc]

theorem startsWordBehind_nothing (name : List Char) (i : Nat) :
    StartsWordBehind false false name i ↔ StartsWord name i := by
  have hlast : ∀ {c}, name[i]? = some c →
      (name.take i).getLast? = if i = 0 then none else name[i - 1]? := by
    intro c hc
    obtain ⟨hlt, -⟩ := List.getElem?_eq_some_iff.mp hc
    rw [List.getLast?_take]
    split
    next => rfl
    next => rw [List.getElem?_eq_getElem (by omega), Option.some_or]
  have hbegun : (name.take i).any Char.isUpper = true ↔
      ∃ j c, j < i ∧ name[j]? = some c ∧ c.isUpper = true := by
    rw [List.any_eq_true]
    constructor
    · rintro ⟨c, hc, hupper⟩
      obtain ⟨j, hj⟩ := List.mem_iff_getElem?.mp hc
      rw [List.getElem?_take] at hj
      split at hj
      next hlt => exact ⟨j, c, hlt, hj, hupper⟩
      next => cases hj
    · rintro ⟨j, c, hlt, hj, hupper⟩
      exact ⟨c, List.mem_iff_getElem?.mpr ⟨j, by rw [List.getElem?_take, if_pos hlt, hj]⟩, hupper⟩
  constructor
  · rintro ⟨c, hc, hupper, hseen, hjoined⟩
    obtain ⟨j, d, hlt, hj, hd⟩ := hbegun.mp hseen
    refine ⟨⟨c, hc, hupper⟩, ?_, j, d, hlt, hj, hd⟩
    have hi : i < name.length := (List.getElem?_eq_some_iff.mp hc).1
    have hprev : name[i - 1]? = some name[i - 1] := List.getElem?_eq_getElem (by omega)
    rw [hlast hc, if_neg (by omega), hprev] at hjoined
    exact ⟨name[i - 1], by omega, hprev, hjoined⟩
  · rintro ⟨⟨c, hc, hupper⟩, ⟨d, hpos, hd, hlower⟩, j, e, hlt, hj, he⟩
    refine ⟨c, hc, hupper, hbegun.mpr ⟨j, e, hlt, hj, he⟩, ?_⟩
    rw [hlast hc, if_neg (by omega), hd]
    exact hlower

section Spaces

variable {cs : List Char} (hcs : ' ' ∉ cs)
include hcs

theorem filter_broken (begun joined : Bool) :
    (broken begun joined cs).filter (· != ' ') = cs := by
  induction cs generalizing begun joined with
  | nil => rfl
  | cons c cs ih =>
      have hc : c ≠ ' ' := fun hc => hcs (hc ▸ List.mem_cons_self)
      have hrest := ih fun hm => hcs (List.mem_cons_of_mem _ hm)
      rw [broken]
      split
      · simp [hc, hrest]
      · simp [hc, hrest]

/-- The spaces stand in front of the words. -/
theorem hasSpaceBefore_broken (begun joined : Bool) (i : Nat) :
    HasSpaceBefore (broken begun joined cs) i ↔ StartsWordBehind begun joined cs i := by
  induction cs generalizing begun joined i with
  | nil => simp [broken, HasSpaceBefore, StartsWordBehind]
  | cons c cs ih =>
      have hc : c ≠ ' ' := fun hc => hcs (hc ▸ List.mem_cons_self)
      have hrest := fun begun joined i => ih (fun hm => hcs (List.mem_cons_of_mem _ hm)) begun joined i
      rw [startsWordBehind_cons, broken]
      split
      next hword =>
        simp only [Bool.and_eq_true, Bool.not_eq_true'] at hword
        obtain ⟨⟨hupper, rfl⟩, rfl⟩ := hword
        simp only [hasSpaceBefore_space, hasSpaceBefore_cons hc, hrest, hupper]
        simp
      next hno =>
        simp only [hasSpaceBefore_cons hc, hrest, hno]
        simp

/-- A space is followed by a character of the name. -/
theorem head?_after_space {begun joined : Bool} {before after : List Char}
    (h : broken begun joined cs = before ++ ' ' :: after) : ∃ c ∈ cs, after.head? = some c := by
  induction cs generalizing begun joined before with
  | nil => simp [broken] at h
  | cons c cs ih =>
      have hc : c ≠ ' ' := fun hc => hcs (hc ▸ List.mem_cons_self)
      have hrest : ∀ {begun joined before}, broken begun joined cs = before ++ ' ' :: after →
          ∃ d ∈ c :: cs, after.head? = some d := by
        intro begun joined before h
        obtain ⟨d, hd, hhead⟩ := ih (fun hm => hcs (List.mem_cons_of_mem _ hm)) h
        exact ⟨d, List.mem_cons_of_mem _ hd, hhead⟩
      rw [broken] at h
      split at h
      · match before, h with
        | [], h => exact ⟨c, List.mem_cons_self, by rw [← (List.cons.inj h).2]; rfl⟩
        | [_], h => exact absurd (List.cons.inj (List.cons.inj h).2).1 hc
        | _ :: _ :: before, h => exact hrest (List.cons.inj (List.cons.inj h).2).2
      · match before, h with
        | [], h => exact absurd (List.cons.inj h).1 hc
        | _ :: before, h => exact hrest (List.cons.inj h).2

end Spaces

/-- Deleting the spaces of a label gives back the name, no space stands at an end or next to another
    one, and each stands in front of a capital that starts a word. -/
theorem spaces_of_display {name : String} (h : ∀ c ∈ name.toList, isBlank c = false) :
    (display name).toList.filter (· != ' ') = name.toList ∧
      (display name).toList.head? ≠ some ' ' ∧ (display name).toList.getLast? ≠ some ' ' ∧
      ¬ [' ', ' '] <:+: (display name).toList ∧
      ∀ i, HasSpaceBefore (display name).toList i ↔ StartsWord name.toList i := by
  have hspace : ' ' ∉ name.toList := fun hm => absurd (h ' ' hm) (by decide)
  have hlabel : (display name).toList = broken false false name.toList := by
    rw [display, String.toList_ofList, trimEnd_spaced h]
  have hpos : ∀ i, HasSpaceBefore (display name).toList i ↔ StartsWord name.toList i := by
    intro i
    rw [hlabel, hasSpaceBefore_broken hspace, startsWordBehind_nothing]
  -- what stands behind a space is a character of the name
  have hafter : ∀ {before after : List Char}, (display name).toList = before ++ ' ' :: after →
      ∃ c, c ≠ ' ' ∧ after.head? = some c := by
    intro before after hsplit
    rw [hlabel] at hsplit
    obtain ⟨c, hc, hhead⟩ := head?_after_space hspace hsplit
    exact ⟨c, fun heq => hspace (heq ▸ hc), hhead⟩
  refine ⟨by rw [hlabel]; exact filter_broken hspace false false, ?_, ?_, ?_, hpos⟩
  · intro hhead
    obtain ⟨after, hsplit⟩ := List.head?_eq_some_iff.mp hhead
    obtain ⟨c, hlt, -⟩ := ((hpos 0).mp ⟨[], after, hsplit, rfl⟩).apart
    exact absurd hlt (Nat.lt_irrefl 0)
  · intro hlast
    obtain ⟨before, hsplit⟩ := List.getLast?_eq_some_iff.mp hlast
    obtain ⟨c, -, hhead⟩ := hafter hsplit
    cases hhead
  · rintro ⟨before, after, hsplit⟩
    have hspaces : (display name).toList = before ++ ' ' :: (' ' :: after) := by simp [← hsplit]
    obtain ⟨c, hc, hhead⟩ := hafter hspaces
    exact hc (Option.some.inj hhead).symm

theorem spaces_of_display_sample :
    (∀ c ∈ "RGBColorOf2ndPass".toList, isBlank c = false) ∧
      display "RGBColorOf2ndPass" = "RGBColor Of2nd Pass" ∧
      HasSpaceBefore (display "RGBColorOf2ndPass").toList 8 := by
  have hall : "RGBColorOf2ndPass".toList.all (!isBlank ·) := by decide
  have h : ∀ c ∈ "RGBColorOf2ndPass".toList, isBlank c = false := fun c hc => by
    simpa only [Bool.not_eq_true'] using List.all_eq_true.mp hall c hc
  have hstarts : StartsWord "RGBColorOf2ndPass".toList 8 :=
    ⟨⟨'O', rfl, rfl⟩, ⟨'r', by decide, rfl, rfl⟩, 0, 'R', by decide, rfl, rfl⟩
  have hlabel : display "RGBColorOf2ndPass" = "RGBColor Of2nd Pass" := by
    rw [display, trimEnd_spaced h]
    decide
  exact ⟨h, hlabel, ((spaces_of_display h).2.2.2.2 8).mpr hstarts⟩

end ShaderTemplates.Label
