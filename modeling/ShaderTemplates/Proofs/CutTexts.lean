import ShaderTemplates.Proofs.Closings
import ShaderTemplates.Proofs.LineBreaks

/-!
# Markers in a text that is cut

A text may be cut in front of the blanks at the end of its last line (`Shut`).  At its start there
is then the marker that was there before, with one exception: a header on the last line has lost its
line break, and with it the marker (`marker?_cut`).

The proof goes through the text with a single line break at its end, which is known to have the same
markers as the longer text (`marker?_alike`).
-/

namespace ShaderTemplates.Template

open Text

-- ── Ends of blocks ───────────────────────────────────────────────────────────

/-- A character that is no part of a leader stays behind the leaders in front of it. -/
theorem afterLeaders_append {c : Char} (hblank : isInlineBlank c = false) (hslash : c ≠ '/')
    (hcolon : c ≠ ':') (colon : Bool) (s after : List Char) :
    afterLeaders colon (s ++ c :: after) = afterLeaders colon s ++ c :: after := by
  fun_induction afterLeaders colon s with
  | case1 rest ih =>
      rw [← ih, ← dropWhile_append_stop hblank]
      exact afterLeaders_slashes colon _
  | case2 rest hc ih =>
      rw [← ih, ← dropWhile_append_stop hblank]
      exact (afterLeaders_colon colon _).trans (if_pos hc)
  | case3 rest hc => exact (afterLeaders_colon colon _).trans (if_neg hc)
  | case4 s hslashes hcolons =>
      have hs : NoLeader s := ⟨hslashes, hcolons⟩
      exact afterLeaders_of_not (hs.append hslash hcolon after)

/-- A line break stays behind the leaders in front of it. -/
theorem afterLeaders_append_break (colon : Bool) (s after : List Char) :
    afterLeaders colon (s ++ '\n' :: after) = afterLeaders colon s ++ '\n' :: after :=
  afterLeaders_append rfl (by decide) (by decide) colon s after

/-- Where the leaders without colons end at an at sign, those with colons do. -/
theorem afterLeaders_true_of_at {cs rest : List Char} (h : afterLeaders false cs = '@' :: rest) :
    afterLeaders true cs = '@' :: rest := by
  fun_induction afterLeaders false cs with
  | case1 cs ih => rw [afterLeaders_slashes, ih h]
  | case2 cs hc ih => exact absurd hc (by decide)
  | case3 cs hc => cases h
  | case4 cs hslashes hcolon => rw [h, afterLeaders_at]

/-- The end of a block is read as nothing else. -/
theorem marker?_of_endBlock? {cs : List Char} {f : Found} (h : endBlock? cs = some f) :
    marker? true cs = some f := by
  obtain ⟨rest, hkey, -⟩ := Option.map_eq_some_iff.mp h
  have hat : afterLeaders true cs = endBlockKeyword ++ rest := (afterKeyword?_append hkey).symm
  have hblock : blockHeader? cs = none := by
    rw [blockHeader?]
    cases hb : afterKeyword? blockKeyword (afterLeaders false cs) with
    | none => rfl
    | some more =>
        have hat' := afterLeaders_true_of_at (afterKeyword?_append hb).symm
        rw [hat] at hat'
        cases hat'
  have hothers : variableWord? cs = none ∧ ifHeader? cs = none ∧ elseLine? cs = none ∧
      endIf? cs = none := by
    cases cs with
    | nil =>
        rw [afterLeaders_of_not ⟨by simp, by simp⟩] at hat
        cases hat
    | cons c cs =>
        by_cases hslash : c = '/'
        · subst hslash
          exact ⟨rfl, rfl, rfl, rfl⟩
        · by_cases hcolon : c = ':'
          · subst hcolon
            exact ⟨rfl, rfl, rfl, rfl⟩
          · -- no leader stands in front, so the text starts with the keyword
            rw [afterLeaders_of_not ⟨fun _ he => hslash (List.cons.inj he).1,
              fun _ he => hcolon (List.cons.inj he).1⟩] at hat
            rw [hat]
            exact ⟨rfl, rfl, rfl, rfl⟩
  obtain ⟨hvar, hif, helse, hend⟩ := hothers
  rw [marker?_eq_anyMarker?, anyMarker?, hvar, hif, hblock, if_pos rfl, helse, hend, h]
  rfl

-- ── Texts of one line ────────────────────────────────────────────────────────

/-- A marker is a variable, or a header that takes a line break, or the end of a conditional or of a
    block at the start of a line. -/
theorem marker?_cases {b : Bool} {cs : List Char} {f : Found} (h : marker? b cs = some f) :
    variableWord? cs = some f ∨ (f.marker.EndsLine ∧ '\n' ∈ f.source) ∨
      b = true ∧ (endIf? cs = some f ∨ endBlock? cs = some f) := by
  have header : ∀ {m : Marker} {taken rest : List Char}, endHeader m taken rest = some f →
      m.EndsLine → f.marker.EndsLine ∧ '\n' ∈ f.source := by
    intro m taken rest h hends
    obtain ⟨hm, hlast⟩ := endHeader_getLast? h
    exact ⟨hm ▸ hends, List.mem_of_getLast? hlast⟩
  obtain h | h | h | ⟨hb, h | h | h⟩ := marker?_eq_some h
  · exact .inl h
  · obtain ⟨_, _, _, _, -, h⟩ := ifHeader?_eq_some h
    exact .inr (.inl (header h trivial))
  · obtain ⟨_, _, _, -, -, h⟩ := blockHeader?_eq_some h
    exact .inr (.inl (header h trivial))
  · obtain ⟨_, h⟩ := elseLine?_eq_some h
    exact .inr (.inl (header h trivial))
  · exact .inr (.inr ⟨hb, .inl h⟩)
  · exact .inr (.inr ⟨hb, .inr h⟩)

theorem rest_of_break_mem {y s rest : List Char} (hy : '\n' ∉ y) (happ : s ++ rest = y ++ ['\n'])
    (hs : '\n' ∈ s) : rest = [] := by
  obtain ⟨a, rfl, h⟩ | ⟨a, rfl, h⟩ := List.append_eq_append_iff.mp happ
  · exact absurd (List.mem_append_left _ hs) hy
  · cases a with
    | nil => exact absurd (by simpa using hs) hy
    | cons c a => exact (List.append_eq_nil_iff.mp (List.cons.inj h).2.symm).2

/-- How a text is read without and with a line break at its end: there is no marker at its start, or
    the same one, or a header that needs the line break. -/
inductive Ending : Option Found → Option Found → Prop where
  | none : Ending none none
  | same (m : Marker) (s rest : List Char) :
      Ending (some ⟨m, s, rest⟩) (some ⟨m, s, rest ++ ['\n']⟩)
  | header (m : Marker) (s : List Char) (hm : m.EndsLine) : Ending none (some ⟨m, s, []⟩)

theorem Ending.of_same {b : Bool} {y : List Char} {f : Found} (h : marker? b y = some f)
    {s : List Char} (h' : marker? b (y ++ ['\n']) = some ⟨f.marker, s, f.rest ++ ['\n']⟩) :
    Ending (marker? b y) (marker? b (y ++ ['\n'])) := by
  have happ := marker?_append h
  have happ' := marker?_append h'
  have hs : s = f.source := by
    refine (List.append_left_inj (f.rest ++ ['\n'])).mp ?_
    rw [happ', ← happ, List.append_assoc]
  rw [h, h', hs]
  exact .same _ _ _

theorem variableWord?_break (y : List Char) :
    variableWord? (y ++ ['\n']) =
      (variableWord? y).map fun f => { f with rest := f.rest ++ ['\n'] } :=
  variableWord?_append_lineEnd y (lineEnd_break [])

theorem endIf?_break (y : List Char) :
    endIf? (y ++ ['\n']) = (endIf? y).map fun f => { f with rest := f.rest ++ ['\n'] } := by
  rw [endIf?, (breaks_plain []).keyword (noBlank_of_any rfl), endIf?, Option.map_map,
    Option.map_map]
  rfl

theorem endBlock?_break (y : List Char) :
    endBlock? (y ++ ['\n']) = (endBlock? y).map fun f =>
      ⟨f.marker, leaders true (y ++ ['\n']) ++ endBlockKeyword, f.rest ++ ['\n']⟩ := by
  rw [endBlock?, afterLeaders_append_break, (breaks_plain []).keyword (noBlank_of_any rfl),
    endBlock?, Option.map_map, Option.map_map]
  rfl

/-- A line on which no variable and no end starts: what its line break brings is a header. -/
theorem marker?_ending_header {b : Bool} {y : List Char} (hy : '\n' ∉ y)
    (hvar : variableWord? y = none) (hend : b = true → endIf? y = none)
    (hblock : b = true → endBlock? y = none) :
    Ending (marker? b y) (marker? b (y ++ ['\n'])) := by
  have hnone : marker? b y = none := by
    cases hm : marker? b y with
    | none => rfl
    | some f =>
        obtain h | ⟨-, h⟩ | ⟨hb, h | h⟩ := marker?_cases hm
        · rw [hvar] at h
          cases h
        · exact absurd (marker?_append hm ▸ List.mem_append_left _ h) hy
        · rw [hend hb] at h
          cases h
        · rw [hblock hb] at h
          cases h
  rw [hnone]
  cases hm : marker? b (y ++ ['\n']) with
  | none => exact .none
  | some f =>
      obtain h | ⟨hends, h⟩ | ⟨hb, h | h⟩ := marker?_cases hm
      · rw [variableWord?_break, hvar] at h
        cases h
      · have hrest : f.rest = [] := rest_of_break_mem hy (marker?_append hm) h
        obtain ⟨m, s, rest⟩ := f
        cases hrest
        exact .header m s hends
      · rw [endIf?_break, hend hb] at h
        cases h
      · rw [endBlock?_break, hblock hb] at h
        cases h

/-- A line is read in the same way without its line break, but for a header. -/
theorem marker?_ending (b : Bool) {y : List Char} (hy : '\n' ∉ y) :
    Ending (marker? b y) (marker? b (y ++ ['\n'])) := by
  cases hvar : variableWord? y with
  | some f =>
      have hvar' := variableWord?_break y
      rw [hvar] at hvar'
      refine .of_same (f := f) (s := f.source) ?_ ?_
      · rw [marker?_eq_anyMarker?, anyMarker?, hvar]
        rfl
      · rw [marker?_eq_anyMarker?, anyMarker?, hvar']
        rfl
  | none =>
      by_cases hend : b = true → endIf? y = none
      · by_cases hblock : b = true → endBlock? y = none
        · exact marker?_ending_header hy hvar hend hblock
        · obtain ⟨rfl, hsome⟩ := Classical.not_imp.mp hblock
          obtain ⟨f, hf⟩ := Option.ne_none_iff_exists'.mp hsome
          have hf' := endBlock?_break y
          rw [hf] at hf'
          exact .of_same (marker?_of_endBlock? hf) (marker?_of_endBlock? hf')
      · obtain ⟨rfl, hsome⟩ := Classical.not_imp.mp hend
        obtain ⟨f, hf⟩ := Option.ne_none_iff_exists'.mp hsome
        obtain ⟨rest, hkey, rfl⟩ := Option.map_eq_some_iff.mp hf
        have htext : endIfKeyword ++ rest = y := afterKeyword?_append hkey
        refine .of_same (htext ▸ marker?_endIf rest) (s := endIfKeyword) ?_
        rw [← htext, List.append_assoc]
        exact marker?_endIf _

-- ── Blank lines ──────────────────────────────────────────────────────────────

theorem headerEnd?_le {cs : List Char} {n : Nat} (h : headerEnd? cs = some n) : n ≤ cs.length := by
  induction cs generalizing n with
  | nil => cases h
  | cons c cs ih =>
      rw [headerEnd?] at h
      split at h
      · cases hend : headerEnd? cs with
        | some k =>
            rw [hend] at h
            cases h
            exact Nat.succ_le_succ (ih hend)
        | none =>
            rw [hend] at h
            dsimp only at h
            split at h
            · cases h
              exact Nat.succ_le_succ (Nat.zero_le _)
            · cases h
      · cases h

/-- The blank lines at the start of a text end before its first character that is no blank. -/
theorem headerEnd?_stop {c : Char} (hc : isAsciiBlank c = false) (u rest : List Char) :
    headerEnd? (u ++ c :: rest) = headerEnd? u := by
  induction u with
  | nil => simp [headerEnd?, hc]
  | cons x u ih => rw [List.cons_append, headerEnd?, headerEnd?, ih]

theorem afterBlankLines_stop {c : Char} (hc : isAsciiBlank c = false) (u rest : List Char) :
    afterBlankLines (u ++ c :: rest) = afterBlankLines u ++ c :: rest := by
  rw [afterBlankLines, afterBlankLines, headerEnd?_stop hc]
  cases h : headerEnd? u with
  | none => rfl
  | some n => exact List.drop_append_of_le_length (headerEnd?_le h)

theorem blankLines_stop {c : Char} (hc : isAsciiBlank c = false) (u rest : List Char) :
    blankLines (u ++ c :: rest) = blankLines u := by
  have happ := blankLines_append (u ++ c :: rest)
  have happ' := blankLines_append u
  rw [afterBlankLines_stop hc, ← List.append_assoc] at happ
  exact List.append_cancel_right ((List.append_cancel_right happ).trans happ'.symm)

-- ── Cuts ─────────────────────────────────────────────────────────────────────

/-- A text whose last line holds all the blanks at its end. -/
def Shut (cs : List Char) : Prop :=
  ∀ a b, cs = a ++ b → (∀ c ∈ b, isAsciiBlank c = true) → '\n' ∉ b

theorem Shut.suffix {a b : List Char} (h : Shut (a ++ b)) : Shut b :=
  fun x y hb hy => h (a ++ x) y (by rw [hb, List.append_assoc]) hy

/-- Behind a line break of the text there is a line with something on it. -/
theorem Shut.afterBreak {a b : List Char} (h : Shut (a ++ '\n' :: b)) :
    ∃ u c v, b = u ++ c :: v ∧ isAsciiBlank c = false := by
  by_cases hb : ∀ c ∈ b, isAsciiBlank c = true
  · refine absurd List.mem_cons_self (h a ('\n' :: b) rfl ?_)
    intro c hc
    rcases List.mem_cons.mp hc with rfl | hc
    · rfl
    · exact hb c hc
  · obtain ⟨c, hc⟩ := Classical.not_forall.mp hb
    obtain ⟨hc, hblank⟩ := Classical.not_imp.mp hc
    obtain ⟨u, v, rfl⟩ := List.append_of_mem hc
    exact ⟨u, c, v, rfl, by simpa using hblank⟩

/-- A marker that leaves the tail takes what stands in front of its rest. -/
theorem source_append_rest {b : Bool} {y tail s z : List Char} {m : Marker}
    (h : marker? b (y ++ tail) = some ⟨m, s, z ++ tail⟩) : s ++ z = y := by
  have happ : s ++ (z ++ tail) = y ++ tail := marker?_append h
  rw [← List.append_assoc] at happ
  exact List.append_cancel_right happ

/-- A marker takes what it does not leave, so it takes the same of two texts with the same rest. -/
theorem marker?_source_eq {b : Bool} {y tail z s s' : List Char} {m m' : Marker}
    (h : marker? b (y ++ tail) = some ⟨m, s, z ++ tail⟩) (h' : marker? b y = some ⟨m', s', z⟩) :
    s' = s :=
  List.append_cancel_right ((marker?_append h').trans (source_append_rest h).symm)

theorem alike_cases {tail after : List Char} {f g : Option Found} (h : Alike tail after f g) :
    (f = none ∧ g = none) ∨
      (∃ m s s' z, f = some ⟨m, s, z ++ tail⟩ ∧ g = some ⟨m, s', z ++ ['\n']⟩) ∨
      ∃ m s s', f = some ⟨m, s, afterBlankLines after⟩ ∧ g = some ⟨m, s', []⟩ := by
  cases h with
  | none => exact .inl ⟨rfl, rfl⟩
  | onLine m s s' z => exact .inr (.inl ⟨m, s, s', z, rfl, rfl⟩)
  | pastBreak m s s' hm => exact .inr (.inr ⟨m, s, s', rfl, rfl⟩)

/-- Two texts that agree up to the end of a line have no marker at their start, or the same one on
    that line, or the same header that takes the line break. -/
theorem marker?_both {tail after tail' after' : List Char} (ht : Breaks tail after)
    (ht' : Breaks tail' after') (b : Bool) (x : List Char) :
    (marker? b (x ++ tail) = none ∧ marker? b (x ++ tail') = none) ∨
      (∃ m s z, x = s ++ z ∧ marker? b (x ++ tail) = some ⟨m, s, z ++ tail⟩ ∧
        marker? b (x ++ tail') = some ⟨m, s, z ++ tail'⟩) ∨
      ∃ m s s', marker? b (x ++ tail) = some ⟨m, s, afterBlankLines after⟩ ∧
        marker? b (x ++ tail') = some ⟨m, s', afterBlankLines after'⟩ := by
  -- both are compared with the text that ends with the line break
  obtain ⟨h, k⟩ | ⟨m, s, r, z, h, k⟩ | ⟨m, s, r, h, k⟩ := alike_cases (marker?_alike ht b x)
  · obtain ⟨h', -⟩ | ⟨_, _, _, _, -, k'⟩ | ⟨_, _, _, -, k'⟩ := alike_cases (marker?_alike ht' b x)
    · exact .inl ⟨h, h'⟩
    · rw [k] at k'
      cases k'
    · rw [k] at k'
      cases k'
  · obtain ⟨-, k'⟩ | ⟨m', s', r', z', h', k'⟩ | ⟨m', s', r', -, k'⟩ :=
      alike_cases (marker?_alike ht' b x)
    · rw [k] at k'
      cases k'
    · rw [k] at k'
      injection k' with k'
      injection k' with hm hr hz
      obtain rfl := List.append_cancel_right hz
      have hsource := source_append_rest h
      obtain rfl : s = s' := List.append_cancel_right (hsource.trans (source_append_rest h').symm)
      exact .inr (.inl ⟨m, s, z, hsource.symm, h, hm ▸ h'⟩)
    · rw [k] at k'
      injection k' with k'
      injection k' with hm hr hz
      exact absurd hz (by simp)
  · obtain ⟨-, k'⟩ | ⟨m', s', r', z', -, k'⟩ | ⟨m', s', r', h', k'⟩ :=
      alike_cases (marker?_alike ht' b x)
    · rw [k] at k'
      cases k'
    · rw [k] at k'
      injection k' with k'
      injection k' with hm hr hz
      exact absurd hz.symm (by simp)
    · rw [k] at k'
      cases k'
      exact .inr (.inr ⟨m, s, s', h, h'⟩)

/-- A marker in front of a cut: there is none, or the same one on both sides of it, or a header that
    goes past the cut. -/
theorem marker?_cut {y tail after : List Char} (hy : Shut y) (ht : Breaks tail after) (b : Bool) :
    (marker? b (y ++ tail) = none ∧ marker? b y = none) ∨
      (∃ m s z, marker? b (y ++ tail) = some ⟨m, s, z ++ tail⟩ ∧ marker? b y = some ⟨m, s, z⟩) ∨
      ∃ m s, m.EndsLine ∧ marker? b (y ++ tail) = some ⟨m, s, afterBlankLines after⟩ ∧
        marker? b y = none ∧ '\n' ∉ y := by
  have same : ∀ {m s s' z}, marker? b (y ++ tail) = some ⟨m, s, z ++ tail⟩ →
      marker? b y = some ⟨m, s', z⟩ →
      ∃ m s z, marker? b (y ++ tail) = some ⟨m, s, z ++ tail⟩ ∧ marker? b y = some ⟨m, s, z⟩ := by
    intro m s s' z h h'
    exact ⟨m, s, z, h, marker?_source_eq h h' ▸ h'⟩
  by_cases hbreak : '\n' ∈ y
  · -- the first line ends in front of the cut, and markers see no more than its end
    obtain ⟨a, r, rfl⟩ := List.append_of_mem hbreak
    obtain ⟨u, c, v, rfl, hc⟩ := hy.afterBreak
    have htext : a ++ '\n' :: (u ++ c :: v) ++ tail = a ++ '\n' :: (u ++ c :: (v ++ tail)) := by
      simp
    rw [htext] at same ⊢
    obtain ⟨h, h'⟩ | ⟨m, s, x, -, h, h'⟩ | ⟨m, s, s', h, h'⟩ :=
      marker?_both (breaks_plain (u ++ c :: (v ++ tail))) (breaks_plain (u ++ c :: v)) b a
    · exact .inl ⟨h, h'⟩
    · refine .inr (.inl (same (s := s) ?_ h'))
      rw [h]
      simp
    · refine .inr (.inl (same (s := s) ?_ h'))
      rw [h, afterBlankLines_stop hc, afterBlankLines_stop hc]
      simp
  · -- all of the text stands on its last line
    have hshort := marker?_ending b hbreak
    obtain ⟨h, h'⟩ | ⟨m, s, x, -, h, h'⟩ | ⟨m, s, s', h, h'⟩ :=
      marker?_both ht (breaks_plain []) b y
    · rw [h'] at hshort
      generalize hk : marker? b y = k at hshort
      cases hshort
      exact .inl ⟨h, rfl⟩
    · rw [h'] at hshort
      generalize hk : marker? b y = k at hshort
      generalize hx : x ++ ['\n'] = x' at hshort
      cases hshort with
      | same m s' rest =>
          cases List.append_cancel_right hx
          refine .inr (.inl ?_)
          rw [← hk]
          exact same h hk
      | header m s' hm => exact absurd hx (by simp)
    · rw [h'] at hshort
      generalize hk : marker? b y = k at hshort
      generalize hx : afterBlankLines [] = x' at hshort
      cases hshort with
      | same m s' rest => exact absurd hx.symm (List.append_ne_nil_of_right_ne_nil _ (by simp))
      | header m s' hm => exact .inr (.inr ⟨m, s, hm, h, rfl, hbreak⟩)

end ShaderTemplates.Template
