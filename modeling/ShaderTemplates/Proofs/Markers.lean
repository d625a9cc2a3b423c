import ShaderTemplates.Proofs.Reading

/-!
# Where markers start

All markers but variables start with an at sign, behind comment leaders at most, and no marker
goes past a line break other than the one that ends it.  So

* where the line holds no at sign, only a variable can start (`marker?_of_no_at`);
* a variable does not see what follows its line (`variableWord?_append_lineEnd`);
* a text without at signs is read by itself (`piecesFrom_text`), and all its tokens are
  variables (`variable_of_mem_text`).

The second part reads the marker lines in the forms in which templates are usually written.
-/

namespace ShaderTemplates.Template

open Text

-- ── Runs ─────────────────────────────────────────────────────────────────────

section Runs

variable {α : Type} {p : α → Bool} {c : α}

theorem takeWhile_append_stop (h : p c = false) (s r : List α) :
    (s ++ c :: r).takeWhile p = s.takeWhile p := by
  induction s with
  | nil => simp [h]
  | cons x s ih => cases hx : p x <;> simp [hx, ih]

theorem dropWhile_append_stop (h : p c = false) (s r : List α) :
    (s ++ c :: r).dropWhile p = s.dropWhile p ++ c :: r := by
  induction s with
  | nil => simp [h]
  | cons x s ih => cases hx : p x <;> simp [hx, ih]

theorem takeWhile_eq_self {s : List α} (hs : ∀ x ∈ s, p x = true) : s.takeWhile p = s := by
  simpa using @List.takeWhile_append_of_pos α p s [] hs

theorem dropWhile_eq_nil {s : List α} (hs : ∀ x ∈ s, p x = true) : s.dropWhile p = [] := by
  simpa using @List.dropWhile_append_of_pos α p s [] hs

/-- A run that ends where `c` stands. -/
theorem takeWhile_run {s : List α} (hs : ∀ x ∈ s, p x = true) (h : p c = false)
    (r : List α) : (s ++ c :: r).takeWhile p = s := by
  rw [takeWhile_append_stop h, takeWhile_eq_self hs]

theorem dropWhile_run {s : List α} (hs : ∀ x ∈ s, p x = true) (h : p c = false)
    (r : List α) : (s ++ c :: r).dropWhile p = c :: r := by
  rw [dropWhile_append_stop h, dropWhile_eq_nil hs]
  rfl

end Runs

-- ── Lines without at signs ───────────────────────────────────────────────────

/-- A text up to its first line break. -/
def firstLine (cs : List Char) : List Char := cs.takeWhile (· != '\n')

theorem firstLine_subset {cs : List Char} {c : Char} (h : c ∈ firstLine cs) : c ∈ cs :=
  (List.takeWhile_sublist _).mem h

theorem break_not_mem_firstLine (cs : List Char) : '\n' ∉ firstLine cs := by
  induction cs with
  | nil => exact List.not_mem_nil
  | cons c cs ih =>
      rw [firstLine, List.takeWhile_cons]
      split
      · next hc =>
          rw [List.mem_cons, not_or]
          refine ⟨?_, ih⟩
          rintro rfl
          cases hc
      · exact List.not_mem_nil

theorem firstLine_append {a : List Char} (ha : '\n' ∉ a) (b : List Char) :
    firstLine (a ++ b) = a ++ firstLine b := by
  refine List.takeWhile_append_of_pos ?_
  intro x hx
  simp only [bne_iff_ne, ne_eq]
  rintro rfl
  exact ha hx

/-- What follows a line break or nothing does not lengthen the first line. -/
theorem firstLine_append_lineEnd (s : List Char) {rest : List Char} (h : LineEnd rest) :
    firstLine (s ++ rest) = firstLine s := by
  obtain rfl | ⟨after, rfl⟩ := h
  · rw [List.append_nil]
  · exact takeWhile_append_stop rfl s after

theorem lineBreak_not_mem_blanks {cs : List Char} : '\n' ∉ cs.takeWhile isInlineBlank := by
  induction cs with
  | nil => exact List.not_mem_nil
  | cons c cs ih =>
      cases hc : isInlineBlank c with
      | false => simp [hc]
      | true =>
          rw [List.takeWhile_cons_of_pos hc, List.mem_cons]
          rintro (rfl | h)
          · exact absurd hc (by decide)
          · exact ih h

theorem lineBreak_not_mem_leaders (colon : Bool) (cs : List Char) :
    '\n' ∉ leaders colon cs := by
  fun_induction leaders colon cs with
  | case1 rest ih | case2 rest hc ih =>
      simp only [List.mem_cons, List.mem_append, not_or]
      exact ⟨by decide, by decide, by first
        | exact ⟨lineBreak_not_mem_blanks, ih⟩
        | exact ⟨by decide, lineBreak_not_mem_blanks, ih⟩⟩
  | case3 rest hc => exact List.not_mem_nil
  | case4 cs h h' => exact List.not_mem_nil

/-- A keyword takes an at sign from the first line. -/
theorem afterKeyword?_of_no_at {keyword cs : List Char} (hk : '@' ∈ keyword.head?)
    (h : '@' ∉ firstLine cs) : afterKeyword? keyword cs = none := by
  obtain ⟨tail, rfl⟩ := List.head?_eq_some_iff.mp hk
  cases hr : afterKeyword? ('@' :: tail) cs with
  | none => rfl
  | some rest =>
      refine absurd ?_ h
      rw [← afterKeyword?_append hr, List.cons_append, firstLine,
        List.takeWhile_cons_of_pos (by decide)]
      exact List.mem_cons_self

theorem at_not_mem_afterLeaders {colon : Bool} {cs : List Char} (h : '@' ∉ firstLine cs) :
    '@' ∉ firstLine (afterLeaders colon cs) := by
  intro hm
  apply h
  rw [← leaders_append colon cs, firstLine_append (lineBreak_not_mem_leaders colon cs)]
  exact List.mem_append_right _ hm

/-- Where the line holds no at sign, only a variable can start. -/
theorem marker?_of_no_at (b : Bool) {cs : List Char} (h : '@' ∉ firstLine cs) :
    marker? b cs = variableWord? cs := by
  have plain : ∀ keyword, '@' ∈ keyword.head? → afterKeyword? keyword cs = none :=
    fun keyword hk => afterKeyword?_of_no_at hk h
  have led : ∀ colon keyword, '@' ∈ keyword.head? →
      afterKeyword? keyword (afterLeaders colon cs) = none :=
    fun colon keyword hk => afterKeyword?_of_no_at hk (at_not_mem_afterLeaders h)
  rw [marker?_eq_anyMarker?]
  simp [anyMarker?, ifHeader?, blockHeader?, elseLine?, endIf?, endBlock?,
    plain ifKeyword rfl, plain elseKeyword rfl, plain endIfKeyword rfl,
    led false blockKeyword rfl, led true endBlockKeyword rfl]

-- ── Variables stay on their line ─────────────────────────────────────────────

/-- The first alternative, blanks before it left out. -/
def firstValue (cs : List Char) : List Char :=
  (cs.dropWhile isInlineBlank).takeWhile isAlternativeChar

/-- What comes after the first alternative and the blanks behind it. -/
def afterFirstValue (cs : List Char) : List Char :=
  ((cs.dropWhile isInlineBlank).dropWhile isAlternativeChar).dropWhile isInlineBlank

/-- The first alternative with the blanks around it. -/
def firstValueSource (cs : List Char) : List Char :=
  cs.takeWhile isInlineBlank ++ (firstValue cs ++
    ((cs.dropWhile isInlineBlank).dropWhile isAlternativeChar).takeWhile isInlineBlank)

theorem alternatives?_eq (cs : List Char) :
    alternatives? cs =
      if (firstValue cs).isEmpty then none
      else
        match afterFirstValue cs with
        | '|' :: more =>
          (alternatives? more).map fun found =>
            (String.ofList (firstValue cs) :: found.1,
              firstValueSource cs ++ '|' :: found.2.1, found.2.2)
        | '>' :: rest =>
          some ([String.ofList (firstValue cs)], firstValueSource cs ++ ['>'], rest)
        | _ => none := by
  rw [alternatives?]
  rw [firstValueSource, afterFirstValue, firstValue]
  split
  · rfl
  · split <;> rename_i h <;> simp [h]

theorem afterFirstValue_length_le (cs : List Char) :
    (afterFirstValue cs).length ≤ cs.length :=
  (((List.dropWhile_sublist _).trans (List.dropWhile_sublist _)).trans
    (List.dropWhile_sublist _)).length_le

theorem alternatives?_append_break (s after : List Char) :
    alternatives? (s ++ '\n' :: after) =
      (alternatives? s).map fun found => (found.1, found.2.1, found.2.2 ++ '\n' :: after) := by
  have stop : isInlineBlank '\n' = false := rfl
  have stop' : isAlternativeChar '\n' = false := rfl
  induction hn : s.length using Nat.strongRecOn generalizing s with
  | ind n ih =>
      have hvalue : firstValue (s ++ '\n' :: after) = firstValue s := by
        rw [firstValue, dropWhile_append_stop stop, takeWhile_append_stop stop', firstValue]
      have hafter : afterFirstValue (s ++ '\n' :: after) = afterFirstValue s ++ '\n' :: after := by
        simp only [afterFirstValue, dropWhile_append_stop stop, dropWhile_append_stop stop']
      have hsource : firstValueSource (s ++ '\n' :: after) = firstValueSource s := by
        simp only [firstValueSource, hvalue, takeWhile_append_stop stop, dropWhile_append_stop stop,
          dropWhile_append_stop stop']
      have hle := afterFirstValue_length_le s
      rw [alternatives?_eq, alternatives?_eq s, hvalue, hafter, hsource]
      by_cases hv : (firstValue s).isEmpty = true
      · rw [if_pos hv, if_pos hv]
        rfl
      · rw [if_neg hv, if_neg hv]
        cases hm : afterFirstValue s with
        | nil => rfl
        | cons c rest =>
            rw [hm, List.length_cons] at hle
            rw [List.cons_append]
            by_cases hbar : c = '|'
            · subst hbar
              show Option.map _ (alternatives? (rest ++ '\n' :: after)) = _
              rw [ih rest.length (by omega) rest rfl]
              show _ = Option.map _ (Option.map _ (alternatives? rest))
              cases alternatives? rest <;> rfl
            · by_cases hclose : c = '>'
              · subst hclose
                rfl
              · simp [hbar, hclose]

/-- The end of a variable, behind its name. -/
def variableEnd? (name taken : List Char) : List Char → Option Found
  | '>' :: rest => some ⟨.variable (String.ofList name) [], taken ++ ['>'], rest⟩
  | '=' :: more =>
    (alternatives? more).map fun found =>
      ⟨.variable (String.ofList name) found.1.eraseDups, taken ++ '=' :: found.2.1, found.2.2⟩
  | _ => none

theorem variableEnd?_of_ne {c : Char} (hclose : c ≠ '>') (heq : c ≠ '=')
    (name taken rest : List Char) : variableEnd? name taken (c :: rest) = none := by
  simp [variableEnd?, hclose, heq]

theorem variableWord?_eq (cs : List Char) :
    variableWord? ('<' :: cs) =
      if (cs.takeWhile isVariableChar).isEmpty then none
      else
        variableEnd? (cs.takeWhile isVariableChar)
          ('<' :: (cs.takeWhile isVariableChar ++
            (cs.dropWhile isVariableChar).takeWhile isInlineBlank))
          ((cs.dropWhile isVariableChar).dropWhile isInlineBlank) := rfl

theorem variableWord?_of_ne {c : Char} (h : c ≠ '<') (rest : List Char) :
    variableWord? (c :: rest) = none := by
  simp [variableWord?, h]

/-- A variable does not see what follows its line. -/
theorem variableWord?_append_lineEnd (s : List Char) {rest : List Char} (h : LineEnd rest) :
    variableWord? (s ++ rest) =
      (variableWord? s).map fun f => ⟨f.marker, f.source, f.rest ++ rest⟩ := by
  have stop : isInlineBlank '\n' = false := rfl
  have stop' : isVariableChar '\n' = false := rfl
  obtain rfl | ⟨after, rfl⟩ := h
  · simp
  · cases s with
    | nil => rfl
    | cons c s =>
        by_cases hc : c = '<'
        · subst hc
          rw [List.cons_append, variableWord?_eq, variableWord?_eq, takeWhile_append_stop stop',
            dropWhile_append_stop stop', takeWhile_append_stop stop, dropWhile_append_stop stop]
          by_cases hname : (s.takeWhile isVariableChar).isEmpty = true
          · rw [if_pos hname, if_pos hname]
            rfl
          · rw [if_neg hname, if_neg hname]
            cases (s.dropWhile isVariableChar).dropWhile isInlineBlank with
            | nil => rfl
            | cons c rest =>
                rw [List.cons_append]
                by_cases hclose : c = '>'
                · subst hclose
                  rfl
                · by_cases heq : c = '='
                  · subst heq
                    rw [variableEnd?, variableEnd?, alternatives?_append_break]
                    cases alternatives? rest <;> rfl
                  · rw [variableEnd?_of_ne hclose heq, variableEnd?_of_ne hclose heq]
                    rfl
        · rw [List.cons_append, variableWord?_of_ne hc, variableWord?_of_ne hc]
          rfl

theorem marker_of_variableWord? {cs : List Char} {f : Found} (h : variableWord? cs = some f) :
    ∃ name alternatives, f.marker = .variable name alternatives := by
  unfold variableWord? at h
  split at h
  · dsimp only at h
    split at h
    · cases h
    · split at h
      · cases h
        exact ⟨_, _, rfl⟩
      · obtain ⟨found, -, rfl⟩ := Option.map_eq_some_iff.mp h
        exact ⟨_, _, rfl⟩
      · cases h
  · cases h

-- ── Texts without at signs ───────────────────────────────────────────────────

theorem pastChar_line (p : Position) (c : Char) :
    (p.pastChar c).line = p.line + lineBreaks [c] := by
  rw [Position.pastChar]
  by_cases hc : c = '\n'
  · subst hc
    rfl
  · rw [if_neg hc]
    have : lineBreaks [c] = 0 := by simp [lineBreaks, hc]
    split <;> simp [this]

theorem at_not_mem_firstLine {s : List Char} (hs : '@' ∉ s) {rest : List Char} (h : LineEnd rest) :
    '@' ∉ firstLine (s ++ rest) := by
  rw [firstLine_append_lineEnd s h]
  intro hm
  exact hs (firstLine_subset hm)

/-- A text without at signs is read by itself. -/
theorem piecesFrom_text {s : List Char} (hs : '@' ∉ s) {rest : List Char} (h : LineEnd rest)
    (p : Position) :
    piecesFrom p (s ++ rest) =
      piecesFrom p s ++ piecesFrom (.lineAt (p.line + lineBreaks s)) rest := by
  induction p, s using reading_induction with
  | nil p => exact piecesFrom_lineEnd p h
  | char p c s hm ih =>
      have hs' : '@' ∉ s := fun hm => hs (List.mem_cons_of_mem _ hm)
      have hm' : marker? p.lineStart (c :: s ++ rest) = none := by
        rw [marker?_of_no_at _ (at_not_mem_firstLine hs h), variableWord?_append_lineEnd _ h,
          ← marker?_of_no_at p.lineStart (fun hm => hs (firstLine_subset hm)), hm]
        rfl
      rw [List.cons_append] at hm' ⊢
      rw [piecesFrom_char hm', piecesFrom_char hm, ih hs', pastChar_line, Nat.add_assoc,
        ← lineBreaks_append]
      rfl
  | marker p s f hm ih =>
      have happ := marker?_append hm
      have hs' : '@' ∉ f.rest := fun hm => hs (happ ▸ List.mem_append_right _ hm)
      have hm' : marker? p.lineStart (s ++ rest) = some ⟨f.marker, f.source, f.rest ++ rest⟩ := by
        rw [marker?_of_no_at _ (at_not_mem_firstLine hs h), variableWord?_append_lineEnd _ h,
          ← marker?_of_no_at p.lineStart (fun hm => hs (firstLine_subset hm)), hm]
        rfl
      rw [piecesFrom_marker hm', piecesFrom_marker hm, ih hs']
      rw [show (p.pastMarker f.source).line = p.line + lineBreaks f.source from rfl, Nat.add_assoc,
        ← lineBreaks_append, happ]
      rfl

/-- All tokens of a text without at signs are variables. -/
theorem variable_of_mem_text {s : List Char} (hs : '@' ∉ s) {p : Position} {t : Token}
    (h : .item t ∈ piecesFrom p s) : ∃ name alternatives, t.marker = .variable name alternatives := by
  induction p, s using reading_induction with
  | nil p => exact absurd h List.not_mem_nil
  | char p c s hm ih =>
      rw [piecesFrom_char hm] at h
      rcases List.mem_cons.mp h with h | h
      · cases h
      · exact ih (fun hm => hs (List.mem_cons_of_mem _ hm)) h
  | marker p s f hm ih =>
      rw [piecesFrom_marker hm] at h
      rcases List.mem_cons.mp h with h | h
      · cases h
        rw [marker?_of_no_at p.lineStart (fun hm => hs (firstLine_subset hm))] at hm
        exact marker_of_variableWord? hm
      · exact ih (fun hr => hs (marker?_append hm ▸ List.mem_append_right _ hr)) h

-- ── What a marker tells ──────────────────────────────────────────────────────

/-- The blanks at the end of a header end with a line break. -/
theorem headerEnd?_spec {cs : List Char} {n : Nat} (h : headerEnd? cs = some n) :
    (∀ c ∈ cs.take n, isAsciiBlank c = true) ∧ (cs.take n).getLast? = some '\n' := by
  induction cs generalizing n with
  | nil => cases h
  | cons c cs ih =>
      rw [headerEnd?] at h
      by_cases hc : isAsciiBlank c = true
      · rw [if_pos hc] at h
        cases hend : headerEnd? cs with
        | some k =>
            rw [hend] at h
            cases h
            obtain ⟨hall, hlast⟩ := ih hend
            refine ⟨?_, ?_⟩
            · intro x hx
              rcases List.mem_cons.mp hx with rfl | hx
              · exact hc
              · exact hall x hx
            · simp [List.getLast?_cons, hlast]
        | none =>
            rw [hend] at h
            by_cases hbreak : c = '\n'
            · subst hbreak
              cases h
              exact ⟨by simp [isAsciiBlank], rfl⟩
            · simp [hbreak] at h
      · rw [if_neg hc] at h
        cases h

theorem endHeader_getLast? {m : Marker} {taken rest : List Char} {f : Found}
    (h : endHeader m taken rest = some f) : f.marker = m ∧ f.source.getLast? = some '\n' := by
  obtain ⟨n, hn, rfl⟩ := Option.map_eq_some_iff.mp h
  refine ⟨rfl, ?_⟩
  rw [List.getLast?_append, (headerEnd?_spec hn).2]
  rfl

/-- What the kind of a marker tells about its text and its place: headers end with a line break, and
    only the other lines of conditionals and blocks need the start of a line. -/
def Found.Explained (f : Found) (lineStart : Bool) (cs : List Char) : Prop :=
  match f.marker with
  | .variable _ _ => variableWord? cs = some f
  | .ifHeader _ _ | .blockHeader _ => f.source.getLast? = some '\n'
  | .elseLine => lineStart = true ∧ f.source.getLast? = some '\n'
  | .endIf | .endBlock => lineStart = true

theorem marker?_explained {b : Bool} {cs : List Char} {f : Found} (h : marker? b cs = some f) :
    f.Explained b cs := by
  obtain h | h | h | ⟨hb, h | h | h⟩ := marker?_eq_some h
  · obtain ⟨name, alternatives, hm⟩ := marker_of_variableWord? h
    rw [Found.Explained, hm]
    exact h
  · obtain ⟨_, _, _, _, -, h⟩ := ifHeader?_eq_some h
    obtain ⟨hm, hlast⟩ := endHeader_getLast? h
    rw [Found.Explained, hm]
    exact hlast
  · obtain ⟨_, _, _, -, -, h⟩ := blockHeader?_eq_some h
    obtain ⟨hm, hlast⟩ := endHeader_getLast? h
    rw [Found.Explained, hm]
    exact hlast
  · obtain ⟨_, h⟩ := elseLine?_eq_some h
    obtain ⟨hm, hlast⟩ := endHeader_getLast? h
    rw [Found.Explained, hm]
    exact ⟨hb, hlast⟩
  · obtain ⟨_, -, rfl⟩ := Option.map_eq_some_iff.mp h
    exact hb
  · obtain ⟨_, -, rfl⟩ := Option.map_eq_some_iff.mp h
    exact hb

/-- How a marker of a kind is found. -/
def Marker.matcher : Marker → List Char → Option Found
  | .ifHeader _ _ => ifHeader?
  | .elseLine => elseLine?
  | .endIf => endIf?
  | .blockHeader _ => blockHeader?
  | .endBlock => endBlock?
  | .variable _ _ => variableWord?

/-- A marker is found by the matcher of its kind. -/
theorem matcher_of_marker? {b : Bool} {cs : List Char} {f : Found} (h : marker? b cs = some f) :
    f.marker.matcher cs = some f := by
  have ending : ∀ {m : Marker} {taken rest : List Char}, endHeader m taken rest = some f →
      f.marker = m := by
    intro m taken rest h
    obtain ⟨_, -, rfl⟩ := Option.map_eq_some_iff.mp h
    rfl
  obtain h | h | h | ⟨-, h | h | h⟩ := marker?_eq_some h
  · obtain ⟨_, _, hm⟩ := marker_of_variableWord? h
    rw [hm]
    exact h
  · obtain ⟨_, _, _, _, -, hends⟩ := ifHeader?_eq_some h
    rw [ending hends]
    exact h
  · obtain ⟨_, _, _, -, -, hends⟩ := blockHeader?_eq_some h
    rw [ending hends]
    exact h
  · obtain ⟨_, hends⟩ := elseLine?_eq_some h
    rw [ending hends]
    exact h
  · obtain ⟨_, -, rfl⟩ := Option.map_eq_some_iff.mp h
    exact h
  · obtain ⟨_, -, rfl⟩ := Option.map_eq_some_iff.mp h
    exact h

end ShaderTemplates.Template
