import Mathlib.Order.Bounds.Basic
import ShaderTemplates.Proofs.OffsetRegions

/-!
# Counting markers

A conditional ends at the first token up to which more conditionals have ended than have been
opened since its header: there the counts of the markers overrun for the first time (`Overruns`).
Here it is shown that this is where the search for the markers that close a conditional ends
(`closeFrom_eq_some_iff`).

What carries the proofs is how counting goes on behind a part of the tokens
(`isLeast_overruns_drop`).  A single token moves the first overrun as `endIfStep` says
(`isLeast_overruns_stop`, `isLeast_overruns_pass`).
-/

namespace ShaderTemplates.Template.Offsets

-- ── Counts of markers ────────────────────────────────────────────────────────

/-- The token is the header of a conditional. -/
def Token.isHeader (t : Token) : Bool :=
  match t.marker with
  | .ifHeader .. => true
  | _ => false

/-- The token is the end of a conditional. -/
def Token.isEnd (t : Token) : Bool :=
  match t.marker with
  | .endIf => true
  | _ => false

/-- How many conditionals are opened. -/
def headerCount (ts : List Token) : Nat := ts.countP Token.isHeader

/-- How many conditionals are ended. -/
def endCount (ts : List Token) : Nat := ts.countP Token.isEnd

/-- The tokens strictly between two indices. -/
def between (ts : List Token) (i j : Nat) : List Token := (ts.drop (i + 1)).take (j - (i + 1))

section

variable {t : Token} {ts : List Token} {d e j k n : Nat}

theorem headerCount_cons (t : Token) (ts : List Token) :
    headerCount (t :: ts) = t.isHeader.toNat + headerCount ts := by
  rw [headerCount, List.countP_cons, Nat.add_comm]
  cases t.isHeader <;> rfl

theorem endCount_cons (t : Token) (ts : List Token) :
    endCount (t :: ts) = t.isEnd.toNat + endCount ts := by
  rw [endCount, List.countP_cons, Nat.add_comm]
  cases t.isEnd <;> rfl

theorem headerCount_append (ts us : List Token) :
    headerCount (ts ++ us) = headerCount ts + headerCount us :=
  List.countP_append

theorem endCount_append (ts us : List Token) :
    endCount (ts ++ us) = endCount ts + endCount us :=
  List.countP_append

theorem marker_of_isEnd (h : t.isEnd = true) : t.marker = .endIf := by
  obtain ⟨m, start, stop, line⟩ := t
  cases m <;> first | rfl | cases h

theorem counts_take_one (t : Token) (ts : List Token) :
    headerCount ((t :: ts).take 1) = t.isHeader.toNat ∧
      endCount ((t :: ts).take 1) = t.isEnd.toNat := by
  rw [List.take_succ_cons, List.take_zero, headerCount_cons, endCount_cons]
  exact ⟨rfl, rfl⟩

/-- A marker that is passed opens and ends as many conditionals as the step says. -/
theorem counts_of_pass (h : endIfStep t.marker d = some e) :
    t.isHeader.toNat + d = t.isEnd.toNat + e := by
  obtain ⟨m, start, stop, line⟩ := t
  cases m <;> cases d <;> cases h <;> simp [Token.isHeader, Token.isEnd, Nat.add_comm]

/-- The end marker ends one conditional more than there are. -/
theorem counts_of_stop (h : endIfStep t.marker d = none) :
    t.isHeader.toNat + d < t.isEnd.toNat := by
  obtain ⟨m, start, stop, line⟩ := t
  obtain ⟨rfl, rfl⟩ : m = .endIf ∧ d = 0 := endIf_of_stop h
  exact Nat.zero_lt_one

-- ── The first overrun ────────────────────────────────────────────────────────

/-- With the token at index `k` more conditionals have ended than have been opened, the `d` that are
    open at the start included. -/
def Overruns (d : Nat) (ts : List Token) (k : Nat) : Prop :=
  k < ts.length ∧ headerCount (ts.take (k + 1)) + d < endCount (ts.take (k + 1))

/-- Behind a part of the tokens counting goes on with the conditionals that it leaves open. -/
theorem overruns_drop (h : headerCount (ts.take j) + d = endCount (ts.take j) + e) :
    Overruns e (ts.drop j) k ↔ Overruns d ts (j + k) := by
  have htake : ts.take (j + k + 1) = ts.take j ++ (ts.drop j).take (k + 1) := by
    rw [Nat.add_assoc, List.take_add]
  rw [Overruns, Overruns, htake, headerCount_append, endCount_append, List.length_drop]
  omega

theorem counts_take_succ (h : ts[j]? = some t) :
    headerCount (ts.take (j + 1)) = headerCount (ts.take j) + t.isHeader.toNat ∧
      endCount (ts.take (j + 1)) = endCount (ts.take j) + t.isEnd.toNat := by
  rw [List.take_add_one, h, Option.toList_some, headerCount_append, endCount_append,
    headerCount_cons, endCount_cons]
  exact ⟨rfl, rfl⟩

/-- In front of an overrun no conditional is open. -/
theorem Overruns.counts (h : Overruns d ts n) :
    headerCount (ts.take n) + d ≤ endCount (ts.take n) := by
  obtain ⟨hlt, hover⟩ := h
  obtain ⟨hheaders, hends⟩ := counts_take_succ (List.getElem?_eq_getElem hlt)
  have hone := Bool.toNat_le ts[n].isEnd
  omega

/-- In front of the first overrun no more conditionals have ended than have been opened. -/
theorem endCount_take_le (h : IsLeast {k | Overruns d ts k} n) (hj : j ≤ n) :
    endCount (ts.take j) ≤ headerCount (ts.take j) + d := by
  cases j with
  | zero => exact Nat.zero_le _
  | succ j =>
      have hlast : ¬ Overruns d ts j := fun hover => absurd (h.2 hover) (Nat.not_le.2 hj)
      have hlength : n < ts.length := h.1.1
      rw [Overruns] at hlast
      omega

/-- What is in front of the first overrun leaves conditionals open, and behind it the first overrun
    is where it was. -/
theorem isLeast_overruns_drop (h : IsLeast {k | Overruns d ts k} n) (hj : j ≤ n) :
    ∃ e, headerCount (ts.take j) + d = endCount (ts.take j) + e ∧
      IsLeast {k | Overruns e (ts.drop j) k} (n - j) := by
  obtain ⟨e, he⟩ := Nat.exists_eq_add_of_le (endCount_take_le h hj)
  refine ⟨e, he, (overruns_drop he).2 ?_, fun k hk => ?_⟩
  · rw [Nat.add_sub_cancel' hj]
    exact h.1
  · have := h.2 ((overruns_drop he).1 hk)
    omega

theorem overruns_zero :
    Overruns d (t :: ts) 0 ↔ t.isHeader.toNat + d < t.isEnd.toNat := by
  obtain ⟨hheaders, hends⟩ := counts_take_one t ts
  rw [Overruns, Nat.zero_add, hheaders, hends]
  exact and_iff_right (Nat.zero_lt_succ _)

theorem overruns_succ (h : endIfStep t.marker d = some e) :
    Overruns d (t :: ts) (k + 1) ↔ Overruns e ts k := by
  have hcounts : headerCount ((t :: ts).take 1) + d = endCount ((t :: ts).take 1) + e := by
    rw [(counts_take_one t ts).1, (counts_take_one t ts).2]
    exact counts_of_pass h
  rw [Nat.add_comm]
  exact (overruns_drop hcounts).symm

/-- At the end marker itself is the first overrun. -/
theorem isLeast_overruns_stop (h : endIfStep t.marker d = none) :
    IsLeast {k | Overruns d (t :: ts) k} n ↔ n = 0 := by
  constructor
  · exact fun hn => Nat.le_zero.1 (hn.2 (overruns_zero.2 (counts_of_stop h)))
  · rintro rfl
    exact ⟨overruns_zero.2 (counts_of_stop h), fun k _ => Nat.zero_le k⟩

/-- A marker that is passed moves the first overrun by one. -/
theorem isLeast_overruns_pass (h : endIfStep t.marker d = some e) :
    IsLeast {k | Overruns d (t :: ts) k} n ↔
      ∃ k, n = k + 1 ∧ IsLeast {k | Overruns e ts k} k := by
  have hzero : ¬ Overruns d (t :: ts) 0 := by
    have := counts_of_pass h
    rw [overruns_zero]
    omega
  constructor
  · intro hn
    cases n with
    | zero => exact absurd hn.1 hzero
    | succ k =>
        refine ⟨k, rfl, (overruns_succ h).1 hn.1, fun i hi => ?_⟩
        exact Nat.le_of_succ_le_succ (hn.2 ((overruns_succ h).2 hi))
  · rintro ⟨k, rfl, hk⟩
    refine ⟨(overruns_succ h).2 hk.1, fun i hi => ?_⟩
    cases i with
    | zero => exact absurd hi hzero
    | succ i => exact Nat.succ_le_succ (hk.2 ((overruns_succ h).1 hi))

end

-- ── The search ───────────────────────────────────────────────────────────────

/-- In front of the token at index `n` there is an `@else` at index `j`, and none of the
    conditionals is open there, the `d` that are open at the start included. -/
def ElseAmong (d : Nat) (ts : List Token) (n j : Nat) : Prop :=
  j < n ∧ (ts[j]?).map Token.marker = some .elseLine ∧
    headerCount (ts.take j) + d = endCount (ts.take j)

section

variable {t : Token} {ts : List Token} {index d e i j n : Nat} {else? : Option Nat}
  {c : ConditionalEnd}

theorem elseStep_eq_none_iff {m : Marker} : elseStep m d = none ↔ m = .elseLine ∧ d = 0 := by
  constructor
  · exact elseLine_of_stop
  · rintro ⟨rfl, rfl⟩
    rfl

theorem elseAmong_zero : ElseAmong d (t :: ts) (n + 1) 0 ↔ elseStep t.marker d = none := by
  rw [elseStep_eq_none_iff, ElseAmong, List.take_zero, List.getElem?_cons_zero, Option.map_some,
    Option.some_inj]
  simp [headerCount, endCount]

theorem elseAmong_succ (h : endIfStep t.marker d = some e) :
    ElseAmong d (t :: ts) (n + 1) (j + 1) ↔ ElseAmong e ts n j := by
  have hcounts := counts_of_pass h
  rw [ElseAmong, ElseAmong, List.take_succ_cons, List.getElem?_cons_succ, headerCount_cons,
    endCount_cons]
  refine and_congr Nat.succ_lt_succ_iff (and_congr_right' ?_)
  omega

/-- The `@else` markers behind a marker that is passed, and that marker itself. -/
theorem exists_elseAmong_cons (h : endIfStep t.marker d = some e) :
    (∃ j, i = index + j ∧ ElseAmong d (t :: ts) (n + 1) j) ↔
      (i = index ∧ elseStep t.marker d = none) ∨ ∃ j, i = index + 1 + j ∧ ElseAmong e ts n j := by
  constructor
  · rintro ⟨j, rfl, hj⟩
    cases j with
    | zero => exact .inl ⟨rfl, elseAmong_zero.1 hj⟩
    | succ j => exact .inr ⟨j, by omega, (elseAmong_succ h).1 hj⟩
  · rintro (⟨rfl, hnone⟩ | ⟨j, rfl, hj⟩)
    · exact ⟨0, rfl, elseAmong_zero.2 hnone⟩
    · exact ⟨j + 1, by omega, (elseAmong_succ h).2 hj⟩

/-- The markers that close a conditional, told by counts: `d` conditionals are open in front of the
    token at `index`, and `else?` is the `@else` that was met before. -/
def Closed (index d : Nat) (else? : Option Nat) (ts : List Token) (c : ConditionalEnd) : Prop :=
  ∃ n, c.endIndex = index + n ∧ IsLeast {k | Overruns d ts k} n ∧
    ∀ i, c.elseIndex? = some i ↔ else? = some i ∨ ∃ j, i = index + j ∧ ElseAmong d ts n j

theorem not_closed_nil : ¬ Closed index d else? [] c := by
  rintro ⟨n, -, hn, -⟩
  exact Nat.not_lt_zero n hn.1.1

theorem closed_stop (h : endIfStep t.marker d = none) :
    Closed index d else? (t :: ts) c ↔ c = ⟨else?, index⟩ := by
  have hno : ∀ i, ¬ ∃ j, i = index + j ∧ ElseAmong d (t :: ts) 0 j := by
    rintro i ⟨j, -, hj, -⟩
    exact Nat.not_lt_zero j hj
  constructor
  · rintro ⟨n, hend, hn, helse⟩
    obtain rfl := (isLeast_overruns_stop h).1 hn
    obtain ⟨found?, stop⟩ := c
    obtain rfl : stop = index := hend
    have hfound : found? = else? := Option.ext fun i => (helse i).trans (or_iff_left (hno i))
    rw [hfound]
  · rintro rfl
    exact ⟨0, rfl, (isLeast_overruns_stop h).2 rfl, fun i => (or_iff_left (hno i)).symm⟩

/-- Any other marker: the counts go on behind it, and it may be an `@else` of the conditional. -/
theorem closed_cons (h : endIfStep t.marker d = some e) :
    Closed index d else? (t :: ts) c ↔
      ∃ n, c.endIndex = index + 1 + n ∧ IsLeast {k | Overruns e ts k} n ∧
        ∀ i, c.elseIndex? = some i ↔ else? = some i ∨
          (i = index ∧ elseStep t.marker d = none) ∨
            ∃ j, i = index + 1 + j ∧ ElseAmong e ts n j := by
  constructor
  · rintro ⟨_, hend, hn, helse⟩
    obtain ⟨n, rfl, hrest⟩ := (isLeast_overruns_pass h).1 hn
    exact ⟨n, by omega, hrest, fun i => (helse i).trans (or_congr_right (exists_elseAmong_cons h))⟩
  · rintro ⟨n, hend, hn, helse⟩
    exact ⟨n + 1, by omega, (isLeast_overruns_pass h).2 ⟨n, rfl, hn⟩,
      fun i => (helse i).trans (or_congr_right (exists_elseAmong_cons h).symm)⟩

theorem closed_pass (hend : endIfStep t.marker d = some e) (helse : elseStep t.marker d = some e) :
    Closed index d else? (t :: ts) c ↔ Closed (index + 1) e else? ts c := by
  rw [closed_cons hend, Closed]
  simp only [helse, reduceCtorEq, and_false, false_or]

theorem closed_else (hend : endIfStep t.marker d = some e) (helse : elseStep t.marker d = none) :
    Closed index d none (t :: ts) c ↔ Closed (index + 1) e (some index) ts c := by
  rw [closed_cons hend, Closed]
  simp only [helse, Option.some_inj, and_true, eq_comm, reduceCtorEq, false_or]

/-- With a second `@else` of its own a conditional is not closed. -/
theorem not_closed_else {first : Nat} (hend : endIfStep t.marker d = some e)
    (helse : elseStep t.marker d = none) (hmet : first < index) :
    ¬ Closed index d (some first) (t :: ts) c := by
  rw [closed_cons hend]
  rintro ⟨n, -, -, hfound⟩
  have hfirst := (hfound first).2 (.inl rfl)
  have hsecond := (hfound index).2 (.inr (.inl ⟨rfl, helse⟩))
  rw [hfirst, Option.some_inj] at hsecond
  omega

/-- The search finds the markers that the counts tell.  The induction is on the tokens. -/
theorem closeFrom_eq_some_iff (hmet : ∀ i, else? = some i → i < index) :
    closeFrom index d else? ts = some c ↔ Closed index d else? ts c := by
  induction ts generalizing index d else? with
  | nil => exact iff_of_false (fun h => by cases h) not_closed_nil
  | cons t ts ih =>
      cases hend : endIfStep t.marker d with
      | none =>
          rw [closeFrom_stop hend, closed_stop hend, Option.some_inj]
          exact eq_comm
      | some e =>
          cases helse : elseStep t.marker d with
          | some e' =>
              cases step_eq hend helse
              rw [closeFrom_pass hend helse, closed_pass hend helse]
              exact ih fun i hi => Nat.lt_succ_of_lt (hmet i hi)
          | none =>
              rw [closeFrom_else helse]
              cases else? with
              | some first =>
                  refine iff_of_false (fun h => by cases h) ?_
                  exact not_closed_else hend helse (hmet first rfl)
              | none =>
                  obtain ⟨hmarker, rfl⟩ := elseLine_of_stop helse
                  obtain rfl : e = 0 := by
                    rw [hmarker] at hend
                    exact (Option.some.inj hend).symm
                  rw [if_neg (by decide), closed_else hend helse]
                  refine ih ?_
                  rintro i ⟨⟩
                  exact Nat.lt_succ_self index

end

end ShaderTemplates.Template.Offsets
