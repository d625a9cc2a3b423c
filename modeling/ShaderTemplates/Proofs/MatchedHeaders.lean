import Mathlib.Data.Set.Subsingleton
import Mathlib.Order.Interval.Set.Basic
import ShaderTemplates.Proofs.MarkerCounts

/-!
# Headers and end markers match like brackets

The markers of a conditional are told by their indices in the list of tokens: its end is the first
index up to which more conditionals have ended than have been opened since the header (`EndOf`), and
an `@else` of its own is one in front of which as many have ended as have been opened (`ElseOf`).

Between these markers headers and end markers match like brackets (`EndOf.matched`,
`EndOf.matched_else`).  Behind an inner header there is one conditional more to close, so what is
inside ends first, and two conditionals cannot overlap (`disjoint_or_inside`).
-/

namespace ShaderTemplates.Template.Offsets

-- ── Matching ─────────────────────────────────────────────────────────────────

/-- Every header has an end marker of its own behind it, as brackets have. -/
inductive Matched : List Token → Prop
  | nil : Matched []
  | other {t : Token} {ts : List Token} : t.isHeader = false → t.isEnd = false → Matched ts →
      Matched (t :: ts)
  | pair {t u : Token} {inside behind : List Token} : t.isHeader = true → Matched inside →
      u.isEnd = true → Matched behind → Matched (t :: (inside ++ u :: behind))

/-- Beyond what is matched there are end markers for `d` conditionals that are open at the start. -/
inductive MatchedBut : Nat → List Token → Prop
  | zero {ts : List Token} : Matched ts → MatchedBut 0 ts
  | succ {d : Nat} {u : Token} {inside behind : List Token} : Matched inside → u.isEnd = true →
      MatchedBut d behind → MatchedBut (d + 1) (inside ++ u :: behind)

section

variable {t : Token} {ts front : List Token} {d e j k n : Nat}

theorem MatchedBut.prepend (hfront : ∀ us, Matched us → Matched (front ++ us))
    (h : MatchedBut d ts) : MatchedBut d (front ++ ts) := by
  cases h with
  | zero h => exact .zero (hfront _ h)
  | succ hinside hend hbehind =>
      rw [← List.append_assoc]
      exact .succ (hfront _ hinside) hend hbehind

/-- One more token in front. -/
theorem MatchedBut.cons (hstep : endIfStep t.marker d = some e) (h : MatchedBut e ts) :
    MatchedBut d (t :: ts) := by
  have hother : t.isHeader = false → t.isEnd = false → d = e → MatchedBut d (t :: ts) := by
    rintro hheader hend rfl
    have hfront : ∀ us, Matched us → Matched ([t] ++ us) := fun us => .other hheader hend
    exact h.prepend hfront
  obtain ⟨m, start, stop, line⟩ := t
  cases m with
  | ifHeader name default? =>
      obtain rfl : d + 1 = e := Option.some.inj hstep
      cases h with
      | succ hinside hend hbehind =>
          rw [List.append_cons, ← List.cons_append]
          refine hbehind.prepend fun us hus => ?_
          rw [List.cons_append, List.append_assoc]
          exact .pair rfl hinside hend hus
  | endIf =>
      cases d with
      | zero => cases hstep
      | succ d =>
          obtain rfl : d = e := Option.some.inj hstep
          exact MatchedBut.succ .nil rfl h
  | elseLine => exact hother rfl rfl (Option.some.inj hstep)
  | blockHeader name => exact hother rfl rfl (Option.some.inj hstep)
  | endBlock => exact hother rfl rfl (Option.some.inj hstep)
  | «variable» name alternatives => exact hother rfl rfl (Option.some.inj hstep)

/-- The markers match if no more conditionals have ended than have been opened at any token, and as
    many at the last.  The induction is on the tokens, with any number of open conditionals. -/
theorem matchedBut_of_counts (hle : ∀ n, endCount (ts.take n) ≤ headerCount (ts.take n) + d)
    (heq : endCount ts = headerCount ts + d) : MatchedBut d ts := by
  induction ts generalizing d with
  | nil =>
      obtain rfl : 0 = d := heq.trans (Nat.zero_add d)
      exact .zero .nil
  | cons t ts ih =>
      have hfirst := hle 1
      rw [(counts_take_one t ts).1, (counts_take_one t ts).2] at hfirst
      rw [headerCount_cons, endCount_cons] at heq
      cases hstep : endIfStep t.marker d with
      | none => exact absurd hfirst (Nat.not_le.2 (counts_of_stop hstep))
      | some e =>
          have hcounts := counts_of_pass hstep
          refine .cons hstep (ih (fun n => ?_) (by omega))
          have hnext := hle (n + 1)
          rw [List.take_succ_cons, headerCount_cons, endCount_cons] at hnext
          omega

/-- In front of the first overrun the markers match up to any index at which no conditional is
    open. -/
theorem matched_take (h : IsLeast {k | Overruns 0 ts k} n) (hj : j ≤ n)
    (hcounts : headerCount (ts.take j) = endCount (ts.take j)) : Matched (ts.take j) := by
  have hbut : MatchedBut 0 (ts.take j) := by
    refine matchedBut_of_counts (fun m => ?_) hcounts.symm
    rw [List.take_take]
    exact endCount_take_le h (Nat.le_trans (Nat.min_le_right m j) hj)
  cases hbut with
  | zero hmatched => exact hmatched

/-- At the first overrun itself no conditional is open. -/
theorem counts_take_first (h : IsLeast {k | Overruns 0 ts k} n) :
    headerCount (ts.take n) = endCount (ts.take n) :=
  Nat.le_antisymm h.1.counts (endCount_take_le h (Nat.le_refl n))

/-- Behind an `@else` of the conditional the first overrun is where it was. -/
theorem isLeast_overruns_else (h : IsLeast {k | Overruns 0 ts k} n) (helse : ElseAmong 0 ts n j) :
    IsLeast {k | Overruns 0 (ts.drop (j + 1)) k} (n - (j + 1)) := by
  obtain ⟨hj, hmarker, hcounts⟩ := helse
  obtain ⟨⟨m, start, stop, line⟩, ht, rfl⟩ := Option.map_eq_some_iff.1 hmarker
  obtain ⟨hheaders, hends⟩ := counts_take_succ ht
  obtain ⟨e, he, hrest⟩ := isLeast_overruns_drop h (Nat.succ_le_of_lt hj)
  obtain rfl : e = 0 := by
    rw [hheaders, hends] at he
    exact (Nat.add_left_cancel (hcounts.symm.trans he)).symm
  exact hrest

/-- With one conditional more to close, the first overrun is later. -/
theorem lt_of_overruns_succ (h : Overruns (d + 1) ts n) (hk : IsLeast {k | Overruns 0 ts k} k) :
    k < n := by
  have hcounts := h.counts
  cases n with
  | zero => exact absurd hcounts (Nat.not_succ_le_zero _)
  | succ n => exact Nat.lt_succ_of_le (hk.2 ⟨Nat.lt_of_succ_lt h.1, by omega⟩)

/-- Behind an inner header the first overrun comes earlier. -/
theorem lt_of_isLeast_overruns (h : IsLeast {k | Overruns 0 ts k} n) (hj : j < n)
    (ht : ts[j]? = some t) (hheader : t.isHeader = true) (hend : t.isEnd = false)
    (hk : IsLeast {k | Overruns 0 (ts.drop (j + 1)) k} k) : j + 1 + k < n := by
  obtain ⟨hheaders, hends⟩ := counts_take_succ ht
  obtain ⟨e, he, hrest⟩ := isLeast_overruns_drop h (Nat.succ_le_of_lt hj)
  have hle := endCount_take_le h (Nat.le_of_lt hj)
  rw [hheaders, hends, hheader, hend, Bool.toNat_true, Bool.toNat_false] at he
  obtain ⟨f, rfl⟩ : ∃ f, e = f + 1 := ⟨e - 1, by omega⟩
  have hlt := lt_of_overruns_succ hrest.1 hk
  omega

end

-- ── Conditionals by the indices of their markers ─────────────────────────────

/-- At this index is the header of a conditional. -/
def HeaderAt (ts : List Token) (i : Nat) : Prop :=
  ∃ name default?, (ts[i]?).map Token.marker = some (.ifHeader name default?)

/-- The least index behind a header up to which more conditionals have ended than have been opened
    since the header. -/
def EndOf (ts : List Token) (header n : Nat) : Prop :=
  IsLeast {m | header < m ∧ m < ts.length ∧
    headerCount (between ts header (m + 1)) < endCount (between ts header (m + 1))} n

/-- Between a header and an end there is an `@else`, and none of the conditionals that have been
    opened since the header is open there. -/
def ElseOf (ts : List Token) (header n i : Nat) : Prop :=
  header < i ∧ i < n ∧ (ts[i]?).map Token.marker = some .elseLine ∧
    headerCount (between ts header i) = endCount (between ts header i)

section

variable {ts : List Token} {header i j k n : Nat} {e : ConditionalEnd}

theorem between_add (ts : List Token) (header k : Nat) :
    between ts header (header + 1 + k) = (ts.drop (header + 1)).take k := by
  rw [between, Nat.add_sub_cancel_left]

theorem between_add_add (ts : List Token) (header j k : Nat) :
    between ts (header + 1 + j) (header + 1 + k) =
      ((ts.drop (header + 1)).drop (j + 1)).take (k - (j + 1)) := by
  rw [between, List.drop_drop, Nat.add_assoc (header + 1), Nat.add_sub_add_left]

theorem overruns_behind :
    Overruns 0 (ts.drop (header + 1)) k ↔
      header + 1 + k < ts.length ∧ headerCount (between ts header (header + 1 + k + 1)) <
        endCount (between ts header (header + 1 + k + 1)) := by
  rw [Nat.add_assoc (header + 1), between_add, Overruns, List.length_drop]
  omega

/-- The end of a conditional is the first overrun behind its header. -/
theorem endOf_iff :
    EndOf ts header (header + 1 + k) ↔ IsLeast {j | Overruns 0 (ts.drop (header + 1)) j} k := by
  constructor
  · rintro ⟨⟨-, hk⟩, hleast⟩
    refine ⟨overruns_behind.2 hk, fun j hj => ?_⟩
    have hle := hleast ⟨by omega, overruns_behind.1 hj⟩
    omega
  · rintro ⟨hk, hleast⟩
    refine ⟨⟨by omega, overruns_behind.1 hk⟩, fun m hm => ?_⟩
    obtain ⟨hlt, hm⟩ := hm
    obtain ⟨j, rfl⟩ := Nat.exists_eq_add_of_le (Nat.succ_le_of_lt hlt)
    have hle := hleast (overruns_behind.2 hm)
    omega

theorem EndOf.exists_add (h : EndOf ts header n) :
    ∃ k, n = header + 1 + k ∧ IsLeast {j | Overruns 0 (ts.drop (header + 1)) j} k := by
  obtain ⟨k, rfl⟩ := Nat.exists_eq_add_of_le (Nat.succ_le_of_lt h.1.1)
  exact ⟨k, rfl, endOf_iff.1 h⟩

theorem elseOf_iff :
    ElseOf ts header (header + 1 + k) i ↔
      ∃ j, i = header + 1 + j ∧ ElseAmong 0 (ts.drop (header + 1)) k j := by
  constructor
  · rintro ⟨hlt, hi, hmarker, hcounts⟩
    obtain ⟨j, rfl⟩ := Nat.exists_eq_add_of_le (Nat.succ_le_of_lt hlt)
    rw [between_add] at hcounts
    refine ⟨j, rfl, by omega, ?_, hcounts⟩
    rw [List.getElem?_drop]
    exact hmarker
  · rintro ⟨j, rfl, hj, hmarker, hcounts⟩
    rw [List.getElem?_drop] at hmarker
    refine ⟨by omega, by omega, hmarker, ?_⟩
    rw [between_add]
    exact hcounts

/-- The markers that are found are the end that the counts tell and the `@else` of the conditional,
    if it has one. -/
theorem findConditionalEnd_eq_some_iff :
    findConditionalEnd ts header = some e ↔
      EndOf ts header e.endIndex ∧ ∀ i, e.elseIndex? = some i ↔ ElseOf ts header e.endIndex i := by
  rw [findConditionalEnd, closeFrom_eq_some_iff fun i hi => by cases hi]
  obtain ⟨else?, n⟩ := e
  constructor
  · rintro ⟨k, rfl, hk, helse⟩
    exact ⟨endOf_iff.2 hk, fun i => by
      rw [elseOf_iff, helse, or_iff_right (Option.some_ne_none i).symm]⟩
  · rintro ⟨hend, helse⟩
    obtain ⟨k, rfl, hk⟩ := hend.exists_add
    exact ⟨k, rfl, hk, fun i => by
      rw [helse, elseOf_iff, or_iff_right (Option.some_ne_none i).symm]⟩

/-- A search succeeds at an end with one `@else` at most. -/
theorem exists_findConditionalEnd_iff :
    (∃ else?, findConditionalEnd ts header = some ⟨else?, n⟩) ↔
      EndOf ts header n ∧ {i | ElseOf ts header n i}.Subsingleton := by
  constructor
  · rintro ⟨else?, h⟩
    obtain ⟨hend, helse⟩ := findConditionalEnd_eq_some_iff.1 h
    refine ⟨hend, fun i hi j hj => Option.some.inj ?_⟩
    exact ((helse i).2 hi).symm.trans ((helse j).2 hj)
  · rintro ⟨hend, hone⟩
    by_cases h : ∃ i, ElseOf ts header n i
    · obtain ⟨i, hi⟩ := h
      refine ⟨some i, findConditionalEnd_eq_some_iff.2 ⟨hend, fun j => ?_⟩⟩
      rw [Option.some_inj]
      exact ⟨fun hij => hij ▸ hi, fun hj => hone hi hj⟩
    · refine ⟨none, findConditionalEnd_eq_some_iff.2 ⟨hend, fun j => ?_⟩⟩
      exact iff_of_false (Option.some_ne_none j).symm fun hj => h ⟨j, hj⟩

/-- The markers between a header and its end match. -/
theorem EndOf.matched (h : EndOf ts header n) : Matched (between ts header n) := by
  obtain ⟨k, rfl, hk⟩ := h.exists_add
  rw [between_add]
  exact matched_take hk (Nat.le_refl k) (counts_take_first hk)

/-- The markers on both sides of an `@else` match. -/
theorem EndOf.matched_else (h : EndOf ts header n) (helse : ElseOf ts header n i) :
    Matched (between ts header i) ∧ Matched (between ts i n) := by
  obtain ⟨k, rfl, hk⟩ := h.exists_add
  obtain ⟨j, rfl, hj⟩ := elseOf_iff.1 helse
  have hbehind := isLeast_overruns_else hk hj
  rw [between_add, between_add_add]
  exact ⟨matched_take hk (Nat.le_of_lt hj.1) hj.2.2,
    matched_take hbehind (Nat.le_refl _) (counts_take_first hbehind)⟩

/-- What an inner header opens ends first. -/
theorem EndOf.lt_of_inner {header' n' : Nat} (h : EndOf ts header n) (hlt : header < header')
    (hin : header' < n) (hheader : HeaderAt ts header') (h' : EndOf ts header' n') : n' < n := by
  obtain ⟨k, rfl, hk⟩ := h.exists_add
  obtain ⟨j, rfl⟩ := Nat.exists_eq_add_of_le (Nat.succ_le_of_lt hlt)
  obtain ⟨k', rfl, hk'⟩ := h'.exists_add
  obtain ⟨name, default?, hmarker⟩ := hheader
  obtain ⟨⟨m, start, stop, line⟩, ht, rfl⟩ := Option.map_eq_some_iff.1 hmarker
  rw [← List.getElem?_drop] at ht
  rw [Nat.add_assoc (header + 1), ← List.drop_drop] at hk'
  have := lt_of_isLeast_overruns hk (by omega) ht rfl rfl hk'
  omega

/-- The end of a conditional is an end marker. -/
theorem EndOf.marker (h : EndOf ts header n) : (ts[n]?).map Token.marker = some .endIf := by
  obtain ⟨k, rfl, hk⟩ := h.exists_add
  obtain ⟨hlt, hover⟩ := hk.1
  obtain ⟨t, ht⟩ : ∃ t, (ts.drop (header + 1))[k]? = some t := ⟨_, List.getElem?_eq_getElem hlt⟩
  obtain ⟨hheaders, hends⟩ := counts_take_succ ht
  rw [hheaders, hends, counts_take_first hk] at hover
  rw [List.getElem?_drop] at ht
  rw [ht, Option.map_some, marker_of_isEnd]
  exact Bool.toNat_eq_one.1 (Nat.le_antisymm (Bool.toNat_le _) (by omega))

/-- Two conditionals stand apart, or the one whose header comes later is inside of the other. -/
theorem disjoint_or_inside {header' n' : Nat} (hlt : header < header')
    (hheader : HeaderAt ts header') (h : EndOf ts header n) (h' : EndOf ts header' n') :
    Set.Icc header n ∩ Set.Icc header' n' = ∅ ∨ Set.Icc header' n' ⊆ Set.Ioo header n := by
  rcases Nat.lt_trichotomy n header' with hn | rfl | hn
  · refine .inl (Set.eq_empty_iff_forall_notMem.2 fun i hi => ?_)
    exact absurd (Nat.le_trans hi.2.1 hi.1.2) (Nat.not_le.2 hn)
  · obtain ⟨name, default?, hmarker⟩ := hheader
    cases hmarker.symm.trans h.marker
  · exact .inr (Set.Icc_subset_Ioo hlt (h.lt_of_inner hlt hn hheader h'))

/-- The reader of pieces pairs the markers of a text in this way. -/
theorem findConditionalEnd_located (n : Nat) (front ps : List (Piece Template.Token))
    (t : Template.Token) :
    findConditionalEnd (located n (front ++ .item t :: ps)) (count front) =
      (closeConditional? ps).map (indices (count front + 1)) := by
  rw [findConditionalEnd, located_append, ← length_located n front, ← List.drop_drop,
    List.drop_left, located, List.drop_one, List.tail_cons, closeFrom_eq]

end

/-- Headers, `@else` markers and end markers of conditionals pair as brackets do. The search that
    starts at an index succeeds exactly if there is a first index up to which more conditionals have
    ended than have been opened, and one `@else` at most in front of it at which none is open; it
    finds the two. Between the header, the `@else` and the end all markers match, so of two
    conditionals the one is inside of the other, or they stand apart. The closing of a header that
    is taken from the pieces of a text is the one at these indices. -/
theorem conditionals_match (ts : List Token) :
    (∀ header,
      (∀ n, (∃ else?, findConditionalEnd ts header = some ⟨else?, n⟩) ↔
        EndOf ts header n ∧ {i | ElseOf ts header n i}.Subsingleton) ∧
      ∀ e, findConditionalEnd ts header = some e →
        (∀ i, e.elseIndex? = some i ↔ ElseOf ts header e.endIndex i) ∧
        Matched (between ts header e.endIndex) ∧
        ∀ i, e.elseIndex? = some i →
          Matched (between ts header i) ∧ Matched (between ts i e.endIndex)) ∧
    (∀ header header' e e', header < header' → HeaderAt ts header' →
      findConditionalEnd ts header = some e → findConditionalEnd ts header' = some e' →
      Set.Icc header e.endIndex ∩ Set.Icc header' e'.endIndex = ∅ ∨
        Set.Icc header' e'.endIndex ⊆ Set.Ioo header e.endIndex) ∧
    ∀ n front t ps, ts = located n (front ++ .item t :: ps) →
      findConditionalEnd ts (count front) =
        (closeConditional? ps).map (indices (count front + 1)) := by
  refine ⟨fun header => ⟨fun n => exists_findConditionalEnd_iff, fun e he => ?_⟩, ?_, ?_⟩
  · obtain ⟨hend, helse⟩ := findConditionalEnd_eq_some_iff.1 he
    exact ⟨helse, hend.matched, fun i hi => hend.matched_else ((helse i).1 hi)⟩
  · intro header header' e e' hlt hheader he he'
    exact disjoint_or_inside hlt hheader (findConditionalEnd_eq_some_iff.1 he).1
      (findConditionalEnd_eq_some_iff.1 he').1
  · rintro n front t ps rfl
    exact findConditionalEnd_located n front ps t

/-- The tokens of two conditionals, one inside of the other, and of a header without an end. -/
def nestedTokens : List Token :=
  [⟨.ifHeader "A" none, 0, 6, 1⟩, ⟨.ifHeader "B" none, 6, 12, 2⟩, ⟨.elseLine, 12, 18, 3⟩,
    ⟨.endIf, 18, 24, 4⟩, ⟨.elseLine, 25, 31, 5⟩, ⟨.endIf, 31, 37, 6⟩,
    ⟨.ifHeader "C" none, 38, 44, 7⟩]

theorem conditionals_match_sample :
    tokens "@if A\n@if B\n@else\n@endif\n@else\n@endif\n@if C\n".toList = .ok nestedTokens ∧
      findConditionalEnd nestedTokens 0 = some ⟨some 4, 5⟩ ∧
      findConditionalEnd nestedTokens 1 = some ⟨some 2, 3⟩ ∧
      findConditionalEnd nestedTokens 6 = none ∧ HeaderAt nestedTokens 1 ∧
      EndOf nestedTokens 0 5 ∧ ElseOf nestedTokens 0 5 4 ∧ Matched (between nestedTokens 0 4) ∧
      Set.Icc 1 3 ⊆ Set.Ioo 0 5 := by
  have htokens : located 0 (tokenize
      "@if A\n@if B\n@else\n@endif\n@else\n@endif\n@if C\n".toList) = nestedTokens := by
    decide +kernel
  have houter : findConditionalEnd nestedTokens 0 = some ⟨some 4, 5⟩ := by decide
  have hinner : findConditionalEnd nestedTokens 1 = some ⟨some 2, 3⟩ := by decide
  have hheader : HeaderAt nestedTokens 1 := ⟨"B", none, rfl⟩
  obtain ⟨hsearch, hnested, -⟩ := conditionals_match nestedTokens
  obtain ⟨helse, -, hmatched⟩ := (hsearch 0).2 _ houter
  refine ⟨by rw [tokens_eq, htokens], houter, hinner, by decide, hheader,
    (((hsearch 0).1 5).1 ⟨_, houter⟩).1, (helse 4).1 rfl, (hmatched 4 rfl).1, ?_⟩
  refine (hnested 0 1 _ _ Nat.zero_lt_one hheader houter hinner).resolve_left fun hapart => ?_
  have hboth : 1 ∈ Set.Icc 0 5 ∩ Set.Icc 1 3 := by decide
  rw [hapart] at hboth
  exact hboth

end ShaderTemplates.Template.Offsets
