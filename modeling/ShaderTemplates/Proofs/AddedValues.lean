import Mathlib.Data.Finset.Card
import ShaderTemplates.Proofs.Pieces

/-!
# Converting with more values

If values are added to those that a template is converted with, then what was converted before is
converted to the same text, and what failed fails no earlier: conditions are asked for before
blocks, and blocks before variables (`convert_within`, `rank_le_of_convert`).

A failed conversion names a directive that has no value.  Whoever gives it one, whatever it is, and
converts again is not asked for it a second time, and is done after finitely many rounds
(`convert_progress`).  How many cannot be told from the template: a body that is given for a block
may bring variables of its own.  But it brings no conditions and no blocks, so the names that are
missing of one kind only become fewer while that kind is asked for (`unanswered_lt`).
-/

namespace ShaderTemplates

/-- Every value of a table is in the other one, too. -/
def SortedMap.Within {α : Type} (a b : Table α) : Prop :=
  ∀ name value, a.get? name = some value → b.get? name = some value

namespace SortedMap

variable {α : Type} {a b : Table α} {name : String}

theorem Within.refl (a : Table α) : a.Within a := fun _ _ h => h

theorem Within.contains (h : a.Within b) (hname : a.contains name = true) :
    b.contains name = true := by
  obtain ⟨value, hvalue⟩ := Option.isSome_iff_exists.mp hname
  exact Option.isSome_iff_exists.mpr ⟨value, h name value hvalue⟩

/-- A value for a name that had none comes on top of the others. -/
theorem within_insert (h : a.contains name = false) (value : α) :
    a.Within (a.insert name value) := by
  intro name' value' hvalue
  have hne : name' ≠ name := by
    rintro rfl
    rw [contains, hvalue] at h
    cases h
  rw [get?_insert_of_ne _ hne, hvalue]

theorem contains_insert (a : Table α) (name : String) (value : α) :
    (a.insert name value).contains name = true := by
  rw [contains, get?_insert_self]
  rfl

end SortedMap

namespace Template

open Text

-- ── Values with more values ──────────────────────────────────────────────────

/-- Every value is one of the other values, too. -/
structure Values.Within (v w : Values) : Prop where
  conditions : v.conditions.Within w.conditions
  blocks : v.blocks.Within w.blocks
  vars : v.vars.Within w.vars

/-- Whether there is a value of a kind for a name. -/
def Values.has (v : Values) : Kind → String → Bool
  | .condition, name => v.conditions.contains name
  | .block, name => v.blocks.contains name
  | .variable, name => v.vars.contains name

/-- Any value was given for a directive. -/
inductive Values.Answered (v : Values) : Kind × String → Values → Prop where
  | condition (name : String) (value : Bool) :
      Answered v (.condition, name) (v.setCondition name value)
  | block (name body : String) : Answered v (.block, name) (v.setBlock name body)
  | variable (name value : String) : Answered v (.variable, name) (v.setVariable name value)

namespace Values

variable {v w : Values} {asked : Kind × String}

theorem Within.has (h : v.Within w) {kind : Kind} {name : String} (hname : v.has kind name = true) :
    w.has kind name = true := by
  cases kind with
  | condition => exact h.conditions.contains hname
  | block => exact h.blocks.contains hname
  | «variable» => exact h.vars.contains hname

theorem Answered.has (h : v.Answered asked w) : w.has asked.1 asked.2 = true := by
  cases h with
  | condition name value => exact SortedMap.contains_insert v.conditions name value
  | block name body => exact SortedMap.contains_insert v.blocks name body
  | «variable» name value => exact SortedMap.contains_insert v.vars name value

theorem Answered.within (h : v.Answered asked w) (hmissing : v.has asked.1 asked.2 = false) :
    v.Within w := by
  cases h with
  | condition name value => exact ⟨SortedMap.within_insert hmissing value, .refl _, .refl _⟩
  | block name body => exact ⟨.refl _, SortedMap.within_insert hmissing body, .refl _⟩
  | «variable» name value => exact ⟨.refl _, .refl _, SortedMap.within_insert hmissing value⟩

end Values

-- ── One pass ─────────────────────────────────────────────────────────────────

section Passes

variable {α : Type} {table table' : Table α} {kind : Kind} {name : String} {line : Nat}
  {u : Unresolved}

theorem lookUp_within (h : table.Within table') (kind : Kind) (name : String) (line : Nat) :
    KeepsResult (lookUp table kind name line) (lookUp table' kind name line) := by
  intro value hvalue
  rw [lookUp] at hvalue ⊢
  cases hget : table.get? name with
  | none =>
      rw [hget] at hvalue
      cases hvalue
  | some found =>
      rw [hget] at hvalue
      rw [h name found hget]
      exact hvalue

theorem lookUp_eq_error (h : lookUp table kind name line = .error u) :
    u = ⟨kind, name, line⟩ ∧ table.contains name = false := by
  rw [lookUp] at h
  rw [SortedMap.contains]
  cases hget : table.get? name with
  | none =>
      rw [hget] at h
      cases h
      exact ⟨rfl, rfl⟩
  | some value =>
      rw [hget] at h
      cases h

end Passes

section Substitution

variable {α ε : Type} {replace replace' : α → Except ε (List Char)} {ps : List (Piece α)}

theorem Piece.substitute_keepsResult (h : ∀ a, KeepsResult (replace a) (replace' a))
    (ps : List (Piece α)) : KeepsResult (substitute replace ps) (substitute replace' ps) := by
  induction ps with
  | nil => exact .refl _
  | cons p ps ih =>
      cases p with
      | char c => exact ih.map _
      | item a => exact (h a).bind fun text => ih.bind fun after => .refl _

/-- A text is not replaced because one of its items is refused; those in front of it are
    replaced. -/
theorem Piece.substitute_eq_error {e : ε} (h : substitute replace ps = .error e) :
    ∃ front a back new, ps = front ++ .item a :: back ∧ substitute replace front = .ok new ∧
      replace a = .error e := by
  induction ps with
  | nil => cases h
  | cons p ps ih =>
      cases p with
      | char c =>
          obtain ⟨front, a, back, new, rfl, hnew, ha⟩ := ih (map_eq_error.mp h)
          exact ⟨.char c :: front, a, back, c :: new, rfl, map_eq_ok.mpr ⟨new, hnew, rfl⟩, ha⟩
      | item b =>
          rcases bind_eq_error.mp h with hb | ⟨text, hb, h⟩
          · exact ⟨[], b, ps, [], rfl, rfl, hb⟩
          · obtain ⟨front, a, back, new, rfl, hnew, ha⟩ := ih (bind_pure_eq_error.mp h)
            exact ⟨.item b :: front, a, back, text ++ new, rfl,
              bind_eq_ok.mpr ⟨text, hb, bind_eq_ok.mpr ⟨new, hnew, rfl⟩⟩, ha⟩

theorem Piece.mem_items_of_split {front back : List (Piece α)} {a : α}
    (h : ps = front ++ .item a :: back) : a ∈ items ps := by
  rw [h, items_append]
  exact List.mem_append_right _ List.mem_cons_self

end Substitution

/-- A name of a kind was asked for, and there is no value for it in the table. -/
structure Unresolved.Misses {α : Type} (u : Unresolved) (kind : Kind) (names : List String)
    (table : Table α) : Prop where
  kind_eq : u.kind = kind
  asked : u.name ∈ names
  missing : table.contains u.name = false

theorem Unresolved.Misses.mono {α : Type} {u : Unresolved} {kind : Kind}
    {names names' : List String} {table : Table α} (h : u.Misses kind names table) (hsub : names ⊆ names') :
    u.Misses kind names' table :=
  ⟨h.kind_eq, hsub h.asked, h.missing⟩

theorem Outline.resolve_within {a b : Table Bool} (h : a.Within b) (o : Outline) :
    KeepsResult (o.resolve a) (o.resolve b) := by
  induction o with
  | done => exact .refl _
  | char c rest ih => exact ih.map _
  | choice name default? line t u rest iht ihu ih =>
      refine (lookUp_within h .condition name line).bind fun value => ?_
      cases value with
      | true => exact iht.bind fun branch => ih.bind fun after => .refl _
      | false => exact ihu.bind fun branch => ih.bind fun after => .refl _

theorem Outline.resolve_eq_error {conditions : Table Bool} {o : Outline} {u : Unresolved}
    (h : o.resolve conditions = .error u) :
    u.Misses .condition (o.conditions.map (·.1)) conditions := by
  induction o with
  | done => cases h
  | char c rest ih => exact ih (map_eq_error.mp h)
  | choice name default? line t f rest iht ihf ih =>
      have hafter : ∀ branch : List Char × Nat,
          (do let after ← rest.resolve conditions
              return (branch.1 ++ after.1, branch.2 + after.2 + 1)) = .error u →
          u.Misses .condition ((choice name default? line t f rest).conditions.map (·.1))
            conditions := by
        intro branch h
        refine (ih (bind_pure_eq_error.mp h)).mono (List.map_subset _ fun e he => ?_)
        exact List.mem_cons_of_mem _ (List.mem_append_right _ (List.mem_append_right _ he))
      rcases bind_eq_error.mp h with hlook | ⟨value, -, h⟩
      · obtain ⟨rfl, hmissing⟩ := lookUp_eq_error hlook
        exact ⟨rfl, List.mem_cons_self, hmissing⟩
      · cases value with
        | true =>
            rcases bind_eq_error.mp h with ht | ⟨branch, -, h⟩
            · refine (iht ht).mono (List.map_subset _ fun e he => ?_)
              exact List.mem_cons_of_mem _ (List.mem_append_left _ he)
            · exact hafter branch h
        | false =>
            rcases bind_eq_error.mp h with hf | ⟨branch, -, h⟩
            · refine (ihf hf).mono (List.map_subset _ fun e he => ?_)
              exact List.mem_cons_of_mem _ (List.mem_append_right _ (List.mem_append_left _ he))
            · exact hafter branch h

theorem fillBlocks_within {a b : Table String} (h : a.Within b) (cs : List Char) :
    KeepsResult (fillBlocks a cs) (fillBlocks b cs) := by
  refine Piece.substitute_keepsResult ?_ (blockPieces cs)
  intro x
  exact (lookUp_within h .block x.name x.line).map _

theorem fillBlocks_eq_error {bodies : Table String} {cs : List Char} {u : Unresolved}
    (h : fillBlocks bodies cs = .error u) :
    u.Misses .block ((blocks cs).map (·.name)) bodies := by
  obtain ⟨front, b, back, new, hsplit, -, hrefused⟩ := Piece.substitute_eq_error h
  obtain ⟨rfl, hmissing⟩ := lookUp_eq_error (map_eq_error.mp hrefused)
  exact ⟨rfl, List.mem_map_of_mem (Piece.mem_items_of_split hsplit), hmissing⟩

theorem fillVariables_within {a b : Table String} (h : a.Within b) (cs : List Char) :
    KeepsResult (fillVariables a cs) (fillVariables b cs) := by
  refine Piece.substitute_keepsResult ?_ (variablePieces cs)
  intro x
  exact (lookUp_within h .variable x.name x.line).map _

theorem fillVariables_eq_error {values : Table String} {cs : List Char} {u : Unresolved}
    (h : fillVariables values cs = .error u) :
    u.Misses .variable ((vars cs).map (·.name)) values := by
  obtain ⟨front, x, back, new, hsplit, -, hrefused⟩ := Piece.substitute_eq_error h
  obtain ⟨rfl, hmissing⟩ := lookUp_eq_error (map_eq_error.mp hrefused)
  exact ⟨rfl, List.mem_map_of_mem (Piece.mem_items_of_split hsplit), hmissing⟩

-- ── The passes together ──────────────────────────────────────────────────────

/-- The text that the conditionals leave. -/
def structured (template : String) (v : Values) : Except Unresolved (List Char × Nat) :=
  (Outline.ofText template.toList).resolve v.conditions

/-- The text whose variables are replaced at last. -/
def withBlocks (template : String) (v : Values) : Except Unresolved (List Char) := do
  let text ← structured template v
  fillBlocks v.blocks text.1

/-- The names that are asked for in the pass of a kind, if there is a text for it. -/
def askedNames (template : String) (v : Values) : Kind → List String
  | .condition => (Outline.ofText template.toList).conditions.map (·.1)
  | .block =>
    match structured template v with
    | .ok text => (blocks text.1).map (·.name)
    | .error _ => []
  | .variable =>
    match withBlocks template v with
    | .ok text => (vars text).map (·.name)
    | .error _ => []

variable {template : String} {v w : Values} {u : Unresolved}

theorem structured_within (h : v.Within w) (template : String) :
    KeepsResult (structured template v) (structured template w) :=
  Outline.resolve_within h.conditions _

theorem withBlocks_within (h : v.Within w) (template : String) :
    KeepsResult (withBlocks template v) (withBlocks template w) :=
  (structured_within h template).bind fun text => fillBlocks_within h.blocks text.1

/-- What was converted is converted to the same text, and as much is counted. -/
theorem convert_within (h : v.Within w) (template : String) :
    KeepsResult (convert template v) (convert template w) := by
  refine (structured_within h template).bind fun text => ?_
  refine (fillBlocks_within h.blocks text.1).bind fun cs => ?_
  exact (fillVariables_within h.vars cs).bind fun filled => .refl _

/-- A conversion fails in one of its passes, on the text that the passes before it left. -/
inductive FailsIn (template : String) (v : Values) (u : Unresolved) : Kind → Prop where
  | condition (h : structured template v = .error u) : FailsIn template v u .condition
  | block {text : List Char × Nat} (htext : structured template v = .ok text)
      (h : fillBlocks v.blocks text.1 = .error u) : FailsIn template v u .block
  | variable {text : List Char} (htext : withBlocks template v = .ok text)
      (h : fillVariables v.vars text = .error u) : FailsIn template v u .variable

theorem failsIn_of_convert (h : convert template v = .error u) :
    ∃ kind, FailsIn template v u kind := by
  rcases bind_eq_error.mp h with hstructured | ⟨text, htext, h⟩
  · exact ⟨_, .condition hstructured⟩
  rcases bind_eq_error.mp h with hblocks | ⟨cs, hcs, h⟩
  · exact ⟨_, .block htext hblocks⟩
  · exact ⟨_, .variable (bind_eq_ok.mpr ⟨text, htext, hcs⟩) (bind_pure_eq_error.mp h)⟩

/-- The directive that a conversion reports is of the kind of the pass that failed, that pass asks
    for its name, and there is no value for it. -/
theorem FailsIn.reported {kind : Kind} (h : FailsIn template v u kind) :
    u.kind = kind ∧ u.name ∈ askedNames template v kind ∧ v.has kind u.name = false := by
  cases h with
  | condition h =>
      have hmisses := Outline.resolve_eq_error h
      exact ⟨hmisses.kind_eq, hmisses.asked, hmisses.missing⟩
  | block htext h =>
      have hmisses := fillBlocks_eq_error h
      refine ⟨hmisses.kind_eq, ?_, hmisses.missing⟩
      rw [askedNames, htext]
      exact hmisses.asked
  | «variable» htext h =>
      have hmisses := fillVariables_eq_error h
      refine ⟨hmisses.kind_eq, ?_, hmisses.missing⟩
      rw [askedNames, htext]
      exact hmisses.asked

theorem has_of_convert (h : convert template v = .error u) : v.has u.kind u.name = false := by
  obtain ⟨kind, hfails⟩ := failsIn_of_convert h
  obtain ⟨rfl, -, hmissing⟩ := hfails.reported
  exact hmissing

/-- The place of a kind in the order in which values are asked for. -/
def Kind.rank : Kind → Nat
  | .condition => 0
  | .block => 1
  | .variable => 2

/-- With more values a conversion fails in no earlier pass. -/
theorem rank_le_of_convert {u' : Unresolved} (hwithin : v.Within w)
    (h : convert template v = .error u) (h' : convert template w = .error u') :
    u.kind.rank ≤ u'.kind.rank := by
  obtain ⟨kind, hfails⟩ := failsIn_of_convert h
  obtain ⟨kind', hfails'⟩ := failsIn_of_convert h'
  rw [hfails.reported.1, hfails'.reported.1]
  cases hfails with
  | condition h => exact Nat.zero_le _
  | block htext h =>
      -- what went through without the added values goes through with them
      have hmore := structured_within hwithin template _ htext
      cases hfails' with
      | condition h' => cases hmore.symm.trans h'
      | block htext' h' => exact le_rfl
      | «variable» htext' h' => exact Nat.le_succ 1
  | «variable» htext h =>
      have hmore := withBlocks_within hwithin template _ htext
      cases hfails' with
      | condition h' =>
          obtain ⟨text, hstructured, -⟩ := bind_eq_ok.mp hmore
          cases hstructured.symm.trans h'
      | block htext' h' =>
          obtain ⟨text, hstructured, hblocks⟩ := bind_eq_ok.mp hmore
          cases hstructured.symm.trans htext'
          cases hblocks.symm.trans h'
      | «variable» htext' h' => exact le_rfl

-- ── Giving what is asked for ─────────────────────────────────────────────────

/-- Any value is given for the directive that a conversion reports. -/
def AnswerStep (template : String) (v w : Values) : Prop :=
  ∃ u, convert template v = .error u ∧ v.Answered u.demanded w

/-- Rounds of converting and giving any value for what was reported, with the reports. -/
inductive Rounds (template : String) : Values → List (Kind × String) → Values → Prop where
  | stop (v : Values) : Rounds template v [] v
  | round {v next w : Values} {u : Unresolved} {reports : List (Kind × String)}
      (h : convert template v = .error u) (hanswer : v.Answered u.demanded next)
      (rest : Rounds template next reports w) : Rounds template v (u.demanded :: reports) w

/-- In all rounds what is reported has had no value from the start. -/
theorem Rounds.missing {reports : List (Kind × String)} (h : Rounds template v reports w) :
    ∀ r ∈ reports, v.has r.1 r.2 = false := by
  induction h with
  | stop v => exact fun r hr => absurd hr List.not_mem_nil
  | round h hanswer rest ih =>
      have hmissing := has_of_convert h
      intro r hr
      rcases List.mem_cons.mp hr with rfl | hr
      · exact hmissing
      · -- a value from the start would still be there in the rest of the rounds
        have hlater := ih r hr
        rw [Bool.eq_false_iff] at hlater ⊢
        exact fun hfirst => hlater ((hanswer.within hmissing).has hfirst)

/-- No round reports what an earlier one reported. -/
theorem Rounds.nodup {reports : List (Kind × String)} (h : Rounds template v reports w) :
    reports.Nodup := by
  induction h with
  | stop v => exact List.nodup_nil
  | round h hanswer rest ih =>
      refine List.nodup_cons.mpr ⟨fun hagain => ?_, ih⟩
      have hlater := rest.missing _ hagain
      rw [hanswer.has] at hlater
      cases hlater

-- ── The rounds end ───────────────────────────────────────────────────────────

/-- The names that a pass asks for in vain. -/
def unanswered (template : String) (v : Values) (kind : Kind) : Finset String :=
  (askedNames template v kind).toFinset.filter fun name => v.has kind name = false

/-- An answer to a pass that asks for the same names as before leaves fewer of them. -/
theorem card_unanswered_lt {kind : Kind} {name : String} (hwithin : v.Within w)
    (hsame : askedNames template w kind = askedNames template v kind)
    (hasked : name ∈ askedNames template v kind) (hmissing : v.has kind name = false)
    (hanswered : w.has kind name = true) :
    (unanswered template w kind).card < (unanswered template v kind).card := by
  have hold : name ∈ unanswered template v kind :=
    Finset.mem_filter.mpr ⟨List.mem_toFinset.mpr hasked, hmissing⟩
  have hnew : name ∉ unanswered template w kind := by
    intro hmem
    have hstill := (Finset.mem_filter.mp hmem).2
    rw [hanswered] at hstill
    cases hstill
  refine Finset.card_lt_card ((Finset.ssubset_iff_of_subset ?_).mpr ⟨name, hold, hnew⟩)
  intro other hmem
  obtain ⟨hother, hnone⟩ := Finset.mem_filter.mp hmem
  rw [hsame] at hother
  refine Finset.mem_filter.mpr ⟨hother, ?_⟩
  rw [Bool.eq_false_iff] at hnone ⊢
  exact fun hfirst => hnone (hwithin.has hfirst)

/-- How much is still missing: conditions before blocks, and blocks before variables. -/
def remaining (template : String) (v : Values) : Nat × Nat × Nat :=
  ((unanswered template v .condition).card, (unanswered template v .block).card,
    (unanswered template v .variable).card)

/-- The order on what is missing, in which every round goes down. -/
def Fewer : Nat × Nat × Nat → Nat × Nat × Nat → Prop :=
  Prod.Lex (· < ·) (Prod.Lex (· < ·) (· < ·))

theorem fewer_remaining (h : AnswerStep template v w) :
    Fewer (remaining template w) (remaining template v) := by
  obtain ⟨u, hconvert, hanswer⟩ := h
  have hwithin := hanswer.within (has_of_convert hconvert)
  obtain ⟨kind, hfails⟩ := failsIn_of_convert hconvert
  obtain ⟨hkind, hasked, hmissing⟩ := hfails.reported
  have hanswered := hanswer.has
  have hdemanded : u.demanded = (kind, u.name) := by rw [Unresolved.demanded, hkind]
  rw [hdemanded] at hanswer hanswered
  -- an answer changes only the table of its kind, and with it only this and the later passes
  cases hanswer with
  | condition name value =>
      exact .left _ _ (card_unanswered_lt hwithin rfl hasked hmissing hanswered)
  | block name body =>
      exact .right _ (.left _ _ (card_unanswered_lt hwithin rfl hasked hmissing hanswered))
  | «variable» name value =>
      exact .right _ (.right _ (card_unanswered_lt hwithin rfl hasked hmissing hanswered))

/-- However it is answered, a template does not ask for ever. -/
theorem wellFounded_answerStep (template : String) :
    WellFounded fun w v => AnswerStep template v w :=
  Subrelation.wf fewer_remaining
    (InvImage.wf (remaining template)
      (WellFounded.prod_lex Nat.lt_wfRel.wf (WellFounded.prod_lex Nat.lt_wfRel.wf Nat.lt_wfRel.wf)))

/-- Values that are added change no result.  A failure names what has no value; with a value for it
    the conversion fails with something else, if at all, and in no earlier pass.  So rounds in which
    what was reported is given any value report nothing twice, and they end. -/
theorem convert_progress (template : String) (v : Values) :
    (∀ w conversion, v.Within w → convert template v = .ok conversion →
      convert template w = .ok conversion) ∧
    (∀ u, convert template v = .error u →
      v.has u.kind u.name = false ∧
      ∀ w, v.Within w → w.has u.kind u.name = true →
        ∀ u', convert template w = .error u' →
          u'.demanded ≠ u.demanded ∧ u.kind.rank ≤ u'.kind.rank) ∧
    (∀ reports w, Rounds template v reports w → reports.Nodup) ∧
    WellFounded fun w v => AnswerStep template v w := by
  refine ⟨?_, ?_, ?_, wellFounded_answerStep template⟩
  · intro w conversion hwithin h
    exact convert_within hwithin template conversion h
  · intro u h
    refine ⟨has_of_convert h, ?_⟩
    intro w hwithin hhas u' h'
    refine ⟨?_, rank_le_of_convert hwithin h h'⟩
    intro hsame
    obtain ⟨hkind, hname⟩ := Prod.mk.inj hsame
    have hmissing := has_of_convert h'
    rw [hkind, hname, hhas] at hmissing
    cases hmissing
  · intro reports w h
    exact h.nodup

/-- A template that asks for a condition and, if it holds, for the body of a block. -/
def askingTemplate : String := "@if F\n// @block B\nx\n// @endblock\n@endif"

/-- Three rounds from no values on: the third name came with the body that the second one got. -/
theorem convert_progress_sample :
    ∃ w, Rounds askingTemplate ∅ [(.condition, "F"), (.block, "B"), (.variable, "n")] w ∧
      [(Kind.condition, "F"), (.block, "B"), (.variable, "n")].Nodup ∧
      convert askingTemplate w = .ok ⟨"// @block B\n1\n// @endblock", ⟨1, 1, 1⟩⟩ := by
  have hrounds : Rounds askingTemplate ∅ [(.condition, "F"), (.block, "B"), (.variable, "n")]
      ((((∅ : Values).setCondition "F" true).setBlock "B" "<n>").setVariable "n" "1") := by
    have hcondition : convert askingTemplate ∅ = .error ⟨.condition, "F", 1⟩ := by decide +kernel
    have hblock : convert askingTemplate ((∅ : Values).setCondition "F" true) =
        .error ⟨.block, "B", 1⟩ := by decide +kernel
    have hvariable : convert askingTemplate
        (((∅ : Values).setCondition "F" true).setBlock "B" "<n>") =
          .error ⟨.variable, "n", 2⟩ := by decide +kernel
    exact .round hcondition (.condition "F" true) (.round hblock (.block "B" "<n>")
      (.round hvariable (.variable "n" "1") (.stop _)))
  exact ⟨_, hrounds, (convert_progress askingTemplate ∅).2.2.1 _ _ hrounds, by decide +kernel⟩

end Template

end ShaderTemplates
