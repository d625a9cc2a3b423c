import Mathlib.Data.List.DropRight
import ShaderTemplates.Proofs.KeptChoices
import ShaderTemplates.Proofs.TemplateDefaults

/-!
# One value for each name

Resolving gives each name that a text lists one value, and no other name any (`Generator.Resolves`).
A stored condition or body comes before the default of the template.  For a variable the sources are
ordered: a constant, the name of the shader, the stored value if it is a choice, and the template.
`Generator.Gives` says which one counts without computing it, and it leaves no doubt
(`gives_iff`).

The fixed values are recorded as they were resolved (`get?_recordFixed`), so resolving again gives
the same values (`resolve_recordFixed`).
-/

namespace ShaderTemplates

open Template

-- ── Trimming a name ──────────────────────────────────────────────────────────

/-- A name is blank if nothing of it is left when it is trimmed. -/
theorem Text.isBlankText_iff {s : String} : isBlankText s = true ↔ trim s.toList = [] := by
  rw [isBlankText, List.all_eq_true, trim, trimEnd, List.reverse_eq_nil_iff,
    List.dropWhile_eq_nil_iff]
  constructor
  · intro h c hc
    exact h c ((List.dropWhile_sublist isBlank).subset (List.mem_reverse.mp hc))
  · intro h
    have hnone : s.toList.dropWhile isBlank = [] := by
      rw [← List.dropWhile_idempotent, List.dropWhile_eq_nil_iff]
      exact fun c hc => h c (List.mem_reverse.mpr hc)
    exact List.dropWhile_eq_nil_iff.mp hnone

-- ── Names ────────────────────────────────────────────────────────────────────

/-- A table with one value for each listed name has these names. -/
theorem Directives.keys_perm {α β : Type} (d : Directives α) (f : String → α → β) :
    (SortedMap.ofList (d.entries.map fun e => (e.1, f e.1 e.2))).keys.Perm d.names := by
  refine (List.perm_ext_iff_of_nodup (SortedMap.nodup_keys _) d.nodup).mpr fun name => ?_
  rw [SortedMap.mem_keys, SortedMap.get?_ofList_map, Option.isSome_map]
  exact SortedMap.isSome_get?_ofList

namespace Generator

variable {g : Generator} {i : Inventory} {constants : Table String} {name value : String}
  {alternatives : List String}

-- ── Sources of a value ───────────────────────────────────────────────────────

/-- The variable is fixed by neither a constant nor the name of the shader. -/
def IsFree (constants : Table String) (name : String) : Prop :=
  constants.get? name = none ∧ name ≠ nameVariable

/-- The generator stores the value, and the value is a choice. -/
def Stores (g : Generator) (name : String) (alternatives : List String) (value : String) : Prop :=
  g.values.vars.get? name = some value ∧ (value ∈ alternatives ∨ alternatives = [])

/-- The value of a variable is that of the first source that has one. -/
inductive Gives (g : Generator) (constants : Table String) (name : String)
    (alternatives : List String) : String → Prop where
  | constant {value : String} (h : constants.get? name = some value) :
      Gives g constants name alternatives value
  | shader (hconstant : constants.get? name = none) (hname : name = nameVariable) :
      Gives g constants name alternatives g.name
  | stored {value : String} (hfree : IsFree constants name)
      (hstored : g.Stores name alternatives value) : Gives g constants name alternatives value
  | first {value : String} {rest : List String} (hfree : IsFree constants name)
      (hnone : ∀ stored, ¬ g.Stores name alternatives stored)
      (halternatives : alternatives = value :: rest) : Gives g constants name alternatives value
  | nothing (hfree : IsFree constants name)
      (hnone : ∀ stored, ¬ g.Stores name alternatives stored) (halternatives : alternatives = []) :
      Gives g constants name alternatives ""

theorem isChoice_iff : isChoice alternatives value = true ↔
    value ∈ alternatives ∨ alternatives = [] := by
  rw [isChoice, Bool.or_eq_true, List.isEmpty_iff, List.contains_iff_mem, or_comm]

theorem fixed?_of_free (h : IsFree constants name) : g.fixed? constants name = none := by
  rw [fixed?, h.1]
  exact if_neg h.2

theorem chosen_of_stores (h : g.Stores name alternatives value) :
    g.chosen name alternatives = value := by
  rw [chosen, h.1]
  exact if_pos (isChoice_iff.mpr h.2)

theorem chosen_of_not_stores (h : ∀ stored, ¬ g.Stores name alternatives stored) :
    g.chosen name alternatives = defaultAlternative alternatives := by
  rw [chosen]
  split
  next stored hstored => exact if_neg fun hchoice => h stored ⟨hstored, isChoice_iff.mp hchoice⟩
  next => rfl

/-- There is one value, and it is the one that is resolved. -/
theorem gives_iff : g.Gives constants name alternatives value ↔
    value = (g.fixed? constants name).getD (g.chosen name alternatives) := by
  constructor
  · intro h
    cases h with
    | constant h => rw [fixed?, h, Option.getD_some]
    | shader hconstant hname => rw [fixed?, hconstant, if_pos hname, Option.getD_some]
    | stored hfree hstored =>
        rw [fixed?_of_free hfree, Option.getD_none, chosen_of_stores hstored]
    | first hfree hnone halternatives =>
        rw [fixed?_of_free hfree, Option.getD_none, chosen_of_not_stores hnone, halternatives]
        rfl
    | nothing hfree hnone halternatives =>
        rw [fixed?_of_free hfree, Option.getD_none, chosen_of_not_stores hnone, halternatives]
        rfl
  · rintro rfl
    cases hconstant : constants.get? name with
    | some value =>
        rw [fixed?, hconstant]
        exact .constant hconstant
    | none =>
        by_cases hname : name = nameVariable
        · rw [fixed?, hconstant, if_pos hname]
          exact .shader hconstant hname
        · have hfree : IsFree constants name := ⟨hconstant, hname⟩
          rw [fixed?_of_free hfree, Option.getD_none]
          by_cases hstored : ∃ stored, g.Stores name alternatives stored
          · obtain ⟨stored, hstored⟩ := hstored
            rw [chosen_of_stores hstored]
            exact .stored hfree hstored
          · have hnone := not_exists.mp hstored
            rw [chosen_of_not_stores hnone]
            cases alternatives with
            | nil => exact .nothing hfree hnone rfl
            | cons first rest => exact .first hfree hnone rfl

/-- A variable with alternatives that nothing fixes gets one of them. -/
theorem Gives.mem_alternatives (h : g.Gives constants name alternatives value)
    (hfree : IsFree constants name) (hne : alternatives ≠ []) : value ∈ alternatives := by
  cases h with
  | constant h => exact absurd (hfree.1.symm.trans h) (by simp)
  | shader _ hname => exact absurd hname hfree.2
  | stored _ hstored => exact hstored.2.resolve_right hne
  | first _ _ halternatives => exact halternatives ▸ List.mem_cons_self
  | nothing _ _ halternatives => exact absurd halternatives hne

-- ── The values of a text ─────────────────────────────────────────────────────

/-- The values have exactly the names of an inventory, and each name has the value of its first
    source. -/
structure Resolves (g : Generator) (i : Inventory) (constants : Table String) (v : Values) :
    Prop where
  conditionNames : v.conditions.keys.Perm i.conditions.names
  blockNames : v.blocks.keys.Perm i.blocks.names
  varNames : v.vars.keys.Perm i.vars.names
  condition : ∀ name default, i.conditions.get? name = some default →
    v.conditions.get? name = some ((g.values.conditions.get? name).getD default)
  block : ∀ name body, i.blocks.get? name = some body →
    v.blocks.get? name = some ((g.values.blocks.get? name).getD body)
  var : ∀ name alternatives, i.vars.get? name = some alternatives →
    ∀ value, v.vars.get? name = some value ↔ g.Gives constants name alternatives value

theorem resolves_of_ok {v : Values} (h : g.resolve i constants = .ok v) :
    g.Resolves i constants v := by
  cases hname : Text.isBlankText g.name with
  | true =>
      rw [resolve, if_pos hname] at h
      cases h
  | false =>
      rw [resolve_of_named hname] at h
      cases h
      refine ⟨?_, ?_, ?_, ?_, ?_, ?_⟩
      · exact i.conditions.keys_perm fun name => (g.values.conditions.get? name).getD
      · exact i.blocks.keys_perm fun name => (g.values.blocks.get? name).getD
      · exact i.vars.keys_perm fun name alternatives =>
          (g.fixed? constants name).getD (g.chosen name alternatives)
      · intro name default hlisted
        rw [get?_map_storedOr, Directives.get?_ofList_entries, hlisted]
        rfl
      · intro name body hlisted
        rw [get?_map_storedOr, Directives.get?_ofList_entries, hlisted]
        rfl
      · intro name alternatives hlisted value
        rw [get?_resolvedVars, Directives.get?_ofList_entries, hlisted, Option.map_some,
          Option.some.injEq, gives_iff, eq_comm]

/-- A body that is stored is the one that is resolved. -/
theorem stored_of_resolve {v : Values} (h : g.resolve i constants = .ok v) {stored body : String}
    (hstored : g.values.blocks.get? name = some stored) (hbody : v.blocks.get? name = some body) :
    body = stored := by
  cases hname : Text.isBlankText g.name with
  | true =>
      rw [resolve, if_pos hname] at h
      cases h
  | false =>
      rw [resolve_of_named hname] at h
      cases h
      have hlookup := SortedMap.get?_ofList_map
        (fun name body => (g.values.blocks.get? name).getD body) i.blocks.entries name
      rw [hstored] at hlookup
      obtain ⟨default, -, heq⟩ := Option.map_eq_some_iff.mp (hlookup.symm.trans hbody)
      exact heq.symm

-- ── Recorded values ──────────────────────────────────────────────────────────

/-- What is recorded for a fixed variable is its resolved value; the other stored values stay. -/
theorem get?_recordFixed {v : Values} (h : g.resolve i constants = .ok v) (name : String) :
    (g.recordFixed i constants).values.vars.get? name =
      if name = nameVariable ∨ constants.contains name = true then
        (v.vars.get? name).or (g.values.vars.get? name)
      else g.values.vars.get? name := by
  have hrecorded : (g.recordFixed i constants).values.vars.get? name =
      ((g.fixedValues i constants).get? name).or (g.values.vars.get? name) :=
    SortedMap.get?_orElse _ _ name
  rw [hrecorded, get?_fixedValues]
  cases hname : Text.isBlankText g.name with
  | true =>
      rw [resolve, if_pos hname] at h
      cases h
  | false =>
      rw [resolve_of_named hname] at h
      cases h
      dsimp only
      rw [get?_resolvedVars]
      have hlisted : name ∈ i.vars.names ↔
          ((SortedMap.ofList i.vars.entries).get? name).isSome := Directives.mem_names_iff
      cases hentry : (SortedMap.ofList i.vars.entries).get? name with
      | none =>
          have hunlisted : name ∉ i.vars.names := fun hmem => by
            rw [hlisted, hentry] at hmem
            cases hmem
          rw [if_neg hunlisted, Option.map_none, Option.none_or, ite_self]
      | some alternatives =>
          have hmem : name ∈ i.vars.names := hlisted.mpr (hentry ▸ rfl)
          rw [if_pos hmem, Option.map_some]
          by_cases hfixed : name = nameVariable ∨ constants.contains name = true
          · obtain ⟨value, hvalue⟩ := Option.isSome_iff_exists.mp (g.isSome_fixed?_iff.mpr hfixed)
            rw [if_pos hfixed, hvalue]
            rfl
          · have hnone : g.fixed? constants name = none :=
              Option.not_isSome_iff_eq_none.mp fun hsome => hfixed (g.isSome_fixed?_iff.mp hsome)
            rw [if_neg hfixed, hnone, Option.none_or]

-- ── Resolving ────────────────────────────────────────────────────────────────

/-- A generator is resolved unless its trimmed name is empty.  Its values are then one for each name
    of the text, from the first source that has one, so that a variable with alternatives that
    nothing fixes has one of them.  Recording the fixed values stores them as they are and changes
    no value that is resolved. -/
theorem resolve_precedence (g : Generator) (template : String) (constants : Table String) :
    (g.resolve (scan template) constants = .error .nameEmpty ↔ Text.trim g.name.toList = []) ∧
    (Text.trim g.name.toList ≠ [] → ∃ v, g.resolve (scan template) constants = .ok v ∧
      g.Resolves (scan template) constants v ∧
      (∀ name alternatives, (scan template).vars.get? name = some alternatives →
        IsFree constants name → alternatives ≠ [] →
        ∃ value ∈ alternatives, v.vars.get? name = some value) ∧
      (∀ name, (g.recordFixed (scan template) constants).values.vars.get? name =
        if name = nameVariable ∨ constants.contains name = true then
          (v.vars.get? name).or (g.values.vars.get? name)
        else g.values.vars.get? name) ∧
      (g.recordFixed (scan template) constants).resolve (scan template) constants = .ok v) := by
  rw [← Text.isBlankText_iff, ne_eq, ← Text.isBlankText_iff, Bool.not_eq_true]
  constructor
  · constructor
    · intro h
      cases hname : Text.isBlankText g.name with
      | true => rfl
      | false =>
          rw [resolve_of_named hname] at h
          cases h
    · intro hname
      rw [resolve, if_pos hname]
  · intro hname
    have hresolve := resolve_of_named hname (scan template) constants
    have hresolves := resolves_of_ok hresolve
    refine ⟨_, hresolve, hresolves, ?_, get?_recordFixed hresolve, ?_⟩
    · intro name alternatives hlisted hfree hne
      have hgives := gives_iff.mpr (Eq.refl ((g.fixed? constants name).getD
        (g.chosen name alternatives)))
      exact ⟨_, hgives.mem_alternatives hfree hne,
        (hresolves.var name alternatives hlisted _).mpr hgives⟩
    · exact (resolve_recordFixed g (scan template) constants g.exported).trans hresolve

/-- A constant comes before the name of the shader, and an alternative before a stale choice. -/
theorem resolve_precedence_sample :
    Text.trim staleGenerator.name.toList ≠ [] ∧
    ∃ v, staleGenerator.resolve (scan offeringTemplate) (SortedMap.insert ∅ nameVariable "T") =
        .ok v ∧
      v.vars.get? nameVariable = some "T" ∧
      (∃ value ∈ ["a", "b"], v.vars.get? "Mode" = some value) ∧
      (staleGenerator.recordFixed (scan offeringTemplate)
        (SortedMap.insert ∅ nameVariable "T")).values.vars.get? nameVariable = some "T" := by
  have hname : Text.trim staleGenerator.name.toList ≠ [] := by decide
  obtain ⟨v, hresolve, hresolves, hchoice, hrecorded, -⟩ :=
    (resolve_precedence staleGenerator offeringTemplate
      (SortedMap.insert ∅ nameVariable "T")).2 hname
  have hconstant : v.vars.get? nameVariable = some "T" :=
    (hresolves.var nameVariable [] (by decide +kernel) "T").mpr (.constant (by decide))
  refine ⟨hname, v, hresolve, hconstant, ?_, ?_⟩
  · exact hchoice "Mode" ["a", "b"] (by decide +kernel) ⟨by decide, by decide⟩ (by decide)
  · rw [hrecorded, if_pos (.inl rfl), hconstant, Option.some_or]

end Generator

end ShaderTemplates
