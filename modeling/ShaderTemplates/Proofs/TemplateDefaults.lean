import ShaderTemplates.Proofs.SettledGenerators

/-!
# Defaults of a template

The default of a directive reaches a conversion in three ways: a template lists it
(`Inventory.defaults`), syncing stores it for a generator that has no value, and resolving takes it
where nothing is stored.  All three come to the same: syncing a generator first does not change its
values (`resolve_sync`), a new generator stores the defaults when it is synced (`sync_new`), and
without a sync its values are the defaults as well, with the name of the shader in the variable that
stands for it (`resolve_new`).

A synced default is checked against the alternatives like any stored value.  The check makes no
difference, because a default that is refused is replaced by itself.
-/

namespace ShaderTemplates

open Template

namespace Generator

variable {α : Type}

theorem map_storedOr_empty (entries : List (String × α)) : entries.map (storedOr ∅) = entries :=
  List.map_id _

theorem get?_map_storedOr (stored : Table α) (entries : List (String × α)) (name : String) :
    (SortedMap.ofList (entries.map (storedOr stored))).get? name =
      ((SortedMap.ofList entries).get? name).map (stored.get? name).getD :=
  SortedMap.get?_ofList_map (fun name => (stored.get? name).getD) entries name

/-- Defaults that were stored before are the defaults that are taken now. -/
theorem map_storedOr_orElse (stored : Table α) (entries : List (String × α)) :
    SortedMap.ofList (entries.map (storedOr (stored.orElse (.ofList entries)))) =
      .ofList (entries.map (storedOr stored)) := by
  refine SortedMap.ext_get? fun name => ?_
  rw [get?_map_storedOr, get?_map_storedOr, SortedMap.get?_orElse]
  cases (SortedMap.ofList entries).get? name with
  | none => rfl
  | some value => cases stored.get? name <;> rfl

/-- The default of a variable is that of its alternatives. -/
theorem get?_defaults_vars (i : Inventory) (name : String) :
    i.defaults.vars.get? name =
      ((SortedMap.ofList i.vars.entries).get? name).map defaultAlternative :=
  SortedMap.get?_ofList_map (fun _ => defaultAlternative) i.vars.entries name

/-- The values of the variables of a template. -/
def resolvedVars (g : Generator) (i : Inventory) (constants : Table String) : Table String :=
  .ofList (i.vars.entries.map fun e => (e.1, (g.fixed? constants e.1).getD (g.chosen e.1 e.2)))

theorem get?_resolvedVars (g : Generator) (i : Inventory) (constants : Table String)
    (name : String) :
    (g.resolvedVars i constants).get? name =
      ((SortedMap.ofList i.vars.entries).get? name).map fun alternatives =>
        (g.fixed? constants name).getD (g.chosen name alternatives) :=
  SortedMap.get?_ofList_map (fun name alternatives =>
    (g.fixed? constants name).getD (g.chosen name alternatives)) i.vars.entries name

theorem resolve_of_named {g : Generator} (h : Text.isBlankText g.name = false) (i : Inventory)
    (constants : Table String) :
    g.resolve i constants = .ok {
      conditions := .ofList (i.conditions.entries.map (storedOr g.values.conditions))
      blocks := .ofList (i.blocks.entries.map (storedOr g.values.blocks))
      vars := g.resolvedVars i constants } := by
  rw [resolve, h]
  rfl

-- ── Syncing first ────────────────────────────────────────────────────────────

/-- A default that was stored is chosen as if nothing had been stored, whether it is among the
    alternatives or not. -/
theorem chosen_sync {g : Generator} {i : Inventory} {name : String} {alternatives : List String}
    (h : (SortedMap.ofList i.vars.entries).get? name = some alternatives) :
    (g.sync i).chosen name alternatives = g.chosen name alternatives := by
  have hstored : (g.sync i).values.vars.get? name =
      (g.values.vars.get? name).or (some (defaultAlternative alternatives)) := by
    rw [values_sync]
    show (g.values.vars.orElse i.defaults.vars).get? name = _
    rw [SortedMap.get?_orElse, get?_defaults_vars, h, Option.map_some]
  rw [chosen, chosen, hstored]
  cases g.values.vars.get? name with
  | some stored => rfl
  | none => exact ite_self _

theorem resolvedVars_sync (g : Generator) (i : Inventory) (constants : Table String) :
    (g.sync i).resolvedVars i constants = g.resolvedVars i constants := by
  refine SortedMap.ext_get? fun name => ?_
  rw [get?_resolvedVars, get?_resolvedVars]
  cases h : (SortedMap.ofList i.vars.entries).get? name with
  | none => rfl
  | some alternatives =>
      rw [Option.map_some, Option.map_some, chosen_sync h]
      rfl

/-- Syncing a generator does not change the values that it is converted with. -/
theorem resolve_sync (g : Generator) (i : Inventory) (constants : Table String) :
    (g.sync i).resolve i constants = g.resolve i constants := by
  cases hname : Text.isBlankText g.name with
  | true => rw [resolve, resolve, if_pos hname]; exact if_pos hname
  | false =>
      rw [resolve_of_named (g := g.sync i) hname, resolve_of_named hname, resolvedVars_sync,
        values_sync]
      show Except.ok (Values.mk
        (.ofList (i.conditions.entries.map (storedOr (g.values.conditions.orElse
          (.ofList i.conditions.entries)))))
        (.ofList (i.blocks.entries.map (storedOr (g.values.blocks.orElse
          (.ofList i.blocks.entries))))) _) = _
      rw [map_storedOr_orElse, map_storedOr_orElse]

-- ── New generators ───────────────────────────────────────────────────────────

theorem orElse_of_empty (defaults : Table α) : (∅ : Table α).orElse defaults = defaults :=
  SortedMap.ext_get? fun name => by
    rw [SortedMap.get?_orElse, SortedMap.get?_empty, Option.none_or]

/-- A new generator stores the defaults of its template, and nothing else, when it is synced. -/
theorem sync_new (name template : String) (i : Inventory) :
    ({ name, template } : Generator).sync i = { name, template, values := i.defaults } := by
  have hvalues : (({ name, template } : Generator).sync i).values = i.defaults := by
    rw [values_sync]
    show Values.mk ((∅ : Table Bool).orElse _) ((∅ : Table String).orElse _)
      ((∅ : Table String).orElse _) = _
    rw [orElse_of_empty, orElse_of_empty, orElse_of_empty]
  show Generator.mk name template none none (({ name, template } : Generator).sync i).values = _
  rw [hvalues]

/-- The variables of a new generator have their defaults, but for the one that stands for the name
    of the shader. -/
theorem resolvedVars_new (name template : String) (i : Inventory) :
    ({ name, template } : Generator).resolvedVars i ∅ =
      if nameVariable ∈ i.vars.names then i.defaults.vars.insert nameVariable name
      else i.defaults.vars := by
  refine SortedMap.ext_get? fun variableName => ?_
  have hlisted : variableName ∈ i.vars.names ↔
      ((SortedMap.ofList i.vars.entries).get? variableName).isSome := Directives.mem_names_iff
  have hget : (if nameVariable ∈ i.vars.names then i.defaults.vars.insert nameVariable name
      else i.defaults.vars).get? variableName =
        if variableName = nameVariable ∧ variableName ∈ i.vars.names then some name
        else i.defaults.vars.get? variableName := by
    by_cases hmem : nameVariable ∈ i.vars.names
    · rw [if_pos hmem, SortedMap.get?_insert]
      by_cases hname : variableName = nameVariable
      · rw [if_pos hname, if_pos ⟨hname, hname ▸ hmem⟩]
      · rw [if_neg hname, if_neg fun h => hname h.1]
    · have hneg : ¬(variableName = nameVariable ∧ variableName ∈ i.vars.names) :=
        fun hboth => hmem (hboth.1 ▸ hboth.2)
      rw [if_neg hmem, if_neg hneg]
  rw [hget, get?_resolvedVars, get?_defaults_vars]
  cases h : (SortedMap.ofList i.vars.entries).get? variableName with
  | none =>
      rw [if_neg fun hboth => by rw [hlisted, h] at hboth; exact nomatch hboth.2]
      rfl
  | some alternatives =>
      have hmem : variableName ∈ i.vars.names := hlisted.mpr (h ▸ rfl)
      by_cases hname : variableName = nameVariable
      · rw [if_pos ⟨hname, hmem⟩, Option.map_some, fixed?, SortedMap.get?_empty, if_pos hname]
        rfl
      · rw [if_neg fun hboth => hname hboth.1, Option.map_some, fixed?, SortedMap.get?_empty,
          if_neg hname]
        rfl

/-- A new generator is converted with the defaults of its template and the name of the shader. -/
theorem resolve_new {name : String} (h : Text.isBlankText name = false) (template : String)
    (i : Inventory) :
    ({ name, template } : Generator).resolve i ∅ =
      .ok (if nameVariable ∈ i.vars.names then i.defaults.setVariable nameVariable name
        else i.defaults) := by
  rw [resolve_of_named (g := { name, template }) h, resolvedVars_new]
  show Except.ok (Values.mk (.ofList (i.conditions.entries.map (storedOr ∅)))
    (.ofList (i.blocks.entries.map (storedOr ∅))) _) = _
  rw [map_storedOr_empty, map_storedOr_empty]
  split <;> rfl

-- ── The three ways ───────────────────────────────────────────────────────────

/-- The defaults that a template lists, those that syncing stores and those that resolving falls
    back to are the same. -/
theorem defaults_agree (i : Inventory) :
    (∀ (g : Generator) (constants : Table String), Text.isBlankText g.name = false →
      ∃ values, g.resolve i constants = .ok values ∧
        (g.sync i).resolve i constants = .ok values) ∧
    (∀ name template : String,
      ({ name, template } : Generator).sync i = { name, template, values := i.defaults }) ∧
    ∀ name template : String, Text.isBlankText name = false →
      ({ name, template } : Generator).resolve i ∅ =
        .ok (if nameVariable ∈ i.vars.names then i.defaults.setVariable nameVariable name
          else i.defaults) := by
  refine ⟨?_, fun name template => sync_new name template i, ?_⟩
  · intro g constants hname
    refine ⟨_, resolve_of_named hname i constants, ?_⟩
    rw [resolve_sync, resolve_of_named hname]
  · intro name template hname
    exact resolve_new hname template i

/-- A template with a directive of each kind. -/
def offeringTemplate : String :=
  "@if F:true\n// @block B\nx\n// @endblock\n@endif\n<Name> <n> <Mode=a|b>"

/-- A generator that has chosen an alternative the template no longer offers. -/
def staleGenerator : Generator where
  name := "S"
  template := ""
  values := (∅ : Values).setVariable "Mode" "c"

theorem defaults_agree_sample :
    (∃ values,
      staleGenerator.resolve (scan offeringTemplate) (SortedMap.insert ∅ "n" "1") = .ok values ∧
      (staleGenerator.sync (scan offeringTemplate)).resolve (scan offeringTemplate)
        (SortedMap.insert ∅ "n" "1") = .ok values) ∧
    ({ name := "S", template := "" } : Generator).resolve (scan offeringTemplate) ∅ =
      .ok ((scan offeringTemplate).defaults.setVariable "Name" "S") := by
  obtain ⟨hstale, -, hnew⟩ := defaults_agree (scan offeringTemplate)
  refine ⟨hstale staleGenerator _ (by decide), ?_⟩
  have hlisted : nameVariable ∈ (scan offeringTemplate).vars.names := by decide +kernel
  rw [hnew "S" "" (by decide), if_pos hlisted]
  rfl

end Generator

end ShaderTemplates
