import ShaderTemplates.Proofs.TemplateDefaults

/-!
# What syncing adds

Syncing fills the three tables of a generator up with the defaults of a template, and for each of
them it does no more than that (`SortedMap.FilledUp`): stored values stay, exactly the missing names
are new, each has its default, and they are reported in the order of the template.

A filled table has nothing missing, so syncing again changes nothing.  Its names are those of both
sides, so for the names it makes no difference which of two templates comes first
(`keys_orElse_comm`).
-/

namespace ShaderTemplates

open Template

namespace SortedMap

variable {α β : Type}

/-- A table was filled up with the defaults of listed names, and the names that it gained were
    reported. -/
structure FilledUp (stored filled : Table α) (listed : Directives β) (default : β → α)
    (report : List String) : Prop where
  kept : ∀ name value, stored.get? name = some value → filled.get? name = some value
  names : ∀ name, name ∈ filled.keys ↔ name ∈ stored.keys ∨ name ∈ listed.names
  gained : ∀ name entry, listed.get? name = some entry → name ∉ stored.keys →
    filled.get? name = some (default entry)
  reported : ∀ name, name ∈ report ↔ name ∈ listed.names ∧ name ∉ stored.keys
  ordered : report.Sublist listed.names
  nodup : report.Nodup

theorem not_mem_keys {stored : Table α} {name : String} :
    name ∉ stored.keys ↔ stored.get? name = none := by
  rw [mem_keys, Option.not_isSome_iff_eq_none]

/-- The names of a table that is filled up twice do not depend on what comes first. -/
theorem keys_orElse_comm (stored first second : Table α) :
    ((stored.orElse first).orElse second).keys = ((stored.orElse second).orElse first).keys := by
  refine keys_congr fun name => ?_
  rw [get?_orElse, get?_orElse, get?_orElse, get?_orElse, Option.isSome_or, Option.isSome_or,
    Option.isSome_or, Option.isSome_or, Bool.or_assoc, Bool.or_assoc]
  congr 1
  exact Bool.or_comm _ _

end SortedMap

namespace Generator

variable {α β : Type}

theorem mem_missingNames {stored : Table α} {listed : Directives β} {name : String} :
    name ∈ missingNames stored listed ↔ name ∈ listed.names ∧ name ∉ stored.keys := by
  rw [missingNames, List.mem_filter, SortedMap.not_mem_keys, SortedMap.contains]
  cases stored.get? name <;> simp

/-- Going through the listed names fills a table up with their defaults. -/
theorem filledUp_addMissing (stored : Table α) (listed : Directives β) (default : β → α) :
    SortedMap.FilledUp stored (addMissing default stored listed) listed default
      (missingNames stored listed) := by
  refine ⟨?_, ?_, ?_, ?_, List.filter_sublist, listed.nodup.sublist List.filter_sublist⟩
  · intro name value hvalue
    rw [get?_addMissing, hvalue, Option.some_or]
  · intro name
    rw [Directives.mem_names_iff, listed.get?_ofList_entries, SortedMap.mem_keys,
      SortedMap.mem_keys, get?_addMissing, Option.isSome_or, Bool.or_eq_true, Option.isSome_map]
  · intro name entry hlisted hmissing
    rw [get?_addMissing, SortedMap.not_mem_keys.mp hmissing, hlisted]
    rfl
  · intro name
    exact mem_missingNames

/-- What syncing does to a generator: each table is filled up, and everything else stays. -/
structure Synced (g synced : Generator) (i : Inventory) (report : DirectiveNames) : Prop where
  name : synced.name = g.name
  template : synced.template = g.template
  outputDir : synced.outputDir = g.outputDir
  exported : synced.exported = g.exported
  conditions : SortedMap.FilledUp g.values.conditions synced.values.conditions i.conditions id
    report.conditions
  blocks : SortedMap.FilledUp g.values.blocks synced.values.blocks i.blocks id report.blocks
  vars : SortedMap.FilledUp g.values.vars synced.values.vars i.vars (·.headD "") report.vars

theorem synced_sync (g : Generator) (i : Inventory) :
    g.Synced (g.sync i) i (g.missing i) where
  name := rfl
  template := rfl
  outputDir := rfl
  exported := rfl
  conditions := filledUp_addMissing g.values.conditions i.conditions id
  blocks := filledUp_addMissing g.values.blocks i.blocks id
  vars := by
    have hfilled := filledUp_addMissing g.values.vars i.vars (·.headD "")
    simp only [List.headD_eq_head?_getD] at hfilled ⊢
    exact hfilled

/-- Two generators have values for the same names. -/
structure SameNames (g g' : Generator) : Prop where
  conditions : g.values.conditions.keys = g'.values.conditions.keys
  blocks : g.values.blocks.keys = g'.values.blocks.keys
  vars : g.values.vars.keys = g'.values.vars.keys

theorem sameNames_sync_sync (g : Generator) (i j : Inventory) :
    ((g.sync i).sync j).SameNames ((g.sync j).sync i) where
  conditions := by
    rw [values_sync, values_sync, values_sync, values_sync]
    exact SortedMap.keys_orElse_comm g.values.conditions i.defaults.conditions
      j.defaults.conditions
  blocks := by
    rw [values_sync, values_sync, values_sync, values_sync]
    exact SortedMap.keys_orElse_comm g.values.blocks i.defaults.blocks j.defaults.blocks
  vars := by
    rw [values_sync, values_sync, values_sync, values_sync]
    exact SortedMap.keys_orElse_comm g.values.vars i.defaults.vars j.defaults.vars

/-- Syncing keeps what is stored and adds the defaults of the missing names, which it reports in the
    order of the template.  There is nothing left to add after it, and the names that two templates
    add do not depend on which of them comes first. -/
theorem sync_only_adds (g : Generator) (template other : String) :
    g.Synced (g.sync (scan template)) (scan template) (g.missing (scan template)) ∧
    (g.sync (scan template)).sync (scan template) = g.sync (scan template) ∧
    (g.sync (scan template)).missing (scan template) = ⟨[], [], []⟩ ∧
    ((g.sync (scan template)).sync (scan other)).SameNames
      ((g.sync (scan other)).sync (scan template)) := by
  have hcovers := g.covers_sync (scan template)
  exact ⟨g.synced_sync (scan template), sync_of_covers hcovers,
    missing_of_covers hcovers, g.sameNames_sync_sync (scan template) (scan other)⟩

/-- The default of a name that two templates list is that of the first one. -/
example :
    ((staleGenerator.sync (scan "<Mode=a> <n=1>")).sync (scan "<n=2> <k>")).values.vars.entries =
      [("Mode", "c"), ("k", ""), ("n", "1")] := by decide +kernel

end Generator

end ShaderTemplates
