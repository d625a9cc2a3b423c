import ShaderTemplates.Generator
import ShaderTemplates.Proofs.Pieces
import ShaderTemplates.Proofs.Tables

/-!
# Generators that nothing has to be done for

Syncing, recording the fixed values and pulling each change a generator only once:

* syncing goes through the names of the template one by one, and comes to filling the values up with
  the defaults that the template lists (`values_sync`);
* a generator whose values cover the template has nothing missing and is not changed by syncing
  (`missing_of_covers`, `sync_of_covers`), and syncing makes its values cover it (`covers_sync`);
* the fixed values are recorded over those that were recorded before (`recordFixed_recordFixed`),
  and the values of the conversion stay what they are (`resolve_recordFixed`);
* an output without edited blocks changes nothing (`pull_of_not_edited`).
-/

namespace ShaderTemplates

open Template

theorem Directives.mem_names_iff {α : Type} {d : Directives α} {name : String} :
    name ∈ d.names ↔ ((SortedMap.ofList d.entries).get? name).isSome :=
  SortedMap.isSome_get?_ofList.symm

theorem Directives.get?_ofList_entries {α : Type} (d : Directives α) (name : String) :
    (SortedMap.ofList d.entries).get? name = d.get? name :=
  SortedMap.get?_ofList_of_nodup d.nodup name

namespace Template

/-- The names with a default are those that the template lists. -/
theorem Inventory.isSome_defaults_vars {i : Inventory} {name : String} :
    (i.defaults.vars.get? name).isSome ↔ name ∈ i.vars.names := by
  have hnames : i.vars.names =
      (i.vars.entries.map fun e => (e.1, defaultAlternative e.2)).map (·.1) := by
    rw [Directives.names, List.map_map]
    rfl
  rw [hnames]
  exact SortedMap.isSome_get?_ofList

theorem Values.orDefaults_of_covers {v : Values} {i : Inventory} (h : v.Covers i) :
    v.orDefaults i.defaults = v := by
  have hconditions : v.conditions.orElse i.defaults.conditions = v.conditions :=
    SortedMap.orElse_of_contains fun name hname =>
      h.conditions name (Directives.mem_names_iff.mpr hname)
  have hblocks : v.blocks.orElse i.defaults.blocks = v.blocks :=
    SortedMap.orElse_of_contains fun name hname =>
      h.blocks name (Directives.mem_names_iff.mpr hname)
  have hvars : v.vars.orElse i.defaults.vars = v.vars :=
    SortedMap.orElse_of_contains fun name hname =>
      h.vars name (Inventory.isSome_defaults_vars.mp hname)
  rw [Values.orDefaults, hconditions, hblocks, hvars]

theorem isSome_orElse {α : Type} {m fallback : Table α} {name : String}
    (h : (fallback.get? name).isSome) : ((m.orElse fallback).get? name).isSome := by
  rw [SortedMap.get?_orElse, Option.isSome_or, h, Bool.or_true]

theorem Values.covers_orDefaults (v : Values) (i : Inventory) :
    (v.orDefaults i.defaults).Covers i where
  conditions _ hname := isSome_orElse (Directives.mem_names_iff.mp hname)
  blocks _ hname := isSome_orElse (Directives.mem_names_iff.mp hname)
  vars _ hname := isSome_orElse (Inventory.isSome_defaults_vars.mpr hname)

end Template

namespace Generator

variable {g : Generator} {i : Inventory} {constants : Table String}

-- ── Syncing ──────────────────────────────────────────────────────────────────

/-- A table keeps what it has, and has the defaults of the other names that are listed. -/
theorem get?_addMissing {α β : Type} (default : β → α) (stored : Table α) (listed : Directives β)
    (name : String) :
    (addMissing default stored listed).get? name =
      (stored.get? name).or ((listed.get? name).map default) :=
  SortedMap.get?_foldl_insertIfNew default listed.entries stored name

/-- The names are added one by one as if the table were filled up from a table of all defaults. -/
theorem addMissing_eq_orElse {α β : Type} (default : β → α) (stored : Table α)
    (listed : Directives β) : addMissing default stored listed =
      stored.orElse (.ofList (listed.entries.map fun e => (e.1, default e.2))) := by
  refine SortedMap.ext_get? fun name => ?_
  rw [get?_addMissing, SortedMap.get?_orElse, SortedMap.get?_ofList_map (fun _ => default),
    listed.get?_ofList_entries]

/-- Syncing fills the values up with the defaults that the template lists. -/
theorem values_sync (g : Generator) (i : Inventory) :
    (g.sync i).values = g.values.orDefaults i.defaults := by
  have hid : ∀ {α : Type} (stored : Table α) (listed : Directives α),
      addMissing id stored listed = stored.orElse (.ofList listed.entries) := by
    intro α stored listed
    rw [addMissing_eq_orElse]
    exact congrArg (fun entries => stored.orElse (.ofList entries)) (List.map_id _)
  have hdefault : (fun alternatives : List String => alternatives.head?.getD "") =
      defaultAlternative := by
    funext alternatives
    exact List.headD_eq_head?_getD.symm
  show Values.mk _ _ _ = _
  rw [hid, hid, hdefault, addMissing_eq_orElse]
  rfl

theorem covers_sync (g : Generator) (i : Inventory) : (g.sync i).values.Covers i := by
  rw [values_sync]
  exact g.values.covers_orDefaults i

theorem sync_of_covers (h : g.values.Covers i) : g.sync i = g := by
  have hvalues : (g.sync i).values = g.values := by
    rw [values_sync, Values.orDefaults_of_covers h]
  show { g with values := (g.sync i).values } = g
  rw [hvalues]

theorem missingNames_eq_nil {α β : Type} {stored : Table α} {listed : Directives β}
    (h : ∀ name ∈ listed.names, (stored.get? name).isSome) : missingNames stored listed = [] := by
  refine List.filter_eq_nil_iff.mpr fun name hname => ?_
  rw [SortedMap.contains, h name hname]
  exact Bool.false_ne_true

theorem missing_of_covers (h : g.values.Covers i) : g.missing i = ⟨[], [], []⟩ := by
  rw [missing, missingNames_eq_nil h.conditions, missingNames_eq_nil h.blocks,
    missingNames_eq_nil h.vars]

-- ── Fixed values ─────────────────────────────────────────────────────────────

/-- The fixed values of the variables that a template uses. -/
def fixedValues (g : Generator) (i : Inventory) (constants : Table String) : Table String :=
  .ofList (i.vars.names.filterMap fun name =>
    (g.fixed? constants name).map fun value => (name, value))

/-- What has no fixed value is not recorded. -/
theorem get?_fixedValues_eq_none {name : String} (h : g.fixed? constants name = none) :
    (g.fixedValues i constants).get? name = none := by
  rw [fixedValues, SortedMap.get?_ofList, List.lookup_eq_none_iff]
  intro e he
  obtain ⟨name', -, hvalue⟩ := List.mem_filterMap.mp (List.mem_reverse.mp he)
  obtain ⟨value, hfixed, rfl⟩ := Option.map_eq_some_iff.mp hvalue
  have hne : name ≠ name' := by
    rintro rfl
    rw [h] at hfixed
    cases hfixed
  simpa using hne

theorem covers_recordFixed (h : g.values.Covers i) :
    (g.recordFixed i constants).values.Covers i where
  conditions := h.conditions
  blocks := h.blocks
  vars name hname := isSome_orElse (h.vars name hname)

/-- Recording the fixed values again changes nothing. -/
theorem recordFixed_recordFixed (g : Generator) (i : Inventory) (constants : Table String)
    (exported : Option String) :
    { g.recordFixed i constants with exported }.recordFixed i constants =
      { g.recordFixed i constants with exported } := by
  have hvars : (g.fixedValues i constants).orElse
      ((g.fixedValues i constants).orElse g.values.vars) =
        (g.fixedValues i constants).orElse g.values.vars := by
    refine SortedMap.ext_get? fun name => ?_
    rw [SortedMap.get?_orElse, SortedMap.get?_orElse, ← Option.or_assoc, Option.or_self]
  show Generator.mk g.name g.template g.outputDir exported
    ⟨g.values.conditions, g.values.blocks, (g.fixedValues i constants).orElse
      ((g.fixedValues i constants).orElse g.values.vars)⟩ = _
  rw [hvars]
  rfl

/-- The values of the conversion are the same after the fixed ones were recorded. -/
theorem resolve_recordFixed (g : Generator) (i : Inventory) (constants : Table String)
    (exported : Option String) :
    { g.recordFixed i constants with exported }.resolve i constants = g.resolve i constants := by
  have hvalue : ∀ e : String × List String,
      (g.fixed? constants e.1).getD
          ({ g.recordFixed i constants with exported }.chosen e.1 e.2) =
        (g.fixed? constants e.1).getD (g.chosen e.1 e.2) := by
    intro e
    cases hfixed : g.fixed? constants e.1 with
    | some value => rfl
    | none =>
        have hstored : ((g.fixedValues i constants).orElse g.values.vars).get? e.1 =
            g.values.vars.get? e.1 := by
          rw [SortedMap.get?_orElse, get?_fixedValues_eq_none hfixed, Option.none_or]
        rw [chosen, recordFixed]
        dsimp only
        rw [← fixedValues, hstored]
        rfl
  have hvars : (i.vars.entries.map fun e => (e.1, (g.fixed? constants e.1).getD
        ({ g.recordFixed i constants with exported }.chosen e.1 e.2))) =
      i.vars.entries.map fun e => (e.1, (g.fixed? constants e.1).getD (g.chosen e.1 e.2)) :=
    List.map_congr_left fun e _ => congrArg (Prod.mk e.1) (hvalue e)
  rw [resolve]
  show (if Text.isBlankText g.name then _ else Except.ok (Values.mk _ _
    (SortedMap.ofList (i.vars.entries.map fun e => (e.1, (g.fixed? constants e.1).getD
      ({ g.recordFixed i constants with exported }.chosen e.1 e.2)))))) = _
  rw [hvars]
  rfl

-- ── Pulling ──────────────────────────────────────────────────────────────────

theorem pull_of_not_edited {output : String} (h : g.editedBlocks output = []) :
    g.pull output = g := by
  rw [pull, h, SortedMap.ofList_nil_orElse]

theorem pulledNames_eq_nil {output : String} :
    g.pulledNames output = [] ↔ g.editedBlocks output = [] := List.map_eq_nil_iff

/-- A block is edited if it is stored with another body. -/
theorem mem_editedBlocks {output : String} {e : String × String} :
    e ∈ g.editedBlocks output ↔ e ∈ (scan output).blocks.entries ∧
      ∃ stored, g.values.blocks.get? e.1 = some stored ∧ stored ≠ e.2 := by
  rw [editedBlocks, List.mem_filter]
  refine and_congr_right fun _ => ?_
  cases g.values.blocks.get? e.1 with
  | none =>
      constructor
      · intro h
        cases h
      · rintro ⟨_, h, -⟩
        cases h
  | some stored =>
      simp only [decide_eq_true_eq]
      constructor
      · intro h
        exact ⟨stored, rfl, h⟩
      · rintro ⟨_, ⟨⟩, h⟩
        exact h

/-- No block is edited if each one that is stored has its stored body. -/
theorem editedBlocks_eq_nil {output : String} :
    g.editedBlocks output = [] ↔ ∀ e ∈ (scan output).blocks.entries, ∀ stored,
      g.values.blocks.get? e.1 = some stored → stored = e.2 := by
  rw [List.eq_nil_iff_forall_not_mem]
  constructor
  · intro h e he stored hstored
    exact Classical.not_not.mp fun hne => h e (mem_editedBlocks.mpr ⟨he, stored, hstored, hne⟩)
  · intro h e hedited
    obtain ⟨he, stored, hstored, hne⟩ := mem_editedBlocks.mp hedited
    exact hne (h e he stored hstored)

end Generator

end ShaderTemplates
