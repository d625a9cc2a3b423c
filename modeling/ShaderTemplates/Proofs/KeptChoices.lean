import ShaderTemplates.Proofs.PulledBlocks

/-!
# Choices that are kept

A generator goes through three changes before an export saves it: it takes over the blocks of its
last output, gets a default for each directive that it has no value for, and records the values that
are fixed.  Each of them fills tables up or stores values over those that are there, so each carries
the tables over (`SortedMap.Carries`), and so do all three together (`carries_recorded`): names
stay, new names are those that were missing, and no value changes but the bodies that were pulled
and the variables that are fixed.
-/

namespace ShaderTemplates

open Template

namespace SortedMap

variable {κ α : Type} [LT κ] [DecidableEq κ]

/-- A table keeps its keys; only some of its values may change, and the keys that are added are
    new. -/
structure Carries (stored saved : SortedMap κ α) (changes : κ → Prop) (added : List κ) : Prop where
  kept : ∀ k v, stored.get? k = some v →
    ∃ v', saved.get? k = some v' ∧ (v' = v ∨ changes k)
  added : ∀ k, k ∈ added ↔ stored.get? k = none ∧ (saved.get? k).isSome

namespace Carries

variable {a b c : SortedMap κ α} {changes changes' : κ → Prop} {new new' : List κ}

theorem isSome (h : a.Carries b changes new) {k : κ} (hk : (a.get? k).isSome) :
    (b.get? k).isSome := by
  obtain ⟨v, hv⟩ := Option.isSome_iff_exists.mp hk
  obtain ⟨v', hv', -⟩ := h.kept k v hv
  rw [hv']
  rfl

theorem mono (h : a.Carries b changes new) (hchanges : ∀ k, changes k → changes' k) :
    a.Carries b changes' new := by
  refine ⟨fun k v hv => ?_, h.added⟩
  obtain ⟨v', hv', hsame⟩ := h.kept k v hv
  exact ⟨v', hv', hsame.imp_right (hchanges k)⟩

/-- What two steps keep is kept, and what either of them adds is new. -/
theorem trans (h : a.Carries b changes new) (h' : b.Carries c changes' new') :
    a.Carries c (fun k => changes k ∨ changes' k) (new ++ new') where
  kept := by
    intro k v hv
    obtain ⟨v₁, hv₁, hfirst⟩ := h.kept k v hv
    obtain ⟨v₂, hv₂, hsecond⟩ := h'.kept k v₁ hv₁
    refine ⟨v₂, hv₂, ?_⟩
    rcases hfirst with rfl | hchange
    · exact hsecond.imp_right .inr
    · exact .inr (.inl hchange)
  added := by
    intro k
    rw [List.mem_append, h.added, h'.added]
    constructor
    · rintro (⟨hnone, hsome⟩ | ⟨hnone, hsome⟩)
      · exact ⟨hnone, h'.isSome hsome⟩
      · refine ⟨Option.not_isSome_iff_eq_none.mp fun hk => ?_, hsome⟩
        rw [Option.isSome_iff_ne_none] at hk
        have hstill := h.isSome (Option.isSome_iff_ne_none.mpr hk)
        rw [hnone] at hstill
        cases hstill
    · rintro ⟨hnone, hsome⟩
      cases hb : b.get? k with
      | none => exact .inr ⟨rfl, hsome⟩
      | some v => exact .inl ⟨hnone, rfl⟩

end Carries

theorem carries_refl (stored : SortedMap κ α) : stored.Carries stored (fun _ => False) [] where
  kept _ v hv := ⟨v, hv, .inl rfl⟩
  added k := by
    constructor
    · intro hmem
      cases hmem
    · rintro ⟨hnone, hsome⟩
      rw [hnone] at hsome
      cases hsome

variable [KeyOrder κ] [DecidableLT κ]

/-- A table over which other values are stored has new values for their keys only. -/
theorem carries_overlay {edits stored : SortedMap κ α}
    (h : ∀ k, (edits.get? k).isSome → (stored.get? k).isSome) :
    stored.Carries (edits.orElse stored) (fun k => (edits.get? k).isSome) [] where
  kept := by
    intro k v hv
    rw [get?_orElse, hv]
    cases hk : edits.get? k with
    | none => exact ⟨v, rfl, .inl rfl⟩
    | some v' => exact ⟨v', rfl, .inr rfl⟩
  added := by
    intro k
    rw [get?_orElse]
    constructor
    · intro hmem
      cases hmem
    · rintro ⟨hnone, hsome⟩
      rw [hnone, Option.or_none] at hsome
      have hstored := h k hsome
      rw [hnone] at hstored
      cases hstored

end SortedMap

namespace Generator

/-- The choices of a generator are kept: no value changes but the bodies of the pulled blocks and
    the variables that are fixed, and exactly the synced names are new. -/
structure Carries (g saved : Generator) (i : Inventory) (constants : Table String)
    (pulled : List String) (synced : DirectiveNames) : Prop where
  name : saved.name = g.name
  outputDir : saved.outputDir = g.outputDir
  conditions : g.values.conditions.Carries saved.values.conditions (fun _ => False)
    synced.conditions
  blocks : g.values.blocks.Carries saved.values.blocks (· ∈ pulled) synced.blocks
  vars : g.values.vars.Carries saved.values.vars
    (fun name => name ∈ i.vars.names ∧ (name = nameVariable ∨ constants.contains name = true))
    synced.vars
  covers : saved.values.Covers i

variable {g : Generator} {i : Inventory} {constants : Table String}

theorem isSome_editedBlocks {output name : String} :
    ((SortedMap.ofList (g.editedBlocks output)).get? name).isSome ↔
      name ∈ g.pulledNames output :=
  SortedMap.isSome_get?_ofList

/-- A table that is filled up keeps its values and gets the names that it does not have. -/
theorem carries_addMissing {α β : Type} (default : β → α) (stored : Table α)
    (listed : Directives β) :
    stored.Carries (addMissing default stored listed) (fun _ => False)
      (missingNames stored listed) where
  kept := by
    intro name value hvalue
    exact ⟨value, by rw [get?_addMissing, hvalue, Option.some_or], .inl rfl⟩
  added := by
    intro name
    rw [missingNames, List.mem_filter, get?_addMissing, Directives.mem_names_iff,
      listed.get?_ofList_entries, SortedMap.contains]
    cases stored.get? name <;> simp

/-- Pulling changes no table but that of the blocks, and there only the bodies that it reports. -/
theorem carries_pull (g : Generator) (output : String) :
    g.values.blocks.Carries (g.pull output).values.blocks (· ∈ g.pulledNames output) [] := by
  refine (SortedMap.carries_overlay fun name hname => ?_).mono fun name =>
    isSome_editedBlocks.mp
  obtain ⟨e, he, rfl⟩ := List.mem_map.mp (isSome_editedBlocks.mp hname)
  obtain ⟨-, stored, hstored, -⟩ := mem_editedBlocks.mp he
  rw [hstored]
  rfl

/-- The fixed values are those of the listed names. -/
theorem get?_fixedValues (g : Generator) (i : Inventory) (constants : Table String)
    (name : String) : (g.fixedValues i constants).get? name =
      if name ∈ i.vars.names then g.fixed? constants name else none := by
  have hentry : ∀ value, (g.fixedValues i constants).get? name = some value →
      name ∈ i.vars.names ∧ g.fixed? constants name = some value := by
    intro value hvalue
    obtain ⟨name', hname, hfixed⟩ := List.mem_filterMap.mp (SortedMap.mem_of_get?_ofList hvalue)
    obtain ⟨_, hfixed, heq⟩ := Option.map_eq_some_iff.mp hfixed
    cases heq
    exact ⟨hname, hfixed⟩
  cases hget : (g.fixedValues i constants).get? name with
  | some value =>
      obtain ⟨hname, hfixed⟩ := hentry value hget
      rw [if_pos hname, hfixed]
  | none =>
      by_cases hname : name ∈ i.vars.names
      · rw [if_pos hname]
        cases hfixed : g.fixed? constants name with
        | none => rfl
        | some value =>
            -- the pair of the name and its fixed value would be one of the entries
            have hmem : (name, value) ∈ i.vars.names.filterMap fun name =>
                (g.fixed? constants name).map fun value => (name, value) :=
              List.mem_filterMap.mpr ⟨name, hname, by rw [hfixed]; rfl⟩
            rw [fixedValues, SortedMap.get?_ofList, List.lookup_eq_none_iff] at hget
            have hne := hget _ (List.mem_reverse.mpr hmem)
            simp at hne
      · rw [if_neg hname]

theorem isSome_fixed?_iff (g : Generator) {constants : Table String} {name : String} :
    (g.fixed? constants name).isSome ↔
      name = nameVariable ∨ constants.contains name = true := by
  rw [fixed?, SortedMap.contains]
  cases constants.get? name with
  | some value => simp
  | none => by_cases hname : name = nameVariable <;> simp [hname]

/-- A fixed value is one for a variable that the template uses. -/
theorem isSome_fixedValues {name : String}
    (h : ((g.fixedValues i constants).get? name).isSome) :
    name ∈ i.vars.names ∧ (name = nameVariable ∨ constants.contains name = true) := by
  rw [get?_fixedValues] at h
  split at h
  next hname => exact ⟨hname, g.isSome_fixed?_iff.mp h⟩
  next => cases h

/-- Recording the fixed values changes them only. -/
theorem carries_recordFixed (h : g.values.Covers i) (constants : Table String) :
    g.values.vars.Carries (g.recordFixed i constants).values.vars
      (fun name => name ∈ i.vars.names ∧ (name = nameVariable ∨ constants.contains name = true))
      [] :=
  (SortedMap.carries_overlay fun name hname => h.vars name (isSome_fixedValues hname).1).mono
    fun _ => isSome_fixedValues

/-- A generator that took blocks over is synced, and then its fixed values are recorded. -/
theorem carries_settled {pulled : Generator} {names : List String} (hname : pulled.name = g.name)
    (houtputDir : pulled.outputDir = g.outputDir)
    (hconditions : pulled.values.conditions = g.values.conditions)
    (hblocks : g.values.blocks.Carries pulled.values.blocks (· ∈ names) [])
    (hvars : pulled.values.vars = g.values.vars) :
    g.Carries ((pulled.sync i).recordFixed i constants) i constants names (pulled.missing i) where
  name := hname
  outputDir := houtputDir
  conditions := hconditions ▸ carries_addMissing id _ i.conditions
  blocks := (hblocks.trans (carries_addMissing id _ i.blocks)).mono
    fun _ h => h.elim id False.elim
  vars := by
    have hsynced : pulled.values.vars.Carries (pulled.sync i).values.vars (fun _ => False)
        (pulled.missing i).vars :=
      carries_addMissing (fun alternatives : List String => alternatives.head?.getD "") _ i.vars
    have hfixed := hsynced.trans (carries_recordFixed (covers_sync pulled i) constants)
    rw [List.append_nil] at hfixed
    rw [← hvars]
    exact hfixed.mono fun _ h => h.elim False.elim id
  covers := covers_recordFixed (covers_sync pulled i)

end Generator

/-- What an export saves keeps the choices of the generator. -/
theorem ExportSource.carries_recorded (s : ExportSource) (config : Config) :
    s.generator.Carries (s.recorded config) (scan s.templateText) config.constants s.pulledNames
      (s.pulled.missing (scan s.templateText)) := by
  rw [recorded, synced, pulled, pulledNames]
  cases s.previous with
  | none =>
      exact Generator.carries_settled rfl rfl rfl
        ((SortedMap.carries_refl _).mono fun _ h => h.elim) rfl
  | some previous =>
      exact Generator.carries_settled rfl rfl rfl (s.generator.carries_pull previous.2) rfl

end ShaderTemplates
