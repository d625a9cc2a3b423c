import ShaderTemplates.SortedMap

/-!
# Building tables

What a table holds after it was built from entries or filled up from another table, said by its
look-ups: of several entries for one key the last counts in `ofList`, and in `orElse` the table
comes before its fallback.  A map is rebuilt from its own entries (`ofList_entries`), and filling
up a second time changes nothing (`orElse_of_contains`).
-/

namespace ShaderTemplates.SortedMap

variable {κ α : Type} [LT κ] [DecidableEq κ] [KeyOrder κ] [DecidableLT κ]

theorem get?_insertIfNew (m : SortedMap κ α) (k k' : κ) (v : α) :
    (m.insertIfNew k v).get? k' = (m.get? k').or (if k' = k then some v else none) := by
  rw [insertIfNew, contains]
  cases hk : m.get? k with
  | some w =>
      rw [if_pos Option.isSome_some]
      by_cases h : k' = k
      · rw [h, hk, Option.some_or]
      · rw [if_neg h, Option.or_none]
  | none =>
      rw [if_neg (by simp), get?_insert]
      by_cases h : k' = k
      · rw [if_pos h, if_pos h, h, hk, Option.none_or]
      · rw [if_neg h, if_neg h, Option.or_none]

/-- What the entries of a list add to a table that keeps what it has; of several entries for one key
    the first counts. -/
theorem get?_foldl_insertIfNew {β : Type} (value : β → α) (entries : List (κ × β))
    (m : SortedMap κ α) (k : κ) :
    (entries.foldl (fun acc e => acc.insertIfNew e.1 (value e.2)) m).get? k =
      (m.get? k).or ((entries.lookup k).map value) := by
  induction entries generalizing m with
  | nil => exact (Option.or_none).symm
  | cons e rest ih =>
      rw [List.foldl_cons, ih, get?_insertIfNew, lookup_entry_cons, Option.or_assoc]
      by_cases h : k = e.1
      · rw [if_pos h, if_pos h, Option.some_or, Option.map_some]
      · rw [if_neg h, if_neg h, Option.none_or]

/-- A table that is filled up keeps what it has. -/
theorem get?_orElse (m fallback : SortedMap κ α) (k : κ) :
    (m.orElse fallback).get? k = (m.get? k).or (fallback.get? k) := by
  rw [orElse, get?_foldl_insertIfNew fun value : α => value, Option.map_id']
  rfl

/-- Of several entries for one key the last counts. -/
theorem get?_ofList (entries : List (κ × α)) (k : κ) :
    (ofList entries).get? k = entries.reverse.lookup k := by
  have key : ∀ (entries : List (κ × α)) (m : SortedMap κ α),
      (entries.foldl (fun acc e => acc.insert e.1 e.2) m).get? k =
        (entries.reverse.lookup k).or (m.get? k) := by
    intro entries
    induction entries with
    | nil => exact fun m => (Option.none_or).symm
    | cons e rest ih =>
        intro m
        rw [List.foldl_cons, ih, get?_insert, List.reverse_cons, List.lookup_append,
          lookup_entry_cons, Option.or_assoc]
        by_cases h : k = e.1
        · rw [if_pos h, if_pos h, Option.some_or]
        · rw [if_neg h, if_neg h, List.lookup_nil, Option.none_or]
  rw [ofList, key, get?_empty, Option.or_none]

omit [DecidableLT κ] [LT κ] [KeyOrder κ] in
theorem mem_of_lookup {entries : List (κ × α)} {k : κ} {v : α} (h : entries.lookup k = some v) :
    (k, v) ∈ entries := by
  obtain ⟨front, back, rfl, -⟩ := List.lookup_eq_some_iff.mp h
  exact List.mem_append_right _ List.mem_cons_self

/-- What a table that is built from entries has for a key is one of the entries. -/
theorem mem_of_get?_ofList {entries : List (κ × α)} {k : κ} {v : α}
    (h : (ofList entries).get? k = some v) : (k, v) ∈ entries := by
  rw [get?_ofList] at h
  exact List.mem_reverse.mp (mem_of_lookup h)

/-- Values that are changed one by one are looked up and changed. -/
theorem get?_ofList_map {β : Type} (f : κ → α → β) (entries : List (κ × α)) (k : κ) :
    (ofList (entries.map fun e => (e.1, f e.1 e.2))).get? k =
      ((ofList entries).get? k).map (f k) := by
  rw [get?_ofList, get?_ofList, ← List.map_reverse]
  induction entries.reverse with
  | nil => rfl
  | cons e rest ih =>
      rw [List.map_cons, lookup_entry_cons, lookup_entry_cons, ih]
      by_cases h : k = e.1
      · rw [if_pos h, if_pos h, h]
        rfl
      · rw [if_neg h, if_neg h]

/-- A table that is built from entries has a value for their keys. -/
theorem isSome_get?_ofList {entries : List (κ × α)} {k : κ} :
    ((ofList entries).get? k).isSome ↔ k ∈ entries.map (·.1) := by
  constructor
  · intro hsome
    obtain ⟨value, hvalue⟩ := Option.isSome_iff_exists.mp hsome
    exact List.mem_map_of_mem (mem_of_get?_ofList hvalue)
  · intro hmem
    obtain ⟨e, he, rfl⟩ := List.mem_map.mp hmem
    refine Option.isSome_iff_ne_none.mpr fun hnone => ?_
    rw [get?_ofList] at hnone
    have hne := List.lookup_eq_none_iff.mp hnone e (List.mem_reverse.mpr he)
    simp at hne

omit [DecidableLT κ] [LT κ] [KeyOrder κ] in
/-- With distinct keys each entry is looked up. -/
theorem lookup_of_mem {entries : List (κ × α)} (h : (entries.map (·.1)).Nodup) {e : κ × α}
    (he : e ∈ entries) : entries.lookup e.1 = some e.2 := by
  induction entries with
  | nil => exact nomatch he
  | cons x rest ih =>
      rw [List.map_cons, List.nodup_cons] at h
      rw [lookup_entry_cons]
      rcases List.mem_cons.mp he with rfl | hmem
      · rw [if_pos rfl]
      · rw [if_neg, ih h.2 hmem]
        intro heq
        exact h.1 (heq ▸ List.mem_map_of_mem hmem)

/-- A table that is built from entries with distinct keys has each of them. -/
theorem get?_ofList_of_mem {entries : List (κ × α)} (h : (entries.map (·.1)).Nodup) {e : κ × α}
    (he : e ∈ entries) : (ofList entries).get? e.1 = some e.2 := by
  rw [get?_ofList]
  refine lookup_of_mem ?_ (List.mem_reverse.mpr he)
  rw [List.map_reverse]
  exact List.pairwise_reverse.mpr (h.imp Ne.symm)

/-- Of entries with distinct keys a table that is built from them has the same ones. -/
theorem get?_ofList_of_nodup {entries : List (κ × α)} (h : (entries.map (·.1)).Nodup) (k : κ) :
    (ofList entries).get? k = entries.lookup k := by
  cases hk : entries.lookup k with
  | some v => exact get?_ofList_of_mem h (mem_of_lookup hk)
  | none =>
      rw [get?_ofList, List.lookup_eq_none_iff]
      intro e he
      exact List.lookup_eq_none_iff.mp hk e (List.mem_reverse.mp he)

omit [DecidableLT κ] [DecidableEq κ] in
/-- The keys of a table are distinct. -/
theorem nodup_keys (m : SortedMap κ α) : m.keys.Nodup := by
  rw [keys, List.Nodup, List.pairwise_map]
  refine m.sorted.imp ?_
  intro a b hbelow heq
  have hlt : a.1 < b.1 := hbelow
  exact KeyOrder.irrefl b.1 (heq ▸ hlt)

omit [DecidableLT κ] in
/-- The keys of a table are those that have a value. -/
theorem mem_keys {m : SortedMap κ α} {k : κ} : k ∈ m.keys ↔ (m.get? k).isSome := by
  constructor
  · intro hmem
    obtain ⟨e, he, rfl⟩ := List.mem_map.mp hmem
    rw [get?, lookup_of_mem m.nodup_keys he]
    rfl
  · intro hsome
    obtain ⟨v, hv⟩ := Option.isSome_iff_exists.mp hsome
    exact List.mem_map_of_mem (mem_of_lookup hv)

omit [DecidableLT κ] in
/-- With distinct keys the order of the entries does not matter for look-ups. -/
theorem lookup_reverse {entries : List (κ × α)} (h : entries.Pairwise KeyBelow) (k : κ) :
    entries.reverse.lookup k = entries.lookup k := by
  induction entries with
  | nil => rfl
  | cons e rest ih =>
      have ⟨he, hrest⟩ := List.pairwise_cons.mp h
      rw [List.reverse_cons, List.lookup_append, ih hrest, lookup_entry_cons, lookup_entry_cons,
        List.lookup_nil]
      by_cases hk : k = e.1
      · rw [lookup_eq_none_of_below fun a ha => hk ▸ he a ha, if_pos hk, Option.none_or]
      · rw [if_neg hk, if_neg hk, Option.or_none]

theorem ofList_entries (m : SortedMap κ α) : ofList m.entries = m :=
  ext_get? fun k => by
    rw [get?_ofList, lookup_reverse m.sorted]
    rfl

theorem ofList_nil_orElse (m : SortedMap κ α) : (ofList []).orElse m = m :=
  ext_get? fun k => by
    rw [get?_orElse, get?_ofList, List.reverse_nil, List.lookup_nil, Option.none_or]

/-- A table that has every key of the fallback is not changed by it. -/
theorem orElse_of_contains {m fallback : SortedMap κ α}
    (h : ∀ k, (fallback.get? k).isSome → (m.get? k).isSome) : m.orElse fallback = m :=
  ext_get? fun k => by
    rw [get?_orElse]
    cases hm : m.get? k with
    | some v => rw [Option.some_or]
    | none =>
        cases hf : fallback.get? k with
        | none => rw [Option.or_none]
        | some v =>
            have hsome := h k (by rw [hf]; rfl)
            rw [hm] at hsome
            cases hsome

/-- Storing the value that a key has changes nothing. -/
theorem insert_of_get? {m : SortedMap κ α} {k : κ} {v : α} (h : m.get? k = some v) :
    m.insert k v = m :=
  ext_get? fun k' => by
    rw [get?_insert]
    split
    next heq => rw [heq, h]
    next => rfl

omit [DecidableLT κ] in
theorem lookup_filterMap {β : Type} {entries : List (κ × α)} (h : entries.Pairwise KeyBelow)
    (f : κ × α → Option β) (k : κ) :
    (entries.filterMap fun e => (f e).map fun b => (e.1, b)).lookup k =
      (entries.lookup k).bind fun v => f (k, v) := by
  induction entries with
  | nil => rfl
  | cons e rest ih =>
      have ⟨he, hrest⟩ := List.pairwise_cons.mp h
      rw [List.filterMap_cons, lookup_entry_cons]
      by_cases hk : k = e.1
      · subst hk
        rw [if_pos rfl]
        cases hf : f e with
        | some b => exact (lookup_entry_cons _ _ _).trans ((if_pos rfl).trans hf.symm)
        | none =>
            rw [Option.map_none]
            dsimp only
            rw [ih hrest, lookup_eq_none_of_below he]
            exact hf.symm
      · rw [if_neg hk, ← ih hrest]
        cases f e with
        | some b => exact (lookup_entry_cons _ _ _).trans (if_neg hk)
        | none => rfl

omit [DecidableLT κ] in
/-- What is collected from the entries depends on nothing but what is collected for each key. -/
theorem filterMap_entries_congr {β : Type} {m n : SortedMap κ α} {f : κ × α → Option β}
    (h : ∀ k, ((m.get? k).bind fun v => f (k, v)) = (n.get? k).bind fun v => f (k, v)) :
    m.entries.filterMap f = n.entries.filterMap f := by
  have hcollect : ∀ entries : List (κ × α), entries.filterMap f =
      (entries.filterMap fun e => (f e).map fun b => (e.1, b)).map (·.2) := by
    intro entries
    rw [List.map_filterMap]
    congr 1
    funext e
    cases f e <;> rfl
  have hsorted : ∀ m : SortedMap κ α,
      (m.entries.filterMap fun e => (f e).map fun b => (e.1, b)).Pairwise KeyBelow := by
    intro m
    refine m.sorted.filterMap _ fun e e' hbelow b hb b' hb' => ?_
    obtain ⟨c, -, rfl⟩ := Option.map_eq_some_iff.mp hb
    obtain ⟨c', -, rfl⟩ := Option.map_eq_some_iff.mp hb'
    exact hbelow
  rw [hcollect, hcollect, eq_of_lookup_eq (hsorted m) (hsorted n) fun k => ?_]
  rw [lookup_filterMap m.sorted, lookup_filterMap n.sorted]
  exact h k

omit [DecidableLT κ] in
/-- Tables that have values for the same keys list them alike. -/
theorem keys_congr {m n : SortedMap κ α} (h : ∀ k, (m.get? k).isSome = (n.get? k).isSome) :
    m.keys = n.keys := by
  have hkeys : ∀ m : SortedMap κ α, m.keys = m.entries.filterMap fun e => some e.1 :=
    fun m => List.filterMap_eq_map.symm ▸ rfl
  rw [hkeys, hkeys]
  refine filterMap_entries_congr fun k => ?_
  have hbind : ∀ value? : Option α,
      (value?.bind fun _ => some k) = if value?.isSome then some k else none := by
    intro value?
    cases value? <;> rfl
  rw [hbind, hbind, h k]

end ShaderTemplates.SortedMap
