/-!
# Maps with sorted keys

A finite map is the list of its entries in strictly ascending key order. The order is a field of
the type, so a map has one representation only: two maps with the same look-ups are equal
(`SortedMap.ext_get?`), and writing the entries down in order is canonical.

Keys are strings (ordered by their characters) or lists of strings (ordered component by
component, which is how paths sort).

* `get?_insert_self`, `get?_insert_of_ne` — writing one key changes that key only;
* `get?_erase_self`, `get?_erase_of_ne` — and so does removing one;
* `ext_get?` — a map is determined by its look-ups.
-/

namespace ShaderTemplates

/-- A strict linear order on keys. -/
class KeyOrder (κ : Type) [LT κ] : Prop where
  irrefl : ∀ a : κ, ¬ a < a
  trans : ∀ {a b c : κ}, a < b → b < c → a < c
  connected : ∀ {a b : κ}, ¬ a < b → ¬ b < a → a = b

instance : KeyOrder String where
  irrefl := String.lt_irrefl
  trans := String.lt_trans
  connected h h' := String.le_antisymm (String.not_lt.1 h') (String.not_lt.1 h)

instance : KeyOrder (List String) where
  irrefl := List.lt_irrefl
  trans := List.lt_trans
  connected h h' := List.le_antisymm (List.not_lt.1 h') (List.not_lt.1 h)

-- ── Entry lists ──────────────────────────────────────────────────────────────

section Entries

variable {κ α : Type} [LT κ]

/-- The order between two entries is the order of their keys. -/
def KeyBelow (a b : κ × α) : Prop := a.1 < b.1

/-- Puts an entry at its place in an ascending entry list; an entry with the same key is
    replaced. -/
def insertEntry [DecidableLT κ] [DecidableEq κ] (k : κ) (v : α) : List (κ × α) → List (κ × α)
  | [] => [(k, v)]
  | e :: rest =>
    if k < e.1 then (k, v) :: e :: rest
    else if k = e.1 then (k, v) :: rest
    else e :: insertEntry k v rest

omit [LT κ] in
/-- Looking a key up stops at the first entry that has it. -/
theorem lookup_entry_cons [DecidableEq κ] (k : κ) (e : κ × α) (l : List (κ × α)) :
    (e :: l).lookup k = if k = e.1 then some e.2 else l.lookup k := by
  obtain ⟨k', v⟩ := e
  by_cases h : k = k'
  · simp [h]
  · rw [List.lookup_cons, beq_false_of_ne h, if_neg h]

theorem mem_insertEntry [DecidableLT κ] [DecidableEq κ] {k : κ} {v : α} {a : κ × α}
    {l : List (κ × α)} (h : a ∈ insertEntry k v l) : a = (k, v) ∨ a ∈ l := by
  induction l with
  | nil => simpa [insertEntry] using h
  | cons e rest ih =>
    unfold insertEntry at h
    split at h
    · simpa using h
    · split at h
      · rcases List.mem_cons.1 h with h | h
        · exact Or.inl h
        · exact Or.inr (List.mem_cons_of_mem _ h)
      · rcases List.mem_cons.1 h with h | h
        · exact Or.inr (h ▸ List.mem_cons_self)
        · exact (ih h).imp id (List.mem_cons_of_mem _)

theorem insertEntry_sorted [KeyOrder κ] [DecidableLT κ] [DecidableEq κ] (k : κ) (v : α)
    {l : List (κ × α)} (h : l.Pairwise KeyBelow) : (insertEntry k v l).Pairwise KeyBelow := by
  induction l with
  | nil => exact List.pairwise_singleton _ _
  | cons e rest ih =>
    have ⟨he, hrest⟩ := List.pairwise_cons.1 h
    unfold insertEntry
    split
    next hlt =>
      refine List.pairwise_cons.2 ⟨fun a ha => ?_, h⟩
      rcases List.mem_cons.1 ha with rfl | ha
      · exact hlt
      · exact KeyOrder.trans hlt (he a ha)
    next hlt =>
      split
      next heq =>
        exact List.pairwise_cons.2 ⟨fun a ha => show k < a.1 from heq ▸ he a ha, hrest⟩
      next hne =>
        refine List.pairwise_cons.2 ⟨fun a ha => ?_, ih hrest⟩
        rcases mem_insertEntry ha with rfl | ha
        · show e.1 < k
          by_cases hek : e.1 < k
          · exact hek
          · exact absurd (KeyOrder.connected hlt hek) hne
        · exact he a ha

theorem lookup_insertEntry_self [DecidableLT κ] [DecidableEq κ] (k : κ) (v : α)
    (l : List (κ × α)) : (insertEntry k v l).lookup k = some v := by
  induction l with
  | nil => simp [insertEntry]
  | cons e rest ih =>
    unfold insertEntry
    split
    · simp
    · split
      · simp
      next hne => rw [lookup_entry_cons, if_neg hne, ih]

theorem lookup_insertEntry_of_ne [DecidableLT κ] [DecidableEq κ] {k k' : κ} (h : k' ≠ k) (v : α)
    (l : List (κ × α)) : (insertEntry k v l).lookup k' = l.lookup k' := by
  induction l with
  | nil => simp [insertEntry, lookup_entry_cons, h]
  | cons e rest ih =>
    unfold insertEntry
    split
    · rw [lookup_entry_cons, if_neg h]
    · split
      next heq => rw [lookup_entry_cons, if_neg h, lookup_entry_cons, if_neg (heq ▸ h)]
      · rw [lookup_entry_cons, lookup_entry_cons, ih]

theorem lookup_eq_none_of_below [KeyOrder κ] [DecidableEq κ] {k : κ} {l : List (κ × α)}
    (h : ∀ e ∈ l, k < e.1) : l.lookup k = none := by
  induction l with
  | nil => rfl
  | cons e rest ih =>
    have hne : k ≠ e.1 := fun heq => KeyOrder.irrefl k (heq ▸ h e List.mem_cons_self)
    rw [lookup_entry_cons, if_neg hne, ih fun a ha => h a (List.mem_cons_of_mem _ ha)]

/-- Ascending entry lists with the same look-ups are equal. -/
theorem eq_of_lookup_eq [KeyOrder κ] [DecidableEq κ] {l m : List (κ × α)}
    (hl : l.Pairwise KeyBelow) (hm : m.Pairwise KeyBelow)
    (h : ∀ k, l.lookup k = m.lookup k) : l = m := by
  induction l generalizing m with
  | nil =>
    cases m with
    | nil => rfl
    | cons e rest => simpa [lookup_entry_cons] using h e.1
  | cons e rest ih =>
    cases m with
    | nil => simpa [lookup_entry_cons] using h e.1
    | cons f rest' =>
      have ⟨he, hrest⟩ := List.pairwise_cons.1 hl
      have ⟨hf, hrest'⟩ := List.pairwise_cons.1 hm
      have below {a b : κ × α} {l : List (κ × α)} (hab : a.1 < b.1) (hb : ∀ c ∈ l, KeyBelow b c) :
          (b :: l).lookup a.1 = none :=
        lookup_eq_none_of_below fun c hc => (List.mem_cons.1 hc).elim (· ▸ hab)
          fun hc => KeyOrder.trans hab (hb c hc)
      have hkey : e.1 = f.1 := by
        refine KeyOrder.connected (fun hlt => ?_) (fun hlt => ?_)
        · have := h e.1
          rw [below hlt hf, lookup_entry_cons, if_pos rfl] at this
          exact Option.some_ne_none _ this
        · have := h f.1
          rw [below hlt he, lookup_entry_cons, if_pos rfl] at this
          exact Option.some_ne_none _ this.symm
      have hval : e.2 = f.2 := by
        have := h e.1
        rw [lookup_entry_cons, if_pos rfl, lookup_entry_cons, if_pos hkey] at this
        exact Option.some.inj this
      have htail : rest = rest' := by
        refine ih hrest hrest' fun k => ?_
        by_cases hk : k = e.1
        · rw [lookup_eq_none_of_below fun c hc => hk ▸ he c hc,
            lookup_eq_none_of_below fun c hc => hk ▸ hkey ▸ hf c hc]
        · have := h k
          rwa [lookup_entry_cons, if_neg hk, lookup_entry_cons, if_neg (hkey ▸ hk)] at this
      rw [htail, Prod.ext hkey hval]

end Entries

-- ── Maps ─────────────────────────────────────────────────────────────────────

/-- A finite map, kept as its entries in strictly ascending key order. -/
@[ext] structure SortedMap (κ α : Type) [LT κ] where
  entries : List (κ × α)
  sorted : entries.Pairwise KeyBelow

namespace SortedMap

variable {κ α : Type} [LT κ]

/-- The map without entries. -/
def empty : SortedMap κ α := ⟨[], .nil⟩

instance : EmptyCollection (SortedMap κ α) := ⟨empty⟩

instance : Inhabited (SortedMap κ α) := ⟨empty⟩

instance [DecidableEq κ] [DecidableEq α] : DecidableEq (SortedMap κ α) := fun a b =>
  decidable_of_iff (a.entries = b.entries) SortedMap.ext_iff.symm

instance [Repr κ] [Repr α] : Repr (SortedMap κ α) := ⟨fun m n => reprPrec m.entries n⟩

/-- The keys in ascending order. -/
def keys (m : SortedMap κ α) : List κ := m.entries.map (·.1)

def isEmpty (m : SortedMap κ α) : Bool := m.entries.isEmpty

/-- The entries whose key satisfies `p`. -/
def filterKeys (m : SortedMap κ α) (p : κ → Bool) : SortedMap κ α :=
  ⟨m.entries.filter (p ·.1), m.sorted.filter _⟩

variable [DecidableEq κ]

/-- The value stored for a key. -/
def get? (m : SortedMap κ α) (k : κ) : Option α := m.entries.lookup k

def contains (m : SortedMap κ α) (k : κ) : Bool := (m.get? k).isSome

/-- The map without the entry for a key. -/
def erase (m : SortedMap κ α) (k : κ) : SortedMap κ α := m.filterKeys (· != k)

variable [KeyOrder κ] [DecidableLT κ]

/-- Stores a value for a key, in place of the value it had. -/
def insert (m : SortedMap κ α) (k : κ) (v : α) : SortedMap κ α :=
  ⟨insertEntry k v m.entries, insertEntry_sorted k v m.sorted⟩

/-- Stores a value for a key that has none; an entry that is there stays. -/
def insertIfNew (m : SortedMap κ α) (k : κ) (v : α) : SortedMap κ α :=
  if m.contains k then m else m.insert k v

/-- Every missing entry is taken from `fallback`. -/
def orElse (m fallback : SortedMap κ α) : SortedMap κ α :=
  fallback.entries.foldl (fun acc e => acc.insertIfNew e.1 e.2) m

/-- The map with the given entries; of two entries for one key the later counts. -/
def ofList (entries : List (κ × α)) : SortedMap κ α :=
  entries.foldl (fun acc e => acc.insert e.1 e.2) ∅

-- ── Look-ups ─────────────────────────────────────────────────────────────────

omit [KeyOrder κ] [DecidableLT κ] in
@[simp] theorem get?_empty (k : κ) : (∅ : SortedMap κ α).get? k = none := rfl

@[simp] theorem get?_insert_self (m : SortedMap κ α) (k : κ) (v : α) :
    (m.insert k v).get? k = some v :=
  lookup_insertEntry_self k v m.entries

theorem get?_insert_of_ne (m : SortedMap κ α) {k k' : κ} (h : k' ≠ k) (v : α) :
    (m.insert k v).get? k' = m.get? k' :=
  lookup_insertEntry_of_ne h v m.entries

theorem get?_insert (m : SortedMap κ α) (k k' : κ) (v : α) :
    (m.insert k v).get? k' = if k' = k then some v else m.get? k' := by
  split
  next h => rw [h, get?_insert_self]
  next h => exact m.get?_insert_of_ne h v

omit [KeyOrder κ] [DecidableLT κ] in
theorem get?_filterKeys (m : SortedMap κ α) (p : κ → Bool) (k : κ) :
    (m.filterKeys p).get? k = if p k then m.get? k else none := by
  show (m.entries.filter (p ·.1)).lookup k = if p k then m.entries.lookup k else none
  induction m.entries with
  | nil => simp
  | cons e rest ih =>
    rw [List.filter_cons, lookup_entry_cons]
    by_cases hk : k = e.1
    · subst hk
      by_cases hp : p e.1 = true
      · rw [if_pos hp, lookup_entry_cons, if_pos rfl, if_pos rfl, if_pos hp]
      · rw [if_neg hp, ih, if_neg hp, if_neg hp]
    · by_cases hp : p e.1 = true
      · rw [if_pos hp, lookup_entry_cons, if_neg hk, if_neg hk, ih]
      · rw [if_neg hp, if_neg hk, ih]

omit [KeyOrder κ] [DecidableLT κ] in
@[simp] theorem get?_erase_self (m : SortedMap κ α) (k : κ) : (m.erase k).get? k = none := by
  simp [erase, get?_filterKeys]

omit [KeyOrder κ] [DecidableLT κ] in
theorem get?_erase_of_ne (m : SortedMap κ α) {k k' : κ} (h : k' ≠ k) :
    (m.erase k).get? k' = m.get? k' := by
  simp [erase, get?_filterKeys, h]

omit [DecidableLT κ] in
/-- A map is determined by its look-ups. -/
theorem ext_get? {m n : SortedMap κ α} (h : ∀ k, m.get? k = n.get? k) : m = n :=
  SortedMap.ext (eq_of_lookup_eq m.sorted n.sorted h)

end SortedMap

/-- A table from names to values. -/
abbrev Table (α : Type) := SortedMap String α

end ShaderTemplates
