import Mathlib.Data.List.Induction
import ShaderTemplates.Proofs.Directives
import ShaderTemplates.Proofs.Tables

/-!
# Runs of insertions

A directive map comes about by insertions of two kinds, in any order (`insertAll`).  Its names are
distinct and stand in the order in which they were first inserted (`names_insertAll`).  What it has
for a name is the value of the last insertion that replaces, or else the value of the first
insertion of the name (`get?_insertAll`).

Both are carried along the run by one step: an insertion adds its name at the end or not at all
(`names_perform`), gives its name a value (`get?_perform`) and leaves the entries of all other names
as they are (`filter_entries_perform`).
-/

namespace ShaderTemplates.Directives

variable {α : Type}

/-- One insertion into a directive map. -/
inductive Insertion (α : Type) where
  /-- A name that is there keeps its value. -/
  | first (name : String) (value : α)
  /-- The value of a name that is there is replaced. -/
  | last (name : String) (value : α)
deriving DecidableEq, Repr

namespace Insertion

def name : Insertion α → String
  | .first name _ => name
  | .last name _ => name

def value : Insertion α → α
  | .first _ value => value
  | .last _ value => value

/-- The value that is stored whether the name is there or not. -/
def replacement? : Insertion α → Option α
  | .first .. => none
  | .last _ value => some value

end Insertion

/-- The map after one insertion. -/
def perform (d : Directives α) : Insertion α → Directives α
  | .first name value => d.insertFirst name value
  | .last name value => d.insertLast name value

/-- The map after a run of insertions into the map without names. -/
def insertAll (ops : List (Insertion α)) : Directives α := ops.foldl perform ∅

/-- The value that a run of insertions leaves for a name: that of the last insertion of the name
    that replaces, or else that of its first insertion. -/
def currentValue? (name : String) (ops : List (Insertion α)) : Option α :=
  let own := ops.filter (·.name == name)
  (own.filterMap Insertion.replacement?).getLast?.or (own.head?.map Insertion.value)

-- ── One insertion ────────────────────────────────────────────────────────────

theorem names_perform (d : Directives α) (op : Insertion α) :
    (d.perform op).names = if op.name ∈ d.names then d.names else d.names ++ [op.name] := by
  cases op with
  | first name value => exact names_insertFirst d name value
  | last name value => exact names_insertLast d name value

theorem isSome_get?_iff {d : Directives α} {name : String} :
    (d.get? name).isSome ↔ d.contains name = true := by
  rw [get?, List.lookup_isSome_iff, contains, List.any_eq_true]
  exact exists_congr fun e => and_congr_right' (by rw [beq_iff_eq, beq_iff_eq, eq_comm])

theorem get?_insertFirst (d : Directives α) (name : String) (value : α) (k : String) :
    (d.insertFirst name value).get? k =
      if k = name then (d.get? k).or (some value) else d.get? k := by
  rw [insertFirst]
  split
  · next hcontains =>
      obtain ⟨old, hold⟩ := Option.isSome_iff_exists.1 (isSome_get?_iff.2 hcontains)
      by_cases hk : k = name
      · rw [if_pos hk, hk, hold, Option.some_or]
      · rw [if_neg hk]
  · show (d.entries ++ [(name, value)]).lookup k = _
    rw [List.lookup_append, lookup_entry_cons, List.lookup_nil]
    by_cases hk : k = name
    · rw [if_pos hk, if_pos hk]
      rfl
    · rw [if_neg hk, if_neg hk]
      exact Option.or_none

/-- A name that is inserted has the value that replaces, the value it had, or the new one; all other
    names have the value they had. -/
theorem get?_perform (d : Directives α) (op : Insertion α) (name : String) :
    (d.perform op).get? name =
      if name = op.name then (op.replacement?.or (d.get? name)).or (some op.value)
      else d.get? name := by
  cases op with
  | first name' value => exact get?_insertFirst d name' value name
  | last name' value => exact lookup_replaceOrAppend name' value d.entries name

theorem filter_replaceOrAppend (name : String) (value : α) (l : List (String × α)) :
    (replaceOrAppend name value l).filter (·.1 != name) = l.filter (·.1 != name) := by
  induction l with
  | nil => simp [replaceOrAppend]
  | cons e l ih =>
      rw [replaceOrAppend]
      by_cases he : e.1 = name
      · rw [if_pos he, List.filter_cons_of_neg (by simp), List.filter_cons_of_neg (by simp [he])]
      · rw [if_neg he, List.filter_cons, List.filter_cons, ih]

/-- The entries of all other names stay as they are, and in the same order. -/
theorem filter_entries_perform (d : Directives α) (op : Insertion α) :
    (d.perform op).entries.filter (·.1 != op.name) = d.entries.filter (·.1 != op.name) := by
  cases op with
  | first name value =>
      show (d.insertFirst name value).entries.filter (·.1 != name) =
        d.entries.filter (·.1 != name)
      rw [insertFirst]
      split
      · rfl
      · rw [List.filter_append, List.filter_cons_of_neg (by simp), List.filter_nil, List.append_nil]
  | last name value => exact filter_replaceOrAppend name value d.entries

-- ── Runs ─────────────────────────────────────────────────────────────────────

theorem insertAll_concat (ops : List (Insertion α)) (op : Insertion α) :
    insertAll (ops ++ [op]) = (insertAll ops).perform op := by
  rw [insertAll, List.foldl_append]
  rfl

theorem names_insertAll (ops : List (Insertion α)) :
    (insertAll ops).names = (ops.map Insertion.name).eraseDups :=
  names_foldl names_perform ops ∅ [] rfl

theorem currentValue?_concat (name : String) (ops : List (Insertion α)) (op : Insertion α) :
    currentValue? name (ops ++ [op]) =
      if name = op.name then (op.replacement?.or (currentValue? name ops)).or (some op.value)
      else currentValue? name ops := by
  rw [currentValue?, currentValue?, List.filter_append]
  by_cases h : name = op.name
  · rw [if_pos h, List.filter_cons_of_pos (by simp [h]), List.filter_nil, List.filterMap_append,
      List.head?_append]
    cases op with
    | first name' value =>
        show ((_ ++ []).getLast?).or _ = ((none : Option α).or _).or _
        rw [List.append_nil, Option.none_or, Option.or_assoc, Option.map_or]
        rfl
    | last name' value =>
        show ((_ ++ [value]).getLast?).or _ = ((some value).or _).or _
        rw [List.getLast?_concat, Option.some_or, Option.some_or, Option.some_or]
  · rw [if_neg h, List.filter_cons_of_neg (by simpa using Ne.symm h), List.filter_nil,
      List.append_nil]

theorem get?_insertAll (ops : List (Insertion α)) (name : String) :
    (insertAll ops).get? name = currentValue? name ops := by
  induction ops using List.reverseRecOn with
  | nil => rfl
  | append_singleton ops op ih => rw [insertAll_concat, get?_perform, currentValue?_concat, ih]

/-- What is asked of a map is answered by its entries. -/
structure Agrees (d : Directives α) : Prop where
  names : d.names = d.entries.map (·.1)
  size : d.size = d.entries.length
  contains : ∀ name, d.contains name = true ↔ ∃ value, (name, value) ∈ d.entries
  get? : ∀ name value, d.get? name = some value ↔ (name, value) ∈ d.entries

theorem agrees (d : Directives α) : d.Agrees where
  names := rfl
  size := rfl
  contains name := by
    rw [contains_iff, names, List.mem_map]
    constructor
    · rintro ⟨e, he, rfl⟩
      exact ⟨e.2, he⟩
    · rintro ⟨value, he⟩
      exact ⟨_, he, rfl⟩
  get? name value := ⟨SortedMap.mem_of_lookup, fun he => SortedMap.lookup_of_mem d.nodup he⟩

/-- A map that follows another one has all names where they were, and the entries of all names but
    one are the same, in the same order. -/
structure KeepsOthers (name : String) (d d' : Directives α) : Prop where
  names : d.names <+: d'.names
  entries : d'.entries.filter (·.1 != name) = d.entries.filter (·.1 != name)
  get? : ∀ other, other ≠ name → d'.get? other = d.get? other

theorem keepsOthers_perform (d : Directives α) (op : Insertion α) :
    KeepsOthers op.name d (d.perform op) where
  names := by
    rw [names_perform]
    split
    · exact List.prefix_refl _
    · exact List.prefix_append _ _
  entries := filter_entries_perform d op
  get? other h := by rw [get?_perform, if_neg h]

/-- A directive map is an ordered map. After any run of insertions its names are distinct and stand
    in the order in which each was first inserted, and a name has the value of the last insertion
    that replaces, or else of its first one. A further `insertFirst` adds the name exactly if it is
    absent, and no insertion touches the value or the place of another name. -/
theorem insertAll_ordered (ops : List (Insertion α)) :
    (insertAll ops).names.Nodup ∧
    (insertAll ops).names = (ops.map Insertion.name).eraseDups ∧
    (∀ name, (insertAll ops).get? name = currentValue? name ops) ∧
    (∀ name value,
      ((insertAll ops).addFirst name value).1 = insertAll (ops ++ [.first name value]) ∧
      (((insertAll ops).addFirst name value).2 = true ↔ name ∉ (insertAll ops).names)) ∧
    (insertAll ops).Agrees ∧
    ∀ op, KeepsOthers op.name (insertAll ops) (insertAll (ops ++ [op])) := by
  refine ⟨(insertAll ops).nodup, names_insertAll ops, get?_insertAll ops, fun name value => ?_,
    (insertAll ops).agrees, fun op => ?_⟩
  · rw [addFirst_eq, insertAll_concat, ← contains_iff, Bool.not_eq_true']
    exact ⟨rfl, Bool.eq_false_iff⟩
  · rw [insertAll_concat]
    exact keepsOthers_perform _ op

/-- The names stand as they were inserted; the one has the value that replaced the others, the other
    its first value. -/
example :
    (insertAll [.first "A" 1, .first "B" 2, .last "A" 3, .first "A" 4, .first "B" 5]).entries =
      [("A", 3), ("B", 2)] := by
  decide

end ShaderTemplates.Directives
