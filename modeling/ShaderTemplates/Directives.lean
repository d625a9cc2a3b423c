/-!
# Directive maps

What a template says about its directives is kept per name, in the order in which the names first
appear, and no name is there twice. A name that appears again is handled in one of two ways:
`insertFirst` keeps the value it has, `insertLast` replaces the value where it stands.
-/

namespace ShaderTemplates

/-- A map from names to values that remembers the order of first insertion. -/
@[ext] structure Directives (α : Type) where
  entries : List (String × α)
  nodup : (entries.map (·.1)).Nodup

namespace Directives

variable {α : Type}

/-- The map without names. -/
def empty : Directives α := ⟨[], .nil⟩

instance : EmptyCollection (Directives α) := ⟨empty⟩

instance : Inhabited (Directives α) := ⟨empty⟩

instance [DecidableEq α] : DecidableEq (Directives α) := fun d e =>
  decidable_of_iff (d.entries = e.entries) Directives.ext_iff.symm

instance [Repr α] : Repr (Directives α) := ⟨fun d n => reprPrec d.entries n⟩

/-- The value stored for a name. -/
def get? (d : Directives α) (name : String) : Option α := d.entries.lookup name

def contains (d : Directives α) (name : String) : Bool := d.entries.any (·.1 == name)

/-- The names in order of first insertion. -/
def names (d : Directives α) : List String := d.entries.map (·.1)

def size (d : Directives α) : Nat := d.entries.length

def isEmpty (d : Directives α) : Bool := d.entries.isEmpty

theorem contains_iff (d : Directives α) (name : String) :
    d.contains name = true ↔ name ∈ d.names := by
  simp [contains, names]

theorem nodup_concat {l : List (String × α)} (h : (l.map (·.1)).Nodup) {name : String}
    (hname : name ∉ l.map (·.1)) (value : α) : ((l ++ [(name, value)]).map (·.1)).Nodup := by
  rw [List.map_append]
  refine List.nodup_append.mpr ⟨h, by simp, ?_⟩
  rintro a ha b hb rfl
  obtain rfl : a = name := List.mem_singleton.mp hb
  exact hname ha

/-- Adds a name at the end; a name that is there keeps its value. -/
def insertFirst (d : Directives α) (name : String) (value : α) : Directives α :=
  if h : d.contains name then d
  else ⟨d.entries ++ [(name, value)], nodup_concat d.nodup (h ∘ (d.contains_iff name).mpr) value⟩

/-- What `insertFirst` does, and whether it added the name. -/
def addFirst (d : Directives α) (name : String) (value : α) : Directives α × Bool :=
  if h : d.contains name then (d, false)
  else (⟨d.entries ++ [(name, value)],
    nodup_concat d.nodup (h ∘ (d.contains_iff name).mpr) value⟩, true)

theorem addFirst_eq (d : Directives α) (name : String) (value : α) :
    d.addFirst name value = (d.insertFirst name value, !d.contains name) := by
  rw [addFirst, insertFirst]
  split
  · next h => rw [h]; rfl
  · next h => rw [Bool.not_eq_true] at h; rw [h]; rfl

/-- Replaces the value at the first entry for a name, or adds the name at the end. -/
def replaceOrAppend (name : String) (value : α) : List (String × α) → List (String × α)
  | [] => [(name, value)]
  | e :: rest => if e.1 = name then (name, value) :: rest else e :: replaceOrAppend name value rest

theorem map_fst_replaceOrAppend (name : String) (value : α) (l : List (String × α)) :
    (replaceOrAppend name value l).map (·.1) =
      if name ∈ l.map (·.1) then l.map (·.1) else l.map (·.1) ++ [name] := by
  induction l with
  | nil => rfl
  | cons e l ih =>
      rw [replaceOrAppend]
      by_cases he : e.1 = name
      · rw [if_pos he, if_pos (by simp [he])]
        simp [he]
      · rw [if_neg he, List.map_cons, ih]
        by_cases h : name ∈ l.map (·.1)
        · have hcons : name ∈ (e :: l).map (·.1) := List.mem_cons_of_mem _ h
          rw [if_pos h, if_pos hcons]
          rfl
        · have hcons : name ∉ (e :: l).map (·.1) := by
            rw [List.map_cons, List.mem_cons]
            rintro (hm | hm)
            · exact he hm.symm
            · exact h hm
          rw [if_neg h, if_neg hcons]
          rfl

theorem nodup_replaceOrAppend {l : List (String × α)} (h : (l.map (·.1)).Nodup) (name : String)
    (value : α) : ((replaceOrAppend name value l).map (·.1)).Nodup := by
  rw [map_fst_replaceOrAppend]
  split
  · exact h
  · next hname =>
      have hnew := nodup_concat h hname value
      rwa [List.map_append] at hnew

/-- Stores a value for a name; a name that is there keeps its position. -/
def insertLast (d : Directives α) (name : String) (value : α) : Directives α :=
  ⟨replaceOrAppend name value d.entries, nodup_replaceOrAppend d.nodup name value⟩

/-- The map that results from inserting a list of pairs, the first value of a name counting. -/
def ofListFirst (pairs : List (String × α)) : Directives α :=
  pairs.foldl (fun d e => d.insertFirst e.1 e.2) ∅

/-- The map that results from inserting a list of pairs, the last value of a name counting. -/
def ofListLast (pairs : List (String × α)) : Directives α :=
  pairs.foldl (fun d e => d.insertLast e.1 e.2) ∅

end Directives

end ShaderTemplates
