import Mathlib.Data.List.Induction
import ShaderTemplates.Proofs.Catalogs
import ShaderTemplates.Proofs.Tables

/-!
# What is below a directory

Everything below a directory is listed once and in the order of the names that lead there
(`mem_descendants_iff`, `pairwise_descendants`); the entries of the directory itself are those with
a single name (`mem_list_iff`).

A walk starts with the entries of a directory and goes on from each directory that is not left out.
It comes to what is below the directory with no left out directory on the way (`visits_iff`).
-/

namespace ShaderTemplates

/-- A name that a directory can have for an entry. -/
def IsEntryName (name : String) : Prop :=
  Path.IsStep name ∧ '/' ∉ name.toList ∧ '\x00' ∉ name.toList ∧
    FileTree.isLongName name = false

instance (name : String) : Decidable (IsEntryName name) :=
  inferInstanceAs (Decidable ((_ ∧ _) ∧ _ ∧ _ ∧ _))

theorem lt_of_append_lt {l a b : List String} (h : l ++ a < l ++ b) : a < b := by
  induction l with
  | nil => exact h
  | cons name l ih =>
      rw [List.cons_append, List.cons_append, List.cons_lt_cons_iff] at h
      rcases h with hlt | ⟨-, hlt⟩
      · exact absurd hlt (String.lt_irrefl name)
      · exact ih hlt

/-- Each segment behind the first one has a slash in front of it. -/
theorem Path.utf8ByteSize_toString (p : Path) :
    p.toString.utf8ByteSize =
      p.tail.foldl (fun size segment => size + 1 + segment.utf8ByteSize) p.head.utf8ByteSize := by
  obtain ⟨head, tail⟩ := p
  show (tail.foldl (fun text segment => text ++ "/" ++ segment) head).utf8ByteSize = _
  induction tail generalizing head with
  | nil => rfl
  | cons segment rest ih =>
      have hslash : "/".utf8ByteSize = 1 := rfl
      rw [List.foldl_cons, ih, String.utf8ByteSize_append, String.utf8ByteSize_append, hslash]
      rfl

namespace FileTree

variable {t : FileTree} {l : Location} {names : List String} {name : String} {e : Entry}

theorem isLongPath_iff {p : Path} : isLongPath p = true ↔
    4095 <
      p.tail.foldl (fun size segment => size + 1 + segment.utf8ByteSize) p.head.utf8ByteSize := by
  rw [isLongPath, decide_eq_true_eq, Path.utf8ByteSize_toString]

-- ── Listings ─────────────────────────────────────────────────────────────────

theorem mem_entries_iff : (l, e) ∈ t.entries.entries ↔ t.entries.get? l = some e :=
  ⟨fun h => SortedMap.lookup_of_mem t.entries.nodup_keys h, SortedMap.mem_of_lookup⟩

/-- Everything below a location is listed. -/
theorem mem_descendants_iff :
    (names, e) ∈ t.descendants l ↔ names ≠ [] ∧ t.get? (l ++ names) = some e := by
  rw [descendants, List.mem_filterMap]
  constructor
  · rintro ⟨⟨k, e'⟩, hmem, hbelow⟩
    obtain ⟨names', hnames, heq⟩ := Option.map_eq_some_iff.mp hbelow
    obtain ⟨rfl, rfl⟩ := Prod.mk.inj heq
    obtain ⟨hne, rfl⟩ := below?_eq_some.mp hnames
    refine ⟨hne, ?_⟩
    rw [get?, if_neg (by simp [hne])]
    exact mem_entries_iff.mp hmem
  · rintro ⟨hne, hget⟩
    rw [get?, if_neg (by simp [hne])] at hget
    refine ⟨(l ++ names, e), mem_entries_iff.mpr hget, ?_⟩
    rw [below?_eq_some.mpr ⟨hne, rfl⟩, Option.map_some]

/-- The names on the way are listed in ascending order. -/
theorem pairwise_descendants (t : FileTree) (l : Location) :
    (t.descendants l).Pairwise fun a b => a.1 < b.1 := by
  refine t.entries.sorted.filterMap _ fun a b hbelow x hx y hy => ?_
  obtain ⟨names, hnames, rfl⟩ := Option.map_eq_some_iff.mp hx
  obtain ⟨others, hothers, rfl⟩ := Option.map_eq_some_iff.mp hy
  have hlt : a.1 < b.1 := hbelow
  rw [(below?_eq_some.mp hnames).2, (below?_eq_some.mp hothers).2] at hlt
  exact lt_of_append_lt hlt

/-- The entries of a directory are listed by their names. -/
theorem mem_list_iff : (name, e) ∈ t.list l ↔ t.get? (l ++ [name]) = some e := by
  rw [list, List.mem_filterMap]
  constructor
  · rintro ⟨⟨names, e'⟩, hmem, hsingle⟩
    have hget := (mem_descendants_iff.mp hmem).2
    dsimp only at hsingle
    split at hsingle
    next => cases hsingle; exact hget
    next => cases hsingle
  · intro hget
    exact ⟨([name], e), mem_descendants_iff.mpr ⟨List.cons_ne_nil name [], hget⟩, rfl⟩

/-- Every name below the location is one that a directory can have for an entry. -/
def NamesBelow (t : FileTree) (l : Location) : Prop :=
  ∀ e ∈ t.descendants l, ∀ name ∈ e.1, IsEntryName name

instance (t : FileTree) (l : Location) : Decidable (t.NamesBelow l) :=
  inferInstanceAs (Decidable (∀ e ∈ t.descendants l, ∀ name ∈ e.1, IsEntryName name))

theorem NamesBelow.isEntryName (h : t.NamesBelow l) (hget : t.get? (l ++ names) = some e) :
    ∀ name ∈ names, IsEntryName name := by
  intro name hname
  have hne : names ≠ [] := fun hnil => List.not_mem_nil (hnil ▸ hname)
  exact h (names, e) (mem_descendants_iff.mpr ⟨hne, hget⟩) name hname

-- ── Walks through a tree ─────────────────────────────────────────────────────

/-- What a walk comes to that starts in the directory at a location and goes on from each directory
    that is not left out. -/
inductive Visits (t : FileTree) (l : Location) (leftOut : List String → Prop) :
    List String → Entry → Prop where
  | start {name : String} {e : Entry} (h : t.get? (l ++ [name]) = some e) :
      Visits t l leftOut [name] e
  | onward {names : List String} {name : String} {e : Entry}
      (hdir : Visits t l leftOut names .directory) (hin : ¬ leftOut names)
      (h : t.get? (l ++ (names ++ [name])) = some e) : Visits t l leftOut (names ++ [name]) e

/-- The directories on the way to the names, from the first one on, are not left out. -/
def IsOpen (leftOut : List String → Prop) (names : List String) : Prop :=
  ∀ front, front ≠ [] → front <+: names → ¬ leftOut front

theorem isOpen_nil (leftOut : List String → Prop) : IsOpen leftOut [] :=
  fun _ hne hfront => absurd (List.prefix_nil.mp hfront) hne

theorem isOpen_concat {leftOut : List String → Prop} :
    IsOpen leftOut (names ++ [name]) ↔ IsOpen leftOut names ∧ ¬ leftOut (names ++ [name]) := by
  constructor
  · intro h
    refine ⟨fun front hne hfront => h front hne (hfront.trans (List.prefix_append _ _)), ?_⟩
    exact h _ (by simp) List.prefix_rfl
  · rintro ⟨h, hlast⟩ front hne hfront
    rcases List.prefix_concat_iff.mp hfront with rfl | hfront
    · exact hlast
    · exact h front hne hfront

theorem Visits.get? {leftOut : List String → Prop} (h : t.Visits l leftOut names e) :
    names ≠ [] ∧ t.get? (l ++ names) = some e := by
  cases h with
  | start h => exact ⟨List.cons_ne_nil _ _, h⟩
  | onward _ _ h => exact ⟨by simp, h⟩

/-- A walk comes to an entry if no directory on the way is left out. -/
theorem visits_iff {leftOut : List String → Prop} :
    t.Visits l leftOut (names ++ [name]) e ↔
      t.get? (l ++ (names ++ [name])) = some e ∧ IsOpen leftOut names := by
  -- A walk grows at its end, so the induction is on the directories on the way from the last one.
  induction names using List.reverseRecOn generalizing name e with
  | nil =>
      constructor
      · intro h
        exact ⟨h.get?.2, isOpen_nil leftOut⟩
      · rintro ⟨h, -⟩
        exact .start h
  | append_singleton names last ih =>
      constructor
      · intro h
        generalize hnames : names ++ [last] ++ [name] = all at h
        cases h with
        | start h => simpa using congrArg List.length hnames
        | onward hdir hin h =>
            obtain ⟨rfl, hname⟩ := List.append_inj' hnames rfl
            exact ⟨h, isOpen_concat.mpr ⟨(ih.mp hdir).2, hin⟩⟩
      · rintro ⟨h, hopen⟩
        obtain ⟨hfront, hlast⟩ := isOpen_concat.mp hopen
        rw [← List.append_assoc] at h
        have hdir : t.get? (l ++ (names ++ [last])) = some .directory := directory_of_entry h
        rw [List.append_assoc] at h
        exact .onward (ih.mpr ⟨hdir, hfront⟩) hlast h

end FileTree

end ShaderTemplates
