import ShaderTemplates.FileTree.Lookup

/-!
# Where paths lead

Looking a path up is a walk over its segments (`locate_eq_ok`), and a walk can be cut in two
anywhere (`walk_append`).  Silent segments and steps up end in directories, so a walk that ends at
a file, or where there is nothing yet, ends with a step down (`walk_concat_step`).  Hence the
directory part of the path to a file leads to the directory that the file is in
(`locate_directory`), and what a path leads to inside of a directory is found below the location
of that directory (`locate_child`).
-/

namespace ShaderTemplates

namespace Path

/-- A segment that leads down, to what has this name. -/
def IsStep (segment : String) : Prop := isSilent segment = false ∧ segment ≠ ".."

theorem toString_concat (head : String) (tail : List String) (s : String) :
    Path.toString ⟨head, tail ++ [s]⟩ = Path.toString ⟨head, tail⟩ ++ "/" ++ s := by
  rw [Path.toString, Path.toString, List.foldl_append]
  rfl

end Path

namespace FileTree

open ShaderTemplates.Path

variable {t : FileTree}

-- ── Walks ────────────────────────────────────────────────────────────────────

theorem walk_append (t : FileTree) (l : Location) (a b : List String) :
    t.walk l (a ++ b) = (t.walk l a).bind fun k => t.walk k b := by
  induction a generalizing l with
  | nil => rfl
  | cons s a ih =>
      rw [List.cons_append, walk, walk]
      split
      next => rfl
      next => rfl
      next =>
        split
        next => exact ih l
        next =>
          split
          next => exact ih _
          next =>
            split
            next => rfl
            next => exact ih _

/-- A walk of two parts reaches the place between them. -/
theorem walk_append_eq_ok {l k : Location} {a b : List String} :
    t.walk l (a ++ b) = .ok k ↔ ∃ m, t.walk l a = .ok m ∧ t.walk m b = .ok k := by
  rw [walk_append]
  cases t.walk l a with
  | error e =>
      constructor
      · intro h
        cases h
      · rintro ⟨_, h, _⟩
        cases h
  | ok m =>
      constructor
      · intro h
        exact ⟨m, rfl, h⟩
      · rintro ⟨_, heq, h⟩
        cases heq
        exact h

/-- Silent segments stay in a directory. -/
theorem walk_silent {l : Location} (hl : t.get? l = some .directory) {segments : List String}
    (h : ∀ s ∈ segments, isSilent s = true) : t.walk l segments = .ok l := by
  induction segments with
  | nil => rfl
  | cons s segments ih =>
      rw [walk, hl]
      show (if isSilent s = true then t.walk l segments else _) = _
      rw [if_pos (h s List.mem_cons_self)]
      exact ih fun s' hs' => h s' (List.mem_cons_of_mem _ hs')

theorem eq_of_walk_silent {l k : Location} {segments : List String}
    (h : ∀ s ∈ segments, isSilent s = true) (hwalk : t.walk l segments = .ok k) : k = l := by
  induction segments with
  | nil =>
      cases hwalk
      rfl
  | cons s segments ih =>
      rw [walk] at hwalk
      split at hwalk
      next => cases hwalk
      next => cases hwalk
      next =>
        rw [if_pos (h s List.mem_cons_self)] at hwalk
        exact ih (fun s' hs' => h s' (List.mem_cons_of_mem _ hs')) hwalk

/-- The directory above a directory. -/
theorem get?_dropLast {l : Location} (h : t.get? l = some .directory) :
    t.get? l.dropLast = some .directory := by
  rcases List.eq_nil_or_concat l with rfl | ⟨m, name, rfl⟩
  · exact h
  · rw [List.concat_eq_append] at h ⊢
    rw [List.dropLast_concat]
    exact directory_of_entry h

/-- A single segment is walked from a directory, and leads to a directory or one step down. -/
theorem walk_single {l k : Location} {s : String} (h : t.walk l [s] = .ok k) :
    t.get? l = some .directory ∧
      (¬ IsStep s ∧ t.get? k = some .directory ∨
        IsStep s ∧ isLongName s = false ∧ k = l ++ [s]) := by
  rw [walk] at h
  split at h
  next => cases h
  next => cases h
  next hl =>
    refine ⟨hl, ?_⟩
    split at h
    next hsilent =>
      cases h
      exact .inl ⟨fun hs => absurd hsilent (by rw [hs.1]; exact Bool.false_ne_true), hl⟩
    next hsilent =>
      split at h
      next hup =>
        cases h
        exact .inl ⟨fun hs => hs.2 hup, get?_dropLast hl⟩
      next hup =>
        split at h
        next => cases h
        next hlong =>
          cases h
          exact .inr ⟨⟨Bool.eq_false_iff.mpr hsilent, hup⟩, Bool.eq_false_iff.mpr hlong, rfl⟩

/-- A walk that does not end in a directory ends with a step down. -/
theorem walk_concat_step {l k : Location} (segments : List String) {s : String}
    (h : t.walk l (segments ++ [s]) = .ok k) (hk : t.get? k ≠ some .directory) :
    IsStep s ∧ ∃ m, t.walk l segments = .ok m ∧ t.get? m = some .directory ∧ k = m ++ [s] := by
  obtain ⟨m, hm, hlast⟩ := walk_append_eq_ok.mp h
  obtain ⟨hdir, ⟨-, hk'⟩ | ⟨hs, -, hk'⟩⟩ := walk_single hlast
  · exact absurd hk' hk
  · exact ⟨hs, m, hm, hdir, hk'⟩

-- ── Paths ────────────────────────────────────────────────────────────────────

/-- Where the walk of a path starts. -/
def startOf (t : FileTree) (p : Path) : Location := if p.isRooted then [] else t.process.current

theorem locate_eq_ok {p : Path} {l : Location} :
    t.locate p = .ok l ↔ p ≠ .empty ∧ isLongPath p = false ∧ hasZero p = false ∧
      t.walk (t.startOf p) (p.head :: p.tail) = .ok l := by
  rw [locate]
  by_cases hempty : p = .empty
  · rw [if_pos hempty]
    constructor
    · intro h
      cases h
    · intro h
      exact absurd hempty h.1
  · rw [if_neg hempty]
    cases hlong : isLongPath p with
    | true =>
        constructor
        · intro h
          cases h
        · intro h
          cases h.2.1
    | false =>
        cases hzero : hasZero p with
        | true =>
            constructor
            · intro h
              cases h
            · intro h
              cases h.2.2.1
        | false =>
            rw [if_neg (by decide)]
            dsimp only
            rw [← startOf]
            split
            next hd =>
              rw [walk_of_descend? hd]
              constructor
              · intro h
                exact ⟨hempty, rfl, rfl, h⟩
              · intro h
                exact h.2.2.2
            next =>
              constructor
              · intro h
                exact ⟨hempty, rfl, rfl, h⟩
              · intro h
                exact h.2.2.2

/-- A path with more segments is no shorter. -/
theorem toString_le (head : String) (front back : List String) :
    (Path.toString ⟨head, front⟩).utf8ByteSize ≤
      (Path.toString ⟨head, front ++ back⟩).utf8ByteSize := by
  induction back generalizing front with
  | nil => exact Nat.le_of_eq (by rw [List.append_nil])
  | cons s back ih =>
      have hlonger := ih (front ++ [s])
      rw [toString_concat, String.utf8ByteSize_append, String.utf8ByteSize_append,
        List.append_assoc, List.singleton_append] at hlonger
      omega

/-- What is true of the lengths of the segments of a path is true of its beginnings. -/
theorem isLongPath_front {head : String} {front back : List String}
    (h : isLongPath ⟨head, front ++ back⟩ = false) : isLongPath ⟨head, front⟩ = false := by
  have hlonger := toString_le head front back
  simp only [isLongPath, decide_eq_false_iff_not, Nat.not_lt] at h ⊢
  omega

theorem hasZero_front {head : String} {front back : List String}
    (h : hasZero ⟨head, front ++ back⟩ = false) : hasZero ⟨head, front⟩ = false := by
  simp only [hasZero, List.any_cons, List.any_append, Bool.or_eq_false_iff] at h ⊢
  exact ⟨h.1, h.2.1⟩

/-- The walk of a path starts where the walk of its beginning starts. -/
theorem startOf_append {head : String} {front back : List String}
    (h : ¬ (head = "" ∧ front = [])) :
    t.startOf ⟨head, front ++ back⟩ = t.startOf ⟨head, front⟩ := by
  have hroot : Path.isRooted ⟨head, front ++ back⟩ = Path.isRooted ⟨head, front⟩ := by
    cases front with
    | cons s front => rfl
    | nil =>
        have hhead : head ≠ "" := fun heq => h ⟨heq, rfl⟩
        simp [Path.isRooted, hhead]
  rw [startOf, startOf, hroot]

/-- A path leads through where its beginnings lead. -/
theorem locate_cut {head : String} {front back : List String} {l : Location}
    (hfront : ¬ (head = "" ∧ front = [])) (h : t.locate ⟨head, front ++ back⟩ = .ok l) :
    ∃ m, t.locate ⟨head, front⟩ = .ok m ∧ t.walk m back = .ok l := by
  obtain ⟨-, hlong, hzero, hwalk⟩ := locate_eq_ok.mp h
  rw [← List.cons_append, walk_append_eq_ok] at hwalk
  obtain ⟨m, hm, hback⟩ := hwalk
  refine ⟨m, locate_eq_ok.mpr ⟨?_, isLongPath_front hlong, hasZero_front hzero, ?_⟩, hback⟩
  · intro heq
    obtain ⟨rfl, rfl⟩ := Path.mk.inj heq
    exact hfront ⟨rfl, rfl⟩
  · rw [← startOf_append hfront]
    exact hm

-- ── The directory of a file ──────────────────────────────────────────────────

theorem directory_single {head : String} : Path.directory ⟨head, []⟩ = .here := by
  by_cases h : head.isEmpty = true <;> simp [Path.directory, Path.parent?, Path.parents,
    Path.tailsAbove, h]

/-- The directory part of a path ends before the last step and the silent segments at its end. -/
theorem directory_concat {head s : String} {front silent : List String}
    (hs : isSilent s = false) (hfront : ∀ s, front.getLast? = some s → isSilent s = false)
    (hsilent : ∀ s ∈ silent, isSilent s = true) :
    Path.directory ⟨head, front ++ silent ++ [s]⟩ =
      if head = "" ∧ front = [] then ⟨"", [""]⟩ else ⟨head, front⟩ := by
  have hdrop : ((front ++ silent).reverse.dropWhile isSilent).reverse = front := by
    rw [List.reverse_append, List.dropWhile_append_of_pos fun s hs =>
      hsilent s (List.mem_reverse.mp hs)]
    rcases List.eq_nil_or_concat front with rfl | ⟨front, last, rfl⟩
    · rfl
    · rw [List.concat_eq_append] at hfront ⊢
      have hlast := hfront last List.getLast?_concat
      rw [List.reverse_append, List.reverse_singleton, List.singleton_append,
        List.dropWhile_cons_of_neg (by rw [hlast]; exact Bool.false_ne_true), List.reverse_cons,
        List.reverse_reverse]
  have hparent : Path.parent? ⟨head, front ++ silent ++ [s]⟩ =
      some (Path.withTail ⟨head, front ++ silent ++ [s]⟩ front) := by
    have hreverse : (front ++ silent ++ [s]).reverse = s :: (front ++ silent).reverse := by simp
    rw [Path.parent?, Path.parents]
    show (List.map _ (Path.tailsAbove (front ++ silent ++ [s]).reverse) ++ _).head? = _
    rw [hreverse, Path.tailsAbove, if_neg (by rw [hs]; exact Bool.false_ne_true), List.map_cons,
      List.cons_append, List.head?_cons, hdrop]
  rw [Path.directory, hparent, Path.withTail]
  have hrooted : Path.isRooted ⟨head, front ++ silent ++ [s]⟩ = head.isEmpty := by
    simp [Path.isRooted]
  rw [hrooted]
  by_cases h : head = "" ∧ front = []
  · obtain ⟨rfl, rfl⟩ := h
    rfl
  · have hne : Path.mk head front ≠ .empty := by
      intro heq
      exact h ⟨(Path.mk.inj heq).1, (Path.mk.inj heq).2⟩
    rw [if_neg h, if_neg (by simpa using h)]
    exact if_neg hne

theorem exists_silent_end (segments : List String) :
    ∃ front silent, segments = front ++ silent ∧
      (∀ s, front.getLast? = some s → isSilent s = false) ∧ ∀ s ∈ silent, isSilent s = true := by
  induction segments with
  | nil => exact ⟨[], [], rfl, by simp, by simp⟩
  | cons s segments ih =>
      obtain ⟨front, silent, rfl, hfront, hsilent⟩ := ih
      cases front with
      | cons s' front =>
          refine ⟨s :: s' :: front, silent, rfl, ?_, hsilent⟩
          rwa [List.getLast?_cons_cons]
      | nil =>
          cases hs : isSilent s with
          | true =>
              refine ⟨[], s :: silent, rfl, by simp, ?_⟩
              rintro s' (_ | ⟨_, hs'⟩)
              · exact hs
              · exact hsilent s' hs'
          | false =>
              refine ⟨[s], silent, rfl, ?_, hsilent⟩
              rintro s' hs'
              cases hs'
              exact hs

/-- A path to a file, or to where one can be made, leads one step down from its directory. -/
theorem locate_directory {p : Path} {l : Location} (h : t.locate p = .ok l)
    (hl : t.get? l ≠ some .directory) :
    ∃ m name, IsStep name ∧ l = m ++ [name] ∧ t.locate p.directory = .ok m ∧
      t.get? m = some .directory := by
  obtain ⟨head, tail⟩ := p
  have hwalk := (locate_eq_ok.mp h).2.2.2
  rcases List.eq_nil_or_concat tail with rfl | ⟨before, s, rfl⟩
  · obtain ⟨hs, m, hm, hdir, rfl⟩ := walk_concat_step [] hwalk hl
    have hcurrent : t.process.current = m := by
      have hroot : Path.isRooted ⟨head, []⟩ = false := by simp [Path.isRooted]
      rw [startOf, hroot] at hm
      exact Except.ok.inj hm
    refine ⟨m, head, hs, rfl, ?_, hdir⟩
    rw [directory_single]
    refine locate_eq_ok.mpr ⟨by decide, by decide, by decide, ?_⟩
    show t.walk t.process.current ["."] = _
    rw [hcurrent]
    exact walk_silent hdir (by decide)
  · rw [List.concat_eq_append] at h hwalk ⊢
    obtain ⟨hs, m, hm, hdir, rfl⟩ := walk_concat_step (head :: before) hwalk hl
    refine ⟨m, s, hs, rfl, ?_, hdir⟩
    obtain ⟨front, silent, rfl, hfront, hsilent⟩ := exists_silent_end before
    rw [directory_concat hs.1 hfront hsilent]
    split
    next hroot =>
      obtain ⟨rfl, rfl⟩ := hroot
      have hstart : t.startOf ⟨"", [] ++ silent ++ [s]⟩ = [] := by simp [startOf, Path.isRooted]
      rw [hstart] at hm
      obtain rfl : m = [] := eq_of_walk_silent (by simpa [isSilent] using hsilent) hm
      refine locate_eq_ok.mpr ⟨by decide, by decide, by decide, ?_⟩
      exact walk_silent hdir (by decide)
    next hroot =>
      rw [List.append_assoc] at h
      obtain ⟨k, hk, hrest⟩ := locate_cut hroot h
      obtain ⟨k', hk', hlast⟩ := walk_append_eq_ok.mp hrest
      obtain rfl : k' = k := eq_of_walk_silent hsilent hk'
      obtain ⟨-, m', hm', -, heq⟩ := walk_concat_step [] hlast hl
      cases hm'
      rw [hk, (List.append_inj' heq rfl).1]

-- ── Inside a directory ───────────────────────────────────────────────────────

/-- A slash at the end of a directory is the one before the name inside of it. -/
theorem child_eq {head : String} {tail : List String} (name : String) (hp : Path.mk head tail ≠ .empty) :
    ∃ front silent, tail = front ++ silent ∧ (silent = [] ∨ silent = [""]) ∧
      Path.child ⟨head, tail⟩ name = ⟨head, front ++ [name]⟩ := by
  rw [Path.child, Path.join, if_neg (by simp [Path.isRooted]), if_neg hp]
  split
  next hlast =>
    rcases List.eq_nil_or_concat tail with rfl | ⟨front, s, rfl⟩
    · cases hlast
    · rw [List.concat_eq_append] at hlast ⊢
      dsimp only at hlast ⊢
      rw [List.getLast?_concat] at hlast
      cases hlast
      exact ⟨front, [""], rfl, .inr rfl, by rw [List.dropLast_concat]⟩
  next => exact ⟨tail, [], (List.append_nil tail).symm, .inl rfl, rfl⟩

theorem isSilent_of_slash {silent : List String} (h : silent = [] ∨ silent = [""]) :
    ∀ s ∈ silent, isSilent s = true := by
  rcases h with rfl | rfl <;> decide

theorem isLongPath_of_child {head name : String} {front silent : List String}
    (hsilent : silent = [] ∨ silent = [""])
    (h : isLongPath ⟨head, front ++ [name]⟩ = false) :
    isLongPath ⟨head, front ++ silent⟩ = false := by
  rcases hsilent with rfl | rfl
  · rw [List.append_nil]
    exact isLongPath_front h
  · have hempty : "".utf8ByteSize = 0 := rfl
    simp only [isLongPath, toString_concat, String.utf8ByteSize_append, decide_eq_false_iff_not,
      Nat.not_lt] at h ⊢
    omega

theorem hasZero_of_child {head name : String} {front silent : List String}
    (hsilent : silent = [] ∨ silent = [""]) (h : hasZero ⟨head, front ++ [name]⟩ = false) :
    hasZero ⟨head, front ++ silent⟩ = false := by
  simp only [hasZero, List.any_cons, List.any_append, Bool.or_eq_false_iff] at h ⊢
  refine ⟨h.1, h.2.1, ?_⟩
  rcases hsilent with rfl | rfl <;> decide

theorem startOf_child {head name : String} {front silent : List String}
    (hp : Path.mk head (front ++ silent) ≠ .empty) :
    t.startOf ⟨head, front ++ silent⟩ = t.startOf ⟨head, front ++ [name]⟩ := by
  have hroot : Path.isRooted ⟨head, front ++ silent⟩ = Path.isRooted ⟨head, front ++ [name]⟩ := by
    cases hhead : head.isEmpty with
    | false => rw [Path.isRooted, Path.isRooted, hhead, Bool.false_and, Bool.false_and]
    | true =>
        have hne : front ++ silent ≠ [] := by
          intro hnil
          rw [hnil, String.isEmpty_iff.mp hhead] at hp
          exact hp rfl
        simp only [Path.isRooted, hhead, Bool.true_and]
        rw [List.isEmpty_eq_false_iff.mpr hne, List.isEmpty_eq_false_iff.mpr (by simp)]
  rw [startOf, startOf, hroot]

/-- What is no directory is found inside of a directory by a step down. -/
theorem isStep_of_locate_child {p : Path} {name : String} {l : Location} (hp : p ≠ .empty)
    (h : t.locate (p.child name) = .ok l) (hl : t.get? l ≠ some .directory) : IsStep name := by
  obtain ⟨head, tail⟩ := p
  obtain ⟨front, silent, rfl, -, hchild⟩ := child_eq name hp
  rw [hchild] at h
  exact (walk_concat_step (head :: front) (locate_eq_ok.mp h).2.2.2 hl).1

/-- What a path leads to inside of a directory is one step below the directory. -/
theorem locate_child {p : Path} {name : String} {l : Location} (hp : p ≠ .empty)
    (hname : IsStep name) (h : t.locate (p.child name) = .ok l) :
    ∃ m, t.locate p = .ok m ∧ t.get? m = some .directory ∧ l = m ++ [name] := by
  obtain ⟨head, tail⟩ := p
  obtain ⟨front, silent, rfl, hsilent, hchild⟩ := child_eq name hp
  rw [hchild] at h
  obtain ⟨-, hlong, hzero, hwalk⟩ := locate_eq_ok.mp h
  rw [← List.cons_append, walk_append_eq_ok] at hwalk
  obtain ⟨m, hm, hlast⟩ := hwalk
  obtain ⟨hdir, ⟨hno, -⟩ | ⟨-, -, hl⟩⟩ := walk_single hlast
  · exact absurd hname hno
  refine ⟨m, locate_eq_ok.mpr ⟨hp, isLongPath_of_child hsilent hlong,
    hasZero_of_child hsilent hzero, ?_⟩, hdir, hl⟩
  rw [startOf_child hp, ← List.cons_append, walk_append, hm]
  exact walk_silent hdir (isSilent_of_slash hsilent)

end FileTree

end ShaderTemplates
