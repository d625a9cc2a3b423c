import Mathlib.Data.List.Induction
import ShaderTemplates.Proofs.ForeignFiles

/-!
# Directories made on the way down

`makeDirectories` starts with the last directory of a path, works its way up to one that can be
made, and comes down again.  What it leaves is what a single way down leaves that makes every
directory it misses (`grow`): this goes on until a file is in the way or a name is too long
(`makeDirectories_grow`).  On the way down it is plain what is made and what stops it, so this is
how trees are compared in which directories were made.
-/

namespace ShaderTemplates.FileTree

open ShaderTemplates.Path

variable {t u v : FileTree} {m : Location}

-- ── The way down ─────────────────────────────────────────────────────────────

/-- Goes down from a directory along names and makes the directories that are missing; the tree
    where this ends, and whether it got to the end of the names. -/
def grow (t : FileTree) (m : Location) : List String → FileTree × Bool
  | [] => (t, true)
  | name :: rest =>
    if isLongName name then (t, false)
    else
      match t.get? (m ++ [name]) with
      | some .directory => t.grow (m ++ [name]) rest
      | some (.file _) => (t, false)
      | none =>
        match t.addDirectory? m name with
        | some made => made.grow (m ++ [name]) rest
        | none => (t, false)

/-- There is a directory at the location now, where there was one or nothing before. -/
structure Opens (t u : FileTree) (l : Location) : Prop where
  process : u.process = t.process
  free : t.file? l = none
  directory : u.get? l = some .directory
  entries : ∀ k, k ≠ l → u.entries.get? k = t.entries.get? k

theorem Opens.keeps {l : Location} (h : t.Opens u l) : t.Keeps u := by
  refine ⟨h.process, ?_⟩
  intro k hk
  by_cases hkl : k = l
  · rw [hkl, h.directory]
  · rwa [get?, h.entries k hkl, ← get?]

theorem grow_long {name : String} (h : isLongName name = true) (rest : List String) :
    t.grow m (name :: rest) = (t, false) := by
  rw [grow, if_pos h]

theorem grow_file {name : String} {content : Content}
    (h : t.get? (m ++ [name]) = some (.file content)) (rest : List String) :
    t.grow m (name :: rest) = (t, false) := by
  rw [grow, h]
  split <;> rfl

theorem grow_directory {name : String} (hlong : isLongName name = false)
    (h : t.get? (m ++ [name]) = some .directory) (rest : List String) :
    t.grow m (name :: rest) = t.grow (m ++ [name]) rest := by
  rw [grow, h, if_neg (by rw [hlong]; exact Bool.false_ne_true)]

/-- Where no file is in the way, the way goes on from a directory. -/
theorem grow_step (hm : t.get? m = some .directory) {name : String}
    (hlong : isLongName name = false) (hfree : t.file? (m ++ [name]) = none) (rest : List String) :
    ∃ u, t.Opens u (m ++ [name]) ∧ t.grow m (name :: rest) = u.grow (m ++ [name]) rest := by
  cases hget : t.get? (m ++ [name]) with
  | some e =>
      cases e with
      | directory => exact ⟨t, ⟨rfl, hfree, hget, fun _ _ => rfl⟩, grow_directory hlong hget rest⟩
      | file content =>
          rw [file?_eq_some.mpr hget] at hfree
          cases hfree
  | none =>
      have hentry : t.entries.get? (m ++ [name]) = none := by
        rwa [get?, if_neg (by simp)] at hget
      have hadd : ∃ u, t.addDirectory? m name = some u := ⟨_, dif_pos ⟨hm, hentry⟩⟩
      obtain ⟨u, hu⟩ := hadd
      refine ⟨u, ⟨(process_of_addDirectory? hu).1, hfree, ?_, ?_⟩, ?_⟩
      · rw [get?_addDirectory? hu, if_pos rfl]
      · intro k hk
        rw [addDirectory?, dif_pos ⟨hm, hentry⟩] at hu
        cases hu
        exact SortedMap.get?_insert_of_ne _ hk _
      · rw [grow, hget, if_neg (by rw [hlong]; exact Bool.false_ne_true), hu]

/-- A step that does not fail at once goes on from a directory. -/
theorem grow_cons (hm : t.get? m = some .directory) (name : String) (rest : List String) :
    t.grow m (name :: rest) = (t, false) ∨
      isLongName name = false ∧
        ∃ u, t.Opens u (m ++ [name]) ∧ t.grow m (name :: rest) = u.grow (m ++ [name]) rest := by
  cases hlong : isLongName name with
  | true => exact .inl (grow_long hlong rest)
  | false =>
      cases hfile : t.file? (m ++ [name]) with
      | some content => exact .inl (grow_file (file?_eq_some.mp hfile) rest)
      | none => exact .inr ⟨rfl, grow_step hm hlong hfile rest⟩

theorem keeps_grow (hm : t.get? m = some .directory) (names : List String) :
    t.Keeps (t.grow m names).1 := by
  induction names generalizing t m with
  | nil => exact .refl t
  | cons name rest ih =>
      rcases grow_cons hm name rest with hstop | ⟨-, u, hopens, hgrow⟩
      · rw [hstop]
        exact .refl t
      · rw [hgrow]
        exact hopens.keeps.trans (ih hopens.directory)

theorem grow_append (t : FileTree) (m : Location) (a b : List String) :
    t.grow m (a ++ b) =
      if (t.grow m a).2 then (t.grow m a).1.grow (m ++ a) b else ((t.grow m a).1, false) := by
  induction a generalizing t m with
  | nil => simp [grow]
  | cons name a ih =>
      have hassoc : m ++ name :: a = m ++ [name] ++ a := by simp
      rw [List.cons_append, grow, grow, hassoc]
      split
      next => rfl
      next =>
        split
        next => exact ih _ _
        next => rfl
        next =>
          split
          next => exact ih _ _
          next => rfl

-- ── Walking down ─────────────────────────────────────────────────────────────

theorem walk_step (hm : t.get? m = some .directory) {name : String} (hname : IsStep name)
    (hlong : isLongName name = false) (rest : List String) :
    t.walk m (name :: rest) = t.walk (m ++ [name]) rest := by
  rw [walk, hm]
  dsimp only
  rw [if_neg (by rw [hname.1]; exact Bool.false_ne_true), if_neg hname.2,
    if_neg (by rw [hlong]; exact Bool.false_ne_true)]

theorem walk_long (hm : t.get? m = some .directory) {name : String} (hname : IsStep name)
    (hlong : isLongName name = true) (rest : List String) :
    t.walk m (name :: rest) = .error .badName := by
  rw [walk, hm]
  dsimp only
  rw [if_neg (by rw [hname.1]; exact Bool.false_ne_true), if_neg hname.2, if_pos hlong]

theorem directory_of_walk {l k : Location} {segments : List String}
    (h : t.walk l segments = .ok k) (hk : t.get? k = some .directory) :
    t.get? l = some .directory := by
  cases segments with
  | nil =>
      cases h
      exact hk
  | cons s segments =>
      rw [walk] at h
      split at h
      next => cases h
      next => cases h
      next hl => exact hl

/-- Where a walk down ends in a directory, nothing is missing on the way. -/
theorem grow_of_walk {names : List String} (hnames : ∀ name ∈ names, IsStep name) {k : Location}
    (hm : t.get? m = some .directory) (h : t.walk m names = .ok k)
    (hk : t.get? k = some .directory) : k = m ++ names ∧ t.grow m names = (t, true) := by
  induction names generalizing m with
  | nil =>
      cases h
      exact ⟨(List.append_nil _).symm, rfl⟩
  | cons name rest ih =>
      have hname := hnames name List.mem_cons_self
      cases hlong : isLongName name with
      | true =>
          rw [walk_long hm hname hlong] at h
          cases h
      | false =>
          rw [walk_step hm hname hlong] at h
          have hdir := directory_of_walk h hk
          obtain ⟨rfl, hgrow⟩ := ih (fun s hs => hnames s (List.mem_cons_of_mem _ hs)) hdir h
          exact ⟨by simp, (grow_directory hlong hdir rest).trans hgrow⟩

/-- What stops a walk down, other than that something is missing, stops the way down before
    anything is made. -/
theorem grow_of_walk_error {names : List String} (hnames : ∀ name ∈ names, IsStep name)
    {fault : Fault} (hm : t.get? m = some .directory) (h : t.walk m names = .error fault)
    (hfault : fault ≠ .missing) : t.grow m names = (t, false) := by
  induction names generalizing m with
  | nil => cases h
  | cons name rest ih =>
      have hname := hnames name List.mem_cons_self
      have hrest := fun s hs => hnames s (List.mem_cons_of_mem _ hs)
      cases hlong : isLongName name with
      | true => exact grow_long hlong rest
      | false =>
          rw [walk_step hm hname hlong] at h
          cases hget : t.get? (m ++ [name]) with
          | some e =>
              cases e with
              | directory => exact (grow_directory hlong hget rest).trans (ih hrest hget h)
              | file content => exact grow_file hget rest
          | none =>
              cases rest with
              | nil => cases h
              | cons s rest =>
                  rw [walk, hget] at h
                  cases h
                  exact absurd rfl hfault

/-- A way down that gets to its end can be walked then. -/
theorem walk_of_grow {names : List String} (hnames : ∀ name ∈ names, IsStep name)
    (hm : t.get? m = some .directory) (h : t.grow m names = (u, true)) :
    u.walk m names = .ok (m ++ names) ∧ u.get? (m ++ names) = some .directory := by
  induction names generalizing t m with
  | nil =>
      cases h
      rw [List.append_nil]
      exact ⟨rfl, hm⟩
  | cons name rest ih =>
      rcases grow_cons hm name rest with hstop | ⟨hlong, v, hopens, hgrow⟩
      · rw [hstop] at h
        cases h
      · have hkeeps : t.Keeps u := by
          have hkept := keeps_grow hm (name :: rest)
          rwa [h] at hkept
        rw [hgrow] at h
        obtain ⟨hwalk, hdir⟩ :=
          ih (fun s hs => hnames s (List.mem_cons_of_mem _ hs)) hopens.directory h
        have hassoc : m ++ name :: rest = m ++ [name] ++ rest := by simp
        rw [walk_step (hkeeps.directory m hm) (hnames name List.mem_cons_self) hlong, hassoc]
        exact ⟨hwalk, hdir⟩

-- ── Paths behind a directory ─────────────────────────────────────────────────

theorem locate_eq_walk {p : Path} (hempty : p ≠ .empty) (hlong : isLongPath p = false)
    (hzero : hasZero p = false) : t.locate p = t.walk (t.startOf p) (p.head :: p.tail) := by
  rw [locate, if_neg hempty, hlong, hzero, if_neg (by decide)]
  dsimp only
  rw [← startOf]
  split
  next hdescend => exact (walk_of_descend? hdescend).symm
  next => rfl

theorem locate_of_bad {p : Path} (hempty : p ≠ .empty)
    (hbad : isLongPath p = true ∨ hasZero p = true) : t.locate p = .error .badName := by
  rw [locate, if_neg hempty, if_pos (by simpa using hbad)]

/-- The segments lead to a directory, if more segments follow. -/
structure StartsAt (t : FileTree) (head : String) (front : List String) (m : Location) : Prop where
  walk : ∀ names, names ≠ [] →
    t.walk (t.startOf ⟨head, front ++ names⟩) (head :: front) = .ok m
  directory : t.get? m = some .directory

namespace StartsAt

variable {head : String} {front : List String}

theorem keep (h : t.StartsAt head front m) (hkeep : t.Keeps u) : u.StartsAt head front m := by
  refine ⟨?_, hkeep.directory m h.directory⟩
  intro names hne
  rw [hkeep.startOf]
  exact hkeep.walk (h.walk names hne)

theorem locate (h : t.StartsAt head front m) (names : List String) (hne : names ≠ [])
    (hlong : isLongPath ⟨head, front ++ names⟩ = false)
    (hzero : hasZero ⟨head, front ++ names⟩ = false) :
    t.locate ⟨head, front ++ names⟩ = t.walk m names := by
  have hempty : Path.mk head (front ++ names) ≠ .empty := by simp [Path.empty, hne]
  rw [locate_eq_walk hempty hlong hzero, ← List.cons_append, walk_append, h.walk names hne]
  rfl

/-- A path to a file in a directory that is there leads to it, unless no file can have this path. -/
theorem locate_concat (h : t.StartsAt head front m) {names : List String} {name : String}
    {k : Location} (hname : IsStep name) (hwalk : t.walk m names = .ok k)
    (hk : t.get? k = some .directory) :
    t.locate ⟨head, front ++ (names ++ [name])⟩ =
      if isLongPath ⟨head, front ++ (names ++ [name])⟩ = true ∨
          hasZero ⟨head, front ++ (names ++ [name])⟩ = true ∨ isLongName name = true then
        .error .badName
      else .ok (k ++ [name]) := by
  split
  next hbad =>
    by_cases hpath : isLongPath ⟨head, front ++ (names ++ [name])⟩ = true ∨
        hasZero ⟨head, front ++ (names ++ [name])⟩ = true
    · exact locate_of_bad (by simp [Path.empty]) hpath
    · have hlong : isLongName name = true := by tauto
      rw [not_or, Bool.not_eq_true, Bool.not_eq_true] at hpath
      rw [h.locate (names ++ [name]) (by simp) hpath.1 hpath.2, walk_append, hwalk]
      exact walk_long hk hname hlong []
  next hgood =>
    simp only [not_or, Bool.not_eq_true] at hgood
    rw [h.locate (names ++ [name]) (by simp) hgood.1 hgood.2.1, walk_append, hwalk]
    exact walk_step hk hname hgood.2.2 []

end StartsAt

/-- A name stands behind the last step of a path. -/
theorem child_of_step {head s : String} {tail : List String} (hs : IsStep s) (name : String) :
    Path.child ⟨head, tail ++ [s]⟩ name = ⟨head, tail ++ [s] ++ [name]⟩ := by
  have hlast : s ≠ "" := by
    rintro rfl
    exact absurd hs.1 (by decide)
  rw [child, join, if_neg (by simp [isRooted]), if_neg (by simp [Path.empty]),
    if_neg (by simpa using hlast)]

theorem foldl_child_of_step {head s : String} {tail names : List String} (hs : IsStep s)
    (hnames : ∀ name ∈ names, IsStep name) :
    names.foldl Path.child ⟨head, tail ++ [s]⟩ = ⟨head, tail ++ s :: names⟩ := by
  induction names generalizing tail s with
  | nil => rfl
  | cons name rest ih =>
      rw [List.foldl_cons, child_of_step hs,
        ih (hnames name List.mem_cons_self) fun n hn => hnames n (List.mem_cons_of_mem _ hn)]
      simp

/-- Names inside of a directory stand behind segments that lead to it. -/
theorem startsAt_children {dir : Path} (hdir : t.locate dir = .ok m)
    (hm : t.get? m = some .directory) {names : List String}
    (hnames : ∀ name ∈ names, IsStep name) (hne : names ≠ []) :
    ∃ head front, t.StartsAt head front m ∧
      names.foldl Path.child dir = ⟨head, front ++ names⟩ := by
  obtain ⟨head, tail⟩ := dir
  obtain ⟨hempty, -, -, hwalk⟩ := locate_eq_ok.mp hdir
  obtain ⟨name, rest, rfl⟩ := List.exists_cons_of_ne_nil hne
  obtain ⟨front, silent, rfl, hsilent, hchild⟩ := child_eq name hempty
  refine ⟨head, front, ⟨?_, hm⟩, ?_⟩
  · intro others hothers
    have hrooted : ∀ tail : List String, tail ≠ [] → Path.isRooted ⟨head, tail⟩ = head.isEmpty := by
      intro tail htail
      simp [isRooted, htail]
    have hstart : t.startOf ⟨head, front ++ others⟩ = t.startOf ⟨head, front ++ silent⟩ := by
      rw [@startOf_child _ _ name _ _ hempty, startOf, startOf, hrooted _ (by simp [hothers]),
        hrooted _ (by simp)]
    rw [hstart]
    dsimp only at hwalk
    rw [← List.cons_append, walk_append_eq_ok] at hwalk
    obtain ⟨k, hk, hend⟩ := hwalk
    rw [hk, eq_of_walk_silent (isSilent_of_slash hsilent) hend]
  · rw [List.foldl_cons, hchild]
    exact foldl_child_of_step (hnames name List.mem_cons_self) fun n hn =>
      hnames n (List.mem_cons_of_mem _ hn)

/-- The directory part of a path into a directory leads to this directory. -/
theorem locate_directory_child {dir : Path} (hdir : t.locate dir = .ok m)
    (hm : t.get? m = some .directory) {name : String} (hname : IsStep name) :
    t.locate (dir.child name).directory = .ok m := by
  obtain ⟨head, tail⟩ := dir
  obtain ⟨hempty, -, -, hwalk⟩ := locate_eq_ok.mp hdir
  obtain ⟨before, slash, rfl, hslash, hchild⟩ := child_eq name hempty
  obtain ⟨front, silent, rfl, hfront, hsilent⟩ := exists_silent_end before
  have hend : ∀ s ∈ silent ++ slash, isSilent s = true := by
    intro s hs
    rcases List.mem_append.mp hs with hs | hs
    · exact hsilent s hs
    · exact isSilent_of_slash hslash s hs
  rw [hchild, directory_concat hname.1 hfront hsilent]
  rw [List.append_assoc] at hdir hwalk
  split
  next hroot =>
    obtain ⟨rfl, rfl⟩ := hroot
    rw [List.nil_append] at hempty hwalk
    have hstart : t.startOf ⟨"", silent ++ slash⟩ = [] := by
      have htail : silent ++ slash ≠ [] := by
        intro hnil
        rw [hnil] at hempty
        exact hempty rfl
      simp [startOf, isRooted, htail]
    rw [hstart] at hwalk
    obtain rfl : m = [] := by
      refine eq_of_walk_silent ?_ hwalk
      intro s hs
      rcases List.mem_cons.mp hs with rfl | hs
      · rfl
      · exact hend s hs
    refine locate_eq_ok.mpr ⟨by decide, by decide, by decide, ?_⟩
    exact walk_silent hm (by decide)
  next hroot =>
    obtain ⟨k, hk, hlast⟩ := locate_cut hroot hdir
    rw [hk, eq_of_walk_silent hend hlast]

-- ── Making directories ───────────────────────────────────────────────────────

/-- Above a path that ends with a step are the path without it and what is above that. -/
theorem parents_concat {head s name : String} {tail : List String} (hs : IsStep s)
    (hname : IsStep name) :
    Path.parents ⟨head, tail ++ [s] ++ [name]⟩ = Path.ancestors ⟨head, tail ++ [s]⟩ := by
  have hreverse : (tail ++ [s] ++ [name]).reverse = name :: (tail ++ [s]).reverse := by simp
  have hstay : ((tail ++ [s]).reverse.dropWhile isSilent).reverse = tail ++ [s] := by
    rw [List.reverse_append, List.reverse_singleton, List.singleton_append,
      List.dropWhile_cons_of_neg (by rw [hs.1]; exact Bool.false_ne_true), List.reverse_cons,
      List.reverse_reverse]
  have htail : ∀ above : List String, Path.withTail ⟨head, tail ++ [s] ++ [name]⟩ above =
      Path.withTail ⟨head, tail ++ [s]⟩ above := by
    intro above
    simp [withTail, isRooted]
  have hself : Path.withTail ⟨head, tail ++ [s]⟩ (tail ++ [s]) = ⟨head, tail ++ [s]⟩ := by
    simp [withTail]
  rw [ancestors, parents, parents]
  dsimp only
  rw [hreverse, tailsAbove, if_neg (by rw [hname.1]; exact Bool.false_ne_true), List.map_cons,
    hstay, htail, hself]
  simp only [htail]
  rfl

/-- A path that ends with a step has no slashes at its end. -/
theorem trimmed_concat {name : String} (hname : IsStep name) (tail : List String) :
    ((tail ++ [name]).reverse.dropWhile (· == "")).reverse = tail ++ [name] := by
  have hempty : (name == "") = false := by
    refine beq_false_of_ne ?_
    rintro rfl
    exact absurd hname.1 (by decide)
  rw [List.reverse_append, List.reverse_singleton, List.singleton_append,
    List.dropWhile_cons_of_neg (by rw [hempty]; exact Bool.false_ne_true), List.reverse_cons,
    List.reverse_reverse]

theorem ne_empty_of_tail {head : String} {tail : List String} (h : tail ≠ []) :
    Path.mk head tail ≠ .empty := by
  intro heq
  exact h (Path.mk.inj heq).2

section MakingOne

variable {head name : String} {tail : List String} {l : Location}

/-- No directory is made where the path does not lead anywhere. -/
theorem makeDirectory_of_error (hname : IsStep name)
    (hlong : isLongPath ⟨head, tail ++ [name]⟩ = false) {fault : Fault}
    (h : t.locate ⟨head, tail ++ [name]⟩ = .error fault) :
    t.makeDirectory ⟨head, tail ++ [name]⟩ = .error fault := by
  rw [makeDirectory]
  dsimp only
  rw [trimmed_concat hname, hlong, if_neg Bool.false_ne_true,
    if_neg (ne_empty_of_tail (by simp)), h]
  rfl

/-- No directory is made where something is. -/
theorem makeDirectory_of_entry (hname : IsStep name)
    (hlong : isLongPath ⟨head, tail ++ [name]⟩ = false)
    (h : t.locate ⟨head, tail ++ [name]⟩ = .ok l) {e : Entry} (hl : t.get? l = some e) :
    t.makeDirectory ⟨head, tail ++ [name]⟩ = .error .exists := by
  rw [makeDirectory]
  dsimp only
  rw [trimmed_concat hname, hlong, if_neg Bool.false_ne_true,
    if_neg (ne_empty_of_tail (by simp)), h]
  simp only [ok_bind, hl]

/-- A directory is made where nothing is. -/
theorem makeDirectory_of_none (hname : IsStep name)
    (hlong : isLongPath ⟨head, tail ++ [name]⟩ = false)
    (h : t.locate ⟨head, tail ++ [name]⟩ = .ok (l ++ [name]))
    (hl : t.get? (l ++ [name]) = none) (hadd : t.addDirectory? l name = some u) :
    t.makeDirectory ⟨head, tail ++ [name]⟩ = .ok u := by
  rw [makeDirectory]
  dsimp only
  rw [trimmed_concat hname, hlong, if_neg Bool.false_ne_true,
    if_neg (ne_empty_of_tail (by simp)), h]
  simp only [ok_bind, hl, List.getLast?_concat, List.dropLast_concat, hadd]

end MakingOne

section MakingFirst

variable {p : Path} {above : List Path} {fault : Fault}

theorem makeFirst_of_made (hempty : p ≠ .empty) (h : t.makeDirectory p = .ok u)
    (above : List Path) : t.makeFirst (p :: above) = (u, .ok ()) := by
  rw [makeFirst, if_neg hempty, h]

/-- A directory that cannot be made is there already, or something is in its way. -/
theorem makeFirst_of_stop (hempty : p ≠ .empty) (h : t.makeDirectory p = .error fault)
    (hmissing : fault ≠ .missing) (above : List Path) :
    t.makeFirst (p :: above) = (t, if t.isDirectory p then .ok () else .error fault) := by
  rw [makeFirst, if_neg hempty, h]
  split
  next heq => cases heq
  next heq => exact absurd (Except.error.inj heq) hmissing
  next heq => rw [Except.error.inj heq]

/-- A directory for which something is missing is not made if those above it are not. -/
theorem makeFirst_of_missing_error (hempty : p ≠ .empty)
    (hmissing : t.makeDirectory p = .error .missing)
    (habove : t.makeFirst above = (u, .error fault)) :
    t.makeFirst (p :: above) = (u, .error fault) := by
  rw [makeFirst, if_neg hempty, hmissing]
  dsimp only
  rw [habove]

/-- A directory for which something is missing is made after those above it. -/
theorem makeFirst_of_missing_made (hempty : p ≠ .empty)
    (hmissing : t.makeDirectory p = .error .missing) (habove : t.makeFirst above = (u, .ok ()))
    (hmade : u.makeDirectory p = .ok v) : t.makeFirst (p :: above) = (v, .ok ()) := by
  rw [makeFirst, if_neg hempty, hmissing]
  dsimp only
  rw [habove]
  dsimp only
  rw [hmade]

theorem makeFirst_of_missing_stop (hempty : p ≠ .empty)
    (hmissing : t.makeDirectory p = .error .missing) (habove : t.makeFirst above = (u, .ok ()))
    (hstop : u.makeDirectory p = .error fault) :
    t.makeFirst (p :: above) = (u, if u.isDirectory p then .ok () else .error fault) := by
  rw [makeFirst, if_neg hempty, hmissing]
  dsimp only
  rw [habove]
  dsimp only
  rw [hstop]

theorem ite_eq_ok {found : Bool} (fault : Fault) :
    (if found then .ok () else .error fault : Except Fault Unit) = .ok () ↔ found = true := by
  cases found <;> simp

end MakingFirst

section Making

variable {head name : String} {front names : List String}

/-- Inside of a directory that is there, making a directory is a step of the way down; if it is not
    made, then it is there already, or something is in the way. -/
theorem makeDirectory_of_walk (h : t.StartsAt head front m) (hname : IsStep name)
    (hlong : isLongPath ⟨head, front ++ (names ++ [name])⟩ = false)
    (hzero : hasZero ⟨head, front ++ (names ++ [name])⟩ = false)
    (hwalk : t.walk m names = .ok (m ++ names)) (hdir : t.get? (m ++ names) = some .directory) :
    (∃ u, t.makeDirectory ⟨head, front ++ (names ++ [name])⟩ = .ok u ∧
      t.grow (m ++ names) [name] = (u, true)) ∨
    ∃ fault, t.makeDirectory ⟨head, front ++ (names ++ [name])⟩ = .error fault ∧
      fault ≠ .missing ∧
      t.grow (m ++ names) [name] =
        (t, t.isDirectory ⟨head, front ++ (names ++ [name])⟩) := by
  have hlocate := h.locate (names ++ [name]) (by simp) hlong hzero
  rw [walk_append, hwalk] at hlocate
  change t.locate _ = t.walk (m ++ names) [name] at hlocate
  have hfind : ∀ e, t.locate ⟨head, front ++ (names ++ [name])⟩ = .ok (m ++ names ++ [name]) →
      t.get? (m ++ names ++ [name]) = e →
      t.isDirectory ⟨head, front ++ (names ++ [name])⟩ = (e == some .directory) := by
    intro e hl he
    rw [isDirectory, find?, hl, ← he]
  rw [← List.append_assoc] at hlong hlocate hfind ⊢
  cases hlongName : isLongName name with
  | true =>
      rw [walk_long hdir hname hlongName] at hlocate
      refine .inr ⟨.badName, makeDirectory_of_error hname hlong hlocate, by decide, ?_⟩
      rw [grow_long hlongName, isDirectory, find?, hlocate]
      rfl
  | false =>
      rw [walk_step hdir hname hlongName] at hlocate
      change t.locate _ = .ok (m ++ names ++ [name]) at hlocate
      cases hget : t.get? (m ++ names ++ [name]) with
      | some e =>
          refine .inr ⟨.exists, makeDirectory_of_entry hname hlong hlocate hget, by decide, ?_⟩
          rw [hfind _ hlocate hget]
          cases e with
          | directory => exact grow_directory hlongName hget []
          | file content => exact grow_file hget []
      | none =>
          have hentry : t.entries.get? (m ++ names ++ [name]) = none := by
            rwa [get?, if_neg (by simp)] at hget
          have hadd : ∃ u, t.addDirectory? (m ++ names) name = some u :=
            ⟨_, dif_pos ⟨hdir, hentry⟩⟩
          obtain ⟨u, hu⟩ := hadd
          refine .inl ⟨u, makeDirectory_of_none hname hlong hlocate hget hu, ?_⟩
          rw [grow, hget, if_neg (by rw [hlongName]; exact Bool.false_ne_true), hu]
          rfl

/-- Nothing is made for a path that no directory can have. -/
theorem makeDirectories_of_bad (hname : IsStep name)
    (hbad : isLongPath ⟨head, front ++ [name]⟩ = true ∨ hasZero ⟨head, front ++ [name]⟩ = true) :
    ∃ fault, t.makeDirectories ⟨head, front ++ [name]⟩ = (t, .error fault) := by
  have hempty : Path.mk head (front ++ [name]) ≠ .empty := by simp [Path.empty]
  have hlocate : t.locate ⟨head, front ++ [name]⟩ = .error .badName := locate_of_bad hempty hbad
  have hmake : t.makeDirectory ⟨head, front ++ [name]⟩ = .error .badName := by
    cases hlong : isLongPath ⟨head, front ++ [name]⟩ with
    | true =>
        rw [makeDirectory, if_pos hlong]
        rfl
    | false =>
        exact makeDirectory_of_error hname hlong hlocate
  refine ⟨.badName, ?_⟩
  rw [makeDirectories, ancestors, makeFirst_of_stop hempty hmake (by decide), isDirectory, find?,
    hlocate]
  rfl

/-- Making the first of some directories leaves what the way down leaves, and succeeds if that got
    to its end. -/
def MakesAlong (t : FileTree) (m : Location) (names : List String) (p : Path)
    (above : List Path) : Prop :=
  ∃ result, t.makeFirst (p :: above) = ((t.grow m names).1, result) ∧
    (result = .ok () ↔ (t.grow m names).2 = true)

/-- So it is if the directory that it is made in is there. -/
theorem makesAlong_of_walk (h : t.StartsAt head front m) (hsteps : ∀ n ∈ names, IsStep n)
    (hname : IsStep name) (hlong : isLongPath ⟨head, front ++ (names ++ [name])⟩ = false)
    (hzero : hasZero ⟨head, front ++ (names ++ [name])⟩ = false) {k : Location}
    (hwalk : t.walk m names = .ok k) (hdir : t.get? k = some .directory) (above : List Path) :
    t.MakesAlong m (names ++ [name]) ⟨head, front ++ (names ++ [name])⟩ above := by
  obtain ⟨rfl, hgrow⟩ := grow_of_walk hsteps h.directory hwalk hdir
  rw [MakesAlong, grow_append, hgrow, if_pos rfl]
  have hempty : Path.mk head (front ++ (names ++ [name])) ≠ .empty := ne_empty_of_tail (by simp)
  rcases makeDirectory_of_walk h hname hlong hzero hwalk hdir with
    ⟨u, hmade, hgrown⟩ | ⟨fault, hfault, hmissing, hgrown⟩
  · rw [makeFirst_of_made hempty hmade, hgrown]
    exact ⟨.ok (), rfl, by simp⟩
  · rw [makeFirst_of_stop hempty hfault hmissing, hgrown]
    exact ⟨_, rfl, ite_eq_ok fault⟩

/-- So it is if a directory is missing and those above are made first. -/
theorem makesAlong_of_missing (h : t.StartsAt head front m) (hsteps : ∀ n ∈ names, IsStep n)
    (hname : IsStep name) (hlong : isLongPath ⟨head, front ++ (names ++ [name])⟩ = false)
    (hzero : hasZero ⟨head, front ++ (names ++ [name])⟩ = false)
    (hmissing : t.makeDirectory ⟨head, front ++ (names ++ [name])⟩ = .error .missing)
    {p : Path} {above : List Path} (habove : t.MakesAlong m names p above) :
    t.MakesAlong m (names ++ [name]) ⟨head, front ++ (names ++ [name])⟩ (p :: above) := by
  obtain ⟨result, hmade, hresult⟩ := habove
  have hempty : Path.mk head (front ++ (names ++ [name])) ≠ .empty := ne_empty_of_tail (by simp)
  rw [MakesAlong, grow_append]
  cases result with
  | error fault =>
      have hstop : (t.grow m names).2 = false := by
        rw [Bool.eq_false_iff]
        intro hdone
        cases hresult.mpr hdone
      rw [makeFirst_of_missing_error hempty hmissing hmade, hstop, if_neg Bool.false_ne_true]
      exact ⟨.error fault, rfl, by simp⟩
  | ok =>
      have hdone : (t.grow m names).2 = true := hresult.mp rfl
      have hkeep := keeps_grow h.directory names
      obtain ⟨hwalk, hdir⟩ := walk_of_grow hsteps h.directory (Prod.ext rfl hdone)
      rw [hdone, if_pos rfl]
      rcases makeDirectory_of_walk (h.keep hkeep) hname hlong hzero hwalk hdir with
        ⟨v, hv, hgrown⟩ | ⟨fault, hfault, -, hgrown⟩
      · rw [makeFirst_of_missing_made hempty hmissing hmade hv, hgrown]
        exact ⟨.ok (), rfl, by simp⟩
      · rw [makeFirst_of_missing_stop hempty hmissing hmade hfault, hgrown]
        exact ⟨_, rfl, ite_eq_ok fault⟩

/-- So it is if something is in the way. -/
theorem makesAlong_of_error (h : t.StartsAt head front m) (hnames : ∀ n ∈ names, IsStep n)
    (hne : names ≠ []) (hlong : isLongPath ⟨head, front ++ names⟩ = false)
    (hzero : hasZero ⟨head, front ++ names⟩ = false) {fault : Fault}
    (hwalk : t.walk m names = .error fault)
    (hmake : t.makeDirectory ⟨head, front ++ names⟩ = .error fault) (hmissing : fault ≠ .missing)
    (above : List Path) : t.MakesAlong m names ⟨head, front ++ names⟩ above := by
  have hdirectory : t.isDirectory ⟨head, front ++ names⟩ = false := by
    rw [isDirectory, find?, h.locate names hne hlong hzero, hwalk]
    rfl
  rw [MakesAlong, grow_of_walk_error hnames h.directory hwalk hmissing,
    makeFirst_of_stop (ne_empty_of_tail (by simp [hne])) hmake hmissing, hdirectory]
  exact ⟨.error fault, rfl, by simp⟩

/-- Making the directories of a path leaves what the way down leaves.  The induction goes up from
    the last directory, as the making does. -/
theorem makeDirectories_grow (h : t.StartsAt head front m) (hnames : ∀ n ∈ names, IsStep n)
    (hne : names ≠ []) (hlong : isLongPath ⟨head, front ++ names⟩ = false)
    (hzero : hasZero ⟨head, front ++ names⟩ = false) :
    t.MakesAlong m names ⟨head, front ++ names⟩ (Path.parents ⟨head, front ++ names⟩) := by
  induction names using List.reverseRecOn with
  | nil => exact absurd rfl hne
  | append_singleton names name ih =>
      have hname := hnames name (List.mem_append_right _ List.mem_cons_self)
      have hsteps : ∀ n ∈ names, IsStep n := fun n hn => hnames n (List.mem_append_left _ hn)
      by_cases hthere : ∃ k, t.walk m names = .ok k ∧ t.get? k = some .directory
      · obtain ⟨k, hwalk, hdir⟩ := hthere
        exact makesAlong_of_walk h hsteps hname hlong hzero hwalk hdir _
      obtain ⟨fault, hfault⟩ : ∃ fault, t.walk m (names ++ [name]) = .error fault := by
        cases hall : t.walk m (names ++ [name]) with
        | error fault => exact ⟨fault, rfl⟩
        | ok l =>
            obtain ⟨k, hwalk, hlast⟩ := walk_append_eq_ok.mp hall
            exact absurd ⟨k, hwalk, (walk_single hlast).1⟩ hthere
      have hfront : front ++ (names ++ [name]) = front ++ names ++ [name] :=
        (List.append_assoc _ _ _).symm
      have hmake : t.makeDirectory ⟨head, front ++ (names ++ [name])⟩ = .error fault := by
        have hlocate := h.locate (names ++ [name]) (by simp) hlong hzero
        rw [hfault] at hlocate
        rw [hfront] at hlong hlocate ⊢
        exact makeDirectory_of_error hname hlong hlocate
      by_cases hmissing : fault = .missing
      · rw [hmissing] at hmake
        obtain rfl | ⟨before, s, rfl⟩ := List.eq_nil_or_concat names
        · exact absurd ⟨m, rfl, h.directory⟩ hthere
        rw [List.concat_eq_append] at *
        have hs := hsteps s (List.mem_append_right _ List.mem_cons_self)
        have hparents : Path.parents ⟨head, front ++ (before ++ [s] ++ [name])⟩ =
            Path.ancestors ⟨head, front ++ (before ++ [s])⟩ := by
          rw [hfront, ← List.append_assoc]
          exact parents_concat hs hname
        rw [hparents, ancestors]
        exact makesAlong_of_missing h hsteps hname hlong hzero hmake (ih hsteps (by simp)
          (isLongPath_front (hfront ▸ hlong)) (hasZero_front (hfront ▸ hzero)))
      · exact makesAlong_of_error h hnames hne hlong hzero hfault hmake hmissing _

/-- The directories of a file below a directory are made on the way down from there, unless their
    path is one that no directory can have.  This does not depend on what else is in the tree. -/
theorem makeDirectories_children {dir : Path} (hdir : t.locate dir = .ok m)
    (hm : t.get? m = some .directory) (hsteps : ∀ n ∈ names ++ [name], IsStep n) :
    ∃ bad : Bool, ∀ u, t.Keeps u → ∃ result,
      u.makeDirectories ((names ++ [name]).foldl child dir).directory =
        (if bad then u else (u.grow m names).1, result) ∧
      (result = .ok () ↔ bad = false ∧ (u.grow m names).2 = true) := by
  have hnames := fun n hn => hsteps n (List.mem_append_left [name] hn)
  have hname := hsteps name (List.mem_append_right names List.mem_cons_self)
  obtain rfl | ⟨before, s, rfl⟩ := List.eq_nil_or_concat names
  · refine ⟨false, ?_⟩
    intro u hkeep
    refine ⟨.ok (), ?_, by simp [grow]⟩
    exact makeDirectories_of_isDirectory (hkeep.isDirectory
      (isDirectory_iff.mpr ⟨m, locate_directory_child hdir hm hname, hm⟩))
  rw [List.concat_eq_append] at hnames ⊢
  have hs := hnames s (List.mem_append_right before List.mem_cons_self)
  obtain ⟨head, front, hstart, hfold⟩ := startsAt_children hdir hm hnames (by simp)
  have hdirectory : ((before ++ [s] ++ [name]).foldl child dir).directory =
      ⟨head, front ++ (before ++ [s])⟩ := by
    rw [List.foldl_append, hfold]
    show (child ⟨head, front ++ (before ++ [s])⟩ name).directory = _
    rw [← List.append_assoc, child_of_step hs]
    have hend := @directory_concat head name (front ++ before ++ [s]) [] hname.1 (by simp [hs.1])
      (by simp)
    rw [List.append_nil] at hend
    rw [hend, if_neg (by simp)]
  rw [hdirectory]
  refine ⟨isLongPath ⟨head, front ++ (before ++ [s])⟩ || hasZero ⟨head, front ++ (before ++ [s])⟩,
    ?_⟩
  intro u hkeep
  by_cases hbad : isLongPath ⟨head, front ++ (before ++ [s])⟩ = true ∨
      hasZero ⟨head, front ++ (before ++ [s])⟩ = true
  · rw [Bool.or_eq_true_iff.mpr hbad, if_pos rfl]
    rw [← List.append_assoc] at hbad ⊢
    obtain ⟨fault, hfault⟩ := makeDirectories_of_bad (t := u) hs hbad
    exact ⟨.error fault, hfault, by simp⟩
  · rw [not_or, Bool.not_eq_true, Bool.not_eq_true] at hbad
    rw [hbad.1, hbad.2, Bool.or_self, if_neg Bool.false_ne_true]
    obtain ⟨result, hmade, hresult⟩ :=
      makeDirectories_grow (hstart.keep hkeep) hnames (by simp) hbad.1 hbad.2
    exact ⟨result, hmade, by simpa using hresult⟩

end Making

end ShaderTemplates.FileTree
