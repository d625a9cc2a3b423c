import ShaderTemplates.SortedMap

/-!
# File trees

A file tree is what a disk holds: directories and files, each at the list of names that leads to it
from the root directory. The directory of an entry is always there, and it is a directory
(`FileTree.closed`). Beside the entries the tree knows what a process finds there: the working
directory, from which relative paths start, and the directories that cannot be opened.

There are three changes, and each keeps the tree closed:

* `addDirectory?` — a new directory inside an existing one;
* `putFile?` — a new file inside an existing directory, or new content of a file;
* `dropFile` — a file goes.

Each changes what one location holds (`get?_addDirectory?`, `get?_putFile?`, `get?_dropFile`).
-/

namespace ShaderTemplates

/-- The names that lead from the root directory to an entry. -/
abbrev Location := List String

/-- What a file holds. -/
inductive Content where
  | text (s : String)
  /-- Bytes that are no UTF-8 text. -/
  | binary (bytes : List UInt8)
deriving DecidableEq

namespace Content

def ofBytes (bytes : ByteArray) : Content :=
  match String.fromUTF8? bytes with
  | some s => text s
  | none => binary bytes.toList

def text? : Content → Option String
  | text s => some s
  | binary _ => none

def toBytes : Content → ByteArray
  | text s => s.toUTF8
  | binary bytes => ⟨bytes.toArray⟩

end Content

inductive Entry where
  | directory
  | file (content : Content)
deriving DecidableEq

/-- What a process finds beside the entries. -/
structure Process where
  /-- The working directory. -/
  current : Location
  /-- Directories that can be passed and changed, but not opened: they cannot be listed, and what
      was changed in them cannot be flushed. -/
  unopened : List Location := []
deriving DecidableEq

structure FileTree where
  entries : SortedMap Location Entry
  process : Process
  /-- What has an entry inside of it is a directory. -/
  closed : ∀ (l : Location) (name : String), (entries.get? (l ++ [name])).isSome = true →
    l = [] ∨ entries.get? l = some .directory

namespace FileTree

/-- What is at a location. The root directory is always there. -/
def get? (t : FileTree) (l : Location) : Option Entry :=
  if l = [] then some .directory else t.entries.get? l

/-- A disk without files, with the root directory as the working directory. -/
def empty : FileTree where
  entries := ∅
  process := { current := [] }
  closed := fun _ _ h => by simp at h

instance : EmptyCollection FileTree := ⟨empty⟩

instance : Inhabited FileTree := ⟨empty⟩

theorem directory_of_entry {t : FileTree} {l : Location} {name : String} {e : Entry}
    (h : t.get? (l ++ [name]) = some e) : t.get? l = some .directory := by
  have hne : l ++ [name] ≠ [] := by simp
  rw [get?, if_neg hne] at h
  rcases t.closed l name (by rw [h]; rfl) with rfl | hl
  · rfl
  · unfold get?
    split
    · rfl
    · exact hl

/-- The tree with another working directory. -/
def withCurrent (t : FileTree) (l : Location) : FileTree :=
  { t with process := { t.process with current := l } }

/-- The tree with a directory that cannot be opened. -/
def withUnopened (t : FileTree) (l : Location) : FileTree :=
  { t with process := { t.process with unopened := l :: t.process.unopened } }

-- ── Changes ──────────────────────────────────────────────────────────────────

/-- Adds the directory `name` inside `l`, where nothing has that name yet. -/
def addDirectory? (t : FileTree) (l : Location) (name : String) : Option FileTree :=
  if h : t.get? l = some .directory ∧ t.entries.get? (l ++ [name]) = none then
    some {
      entries := t.entries.insert (l ++ [name]) .directory
      process := t.process
      closed := by
        intro l' name' hsome
        by_cases hl' : l' = []
        · exact Or.inl hl'
        right
        rw [SortedMap.get?_insert]
        split
        · rfl
        next hne =>
          rw [SortedMap.get?_insert] at hsome
          split at hsome
          next heq =>
            have := h.1
            rw [(List.append_inj' heq rfl).1] at hl' ⊢
            rwa [get?, if_neg hl'] at this
          next => exact (t.closed l' name' hsome).resolve_left hl' }
  else none

/-- Gives the file `name` inside `l` new content; the file is made if it is not there. -/
def putFile? (t : FileTree) (l : Location) (name : String) (content : Content) :
    Option FileTree :=
  if h : t.get? l = some .directory ∧ t.entries.get? (l ++ [name]) ≠ some .directory then
    some {
      entries := t.entries.insert (l ++ [name]) (.file content)
      process := t.process
      closed := by
        intro l' name' hsome
        by_cases hl' : l' = []
        · exact Or.inl hl'
        right
        rw [SortedMap.get?_insert] at hsome ⊢
        have hdir : t.entries.get? l' = some .directory := by
          split at hsome
          next heq =>
            have := h.1
            rw [(List.append_inj' heq rfl).1] at hl' ⊢
            rwa [get?, if_neg hl'] at this
          next => exact (t.closed l' name' hsome).resolve_left hl'
        split
        next heq => exact absurd (heq ▸ hdir) h.2
        next => exact hdir }
  else none

/-- Removes the file at a location. A directory stays. -/
def dropFile (t : FileTree) (l : Location) : FileTree :=
  if h : t.entries.get? l = some .directory then t
  else {
    entries := t.entries.erase l
    process := t.process
    closed := by
      intro l' name' hsome
      by_cases hl' : l' = []
      · exact Or.inl hl'
      right
      have hne : l' ++ [name'] ≠ l := by
        intro heq
        rw [heq, SortedMap.get?_erase_self] at hsome
        simp at hsome
      rw [SortedMap.get?_erase_of_ne _ hne] at hsome
      have hdir := (t.closed l' name' hsome).resolve_left hl'
      have hl : l' ≠ l := fun heq => h (by rw [← heq, hdir])
      rw [SortedMap.get?_erase_of_ne _ hl]
      exact hdir }

/-- The tree without the entry at a location and everything below it. -/
def dropAll (t : FileTree) (l : Location) : FileTree where
  entries := t.entries.filterKeys fun k => !l.isPrefixOf k
  process := t.process
  closed := by
    intro l' name' hsome
    by_cases hl' : l' = []
    · exact Or.inl hl'
    right
    rw [SortedMap.get?_filterKeys] at hsome ⊢
    split at hsome
    next hkeep =>
      have hkeep' : (!l.isPrefixOf l') = true := by
        simp only [Bool.not_eq_true', Bool.eq_false_iff, ne_eq,
          List.isPrefixOf_iff_prefix] at hkeep ⊢
        exact fun hp => hkeep (hp.trans (List.prefix_append l' [name']))
      rw [if_pos hkeep']
      exact (t.closed l' name' hsome).resolve_left hl'
    next => simp at hsome

-- ── What changes ─────────────────────────────────────────────────────────────

theorem get?_addDirectory? {t t' : FileTree} {l : Location} {name : String}
    (h : t.addDirectory? l name = some t') (k : Location) :
    t'.get? k = if k = l ++ [name] then some .directory else t.get? k := by
  unfold addDirectory? at h
  split at h
  · cases h
    by_cases hk : k = []
    · subst hk; simp [get?]
    · simp only [get?, if_neg hk, SortedMap.get?_insert]
  · simp at h

theorem get?_putFile? {t t' : FileTree} {l : Location} {name : String} {content : Content}
    (h : t.putFile? l name content = some t') (k : Location) :
    t'.get? k = if k = l ++ [name] then some (.file content) else t.get? k := by
  unfold putFile? at h
  split at h
  · cases h
    by_cases hk : k = []
    · subst hk; simp [get?]
    · simp only [get?, if_neg hk, SortedMap.get?_insert]
  · simp at h

theorem get?_dropFile {t : FileTree} {l : Location} {content : Content}
    (h : t.get? l = some (.file content)) (k : Location) :
    (t.dropFile l).get? k = if k = l then none else t.get? k := by
  have hl : l ≠ [] := by
    rintro rfl
    simp [get?] at h
  rw [get?, if_neg hl] at h
  have hdir : ¬ t.entries.get? l = some .directory := by rw [h]; simp
  unfold dropFile
  rw [dif_neg hdir]
  by_cases hkl : k = l
  · subst hkl
    simp [get?, hl]
  · by_cases hk : k = []
    · simp [get?, hk, Ne.symm hl]
    · simp only [get?, if_neg hk, if_neg hkl]
      exact SortedMap.get?_erase_of_ne _ hkl

end FileTree

end ShaderTemplates
