import ShaderTemplates.FileTree
import ShaderTemplates.Path

/-!
# Looking paths up

A path is followed segment by segment, a rooted one from the root directory and any other from the
working directory. Each segment needs a directory to go on from: a silent one stays there, `..`
goes to the directory above, and a name goes to what has this name inside, which need not be there
yet. So `a/..` has a location only if `a` is a directory. Paths that only go down need a single
look (`walk_of_descend?`).

* `locate` — the location of a path;
* `isFile`, `isDirectory`, `holds` — what is there;
* `readText`, `openDirectory`, `list` — the text of a file and the names in a directory.
-/

namespace ShaderTemplates

/-- Why a file operation fails. -/
inductive Fault where
  | missing
  | notDirectory
  | isDirectory
  | exists
  /-- A name or a path is too long, or it has a zero character. -/
  | badName
  /-- The content is no text. -/
  | notText
  /-- The directory cannot be opened. -/
  | denied
deriving DecidableEq, Repr

namespace FileTree

/-- Names of files have at most 255 bytes. -/
def isLongName (name : String) : Bool := 255 < name.utf8ByteSize

/-- Follows segments from a location. -/
def walk (t : FileTree) : Location → List String → Except Fault Location
  | l, [] => .ok l
  | l, segment :: rest =>
    match t.get? l with
    | none => .error .missing
    | some (.file _) => .error .notDirectory
    | some .directory =>
      if Path.isSilent segment then t.walk l rest
      else if segment = ".." then t.walk l.dropLast rest
      else if isLongName segment then .error .badName
      else t.walk (l ++ [segment]) rest

/-- Follows segments that only go down. An entry is always inside of a directory, so one look at
    the last directory on the way is enough (`walk_of_descend?`). -/
def descend? (t : FileTree) (l : Location) (segments : List String) : Option Location :=
  if segments.all (fun s => s ≠ ".." && !isLongName s) &&
      t.get? (l ++ segments.dropLast.filter (!Path.isSilent ·)) = some .directory then
    some (l ++ segments.filter (!Path.isSilent ·))
  else none

/-- Paths have at most 4095 bytes, however short the way is that they describe. -/
def isLongPath (p : Path) : Bool := 4095 < p.toString.utf8ByteSize

/-- Whether a segment of a path has a zero character. -/
def hasZero (p : Path) : Bool := (p.head :: p.tail).any (·.toList.contains '\x00')

/-- The location that a path leads to. The empty path leads nowhere. -/
def locate (t : FileTree) (p : Path) : Except Fault Location :=
  if p = .empty then .error .missing
  else if isLongPath p || hasZero p then .error .badName
  else
    let start := if p.isRooted then [] else t.process.current
    match t.descend? start (p.head :: p.tail) with
    | some l => .ok l
    | none => t.walk start (p.head :: p.tail)

/-- The path of the working directory. -/
def workingDirectory (t : FileTree) : Path :=
  match t.process.current with
  | [] => ⟨"", [""]⟩
  | names => ⟨"", names⟩

/-- What a path leads to. -/
def find? (t : FileTree) (p : Path) : Option Entry :=
  match t.locate p with
  | .ok l => t.get? l
  | .error _ => none

/-- Whether a path leads to something. -/
def holds (t : FileTree) (p : Path) : Bool := (t.find? p).isSome

def isDirectory (t : FileTree) (p : Path) : Bool := t.find? p == some .directory

def isFile (t : FileTree) (p : Path) : Bool :=
  match t.find? p with
  | some (.file _) => true
  | _ => false

/-- The text of a file. -/
def readText (t : FileTree) (p : Path) : Except Fault String := do
  match t.get? (← t.locate p) with
  | none => .error .missing
  | some .directory => .error .isDirectory
  | some (.file content) =>
    match content.text? with
    | some text => .ok text
    | none => .error .notText

/-- Opens a directory, which is needed to list it and to flush it. -/
def openDirectory (t : FileTree) (p : Path) : Except Fault Location := do
  let l ← t.locate p
  match t.get? l with
  | none => .error .missing
  | some (.file _) => .error .notDirectory
  | some .directory => if l ∈ t.process.unopened then .error .denied else .ok l

/-- The names that lead on from a location to an entry below it. -/
def below? (l : Location) (k : Location) : Option (List String) :=
  if l.isPrefixOf k && l.length < k.length then some (k.drop l.length) else none

/-- Everything below a location in ascending order, with the names on the way from there. -/
def descendants (t : FileTree) (l : Location) : List (List String × Entry) :=
  t.entries.entries.filterMap fun e => (below? l e.1).map fun names => (names, e.2)

/-- The entries of a directory by name. -/
def list (t : FileTree) (l : Location) : List (String × Entry) :=
  (t.descendants l).filterMap fun e =>
    match e.1 with
    | [name] => some (name, e.2)
    | _ => none

-- ── Ways down ────────────────────────────────────────────────────────────────

/-- What is above an entry is a directory. -/
theorem directory_of_append {t : FileTree} {l k : Location}
    (h : t.get? (l ++ k) = some .directory) : t.get? l = some .directory := by
  induction k generalizing l with
  | nil => simpa using h
  | cons name k ih =>
    exact directory_of_entry (ih (by simpa using h))

theorem walk_of_directory {t : FileTree} {l : Location} {segments : List String}
    (hs : ∀ s ∈ segments, s ≠ ".." ∧ isLongName s = false)
    (h : t.get? (l ++ segments.dropLast.filter (!Path.isSilent ·)) = some .directory) :
    t.walk l segments = .ok (l ++ segments.filter (!Path.isSilent ·)) := by
  induction segments generalizing l with
  | nil => simp [walk]
  | cons s rest ih =>
    have ⟨hup, hlong⟩ := hs s List.mem_cons_self
    have hrest := fun s' hs' => hs s' (List.mem_cons_of_mem _ hs')
    have hl := directory_of_append h
    rw [walk, hl]
    cases rest with
    | nil => by_cases hsilent : Path.isSilent s = true <;> simp_all [walk]
    | cons s' rest =>
      by_cases hsilent : Path.isSilent s = true
      · rw [if_pos hsilent, ih hrest (by simpa [hsilent] using h)]
        simp [hsilent]
      · simp only [hsilent, hup, hlong, if_false, Bool.false_eq_true]
        rw [ih hrest (by simpa [hsilent] using h)]
        simp [hsilent]

/-- Following segments down gives the same location as following them one by one. -/
theorem walk_of_descend? {t : FileTree} {l k : Location} {segments : List String}
    (h : t.descend? l segments = some k) : t.walk l segments = .ok k := by
  unfold descend? at h
  split at h
  next hc =>
    cases h
    simp only [Bool.and_eq_true, List.all_eq_true, decide_eq_true_eq, Bool.not_eq_true'] at hc
    exact walk_of_directory hc.1 hc.2
  next => cases h

end FileTree

end ShaderTemplates
