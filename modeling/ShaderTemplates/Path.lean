/-!
# Paths

A path is written as segments with a slash between any two, and is kept as it was written:
`a//b/` has the segments `a`, nothing, `b`, nothing. What a path denotes is its list of
components, in which empty segments and segments `.` have gone, except for a `.` at the very
start. Two paths are the same place for the library when their components agree.

* `ofString`, `toString` — reading and writing;
* `components` — what the path denotes;
* `join`, `child`, `parents`, `fileName?` — the usual operations.
-/

namespace ShaderTemplates

/-- A path as it is written: the first segment and those after the slashes. -/
structure Path where
  head : String
  tail : List String
deriving DecidableEq, Repr

namespace Path

-- ── Reading and writing ──────────────────────────────────────────────────────

/-- The text up to the first slash, and the texts after each of the slashes. -/
def splitSlashes : List Char → List Char × List (List Char)
  | [] => ([], [])
  | c :: rest =>
    let parts := splitSlashes rest
    if c = '/' then ([], parts.1 :: parts.2) else (c :: parts.1, parts.2)

def ofString (s : String) : Path :=
  let parts := splitSlashes s.toList
  ⟨String.ofList parts.1, parts.2.map String.ofList⟩

protected def toString (p : Path) : String :=
  p.tail.foldl (fun text segment => text ++ "/" ++ segment) p.head

instance : ToString Path := ⟨Path.toString⟩

/-- The path without any segment, which denotes the working directory when files are looked up
    beside it. -/
def empty : Path := ⟨"", []⟩

/-- The path `.`, the working directory. -/
def here : Path := ⟨".", []⟩

/-- Whether the path starts with a slash. -/
def isRooted (p : Path) : Bool := p.head.isEmpty && !p.tail.isEmpty

-- ── Components ───────────────────────────────────────────────────────────────

/-- One step of a path. -/
inductive Component where
  /-- The slash at the start. -/
  | root
  /-- A `.` at the start. -/
  | current
  /-- A step up, `..`. -/
  | parent
  | name (s : String)
deriving DecidableEq, Repr

def Component.name? : Component → Option String
  | .name s => some s
  | _ => none

/-- Segments that are no step, if they are not the first. -/
def isSilent (segment : String) : Bool := segment == "" || segment == "."

/-- The step that a segment after the first one stands for. -/
def stepOf? (segment : String) : Option Component :=
  if isSilent segment then none
  else if segment = ".." then some .parent
  else some (.name segment)

/-- The steps that the first segment stands for. -/
def headSteps (p : Path) : List Component :=
  if p.isRooted then [.root]
  else if p.head = "." then [.current]
  else (stepOf? p.head).toList

def components (p : Path) : List Component := p.headSteps ++ p.tail.filterMap stepOf?

/-- The components that are plain names. -/
def names (p : Path) : List String := p.components.filterMap Component.name?

/-- Whether two paths have the same components. -/
def SamePlace (p q : Path) : Prop := p.components = q.components

instance (p q : Path) : Decidable (SamePlace p q) := inferInstanceAs (Decidable (_ = _))

-- ── Joining ──────────────────────────────────────────────────────────────────

/-- The path `p` as seen from `base`: one slash stands between the two, unless `base` is empty or
    ends with one. A rooted path stays what it is. -/
def join (base p : Path) : Path :=
  if p.isRooted then p
  else if base = empty then p
  else if base.tail.getLast? = some "" then ⟨base.head, base.tail.dropLast ++ p.head :: p.tail⟩
  else ⟨base.head, base.tail ++ p.head :: p.tail⟩

/-- The path of `name` inside the directory `p`. -/
def child (p : Path) (name : String) : Path := p.join ⟨name, []⟩

-- ── Parents and file names ───────────────────────────────────────────────────

/-- The path with another tail; a rooted path keeps its slash. -/
def withTail (p : Path) (tail : List String) : Path :=
  if p.isRooted && tail.isEmpty then ⟨"", [""]⟩ else ⟨p.head, tail⟩

/-- The tails, last segment first, that are left above each step of a tail given last segment
    first. -/
def tailsAbove : List String → List (List String)
  | [] => []
  | segment :: rest =>
    if isSilent segment then tailsAbove rest else rest.dropWhile isSilent :: tailsAbove rest

/-- The paths above a path, nearest first, without the silent segments at their ends. The last
    one of a relative path is the empty path. -/
def parents (p : Path) : List Path :=
  ((tailsAbove p.tail.reverse).map fun above => p.withTail above.reverse) ++
    if p.head.isEmpty then [] else [empty]

/-- The path of the directory that contains what `p` denotes. -/
def parent? (p : Path) : Option Path := p.parents.head?

/-- The path and the paths above it, nearest first. -/
def ancestors (p : Path) : List Path := p :: p.parents

/-- The directory part of a path to a file, `.` if it has none. -/
def directory (p : Path) : Path :=
  match p.parent? with
  | some parent => if parent = empty then here else parent
  | none => here

/-- The last component, if it is a name. -/
def fileName? (p : Path) : Option String := p.components.getLast?.bind Component.name?

/-- The extension of generator documents, with its dot. -/
def generatorSuffix : String := ".gen.toml"

/-- Whether the file name ends with `.gen.toml` and has more to it. -/
def isGeneratorFile (p : Path) : Bool :=
  match p.fileName? with
  | some name =>
    generatorSuffix.toList.isSuffixOf name.toList && generatorSuffix.length < name.length
  | none => false

end Path

end ShaderTemplates
