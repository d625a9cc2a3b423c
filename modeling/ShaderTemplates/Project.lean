import ShaderTemplates.Catalog
import ShaderTemplates.Config
import ShaderTemplates.FileTree.Write
import ShaderTemplates.Generator

/-!
# Projects

A project is a directory with a configuration. Its templates are in the directory that the
configuration names; generators may be anywhere else below the root.

* `load`, `find?`, `setUp` — opening a project, looking for one and making one;
* `catalog` — its templates;
* `generators` — the paths of its generators;
* `create` — making a new generator;
* `pull` — pulling the blocks of a generator from its last output, or from the output that it would
  have now if it was never exported. The document is saved only if a body changed.
-/

namespace ShaderTemplates

open Template (scan)

structure Project where
  /-- The directory of the project. -/
  root : Path
  config : Config
deriving DecidableEq, Repr

namespace Project

/-- The path of the configuration in a directory. -/
def configPathIn (dir : Path) : Path := dir.child Config.fileName

def configPath (p : Project) : Path := configPathIn p.root

/-- Opens the project in a directory. -/
def load (t : FileTree) (root : Path) : Except Error Project := do
  let text ← (t.readText (configPathIn root)).mapError fun _ => Error.io
  return { root, config := ← Config.parse text }

/-- Opens the project that a directory belongs to: the nearest of the directory and those above it
    that has a configuration. There may be none. -/
def find? (t : FileTree) (start : Path) : Except Error (Option Project) :=
  match start.ancestors.find? fun dir => t.isFile (configPathIn dir) with
  | some root => (load t root).map some
  | none => .ok none

/-- The directory of the templates. -/
def templatesDirectory (p : Project) : Except Error Path :=
  p.root.joinBelow (Path.ofString p.config.templatesDir)

/-- Makes a project in a directory: the configuration and an empty directory for templates. -/
def setUp (t : FileTree) (root : Path) (name : String) : Outcome Project :=
  let project : Project := { root, config := Config.named name }
  match t.makeDirectories root with
  | (t, .error _) => .failed t .io
  | (t, .ok ()) =>
    match t.writeFile project.configPath (.text project.config.write) with
    | .error _ => .failed t .io
    | .ok t =>
      match project.templatesDirectory with
      | .error e => .failed t e
      | .ok dir =>
        match t.makeDirectories dir with
        | (t, .error _) => .failed t .io
        | (t, .ok ()) => .done t project

/-- The templates of a project. -/
def catalog (p : Project) (t : FileTree) : Except Error Catalog := do
  Catalog.load t (← p.templatesDirectory) p.config.templatesExtension

/-- The catalog, which has to list a template. -/
def selectableCatalog (p : Project) (t : FileTree) : Except Error Catalog := do
  let catalog ← p.catalog t
  if catalog.isEmpty then .error (.catalogEmpty (← p.templatesDirectory)) else .ok catalog

-- ── Generators ───────────────────────────────────────────────────────────────

/-- Whether generators are not looked for in a directory and below it, given the names that lead
    to it from the root: hidden directories and the directory of the templates. -/
def isSkipped (templates : List String) (names : List String) : Bool :=
  names = templates || names.getLast?.any (·.toList.head? = some '.')

/-- Whether the names pass no skipped directory on their way from the root. -/
def isReached (templates : List String) (names : List String) : Bool :=
  (List.range names.length).all fun n => n = 0 || !isSkipped templates (names.take n)

/-- Whether the names lead to a generator without passing a skipped directory. -/
def leadsToGenerator (templates : List String) (names : List String) : Bool :=
  (match names.getLast? with
    | some fileName => Path.isGeneratorFile ⟨fileName, []⟩
    | none => false) && isReached templates names

/-- The names that lead from the root to each generator, in ascending order. -/
def generatorsBelow (t : FileTree) (root : Location) (templates : List String) :
    List (List String) :=
  (t.descendants root).filterMap fun e =>
    match e.2 with
    | .file _ => if leadsToGenerator templates e.1 then some e.1 else none
    | .directory => none

/-- The path of what the names lead to from the root. -/
def pathBelow (p : Project) (names : List String) : Path := names.foldl Path.child p.root

/-- Whether the directory that the names lead to from the root can be listed: its path is not too
    long, and it can be opened. -/
def isListable (p : Project) (t : FileTree) (root : Location) (names : List String) : Bool :=
  !FileTree.isLongPath (p.pathBelow names) && !t.process.unopened.contains (root ++ names)

/-- Whether every directory in which generators are looked for can be listed. -/
def allListable (p : Project) (t : FileTree) (root : Location) (templates : List String) : Bool :=
  p.isListable t root [] && (t.descendants root).all fun e =>
    e.2 ≠ .directory || !isReached templates e.1 || isSkipped templates e.1 ||
      p.isListable t root e.1

/-- The paths of the generators in ascending order. -/
def generators (p : Project) (t : FileTree) : Except Error (List Path) := do
  let _ ← p.templatesDirectory
  match t.find? p.root, t.locate p.root with
  | some .directory, .ok root =>
    let templates := (Path.ofString p.config.templatesDir).names
    if !p.allListable t root templates then .error .io
    return (generatorsBelow t root templates).map p.pathBelow
  | some (.file _), _ => return if p.root.isGeneratorFile then [p.root] else []
  | _, _ => .error .io

-- ── New generators ───────────────────────────────────────────────────────────

/-- The path of the document for a new generator. -/
def generatorPath (dir : Path) (name : String) : Path := dir.child (name ++ Path.generatorSuffix)

/-- The document of a new generator: the defaults of the template that it asks for. -/
def newGenerator (p : Project) (t : FileTree) (name requested : String) :
    Except Error Generator := do
  let catalog ← p.selectableCatalog t
  let template ← catalog.resolveName requested
  let text ← catalog.read t template
  return ({ name, template } : Generator).sync (scan text)

/-- What creating a generator writes: the path of the document and the generator in it. Nothing
    may be at that path yet. -/
def planCreation (p : Project) (t : FileTree) (dir : Path) (name requested : String) :
    Except Error (Path × Generator) := do
  checkFileName name
  let path := generatorPath dir name
  if t.holds path then .error (.generatorExists path)
  return (path, ← p.newGenerator t name requested)

/-- Creates a generator and gives the path of its document. -/
def create (p : Project) (t : FileTree) (dir : Path) (name requested : String) : Outcome Path :=
  match p.planCreation t dir name requested with
  | .error e => .failed t e
  | .ok (path, g) =>
    match (Operation.write path g.write).run t with
    | (t, .error e) => .failed t e
    | (t, .ok ()) => .done t path

-- ── Pulling blocks ───────────────────────────────────────────────────────────

/-- The path of the output to pull from. -/
def pullSource (p : Project) (g : Generator) (dir : Path) : Except Error Path := do
  match ← g.exportedPath dir with
  | some path => .ok path
  | none => g.outputPath dir p.config.outputExtension

/-- A generator and the text of the output to pull from. -/
def readForPull (p : Project) (t : FileTree) (path : Path) : Except Error (Generator × String) := do
  let g ← Generator.load t path
  let source ← p.pullSource g path.directory
  if !t.isFile source then .error (.outputNotFound source)
  let text ← (t.readText source).mapError fun _ => Error.io
  return (g, text)

/-- Pulls the blocks of a generator and gives the names of those that changed. -/
def pull (p : Project) (t : FileTree) (path : Path) : Outcome (List String) :=
  match p.readForPull t path with
  | .error e => .failed t e
  | .ok (g, text) =>
    let names := g.pulledNames text
    let warnings := g.pullWarnings text
    if names.isEmpty then { files := t, warnings, result := .ok names }
    else
      match (Operation.write path (g.pull text).write).run t with
      | (t, .error e) => { files := t, warnings, result := .error e }
      | (t, .ok ()) => { files := t, warnings, result := .ok names }

end Project

end ShaderTemplates
