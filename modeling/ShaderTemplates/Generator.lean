import ShaderTemplates.Error
import ShaderTemplates.FileTree.Lookup
import ShaderTemplates.Template.Inventory
import ShaderTemplates.Text
import ShaderTemplates.Toml.Writer

/-!
# Generators

A generator is a document that holds the choices for one shader: its name, the template it is made
from, and a value for the directives of that template. The shader file that an export writes from
it is called its output.

* `parse?`, `write`, `load` — reading and writing the document.
* `outputPath`, `exportedPath` — where the output is. It is at or below the directory of the
  document: in the output directory that the document names, under the name of the shader. The file
  name of the last output is part of the document, so that it is found again after the shader got
  another name.
* `sync`, `missing` — keeping up with the template. A template can gain directives after a generator
  was made: `sync` stores the template's default for each name that the generator has no value for,
  and `missing` lists these names. Stored values stay, also those that the template no longer uses.
* `resolve`, `staleChoices`, `recordFixed` — the values of a conversion, the warnings for stored
  values that are no longer among the alternatives, and the values that are fixed.
* `pull` — the bodies of blocks are edited in the output. Pulling copies them back into the
  generator: each block that the generator stores takes the body that the output has for it. Blocks
  that the generator does not store are ignored.
-/

namespace ShaderTemplates

open Template (Inventory Values defaultAlternative scan)

-- ── Names and directories from documents ─────────────────────────────────────

-- Documents and configurations name files and directories. Before such a text becomes part of a
-- path it is checked: a file name has to be a single name, and a directory has to stay below the
-- directory it is relative to.

/-- A name that can stand for a file: not blank, no separator in it, and neither `.` nor `..`. -/
def checkFileName (name : String) : Except Error Unit :=
  if Text.isBlankText name then .error .nameEmpty
  else if name.toList.any (fun c => c = '/' || c = '\\') || name = "." || name = ".." then
    .error (.nameInvalid name)
  else .ok ()

/-- The directory `relative` below `base`. Its names are put after `base`, which stays as it is
    written; a path that starts at the root or goes up is refused. -/
def Path.joinBelow (base relative : Path) : Except Error Path :=
  if relative.isRooted || relative.components.contains .parent then .error (.pathEscape relative)
  else .ok (relative.names.foldl Path.child base)

-- ── Documents ────────────────────────────────────────────────────────────────

structure Generator where
  /-- The name of the shader, which is also the stem of the output's file name. -/
  name : String
  /-- The name of the template; no name stands for the first template of the catalog. -/
  template : String
  /-- The directory of the output, relative to the document; unset, the output is beside it. -/
  outputDir : Option String := none
  /-- The file name of the last output. -/
  exported : Option String := none
  values : Values := ∅
deriving DecidableEq, Repr

namespace Generator

open Toml in
/-- The generator that a document gives. -/
def ofEntries? (document : Entries) : Option Generator := do
  let shader ← (← document.lookup "shader") |> Section.ofValue?
  return {
    name := ← shader.required? 0 "name"
    template := ← shader.withDefault? 1 "template" ""
    outputDir := ← shader.optional? 2 "output_dir"
    exported := ← shader.optional? 3 "exported"
    values := ← Values.ofEntries? document }

/-- Reads a generator document. -/
def parse? (text : String) : Option Generator := (Toml.parse? text).bind ofEntries?

/-- The text of a generator document. -/
def write (g : Generator) : String :=
  Toml.writeDocument [
    ⟨"shader",
      [("name", .text g.name), ("template", .text g.template)] ++
        Toml.optionalEntry "output_dir" g.outputDir ++ Toml.optionalEntry "exported" g.exported⟩,
    ⟨"conditions", Toml.flagEntries g.values.conditions⟩,
    ⟨"variables", Toml.textEntries g.values.vars⟩,
    ⟨"blocks", Toml.textEntries g.values.blocks⟩]

/-- Reads the generator in a file. -/
def load (t : FileTree) (path : Path) : Except Error Generator :=
  if !t.isFile path then .error (.generatorNotFound path)
  else
    match t.readText path with
    | .error _ => .error .io
    | .ok text =>
      match parse? text with
      | some g => .ok g
      | none => .error (.generatorInvalid path)

-- ── Outputs ──────────────────────────────────────────────────────────────────

/-- The directory of the output, seen from the directory of the document. -/
def outputDirectory (g : Generator) (dir : Path) : Except Error Path :=
  match g.outputDir with
  | some relative => dir.joinBelow (Path.ofString relative)
  | none => .ok dir

/-- The path of the output for the present name of the shader. -/
def outputPath (g : Generator) (dir : Path) (extension : String) : Except Error Path := do
  checkFileName g.name
  return (← g.outputDirectory dir).join (Path.ofString (g.name ++ "." ++ extension))

/-- The path of the last output, if one is recorded. -/
def exportedPath (g : Generator) (dir : Path) : Except Error (Option Path) :=
  match g.exported with
  | some fileName => do
    checkFileName fileName
    return some ((← g.outputDirectory dir).join (Path.ofString fileName))
  | none => .ok none

-- ── Keeping up with the template ─────────────────────────────────────────────

/-- Names of directives by kind, in the order of the template. -/
structure DirectiveNames where
  conditions : List String
  blocks : List String
  vars : List String
deriving DecidableEq, Repr

namespace DirectiveNames

def size (n : DirectiveNames) : Nat :=
  n.conditions.length + n.blocks.length + n.vars.length

def isEmpty (n : DirectiveNames) : Bool := n.size == 0

end DirectiveNames

/-- The names that have no entry in a table. -/
def missingNames {α β : Type} (stored : Table α) (listed : Directives β) : List String :=
  listed.names.filter (!stored.contains ·)

/-- The directives of a template that the generator has no value for. -/
def missing (g : Generator) (i : Inventory) : DirectiveNames where
  conditions := missingNames g.values.conditions i.conditions
  blocks := missingNames g.values.blocks i.blocks
  vars := missingNames g.values.vars i.vars

/-- Goes through the listed names, and adds the default of each one that has no entry yet. -/
def addMissing {α β : Type} (default : β → α) (stored : Table α) (listed : Directives β) :
    Table α :=
  listed.entries.foldl (fun table e => table.insertIfNew e.1 (default e.2)) stored

/-- Adds the default of each missing directive: what a condition or a block has in the template, and
    the first alternative of a variable, or nothing. -/
def sync (g : Generator) (i : Inventory) : Generator :=
  { g with values :=
    { conditions := addMissing id g.values.conditions i.conditions
      blocks := addMissing id g.values.blocks i.blocks
      vars := addMissing (fun alternatives => alternatives.head?.getD "") g.values.vars i.vars } }

-- ── The values of a conversion ───────────────────────────────────────────────

-- A conversion needs one value for each directive of the template. Conditions and blocks have the
-- stored value or else their default. The value of a variable is, in this order, the constant of
-- its name, the name of the shader for the variable `Name`, the stored value if it is one of the
-- alternatives or there are none, and the first alternative, or nothing.

/-- The variable that always has the name of the shader as its value. -/
def nameVariable : String := "Name"

/-- The stored value if there is one, and the default of the template otherwise. -/
def storedOr {α : Type} (stored : Table α) (e : String × α) : String × α :=
  (e.1, (stored.get? e.1).getD e.2)

/-- Whether a stored value can be used: it is one of the alternatives, or there are none. -/
def isChoice (alternatives : List String) (stored : String) : Bool :=
  alternatives.isEmpty || alternatives.contains stored

/-- The value of a variable that is not fixed. -/
def chosen (g : Generator) (name : String) (alternatives : List String) : String :=
  match g.values.vars.get? name with
  | some stored =>
    if isChoice alternatives stored then stored else defaultAlternative alternatives
  | none => defaultAlternative alternatives

/-- The value that constants or the name of the shader fix for a variable. -/
def fixed? (g : Generator) (constants : Table String) (name : String) : Option String :=
  match constants.get? name with
  | some value => some value
  | none => if name = nameVariable then some g.name else none

/-- The values for the directives of a template. The shader needs a name that is not blank. -/
def resolve (g : Generator) (i : Inventory) (constants : Table String) : Except Error Values :=
  if Text.isBlankText g.name then .error .nameEmpty
  else
    .ok {
      conditions := .ofList (i.conditions.entries.map (storedOr g.values.conditions))
      blocks := .ofList (i.blocks.entries.map (storedOr g.values.blocks))
      vars := .ofList (i.vars.entries.map fun e =>
        (e.1, (g.fixed? constants e.1).getD (g.chosen e.1 e.2))) }

/-- A warning for each stored value that is none of the alternatives of its variable. -/
def staleChoices (g : Generator) (i : Inventory) : List Warning :=
  if Text.isBlankText g.name then []
  else
    i.vars.entries.filterMap fun e =>
      match g.values.vars.get? e.1 with
      | some stored =>
        if isChoice e.2 stored then none
        else some (.staleChoice e.1 stored (defaultAlternative e.2))
      | none => none

/-- Stores the fixed values of the variables that the template uses. -/
def recordFixed (g : Generator) (i : Inventory) (constants : Table String) : Generator :=
  let fixed := i.vars.names.filterMap fun name =>
    (g.fixed? constants name).map fun value => (name, value)
  { g with values.vars := (SortedMap.ofList fixed).orElse g.values.vars }

-- ── Pulling blocks ───────────────────────────────────────────────────────────

/-- The blocks of an output whose bodies differ from the stored ones. -/
def editedBlocks (g : Generator) (output : String) : List (String × String) :=
  (scan output).blocks.entries.filter fun e =>
    match g.values.blocks.get? e.1 with
    | some stored => stored ≠ e.2
    | none => false

/-- The names of the blocks that `pull` changes. -/
def pulledNames (g : Generator) (output : String) : List String :=
  (g.editedBlocks output).map (·.1)

/-- Takes the edited bodies over. -/
def pull (g : Generator) (output : String) : Generator :=
  let edited := SortedMap.ofList (g.editedBlocks output)
  { g with values.blocks := edited.orElse g.values.blocks }

/-- A warning if the output has no block at all although the generator stores some. -/
def pullWarnings (g : Generator) (output : String) : List Warning :=
  if (scan output).blocks.isEmpty && !g.values.blocks.isEmpty then [.noBlocks g.name] else []

end Generator

end ShaderTemplates
