import ShaderTemplates.CommandLine.Arguments
import ShaderTemplates.CommandLine.Listing

/-!
# Running commands

A command reads and changes the files and prints lines: results on one channel, failures on the
other. `Request.answer` gives all of it; the exit code is 0 for success, 1 for a failure and 2 for
arguments that cannot be understood.
-/

namespace ShaderTemplates.CommandLine

open Template (Values convert scan)

/-- What a command leaves: the files after it, what it printed, and its exit code. -/
structure Reply where
  files : FileTree
  output : String := ""
  errors : String := ""
  code : Nat := 0

namespace Reply

/-- Lines with their line breaks. -/
def unlines (lines : List String) : String := String.join (lines.map (· ++ "\n"))

/-- A success with lines of output. -/
def success (files : FileTree) (lines : List String) : Reply := { files, output := unlines lines }

/-- A failure, after lines of output. -/
def failure (files : FileTree) (lines : List String) (message : String) : Reply :=
  { files, output := unlines lines, errors := unlines ["Error: " ++ message], code := 1 }

/-- A success or a failure that changes nothing. -/
def ofExcept (files : FileTree) : Except String (List String) → Reply
  | .ok lines => success files lines
  | .error message => failure files [] message

end Reply

/-- The project that the working directory belongs to. -/
def currentProject (t : FileTree) : Except Error Project := do
  match ← Project.find? t t.workingDirectory with
  | some project => .ok project
  | none => .error .projectNotFound

/-- The text of a file, or that reading it failed. -/
def readNamed (t : FileTree) (what : String) (path : Path) : Except String String :=
  (t.readText path).mapError fun _ => "Failed to read " ++ what ++ path.toString

-- ── Commands outside of projects ─────────────────────────────────────────────

def runInit (t : FileTree) (name : Option String) (verbose : Bool) : Reply :=
  let here := t.workingDirectory
  if t.holds (Project.configPathIn here) then
    .failure t [] (Config.fileName ++ " already exists in " ++ here.toString)
  else
    let name := name.getD (t.process.current.getLast?.getD "shaders")
    let o := Project.setUp t here name
    match o.result with
    | .error e => .failure o.files [] e.message
    | .ok project =>
      .success o.files
        (("✓ Initialized project '" ++ name ++ "' at " ++ project.root.toString) ::
          if verbose then
            ["", "→ Project structure:", "  - " ++ Config.fileName ++ " (project configuration)",
              "  - " ++ project.config.templatesDir ++ "/ (templates)"]
          else [])

def runScan (t : FileTree) (file : Path) (json : Bool) : Reply :=
  .ofExcept t do
    let i := scan (← readNamed t "" file)
    if json then .ok [(fileJson file i).print 0]
    else if i.isEmpty then .ok ["No directives found in " ++ file.toString]
    else .ok (inventoryLines i)

/-- The values for a conversion: those in a file, or none. -/
def readValues (t : FileTree) : Option Path → Except String Values
  | none => .ok ∅
  | some path => do
    match Values.parse? (← readNamed t "values " path) with
    | some values => .ok values
    | none => .error ("Invalid values file " ++ path.toString)

/-- Converts a template; unless it is strict, missing values are the defaults of the template. -/
def convertFile (t : FileTree) (template : Path) (values : Option Path) (strict : Bool) :
    Except String Template.Conversion := do
  let text ← readNamed t "template " template
  let given ← readValues t values
  let values := if strict then given else given.orDefaults (scan text).defaults
  (convert text values).mapError Template.Unresolved.message

def runConvert (t : FileTree) (template : Path) (values output : Option Path)
    (strict verbose : Bool) : Reply :=
  match convertFile t template values strict with
  | .error message => .failure t [] message
  | .ok conversion =>
    match output with
    | none => { files := t, output := conversion.text }
    | some path =>
      match (Operation.write path conversion.text).run t with
      | (t, .error e) => .failure t [] e.message
      | (t, .ok ()) =>
        .success t
          (("✓ Wrote " ++ path.toString) ::
            if verbose then [statsLine conversion.stats] else [])

-- ── Commands inside of projects ──────────────────────────────────────────────

/-- Runs a command with the current project. -/
def withProject (t : FileTree) (run : Project → Reply) : Reply :=
  match currentProject t with
  | .error e => .failure t [] e.message
  | .ok project => run project

/-- The lines about the templates of a catalog, up to the first one that cannot be read. -/
def templateLines (t : FileTree) (c : Catalog) (verbose : Bool) :
    List String → List String × Option Error
  | [] => ([], none)
  | name :: rest =>
    match c.read t name with
    | .error e => ([], some e)
    | .ok text =>
      let i := scan text
      let mark := if c.defaultName? = some name then " (default)" else ""
      let lines := (name ++ mark ++ "  " ++ sizeText i) ::
        if verbose then inventoryLines i else []
      let (others, failure) := templateLines t c verbose rest
      (lines ++ others, failure)

def runTemplates (t : FileTree) (json verbose : Bool) : Reply :=
  withProject t fun project =>
    match project.templatesDirectory, project.catalog t with
    | .error e, _ | _, .error e => .failure t [] e.message
    | .ok directory, .ok catalog =>
      if json then
        let templates := catalog.templates.entries.mapM fun (name, path) =>
          (catalog.read t name).map fun text => templateJson name path (scan text)
        .ofExcept t do
          let templates ← templates.mapError Error.message
          .ok [(catalogJson project.config.name directory catalog templates).print 0]
      else if catalog.isEmpty then .success t ["! No templates in " ++ directory.toString]
      else
        match templateLines t catalog verbose catalog.names with
        | (lines, none) => .success t lines
        | (lines, some e) => .failure t lines e.message

def runCreate (t : FileTree) (name : String) (template : Option String) (verbose : Bool) : Reply :=
  withProject t fun project =>
    let here := t.workingDirectory
    let before :=
      if verbose then ["→ Creating generator '" ++ name ++ "' in " ++ here.toString] else []
    let o := project.create t here name (template.getD "")
    match o.result with
    | .error e => .failure o.files before e.message
    | .ok path =>
      .success o.files (before ++
        ["✓ Created generator '" ++ name ++ "' at " ++ path.toString, "",
          "Next: shadergen export " ++ path.fileName?.getD path.toString])

def runExport (t : FileTree) (generator : Path) (verbose : Bool) : Reply :=
  withProject t fun project =>
    let before := if verbose then ["→ Exporting " ++ generator.toString] else []
    let o := project.exportGenerator t generator
    match o.result with
    | .error e => .failure o.files before e.message
    | .ok report => .success o.files (before ++ reportLines report verbose)

def runPull (t : FileTree) (generator : Path) : Reply :=
  withProject t fun project =>
    let o := project.pull t generator
    match o.result with
    | .error e => .failure o.files [] e.message
    | .ok [] => .success o.files ["✓ No block changes in " ++ generator.toString]
    | .ok names =>
      .success o.files
        (("✓ Pulled " ++ toString names.length ++ " block(s) into " ++ generator.toString) ::
          names.map ("  - " ++ ·))

/-- The line about a generator whose export failed. -/
def failureLine? (e : Path × Except Error ExportReport) : Option String :=
  match e.2 with
  | .error failure => some ("✗ " ++ e.1.toString ++ ": " ++ failure.message)
  | .ok _ => none

def runReconvert (t : FileTree) (verbose : Bool) : Reply :=
  withProject t fun project =>
    let o := project.reconvert t
    match o.result with
    | .error e => .failure o.files [] e.message
    | .ok [] => .success o.files ["! No generators found"]
    | .ok exports =>
      let lines := exports.flatMap fun e =>
        match e.2 with
        | .ok report => reportLines report verbose
        | .error _ => []
      match exports.filterMap failureLine? with
      | [] =>
        .success o.files (lines ++
          ["", "✓ Reconverted " ++ toString exports.length ++ " generator(s)"])
      | failures =>
        { files := o.files
          output := Reply.unlines lines
          errors := Reply.unlines (failures ++
            ["Error: " ++ toString failures.length ++ " of " ++ toString exports.length ++
              " generators failed"])
          code := 1 }

-- ── Requests ─────────────────────────────────────────────────────────────────

def Command.run (t : FileTree) (verbose : Bool) : Command → Reply
  | init name => runInit t name verbose
  | scan file json => runScan t file json
  | convert template values output strict => runConvert t template values output strict verbose
  | templates json => runTemplates t json verbose
  | create name template => runCreate t name template verbose
  | exportGenerator generator => runExport t generator verbose
  | pullGenerator generator => runPull t generator
  | reconvert => runReconvert t verbose

/-- The name and the number of the program. -/
def versionLine : String := "shadergen 0.1.0"

/-- The answer to the arguments of the program. -/
def answer (t : FileTree) (words : List String) : Reply :=
  match Request.parse? words with
  | none => { files := t, code := 2 }
  | some .version => .success t [versionLine]
  | some (.run command verbose) => command.run t verbose

end ShaderTemplates.CommandLine
