import ShaderTemplates.Project

/-!
# Exporting generators

An export reads first, decides then, and writes last:

* `readForExport` gathers the generator, its template and its last output;
* `ExportSource.plan` pulls the blocks, syncs the generator with its template, converts the
  template and settles where the output goes;
* `ExportPlan.operations` are the changes on disk, in this order: the output is written, the
  document is saved, and the last output is removed if the new one has another path. So the
  document never names an output that is not there.

`reconvert` exports every generator of a project; one that fails does not stop the others.
-/

namespace ShaderTemplates

open Template (Conversion Stats convert scan)

/-- What an export reads. -/
structure ExportSource where
  /-- The path of the document. -/
  document : Path
  /-- The generator, its template being the one that the catalog gave for its request. -/
  generator : Generator
  templateText : String
  /-- The last output, if it is still there: its path and its text. -/
  previous : Option (Path × String)

/-- What an export is going to do. -/
structure ExportPlan where
  document : Path
  /-- The generator as it will be saved. -/
  generator : Generator
  output : Path
  conversion : Conversion
  pulled : List String
  synced : Generator.DirectiveNames
  previous : Option Path

/-- What an export did. -/
structure ExportReport where
  document : Path
  output : Path
  template : String
  /-- The blocks whose bodies were taken from the last output. -/
  pulled : List String
  /-- The names that the generator had no value for. -/
  synced : Generator.DirectiveNames
  /-- The path of the last output, if the new one has another. -/
  renamedFrom : Option Path
  stats : Stats
deriving DecidableEq

namespace ExportSource

/-- The names of the blocks that changed in the last output. -/
def pulledNames (s : ExportSource) : List String :=
  s.previous.elim [] fun previous => s.generator.pulledNames previous.2

/-- The generator with the blocks of the last output. -/
def pulled (s : ExportSource) : Generator :=
  s.previous.elim s.generator fun previous => s.generator.pull previous.2

/-- The generator with a value for every directive of the template. -/
def synced (s : ExportSource) : Generator := s.pulled.sync (scan s.templateText)

def warnings (s : ExportSource) : List Warning :=
  s.previous.elim [] (fun previous => s.generator.pullWarnings previous.2) ++
    s.synced.staleChoices (scan s.templateText)

/-- Settles an export. A last output elsewhere must not move onto another file. -/
def plan (s : ExportSource) (config : Config) (t : FileTree) : Except Error ExportPlan := do
  let inventory := scan s.templateText
  let values ← s.synced.resolve inventory config.constants
  let conversion ← (convert s.templateText values).mapError Error.unresolved
  let recorded := s.synced.recordFixed inventory config.constants
  let output ← recorded.outputPath s.document.directory config.outputExtension
  if let some (previous, _) := s.previous then
    if !decide (previous.SamePlace output) && t.holds output then
      .error (.outputConflict previous output)
  return {
    document := s.document
    generator := { recorded with exported := output.fileName? }
    output
    conversion
    pulled := s.pulledNames
    synced := s.pulled.missing inventory
    previous := s.previous.map (·.1) }

end ExportSource

namespace ExportPlan

/-- The last output, if it is somewhere else than the new one. -/
def renamedFrom (plan : ExportPlan) : Option Path :=
  plan.previous.filter fun previous => !decide (previous.SamePlace plan.output)

/-- The changes on disk in their order. -/
def operations (plan : ExportPlan) : List Operation :=
  [.write plan.output plan.conversion.text, .write plan.document plan.generator.write] ++
    (plan.renamedFrom.map Operation.remove).toList

def report (plan : ExportPlan) : ExportReport where
  document := plan.document
  output := plan.output
  template := plan.generator.template
  pulled := plan.pulled
  synced := plan.synced
  renamedFrom := plan.renamedFrom
  stats := plan.conversion.stats

end ExportPlan

namespace Project

/-- Gathers what an export needs. -/
def readForExport (p : Project) (t : FileTree) (path : Path) : Except Error ExportSource := do
  let g ← Generator.load t path
  let catalog ← p.selectableCatalog t
  let template ← catalog.resolveName g.template
  let templateText ← catalog.read t template
  let exported ← g.exportedPath path.directory
  let previous ←
    match exported.filter t.isFile with
    | none => pure none
    | some output =>
      match t.readText output with
      | .ok text => pure (some (output, text))
      | .error _ => .error .io
  return { document := path, generator := { g with template }, templateText, previous }

/-- Exports a generator. -/
def exportGenerator (p : Project) (t : FileTree) (path : Path) : Outcome ExportReport :=
  match p.readForExport t path with
  | .error e => .failed t e
  | .ok source =>
    match source.plan p.config t with
    | .error e => { files := t, warnings := source.warnings, result := .error e }
    | .ok plan =>
      let (t, result) := Operation.runAll t plan.operations
      { files := t, warnings := source.warnings, result := result.map fun _ => plan.report }

/-- Exports generators one after the other. -/
def exportAll (p : Project) (t : FileTree) : List Path →
    Outcome (List (Path × Except Error ExportReport))
  | [] => .done t []
  | path :: rest =>
    let first := p.exportGenerator t path
    let others := p.exportAll first.files rest
    { files := others.files
      warnings := first.warnings ++ others.warnings
      result := others.result.map ((path, first.result) :: ·) }

/-- Exports every generator of the project in the order of their paths. -/
def reconvert (p : Project) (t : FileTree) : Outcome (List (Path × Except Error ExportReport)) :=
  match p.generators t with
  | .error e => .failed t e
  | .ok paths => p.exportAll t paths

end Project

end ShaderTemplates
