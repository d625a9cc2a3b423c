import ShaderTemplates.Error
import ShaderTemplates.Toml.Reader
import ShaderTemplates.Toml.Section
import ShaderTemplates.Toml.Writer

/-!
# The configuration of a project

The file `shadergen.toml` names the project, says where its templates are and which extensions
templates and generated files have, and fixes the values of some variables.

* `Config.named` — the configuration of a new project;
* `Config.parse` — reading, which checks the extensions;
* `Config.write` — the text of the file.
-/

namespace ShaderTemplates

structure Config where
  /-- The name of the project. -/
  name : String
  /-- The directory of the templates, relative to the root of the project. -/
  templatesDir : String := "templates"
  /-- The extension of templates, without its dot. -/
  templatesExtension : String := "tmpl"
  /-- The extension of generated files, without its dot. -/
  outputExtension : String := "shader"
  /-- Variables with a fixed value. -/
  constants : Table String := ∅
deriving DecidableEq, Repr

namespace Config

/-- The name of the file in the root directory of a project. -/
def fileName : String := "shadergen.toml"

/-- The configuration of a new project. -/
def named (name : String) : Config := { name }

open Toml in
/-- The configuration that a document gives. -/
def ofEntries? (document : Entries) : Option Config := do
  let project ← (← document.lookup "project") |> Section.ofValue?
  let templates ← section? document "templates"
  let output ← section? document "output"
  let default := named ""
  return {
    name := ← project.required? 0 "name"
    templatesDir := ← templates.withDefault? 0 "dir" default.templatesDir
    templatesExtension := ← templates.withDefault? 1 "extension" default.templatesExtension
    outputExtension := ← output.withDefault? 0 "extension" default.outputExtension
    constants := ← textTable? document "constants" }

/-- Whether an extension can follow the dot of a file name. -/
def isExtension (extension : String) : Bool :=
  !extension.isEmpty && extension.toList.head? ≠ some '.'

/-- Checks the two extensions. -/
def validate (c : Config) : Except Error Config :=
  if !isExtension c.templatesExtension then
    .error (.configValue "templates.extension" c.templatesExtension)
  else if !isExtension c.outputExtension then
    .error (.configValue "output.extension" c.outputExtension)
  else .ok c

/-- Reads a configuration. -/
def parse (text : String) : Except Error Config :=
  match (Toml.parse? text).bind ofEntries? with
  | some c => c.validate
  | none => .error .configInvalid

/-- The text of a configuration file. -/
def write (c : Config) : String :=
  Toml.writeDocument [
    ⟨"project", [("name", .text c.name)]⟩,
    ⟨"templates", [("dir", .text c.templatesDir), ("extension", .text c.templatesExtension)]⟩,
    ⟨"output", [("extension", .text c.outputExtension)]⟩,
    ⟨"constants", Toml.textEntries c.constants⟩]

end Config

end ShaderTemplates
