import ShaderTemplates.Path
import ShaderTemplates.Template.Conversion

/-!
# Errors and warnings

The reasons for which an operation on documents, projects and files can fail. Each has a code and
a message that starts with it. Warnings are what an operation reports beside its result.
-/

namespace ShaderTemplates

open Template (Unresolved)

inductive Error where
  | projectNotFound
  /-- The configuration cannot be read as one. -/
  | configInvalid
  /-- A path that has to stay below a directory leads out of it. -/
  | pathEscape (path : Path)
  /-- An extension is empty or starts with a dot. -/
  | configValue (field extension : String)
  | templateNotFound (name : String)
  | catalogEmpty (directory : Path)
  | unresolved (u : Unresolved)
  | generatorNotFound (path : Path)
  | generatorInvalid (path : Path)
  | generatorExists (path : Path)
  | nameEmpty
  /-- A name is no file name. -/
  | nameInvalid (name : String)
  /-- There is no generated file to pull from. -/
  | outputNotFound (path : Path)
  /-- The generated file would move onto another file. -/
  | outputConflict (previous output : Path)
  | writeFailed (path : Path)
  /-- Reading, listing or creating something on disk failed. -/
  | io
deriving DecidableEq, Repr

namespace Error

def code : Error → String
  | projectNotFound => "PROJECT_NOT_FOUND"
  | configInvalid => "PROJECT_CONFIG_INVALID"
  | pathEscape _ => "PROJECT_PATH_ESCAPE"
  | configValue _ _ => "CONFIG_INVALID_VALUE"
  | templateNotFound _ => "TEMPLATE_NOT_FOUND"
  | catalogEmpty _ => "TEMPLATE_CATALOG_EMPTY"
  | unresolved _ => "TEMPLATE_UNRESOLVED"
  | generatorNotFound _ => "GENERATOR_NOT_FOUND"
  | generatorInvalid _ => "GENERATOR_INVALID"
  | generatorExists _ => "GENERATOR_EXISTS"
  | nameEmpty => "SHADER_NAME_EMPTY"
  | nameInvalid _ => "SHADER_NAME_INVALID"
  | outputNotFound _ => "OUTPUT_NOT_FOUND"
  | outputConflict _ _ => "OUTPUT_CONFLICT"
  | writeFailed _ => "OUTPUT_WRITE_FAILED"
  | io => "IO_ERROR"

/-- What went wrong, without the code. -/
def description : Error → String
  | projectNotFound => "shadergen.toml not found in current or parent directories"
  | configInvalid => "failed to parse shadergen.toml"
  | pathEscape path => "path '" ++ path.toString ++ "' resolves outside project root"
  | configValue field extension =>
    field ++ ": expected an extension without a leading dot, got '" ++ extension ++ "'"
  | templateNotFound name => "template '" ++ name ++ "' not found"
  | catalogEmpty directory => "no templates found in '" ++ directory.toString ++ "'"
  | unresolved u => u.message
  | generatorNotFound path => "generator '" ++ path.toString ++ "' not found"
  | generatorInvalid path => "failed to parse '" ++ path.toString ++ "'"
  | generatorExists path => "generator '" ++ path.toString ++ "' already exists"
  | nameEmpty => "shader name must not be empty"
  | nameInvalid name => "'" ++ name ++ "' cannot be used as a file name"
  | outputNotFound path => "no generated shader at '" ++ path.toString ++ "'"
  | outputConflict previous output =>
    "cannot rename '" ++ previous.toString ++ "' to '" ++ output.toString ++
      "': target file exists"
  | writeFailed path => "failed to write '" ++ path.toString ++ "'"
  | io => "the file system refused the operation"

def message (e : Error) : String := e.code ++ ": " ++ e.description

end Error

inductive Warning where
  /-- The stored value of a variable is none of its alternatives, so another one is used. -/
  | staleChoice (variableName stored used : String)
  /-- The output of a generator has no block although its document stores some. -/
  | noBlocks (generator : String)
deriving DecidableEq, Repr

def Warning.message : Warning → String
  | staleChoice variableName stored used =>
    "variable '" ++ variableName ++ "' value '" ++ stored ++
      "' is not one of its choices, using '" ++ used ++ "'"
  | noBlocks generator => "no blocks found in generated output of '" ++ generator ++ "'"

end ShaderTemplates
