import ShaderTemplates.SortedMap
import ShaderTemplates.Toml.Quoted

/-!
# Writing documents

Documents are written as sections: a header, one line for each entry, and an empty line before the
next section. A section without entries keeps its header.
-/

namespace ShaderTemplates.Toml

/-- A value that is written into documents. -/
inductive Scalar where
  | text (s : String)
  | flag (b : Bool)
deriving DecidableEq, Repr

def Scalar.write : Scalar → String
  | text s => quote s
  | flag true => "true"
  | flag false => "false"

/-- A section as it is written: a bare name and the entries. -/
structure WrittenSection where
  name : String
  entries : List (String × Scalar)

/-- The entry for a text that may be unset. -/
def optionalEntry (name : String) : Option String → List (String × Scalar)
  | none => []
  | some value => [(name, .text value)]

/-- The entries of a table of texts in the order of their keys. -/
def textEntries (table : Table String) : List (String × Scalar) :=
  table.entries.map fun e => (e.1, .text e.2)

/-- The entries of a table of truth values in the order of their keys. -/
def flagEntries (table : Table Bool) : List (String × Scalar) :=
  table.entries.map fun e => (e.1, .flag e.2)

def writeEntry (e : String × Scalar) : String := quoteKey e.1 ++ " = " ++ e.2.write ++ "\n"

def WrittenSection.write (s : WrittenSection) : String :=
  "[" ++ s.name ++ "]\n" ++ String.join (s.entries.map writeEntry)

/-- The text of a document. -/
def writeDocument (sections : List WrittenSection) : String :=
  "\n".intercalate (sections.map WrittenSection.write)

end ShaderTemplates.Toml
