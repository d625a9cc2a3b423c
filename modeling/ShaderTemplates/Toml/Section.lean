import ShaderTemplates.SortedMap
import ShaderTemplates.Toml.Value

/-!
# Sections

A section is a value that gives fixed fields or a table of one kind of values. Its fields are found
by name; a section written as an array gives its fields by their position instead. A date or time
counts as a table with one entry, under a reserved key. Keys that no field has are ignored, and a
value of the wrong kind is an error.

* `Section.ofValue?`, `Section.field?` — a section and its fields;
* `required?`, `withDefault?`, `optional?` — fields that have to be there, that have a default,
  and that may be unset;
* `textTable?`, `flagTable?` — tables of texts and of truth values.
-/

namespace ShaderTemplates.Toml

def Value.text? : Value → Option String
  | string s => some s
  | _ => none

def Value.flag? : Value → Option Bool
  | boolean b => some b
  | _ => none

/-- The key under which a moment has its text when it is taken for a table. -/
def momentKey : String := "$__toml_private_datetime"

/-- The entries of a value that can be taken for a table. -/
def Value.entries? : Value → Option Entries
  | table _ entries => some entries
  | moment text => some [(momentKey, .string text)]
  | _ => none

/-- Fields by name or by position. -/
inductive Section where
  | named (entries : Entries)
  | positional (values : List Value)

namespace Section

def ofValue? : Value → Option Section
  | .array elements => some (positional elements)
  | .tables before last => some (positional ((before ++ [last]).map (.table .header)))
  | value => value.entries?.map named

/-- The value of the field with the given position and name. -/
def field? (position : Nat) (name : String) : Section → Option Value
  | named entries => entries.lookup name
  | positional values => values[position]?

/-- A text that has to be there. -/
def required? (s : Section) (position : Nat) (name : String) : Option String :=
  (s.field? position name).bind Value.text?

/-- A text with a default. -/
def withDefault? (s : Section) (position : Nat) (name default : String) : Option String :=
  match s.field? position name with
  | none => some default
  | some value => value.text?

/-- A text that may be unset. -/
def optional? (s : Section) (position : Nat) (name : String) : Option (Option String) :=
  match s.field? position name with
  | none => some none
  | some value => value.text?.map some

end Section

/-- A section of a document; one that is missing is read as an empty table. -/
def section? (document : Entries) (name : String) : Option Section :=
  match document.lookup name with
  | none => some (.named [])
  | some value => Section.ofValue? value

/-- A table in which every value is of one kind. -/
def tableOf? {α : Type} (read? : Value → Option α) (document : Entries) (name : String) :
    Option (Table α) :=
  match document.lookup name with
  | none => some ∅
  | some value => do
    let entries ← value.entries?
    let read ← entries.mapM fun e => (read? e.2).map fun a => (e.1, a)
    return SortedMap.ofList read

/-- A table of texts; none at all is an empty one. -/
def textTable? : Entries → String → Option (Table String) := tableOf? Value.text?

/-- A table of truth values; none at all is an empty one. -/
def flagTable? : Entries → String → Option (Table Bool) := tableOf? Value.flag?

end ShaderTemplates.Toml
