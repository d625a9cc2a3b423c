import ShaderTemplates.Toml.Reader
import ShaderTemplates.Toml.Section

/-!
# Values

The values that a template is converted with: one table for each kind of directive. In a document
they are the three tables `conditions`, `variables` and `blocks`; a table that is missing is empty.
-/

namespace ShaderTemplates.Template

/-- The three kinds of directives. -/
inductive Kind where
  | condition
  | block
  | variable
deriving DecidableEq, Repr

/-- The word for a kind of directive. -/
def Kind.word : Kind → String
  | .condition => "condition"
  | .block => "block"
  | .variable => "variable"

/-- Values for the directives of a template. -/
structure Values where
  /-- The values of conditions. -/
  conditions : Table Bool
  /-- The bodies of blocks. -/
  blocks : Table String
  /-- The values of variables. -/
  vars : Table String
deriving DecidableEq, Repr

namespace Values

/-- No value for any name. -/
def empty : Values := ⟨∅, ∅, ∅⟩

instance : EmptyCollection Values := ⟨empty⟩

instance : Inhabited Values := ⟨empty⟩

def setCondition (v : Values) (name : String) (value : Bool) : Values :=
  { v with conditions := v.conditions.insert name value }

def setBlock (v : Values) (name body : String) : Values :=
  { v with blocks := v.blocks.insert name body }

def setVariable (v : Values) (name value : String) : Values :=
  { v with vars := v.vars.insert name value }

/-- Every value that is missing is taken from `fallback`. -/
def orDefaults (v fallback : Values) : Values where
  conditions := v.conditions.orElse fallback.conditions
  blocks := v.blocks.orElse fallback.blocks
  vars := v.vars.orElse fallback.vars

-- ── Documents ────────────────────────────────────────────────────────────────

/-- The values that a document gives. -/
def ofEntries? (document : Toml.Entries) : Option Values := do
  return {
    conditions := ← Toml.flagTable? document "conditions"
    blocks := ← Toml.textTable? document "blocks"
    vars := ← Toml.textTable? document "variables" }

/-- Reads values from a document. -/
def parse? (text : String) : Option Values := (Toml.parse? text).bind ofEntries?

end Values

end ShaderTemplates.Template
