import ShaderTemplates.Directives
import ShaderTemplates.Template.Block
import ShaderTemplates.Template.Conditional
import ShaderTemplates.Template.Values
import ShaderTemplates.Template.Variable

/-!
# What a template asks for

`scan` lists the conditions, blocks and variables of a template with their defaults. It never
fails. Each kind is collected from the whole text, so blocks and variables inside the branches of
conditionals are listed as well. Of a name that appears more than once,

* the default of the first condition counts,
* the body of the last block counts,
* the alternatives of the first variable count.
-/

namespace ShaderTemplates.Template

/-- The directives of a template, in the order in which their names first appear. -/
structure Inventory where
  /-- The default of each condition. -/
  conditions : Directives Bool
  /-- The body of each block. -/
  blocks : Directives String
  /-- The alternatives of each variable; none if its value is free text. -/
  vars : Directives (List String)
deriving DecidableEq, Repr

/-- The conditions of an outline with their defaults: a conditional comes before the conditionals
    in its branches, and those before the conditionals after it. -/
def Outline.conditions : Outline → List (String × Bool)
  | .done => []
  | .char _ rest => rest.conditions
  | .choice name default? _ whenTrue whenFalse rest =>
    (name, default?.getD false) ::
      (whenTrue.conditions ++ (whenFalse.conditions ++ rest.conditions))

/-- Lists the directives of a text. -/
def inventory (cs : List Char) : Inventory where
  conditions := .ofListFirst (Outline.ofText cs).conditions
  blocks := .ofListLast ((blocks cs).map fun b => (b.name, String.ofList b.body))
  vars := .ofListFirst ((vars cs).map fun v => (v.name, v.alternatives))

/-- Lists the directives of a template. -/
def scan (template : String) : Inventory := inventory template.toList

/-- The default of a variable: its first alternative, or nothing. -/
def defaultAlternative (alternatives : List String) : String := alternatives.headD ""

namespace Inventory

def isEmpty (i : Inventory) : Bool :=
  i.conditions.isEmpty && i.blocks.isEmpty && i.vars.isEmpty

/-- The default of every directive. -/
def defaults (i : Inventory) : Values where
  conditions := .ofList i.conditions.entries
  blocks := .ofList i.blocks.entries
  vars := .ofList (i.vars.entries.map fun e => (e.1, defaultAlternative e.2))

end Inventory

end ShaderTemplates.Template
