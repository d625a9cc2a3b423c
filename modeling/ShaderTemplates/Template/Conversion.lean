import ShaderTemplates.Template.Inventory

/-!
# Conversion

`convert` turns a template into text in three passes, each over the text that the pass before
left:

* every conditional becomes its chosen branch, and so do the conditionals inside that branch;
* every block becomes its canonical form around the given body;
* every variable, those inside block bodies included, becomes its value.

Values are inserted once and never read again. At the end every CR LF becomes LF. A name without a
value ends the conversion; names in branches that were not chosen are never asked for.
-/

namespace ShaderTemplates.Template

open Text

/-- A directive whose name has no value. The line counts within the text that the failing pass was
    reading. -/
structure Unresolved where
  kind : Kind
  name : String
  line : Nat
deriving DecidableEq, Repr

namespace Unresolved

def message (u : Unresolved) : String :=
  "Unresolved " ++ u.kind.word ++ " '" ++ u.name ++ "': no value was given for it"

/-- The message with the place of the directive, for a log. -/
def logMessage (u : Unresolved) : String :=
  u.kind.word ++ " '" ++ u.name ++ "' at line " ++ toString u.line ++ " has no value"

end Unresolved

/-- How many directives a conversion replaced. -/
structure Stats where
  conditionals : Nat
  blocks : Nat
  vars : Nat
deriving DecidableEq, Repr

/-- A converted text. -/
structure Conversion where
  text : String
  stats : Stats
deriving DecidableEq, Repr

-- ── The passes ───────────────────────────────────────────────────────────────

/-- The value stored for a directive, or the directive as unresolved. -/
def lookUp {α : Type} (table : Table α) (kind : Kind) (name : String) (line : Nat) :
    Except Unresolved α :=
  match table.get? name with
  | some value => .ok value
  | none => .error ⟨kind, name, line⟩

/-- The text that the chosen branches of an outline make up, and the number of choices on the
    way. -/
def Outline.resolve (conditions : Table Bool) : Outline → Except Unresolved (List Char × Nat)
  | .done => .ok ([], 0)
  | .char c rest => (rest.resolve conditions).map fun after => (c :: after.1, after.2)
  | .choice name _ line whenTrue whenFalse rest => do
    let branch ←
      match ← lookUp conditions .condition name line with
      | true => whenTrue.resolve conditions
      | false => whenFalse.resolve conditions
    let after ← rest.resolve conditions
    return (branch.1 ++ after.1, branch.2 + after.2 + 1)

/-- Replaces every block by its canonical form around the given body. -/
def fillBlocks (bodies : Table String) (cs : List Char) : Except Unresolved (List Char) :=
  Piece.substitute
    (fun b =>
      (lookUp bodies .block b.name b.line).map fun body =>
        Block.canonical b.name.toList body.toList)
    (blockPieces cs)

/-- Replaces every variable by its value. -/
def fillVariables (values : Table String) (cs : List Char) : Except Unresolved (List Char) :=
  Piece.substitute (fun v => (lookUp values .variable v.name v.line).map String.toList)
    (variablePieces cs)

/-- Converts a template with the given values. -/
def convert (template : String) (values : Values) : Except Unresolved Conversion := do
  let structured ← (Outline.ofText template.toList).resolve values.conditions
  let withBlocks ← fillBlocks values.blocks structured.1
  let filled ← fillVariables values.vars withBlocks
  return {
    text := String.ofList (unixBreaks filled)
    stats := ⟨structured.2, (blocks structured.1).length, (vars withBlocks).length⟩ }

end ShaderTemplates.Template
