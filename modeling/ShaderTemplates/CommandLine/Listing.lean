import ShaderTemplates.Json
import ShaderTemplates.Project.Export
import ShaderTemplates.Text

/-!
# Listings

What the commands print about templates and exports, as lines for readers and as JSON.
-/

namespace ShaderTemplates.CommandLine

open Template (Inventory Stats)

-- ── Templates ────────────────────────────────────────────────────────────────

def conditionLine (e : String × Bool) : String :=
  "  " ++ e.1 ++ " = " ++ (if e.2 then "true" else "false") ++ "  " ++ Label.display e.1

def blockLine (e : String × String) : String :=
  let lines := Text.lineCount e.2
  "  " ++ e.1 ++ " (" ++ toString lines ++ (if lines = 1 then " line" else " lines") ++ ")  " ++
    Label.display e.1

def variableLine (e : String × List String) : String :=
  "  " ++ e.1 ++ (if e.2.isEmpty then "" else " = " ++ "|".intercalate e.2) ++ "  " ++
    Label.display e.1

/-- The heading of a part of a listing. -/
def heading (title : String) (size : Nat) : String := "→ " ++ title ++ " (" ++ toString size ++ ")"

/-- The directives of a template, one part for each kind. -/
def inventoryLines (i : Inventory) : List String :=
  heading "Conditions" i.conditions.size :: i.conditions.entries.map conditionLine ++
    heading "Blocks" i.blocks.size :: i.blocks.entries.map blockLine ++
    heading "Variables" i.vars.size :: i.vars.entries.map variableLine

/-- The numbers of directives of a template. -/
def sizeText (i : Inventory) : String :=
  toString i.conditions.size ++ " conditions, " ++ toString i.blocks.size ++ " blocks, " ++
    toString i.vars.size ++ " variables"

def conditionsJson (i : Inventory) : Json :=
  .ofMembers (i.conditions.entries.map fun e => (e.1, .flag e.2))

def blocksJson (i : Inventory) : Json :=
  .ofMembers (i.blocks.entries.map fun e => (e.1, .text e.2))

def variablesJson (i : Inventory) : Json :=
  .ofMembers (i.vars.entries.map fun e => (e.1, .array (e.2.map .text)))

def fileJson (file : Path) (i : Inventory) : Json :=
  .ofMembers [("file", .text file.toString), ("conditions", conditionsJson i),
    ("blocks", blocksJson i), ("variables", variablesJson i)]

def templateJson (name : String) (path : Path) (i : Inventory) : Json :=
  .ofMembers [("name", .text name), ("path", .text path.toString),
    ("conditions", conditionsJson i), ("blocks", .array (i.blocks.names.map .text)),
    ("variables", variablesJson i)]

def catalogJson (project : String) (directory : Path) (c : Catalog) (templates : List Json) :
    Json :=
  .ofMembers [("project", .text project), ("templates_dir", .text directory.toString),
    ("default", c.defaultName?.elim .null .text), ("templates", .array templates)]

-- ── Exports ──────────────────────────────────────────────────────────────────

def statsLine (s : Stats) : String :=
  "  " ++ toString s.conditionals ++ " conditionals, " ++ toString s.blocks ++ " blocks, " ++
    toString s.vars ++ " variables"

/-- The lines about an export. -/
def reportLines (r : ExportReport) (verbose : Bool) : List String :=
  (match r.renamedFrom with
    | some previous => ["→ Renamed " ++ previous.toString ++ " to " ++ r.output.toString]
    | none => []) ++
  (if r.pulled.isEmpty then [] else ["→ Pulled edited blocks: " ++ ", ".intercalate r.pulled]) ++
  (if r.synced.isEmpty then [] else
    ["! Added " ++ toString r.synced.size ++ " new template value(s)"]) ++
  ["✓ Exported " ++ r.output.toString ++ " (" ++ r.template ++ ")"] ++
  (if verbose then [statsLine r.stats] else [])

end ShaderTemplates.CommandLine
