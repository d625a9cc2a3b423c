import ShaderTemplates.SortedMap

/-!
# JSON

Values as they are printed for other programs: one element or member a line, indented by two spaces
for each level, with the members of an object in the order of their names.
-/

namespace ShaderTemplates

inductive Json where
  | null
  | flag (b : Bool)
  | text (s : String)
  | array (elements : List Json)
  | object (members : List (String × Json))

namespace Json

/-- The object with the members of a table. -/
def ofTable (members : Table Json) : Json := .object members.entries

/-- The object with the given members; of two members with one name the later counts. -/
def ofMembers (members : List (String × Json)) : Json := ofTable (.ofList members)

-- ── Texts ────────────────────────────────────────────────────────────────────

/-- The digit for a number below sixteen. -/
def hexDigit (n : Nat) : Char := if n < 10 then Char.ofNat (48 + n) else Char.ofNat (87 + n)

/-- A character of a text: quotes, backslashes and control characters are escaped. -/
def escapeChar (c : Char) : List Char :=
  if c = '"' then ['\\', '"']
  else if c = '\\' then ['\\', '\\']
  else if c = '\n' then ['\\', 'n']
  else if c = '\r' then ['\\', 'r']
  else if c = '\t' then ['\\', 't']
  else if c = '\x08' then ['\\', 'b']
  else if c = '\x0c' then ['\\', 'f']
  else if c.toNat < 0x20 then
    ['\\', 'u', '0', '0', hexDigit (c.toNat / 16), hexDigit (c.toNat % 16)]
  else [c]

def quote (s : String) : String :=
  "\"" ++ String.ofList (s.toList.flatMap escapeChar) ++ "\""

-- ── Printing ─────────────────────────────────────────────────────────────────

/-- The start of a line at a level. -/
def indentation (level : Nat) : String := "\n" ++ "".pushn ' ' (2 * level)

/-- Puts the elements of an array or the members of an object between their brackets, each on a
    line of its own. -/
def bracket (left right : String) (level : Nat) (items : List String) : String :=
  if items.isEmpty then left ++ right
  else
    left ++ ",".intercalate (items.map (indentation (level + 1) ++ ·)) ++ indentation level ++ right

mutual

/-- The text of a value whose first line starts at a level. -/
def print (level : Nat) : Json → String
  | null => "null"
  | flag true => "true"
  | flag false => "false"
  | text s => quote s
  | array elements => bracket "[" "]" level (printElements (level + 1) elements)
  | object members => bracket "\x7b" "\x7d" level (printMembers (level + 1) members)

def printElements (level : Nat) : List Json → List String
  | [] => []
  | j :: rest => j.print level :: printElements level rest

def printMembers (level : Nat) : List (String × Json) → List String
  | [] => []
  | (name, j) :: rest => (quote name ++ ": " ++ j.print level) :: printMembers level rest

end

end Json

end ShaderTemplates
