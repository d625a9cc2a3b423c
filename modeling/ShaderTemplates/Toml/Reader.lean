import ShaderTemplates.Text
import ShaderTemplates.Toml.Moment
import ShaderTemplates.Toml.Number
import ShaderTemplates.Toml.Quoted
import ShaderTemplates.Toml.Value

/-!
# Reading documents

A document is read in two steps. Its text becomes a list of statements, each a header or an
assignment on lines of its own; then the statements build the table that they describe. Either
step can fail, and a document that fails is no document: which rule it broke is not reported.

Line breaks are LF or CR LF and are made LF first. What is left of the carriage returns after that
is an error wherever it stands.

* `statements?` — the first step;
* `Statement.apply?`, `build?` — the second;
* `parse?` — both.
-/

namespace ShaderTemplates.Toml

-- ── Blanks and comments ──────────────────────────────────────────────────────

/-- Drops spaces and tabs. -/
def skipSpace (cs : List Char) : List Char := cs.dropWhile fun c => c = ' ' || c = '\t'

/-- Drops spaces, tabs, line breaks and comments; `inComment` says that the text starts inside of
    one. -/
def skipLines : Bool → List Char → List Char
  | _, [] => []
  | inComment, c :: rest =>
    if inComment && isPlain c then skipLines true rest
    else if c = '\n' || (!inComment && (c = ' ' || c = '\t')) then skipLines false rest
    else if !inComment && c = '#' then skipLines true rest
    else c :: rest

/-- Ends a line, which may have a comment. -/
def endLine? (cs : List Char) : Option (List Char) :=
  let rest :=
    match skipSpace cs with
    | '#' :: comment => comment.dropWhile isPlain
    | rest => rest
  match rest with
  | [] => some []
  | '\n' :: rest => some rest
  | _ => none

-- ── Keys ─────────────────────────────────────────────────────────────────────

/-- The deepest nesting of arrays and inline tables, and the most parts of a dotted key. -/
def depthLimit : Nat := 79

/-- A key as the way to a table and the name of an entry in it. -/
structure Key where
  path : List String
  name : String
deriving DecidableEq, Repr

/-- The parts of a dotted key with blanks around each of them, at most `limit` of them. -/
def readParts? : Nat → List Char → Option (List String × List Char)
  | 0, _ => none
  | limit + 1, cs => do
    let (part, rest) ← readKey? (skipSpace cs)
    match skipSpace rest with
    | '.' :: rest =>
      let (parts, rest) ← readParts? limit rest
      return (String.ofList part :: parts, rest)
    | rest => return ([String.ofList part], rest)

/-- A dotted key. -/
def readDotted? (cs : List Char) : Option (Key × List Char) := do
  let (parts, rest) ← readParts? depthLimit cs
  let name ← parts.getLast?
  return (⟨parts.dropLast, name⟩, rest)

-- ── Values ───────────────────────────────────────────────────────────────────

/-- Characters of numbers, moments and the words for truth values. -/
def isWord (c : Char) : Bool := isBare c || c = '+' || c = '.' || c = ':'

/-- The value that a word stands for. -/
def word? (word : List Char) : Option Value :=
  if word = ['t', 'r', 'u', 'e'] then some (.boolean true)
  else if word = ['f', 'a', 'l', 's', 'e'] then some (.boolean false)
  else
    match moment? word with
    | some text => some (.moment text)
    | none =>
      match readInteger? word with
      | some i => some (.integer i)
      | none => if isFloat word then some .float else none

/-- A word at the start of a text. A space between a date and digits belongs to it. -/
def readWord? (cs : List Char) : Option (Value × List Char) :=
  let word := cs.takeWhile isWord
  let rest := cs.dropWhile isWord
  let (word, rest) :=
    match rest with
    | ' ' :: c :: after =>
      if isDate word && c.isDigit then
        (word ++ ' ' :: (c :: after).takeWhile isWord, (c :: after).dropWhile isWord)
      else (word, rest)
    | rest => (word, rest)
  (word? word).map (·, rest)

mutual

/-- A value. Each step of a nested value takes one from `budget`; `depth` more brackets and braces
    may be opened. -/
def readValue? : Nat → Nat → List Char → Option (Value × List Char)
  | 0, _, _ => none
  | _ + 1, _, [] => none
  | budget + 1, depth, c :: rest =>
    if c = '"' || c = '\'' then
      (readText? (c :: rest)).map fun (text, rest) => (.string (String.ofList text), rest)
    else if c = '[' then
      match depth with
      | 0 => none
      | depth + 1 =>
        (readElements? budget depth rest).map fun (elements, rest) => (.array elements, rest)
    else if c = '\x7b' then
      match depth with
      | 0 => none
      | depth + 1 =>
        match skipSpace rest with
        | '\x7d' :: rest => some (.table .inline [], rest)
        | rest =>
          (readPairs? budget depth [] rest).map fun (entries, rest) =>
            (.table .inline entries, rest)
    else readWord? (c :: rest)

/-- The elements of an array up to its closing bracket; a comma may stand before that. -/
def readElements? : Nat → Nat → List Char → Option (List Value × List Char)
  | 0, _, _ => none
  | budget + 1, depth, cs =>
    match skipLines false cs with
    | ']' :: rest => some ([], rest)
    | cs => do
      let (value, rest) ← readValue? budget depth cs
      match skipLines false rest with
      | ',' :: rest =>
        let (values, rest) ← readElements? budget depth rest
        return (value :: values, rest)
      | ']' :: rest => return ([value], rest)
      | _ => none

/-- The entries of an inline table up to its closing brace, after those that were read before. -/
def readPairs? : Nat → Nat → Entries → List Char → Option (Entries × List Char)
  | 0, _, _, _ => none
  | budget + 1, depth, entries, cs => do
    let (key, rest) ← readDotted? cs
    match rest with
    | '=' :: rest =>
      let (value, rest) ← readValue? budget depth (skipSpace rest)
      let entries ← assign? key.path key.name value .inline entries
      match skipSpace rest with
      | ',' :: rest => readPairs? budget depth entries rest
      | '\x7d' :: rest => return (entries, rest)
      | _ => none
    | _ => none

end

-- ── Statements ───────────────────────────────────────────────────────────────

/-- What a line of a document says. -/
inductive Statement where
  /-- A header in single brackets: a table starts. -/
  | tableHeader (key : Key)
  /-- A header in double brackets: an element of an array of tables starts. -/
  | elementHeader (key : Key)
  | assignment (key : Key) (value : Value)
deriving Repr

/-- A statement, if there is one before the end of the line, and the text after it. -/
def readStatement? (cs : List Char) : Option (Option Statement × List Char) :=
  match skipSpace cs with
  | [] | '\n' :: _ | '#' :: _ => (endLine? cs).map (none, ·)
  | '[' :: '[' :: rest => do
    let (key, rest) ← readDotted? rest
    match rest with
    | ']' :: ']' :: rest => (endLine? rest).map (some (.elementHeader key), ·)
    | _ => none
  | '[' :: rest => do
    let (key, rest) ← readDotted? rest
    match rest with
    | ']' :: rest => (endLine? rest).map (some (.tableHeader key), ·)
    | _ => none
  | cs => do
    let (key, rest) ← readDotted? cs
    match rest with
    | '=' :: rest =>
      let (value, rest) ← readValue? (2 * rest.length + 1) depthLimit (skipSpace rest)
      (endLine? rest).map (some (.assignment key value), ·)
    | _ => none

/-- The statements of a text; each takes one from `budget`. -/
def readStatements? : Nat → List Char → Option (List Statement)
  | _, [] => some []
  | 0, _ => none
  | budget + 1, cs => do
    let (statement, rest) ← readStatement? cs
    let statements ← readStatements? budget rest
    return statement.toList ++ statements

/-- The statements of a text. A byte order mark may stand before them. -/
def statements? (cs : List Char) : Option (List Statement) :=
  let cs :=
    match cs with
    | '\uFEFF' :: rest => rest
    | cs => cs
  let cs := Text.unixBreaks cs
  readStatements? cs.length cs

-- ── Building the document ────────────────────────────────────────────────────

/-- A document under construction: the table that assignments go to, and all entries. -/
structure Draft where
  current : List String
  entries : Entries

/-- Adds what a statement says. -/
def Statement.apply? (draft : Draft) : Statement → Option Draft
  | tableHeader key =>
    (openTable? key.path key.name draft.entries).map (⟨key.path ++ [key.name], ·⟩)
  | elementHeader key =>
    (addElement? key.path key.name draft.entries).map (⟨key.path ++ [key.name], ·⟩)
  | assignment key value =>
    (changeAt? false (fun origin entries => assign? key.path key.name value origin entries)
      draft.current .header draft.entries).map (⟨draft.current, ·⟩)

/-- The table that statements describe. -/
def build? (statements : List Statement) : Option Entries :=
  (statements.foldlM Statement.apply? ⟨[], []⟩).map Draft.entries

/-- The entries of a document. -/
def parse? (text : String) : Option Entries := (statements? text.toList).bind build?

end ShaderTemplates.Toml
