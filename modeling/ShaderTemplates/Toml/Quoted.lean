/-!
# Quoted texts

A text is written in TOML in one of four forms: between double quotes (with escapes) or between
apostrophes (as it is), on one line or, with three quotes at either end, over several lines.

Writing takes the first form that shows the text without an escape, where a tab is the one
character that never rules a form out; only if there is none, the text is written with escapes.
Reading takes every form. Line breaks have to be LF; the reader of a document sees to that.

* `quote`, `quoteKey` — the written form of a text and of a key;
* `readText?`, `readKey?` — a text or a key at the start of a list of characters, with what
  follows it.
-/

namespace ShaderTemplates.Toml

-- ── Characters ───────────────────────────────────────────────────────────────

/-- Control characters, the tab not being one. -/
def isControl (c : Char) : Bool := (c.toNat ≤ 0x1f && c ≠ '\t') || c.toNat = 0x7f

/-- Characters that may stand between quotes and in comments. -/
def isPlain (c : Char) : Bool := !isControl c

/-- Letters, digits, `_` and `-`, the characters of keys that need no quotes. -/
def isBare (c : Char) : Bool := c.isAlphanum || c = '_' || c = '-'

-- ── Writing ──────────────────────────────────────────────────────────────────

/-- The digit for a number below sixteen. -/
def hexDigit (n : Nat) : Char := if n < 10 then Char.ofNat (48 + n) else Char.ofNat (55 + n)

/-- A character between double quotes. -/
def escapeChar (c : Char) : List Char :=
  if c = '\x08' then ['\\', 'b']
  else if c = '\t' then ['\\', 't']
  else if c = '\n' then ['\\', 'n']
  else if c = '\x0c' then ['\\', 'f']
  else if c = '\r' then ['\\', 'r']
  else if c = '"' then ['\\', '"']
  else if c = '\\' then ['\\', '\\']
  else if isControl c then ['\\', 'u', '0', '0', hexDigit (c.toNat / 16), hexDigit (c.toNat % 16)]
  else [c]

/-- The characters of a text between three double quotes. Line breaks stand as they are, and so do
    quotes, except for each third one in a row; `run` counts the quotes directly before. -/
def escapeLines : Nat → List Char → List Char
  | _, [] => []
  | run, c :: rest =>
    if c = '"' then
      if run = 2 then '\\' :: '"' :: escapeLines 0 rest else '"' :: escapeLines (run + 1) rest
    else if c = '\n' then '\n' :: escapeLines 0 rest
    else escapeChar c ++ escapeLines 0 rest

/-- A text between double quotes. -/
def quoteBasic (cs : List Char) : List Char := '"' :: (cs.flatMap escapeChar ++ ['"'])

/-- A text between apostrophes. -/
def quoteLiteral (cs : List Char) : List Char := '\'' :: (cs ++ ['\''])

/-- What comes between three quotes and the text: a line break, if the text has line breaks. -/
def openingBreak (cs : List Char) : List Char := if cs.contains '\n' then ['\n'] else []

/-- A text between three double quotes. -/
def quoteBasicLines (cs : List Char) : List Char :=
  ['"', '"', '"'] ++ (openingBreak cs ++ (escapeLines 0 cs ++ ['"', '"', '"']))

/-- A text between three apostrophes. -/
def quoteLiteralLines (cs : List Char) : List Char :=
  ['\'', '\'', '\''] ++ (openingBreak cs ++ (cs ++ ['\'', '\'', '\'']))

/-- Whether `mark` stands three times in a row. -/
def hasTriple (mark : Char) : List Char → Bool
  | a :: b :: c :: rest => (a = mark && b = mark && c = mark) || hasTriple mark (b :: c :: rest)
  | _ => false

/-- The written form of a text. -/
def quoteChars (cs : List Char) : List Char :=
  let control := cs.any fun c => isControl c && c ≠ '\n'
  let lines := cs.contains '\n'
  let backslash := cs.contains '\\'
  if !control && !backslash && !cs.contains '"' && !lines then quoteBasic cs
  else if !control && !cs.contains '\'' && !lines then quoteLiteral cs
  else if !control && !backslash && !hasTriple '"' cs then quoteBasicLines cs
  else if !control && !hasTriple '\'' cs then quoteLiteralLines cs
  else if lines then quoteBasicLines cs
  else quoteBasic cs

/-- The written form of a key. -/
def quoteKeyChars (cs : List Char) : List Char :=
  let control := cs.any isControl
  if !cs.isEmpty && cs.all isBare then cs
  else if !control && !cs.contains '\\' && !cs.contains '"' then quoteBasic cs
  else if !control && !cs.contains '\'' then quoteLiteral cs
  else quoteBasic cs

def quote (s : String) : String := String.ofList (quoteChars s.toList)

def quoteKey (s : String) : String := String.ofList (quoteKeyChars s.toList)

-- ── Reading ──────────────────────────────────────────────────────────────────

def hexValue? (c : Char) : Option Nat :=
  if c.isDigit then some (c.toNat - 48)
  else if 'a' ≤ c ∧ c ≤ 'f' then some (c.toNat - 87)
  else if 'A' ≤ c ∧ c ≤ 'F' then some (c.toNat - 55)
  else none

/-- The character with a code in base sixteen; the codes of surrogates and those beyond the last
    character have none. -/
def scalar? (digits : List Char) : Option Char := do
  let values ← digits.mapM hexValue?
  let code := values.foldl (fun n d => 16 * n + d) 0
  if code.isValidChar then some (Char.ofNat code) else none

/-- The character that a backslash and `c` stand for. -/
def unescape? (c : Char) : Option Char :=
  match c with
  | 'b' => some '\x08'
  | 't' => some '\t'
  | 'n' => some '\n'
  | 'f' => some '\x0c'
  | 'r' => some '\r'
  | '"' => some '"'
  | '\\' => some '\\'
  | _ => none

/-- Puts a character before the text that was read. -/
def readThen (c? : Option Char) (read? : Option (List Char × List Char)) :
    Option (List Char × List Char) := do
  let c ← c?
  let (text, rest) ← read?
  return (c :: text, rest)

/-- The rest of a text between double quotes. -/
def readBasic? : List Char → Option (List Char × List Char)
  | [] => none
  | '"' :: rest => some ([], rest)
  | '\\' :: 'u' :: a :: b :: c :: d :: rest => readThen (scalar? [a, b, c, d]) (readBasic? rest)
  | '\\' :: 'U' :: a :: b :: c :: d :: e :: f :: g :: h :: rest =>
    readThen (scalar? [a, b, c, d, e, f, g, h]) (readBasic? rest)
  | '\\' :: c :: rest => readThen (unescape? c) (readBasic? rest)
  | c :: rest => readThen (if isPlain c && c ≠ '\\' then some c else none) (readBasic? rest)

/-- The rest of a text between apostrophes. -/
def readLiteral? : List Char → Option (List Char × List Char)
  | [] => none
  | '\'' :: rest => some ([], rest)
  | c :: rest => readThen (if isPlain c then some c else none) (readLiteral? rest)

/-- Whether only spaces and tabs stand before the end of the line. -/
def restIsBlank (cs : List Char) : Bool :=
  (cs.dropWhile fun c => c = ' ' || c = '\t').head? = some '\n'

/-- The rest of a text between three double quotes. Of the quotes before the last three, up to two
    belong to the text. A backslash at the end of a line removes the line break and all blanks and
    line breaks after it; `skipping` says that the reader is among those. -/
def readBasicLines? : Bool → List Char → Option (List Char × List Char)
  | _, [] => none
  | _, '"' :: '"' :: '"' :: '"' :: '"' :: rest => some (['"', '"'], rest)
  | _, '"' :: '"' :: '"' :: '"' :: rest => some (['"'], rest)
  | _, '"' :: '"' :: '"' :: rest => some ([], rest)
  | _, '\\' :: 'u' :: a :: b :: c :: d :: rest =>
    readThen (scalar? [a, b, c, d]) (readBasicLines? false rest)
  | _, '\\' :: 'U' :: a :: b :: c :: d :: e :: f :: g :: h :: rest =>
    readThen (scalar? [a, b, c, d, e, f, g, h]) (readBasicLines? false rest)
  | _, '\\' :: c :: rest =>
    if restIsBlank (c :: rest) then readBasicLines? true (c :: rest)
    else readThen (unescape? c) (readBasicLines? false rest)
  | skipping, c :: rest =>
    if skipping && (c = ' ' || c = '\t' || c = '\n') then readBasicLines? true rest
    else
      readThen (if (isPlain c && c ≠ '\\') || c = '\n' then some c else none)
        (readBasicLines? false rest)

/-- The rest of a text between three apostrophes. -/
def readLiteralLines? : List Char → Option (List Char × List Char)
  | [] => none
  | '\'' :: '\'' :: '\'' :: '\'' :: '\'' :: rest => some (['\'', '\''], rest)
  | '\'' :: '\'' :: '\'' :: '\'' :: rest => some (['\''], rest)
  | '\'' :: '\'' :: '\'' :: rest => some ([], rest)
  | c :: rest => readThen (if isPlain c || c = '\n' then some c else none) (readLiteralLines? rest)

/-- Drops a line break directly after three opening quotes. -/
def dropOpeningBreak : List Char → List Char
  | '\n' :: rest => rest
  | cs => cs

/-- A text in any of the four forms. -/
def readText? : List Char → Option (List Char × List Char)
  | '"' :: '"' :: '"' :: rest => readBasicLines? false (dropOpeningBreak rest)
  | '"' :: rest => readBasic? rest
  | '\'' :: '\'' :: '\'' :: rest => readLiteralLines? (dropOpeningBreak rest)
  | '\'' :: rest => readLiteral? rest
  | _ => none

/-- A key: a text on one line, or bare characters. -/
def readKey? : List Char → Option (List Char × List Char)
  | '"' :: rest => readBasic? rest
  | '\'' :: rest => readLiteral? rest
  | cs =>
    let key := cs.takeWhile isBare
    if key.isEmpty then none else some (key, cs.dropWhile isBare)

end ShaderTemplates.Toml
