import ShaderTemplates.Path

/-!
# Arguments

The words after the name of the program: options, the name of a command, and the options and
operands of that command. Options and operands may stand in any order; after `--` every word is an
operand. An option has a long name and may have a short one of one letter. Short options without a
value can be written together, and the value of an option is the next word or follows the option
directly, after `=` if the option is long.

`Request.parse?` reads the words. Words that ask for nothing are a usage error.
-/

namespace ShaderTemplates.CommandLine

/-- The commands with their operands and options. -/
inductive Command where
  | init (name : Option String)
  | scan (file : Path) (json : Bool)
  | convert (template : Path) (values output : Option Path) (strict : Bool)
  | templates (json : Bool)
  | create (name : String) (template : Option String)
  | exportGenerator (generator : Path)
  | pullGenerator (generator : Path)
  | reconvert
deriving DecidableEq, Repr

/-- What the arguments ask for. -/
inductive Request where
  | version
  | run (command : Command) (verbose : Bool)
deriving DecidableEq, Repr

-- ── Options ──────────────────────────────────────────────────────────────────

structure OptionSpec where
  long : String
  short : Option Char := none
  takesValue : Bool := false
deriving DecidableEq, Repr

def verboseOption : OptionSpec := { long := "verbose", short := some 'v' }

def versionOption : OptionSpec := { long := "version", short := some 'V' }

/-- The options and operands that were read. -/
structure Words where
  flags : List String := []
  values : List (String × String) := []
  operands : List String := []
deriving DecidableEq, Repr

namespace Words

def has (w : Words) (o : OptionSpec) : Bool := w.flags.contains o.long

def value? (w : Words) (long : String) : Option String := w.values.lookup long

/-- Adds an option without a value; it may not stand twice. -/
def addFlag? (w : Words) (o : OptionSpec) : Option Words :=
  if w.flags.contains o.long then none else some { w with flags := w.flags ++ [o.long] }

/-- Adds an option with its value; it may not stand twice. -/
def addValue? (w : Words) (o : OptionSpec) (value : String) : Option Words :=
  if (w.values.lookup o.long).isSome then none
  else some { w with values := w.values ++ [(o.long, value)] }

def addOperand (w : Words) (operand : String) : Words :=
  { w with operands := w.operands ++ [operand] }

end Words

/-- Whether a word is an option or `--`. -/
def isOption (word : String) : Bool :=
  match word.toList with
  | '-' :: _ :: _ => true
  | _ => false

/-- How a word is to be taken. -/
inductive Reading where
  /-- The word is complete. -/
  | complete (w : Words)
  /-- The next word is the value of an option. -/
  | awaits (w : Words) (o : OptionSpec)

/-- Reads a long option. -/
def readLong? (specs : List OptionSpec) (w : Words) (text : List Char) : Option Reading := do
  let name := String.ofList (text.takeWhile (· ≠ '='))
  let o ← specs.find? (·.long = name)
  match text.dropWhile (· ≠ '='), o.takesValue with
  | [], false => (w.addFlag? o).map .complete
  | [], true => return .awaits w o
  | _ :: value, true => (w.addValue? o (String.ofList value)).map .complete
  | _ :: _, false => none

/-- Reads short options that are written together. -/
def readShort? (specs : List OptionSpec) : Words → List Char → Option Reading
  | w, [] => some (.complete w)
  | w, c :: rest => do
    let o ← specs.find? (·.short = some c)
    if o.takesValue then
      match rest with
      | [] => return .awaits w o
      | '=' :: value => (w.addValue? o (String.ofList value)).map .complete
      | value => (w.addValue? o (String.ofList value)).map .complete
    else
      readShort? specs (← w.addFlag? o) rest

/-- Reads options up to the end of a word. -/
def readOption? (specs : List OptionSpec) (w : Words) (word : String) : Option Reading :=
  match word.toList with
  | '-' :: '-' :: text => readLong? specs w text
  | '-' :: text => readShort? specs w text
  | _ => none

/-- Reads the words after the name of a command. -/
def readWords? (specs : List OptionSpec) : Words → List String → Option Words
  | w, [] => some w
  | w, word :: rest =>
    if word = "--" then some (rest.foldl Words.addOperand w)
    else if isOption word then
      match readOption? specs w word with
      | none => none
      | some (.complete w) => readWords? specs w rest
      | some (.awaits w o) =>
        match rest with
        | [] => none
        | value :: rest =>
          if isOption value then none
          else
            match w.addValue? o value with
            | none => none
            | some w => readWords? specs w rest
    else readWords? specs (w.addOperand word) rest

-- ── Commands ─────────────────────────────────────────────────────────────────

/-- A path, which may not be empty. -/
def readPath? (s : String) : Option Path := if s.isEmpty then none else some (Path.ofString s)

/-- A path that may be absent. -/
def readPathOption? : Option String → Option (Option Path)
  | none => some none
  | some s => (readPath? s).map some

/-- The options of a command, apart from `verbose`. -/
def specsOf? : String → Option (List OptionSpec)
  | "init" => some [{ long := "name", takesValue := true }]
  | "scan" => some [{ long := "json" }]
  | "convert" => some [{ long := "values", takesValue := true },
      { long := "output", short := some 'o', takesValue := true }, { long := "strict" }]
  | "templates" => some [{ long := "json" }]
  | "new" => some [{ long := "template", short := some 't', takesValue := true }]
  | "export" | "pull" | "reconvert" => some []
  | _ => none

/-- The command of a name with the words after it. -/
def commandOf? (name : String) (w : Words) : Option Command :=
  match name, w.operands with
  | "init", [] => some (.init (w.value? "name"))
  | "scan", [file] => (readPath? file).map (.scan · (w.flags.contains "json"))
  | "convert", [template] => do
    let values ← readPathOption? (w.value? "values")
    let output ← readPathOption? (w.value? "output")
    return .convert (← readPath? template) values output (w.flags.contains "strict")
  | "templates", [] => some (.templates (w.flags.contains "json"))
  | "new", [name] => some (.create name (w.value? "template"))
  | "export", [generator] => (readPath? generator).map .exportGenerator
  | "pull", [generator] => (readPath? generator).map .pullGenerator
  | "reconvert", [] => some .reconvert
  | _, _ => none

namespace Request

/-- Reads the words from the name of the command on. -/
def parseCommand? (isVerbose : Bool) (name : String) (words : List String) : Option Request := do
  let specs ← specsOf? name
  let w ← readWords? (verboseOption :: specs) {} words
  return .run (← commandOf? name w) (isVerbose || w.has verboseOption)

/-- Reads short options before the name of the command; the version is shown as soon as it is
    asked for. -/
def readLeading? : Bool → List Char → Option (Except Request Bool)
  | isVerbose, [] => some (.ok isVerbose)
  | isVerbose, c :: rest =>
    if versionOption.short = some c then some (.error .version)
    else if verboseOption.short = some c && !isVerbose then readLeading? true rest
    else none

/-- Reads the words after the options that came before them. -/
def parseFrom? : Bool → List String → Option Request
  | _, [] => none
  | isVerbose, word :: rest =>
    if word = "--version" then some .version
    else if word = "--verbose" then if isVerbose then none else parseFrom? true rest
    else
      match word.toList with
      | '-' :: '-' :: _ => none
      | '-' :: c :: shorts =>
        match readLeading? isVerbose (c :: shorts) with
        | none => none
        | some (.error request) => some request
        | some (.ok isVerbose) => parseFrom? isVerbose rest
      | _ => parseCommand? isVerbose word rest

/-- What the arguments ask for; none if they cannot be understood. -/
def parse? (words : List String) : Option Request := parseFrom? false words

end Request

end ShaderTemplates.CommandLine
