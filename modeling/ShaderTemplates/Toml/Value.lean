/-!
# Values and documents

A document is a table; its entries are values, and some of these are tables again. A table
remembers how it came about, because that decides how it may be extended:

* a table between braces is closed;
* a table named by a header is open for further headers below it, but neither for a second header
  of its own nor for dotted keys;
* a table that only appears on the way to another may still get a header of its own;
* a table made by a dotted key can be extended by dotted keys from the table around it.

`assign?`, `openTable?` and `addElement?` put an entry, a table or an element of an array of tables
at a path and refuse what these rules exclude.
-/

namespace ShaderTemplates.Toml

/-- How a table came about. -/
inductive Origin where
  /-- Written between braces. -/
  | inline
  /-- Named by a header. -/
  | header
  /-- On the way to a table with a header. -/
  | implied
  /-- On the way to the last part of a dotted key. -/
  | dotted
deriving DecidableEq, Repr

inductive Value where
  | string (s : String)
  | integer (i : Int)
  | float
  | boolean (b : Bool)
  /-- A date, a time or both, in canonical form. -/
  | moment (text : String)
  | array (elements : List Value)
  | table (origin : Origin) (entries : List (String × Value))
  /-- Tables with one header each: those before the last one, and the last one. -/
  | tables (before : List (List (String × Value))) (last : List (String × Value))
deriving Repr, Inhabited

/-- The entries of a table in the order in which they were written. -/
abbrev Entries := List (String × Value)

/-- Puts a new value in the place of the one stored for `key`. -/
def replaceEntry (key : String) (value : Value) (entries : Entries) : Entries :=
  entries.map fun e => if e.1 = key then (key, value) else e

/-- Changes the table at a path, making the tables on the way that do not exist. The way leads
    through the last table of an array of tables. `change` is given the origin of the table. -/
def changeAt? (viaDots : Bool) (change : Origin → Entries → Option Entries) :
    List String → Origin → Entries → Option Entries
  | [], origin, entries => change origin entries
  | key :: path, _, entries =>
    match entries.lookup key with
    | none =>
      let origin := if viaDots then .dotted else .implied
      (changeAt? viaDots change path origin []).map fun inner =>
        entries ++ [(key, .table origin inner)]
    | some (.table origin inner) =>
      if origin = .inline || (viaDots && origin = .header) then none
      else
        (changeAt? viaDots change path origin inner).map fun inner =>
          replaceEntry key (.table origin inner) entries
    | some (.tables before last) =>
      (changeAt? viaDots change path .header last).map fun last =>
        replaceEntry key (.tables before last) entries
    | some _ => none

/-- Adds an entry to a table under a key that it does not have. -/
def insertNew? (key : String) (value : Value) (entries : Entries) : Option Entries :=
  if (entries.lookup key).isSome then none else some (entries ++ [(key, value)])

/-- Adds an entry below a table, with the parts of a dotted key as the path. A dotted key may only
    end in a table that dotted keys made. -/
def assign? (path : List String) (key : String) (value : Value) (origin : Origin)
    (entries : Entries) : Option Entries :=
  changeAt? true
    (fun reached inner =>
      if (reached == .dotted) == path.isEmpty then none else insertNew? key value inner)
    path origin entries

/-- Makes the table that a header names. -/
def openTable? (path : List String) (key : String) (document : Entries) : Option Entries :=
  changeAt? false
    (fun _ inner =>
      match inner.lookup key with
      | none => some (inner ++ [(key, .table .header [])])
      | some (.table .implied entries) => some (replaceEntry key (.table .header entries) inner)
      | some _ => none)
    path .header document

/-- Adds a table to the array of tables that a header names. -/
def addElement? (path : List String) (key : String) (document : Entries) : Option Entries :=
  changeAt? false
    (fun _ inner =>
      match inner.lookup key with
      | none => some (inner ++ [(key, .tables [] [])])
      | some (.tables before last) =>
        some (replaceEntry key (.tables (before ++ [last]) []) inner)
      | some _ => none)
    path .header document

end ShaderTemplates.Toml
