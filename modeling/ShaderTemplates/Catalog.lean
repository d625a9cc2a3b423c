import ShaderTemplates.Error
import ShaderTemplates.FileTree.Lookup

/-!
# Catalogs

The catalog of a directory lists its templates: the files directly inside it that have the
extension of templates. The name of a template is the stem of its file name. Files whose name
starts with `_` are parts of templates and are not listed, nor is a file whose name is no text.

A directory gives its entries in an order of its own, and any of them may fail to be read
(`ofListing`). The name of an entry is a list of characters and of bytes that belong to no character
(`RawName`), and links are followed: an entry is a file if its path leads to one.

The templates are kept in the order of their names, so a catalog does not depend on the order of the
entries. The first one is the default.
-/

namespace ShaderTemplates

-- ── Names in a directory ─────────────────────────────────────────────────────

/-- A part of a file name: a character, or a byte that belongs to no character. -/
inductive NamePart where
  | char (c : Char)
  | byte (b : UInt8)
deriving DecidableEq

/-- A file name as a directory has it. -/
abbrev RawName := List NamePart

namespace RawName

def ofString (s : String) : RawName := s.toList.map .char

/-- The characters of a name, if there is nothing else in it. -/
def chars? : RawName → Option (List Char)
  | [] => some []
  | .char c :: rest => (chars? rest).map (c :: ·)
  | .byte _ :: _ => none

/-- A name as a text, if it is one. -/
def text? (n : RawName) : Option String := n.chars?.map String.ofList

/-- A file name as its stem and its extension. The extension starts after the last dot; a dot at
    the start of the name begins no extension. -/
def splitExtension (n : RawName) : RawName × Option RawName :=
  let last := n.reverse.takeWhile (· ≠ .char '.')
  match n.reverse.dropWhile (· ≠ .char '.') with
  | _ :: c :: before => ((c :: before).reverse, some last.reverse)
  | _ => (n, none)

end RawName

/-- An entry of a directory that is listed. -/
structure DirectoryEntry where
  name : RawName
  /-- Whether the path of the entry leads to a file. -/
  isFile : Bool
deriving DecidableEq

/-- The entries of a directory. Their names are texts, and a path that is too long leads nowhere. -/
def FileTree.entriesIn (t : FileTree) (dir : Path) (l : Location) : List DirectoryEntry :=
  (t.list l).map fun e =>
    { name := .ofString e.1
      isFile :=
        match e.2 with
        | .file _ => !isLongPath (dir.child e.1)
        | .directory => false }

-- ── Catalogs ─────────────────────────────────────────────────────────────────

structure Catalog where
  /-- The path of each template. -/
  templates : Table Path
deriving DecidableEq, Repr

namespace Catalog

/-- The catalog without any template. -/
def empty : Catalog := ⟨∅⟩

/-- The name of the template that a file name stands for. -/
def templateName? (extension : String) (fileName : RawName) : Option String :=
  match fileName.splitExtension with
  | (stem, some found) =>
    if found.text? = some extension then
      stem.text?.filter fun name => !name.isEmpty && name.toList.head? ≠ some '_'
    else none
  | (_, none) => none

/-- The template that an entry of a directory is. -/
def template? (dir : Path) (extension : String) (e : DirectoryEntry) : Option (String × Path) :=
  if e.isFile then
    (templateName? extension e.name).map fun name => (name, dir.child (name ++ "." ++ extension))
  else none

/-- The catalog of a directory with the given entries. -/
def ofEntries (dir : Path) (extension : String) (entries : List DirectoryEntry) : Catalog where
  templates := .ofList (entries.filterMap (template? dir extension))

/-- The catalog of a directory that gives its entries one by one, unless one cannot be read. -/
def ofListing (dir : Path) (extension : String) (listing : List (Except Fault DirectoryEntry)) :
    Except Error Catalog :=
  match listing.mapM id with
  | .ok entries => .ok (ofEntries dir extension entries)
  | .error _ => .error .io

/-- The catalog of a directory. It is empty if there is no such directory. -/
def load (t : FileTree) (dir : Path) (extension : String) : Except Error Catalog :=
  if t.isDirectory dir then
    match t.openDirectory dir with
    | .ok l => ofListing dir extension ((t.entriesIn dir l).map .ok)
    | .error _ => .error .io
  else .ok empty

def isEmpty (c : Catalog) : Bool := c.templates.isEmpty

def names (c : Catalog) : List String := c.templates.keys

/-- The first template. -/
def defaultName? (c : Catalog) : Option String := c.names.head?

/-- The name of the template for a request; the empty request asks for the default. -/
def resolveName (c : Catalog) (requested : String) : Except Error String :=
  if requested.isEmpty then
    match c.defaultName? with
    | some name => .ok name
    | none => .error (.templateNotFound "(default)")
  else if c.templates.contains requested then .ok requested
  else .error (.templateNotFound requested)

/-- The text of a template. -/
def read (c : Catalog) (t : FileTree) (name : String) : Except Error String :=
  match c.templates.get? name with
  | some path => (t.readText path).mapError fun _ => .io
  | none => .error (.templateNotFound name)

end Catalog

end ShaderTemplates
