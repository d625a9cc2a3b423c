import ShaderTemplates.Error
import ShaderTemplates.FileTree.Lookup

/-!
# Changing files by path

Each operation takes the tree and gives the tree after it. `makeDirectory`, `writeFile` and
`removeFile` either succeed or change nothing. `makeDirectories` and `replaceFile` can leave
directories behind that they made before something failed, and change nothing else in that case.

What an export does to the disk is a list of operations (`Operation`), carried out in order. Writing
replaces a file in one step and then flushes the directory of the file. If it fails, the operations
after it are not carried out, but the file may have been replaced already. Removing a file that
cannot be removed is no failure.
-/

namespace ShaderTemplates

namespace FileTree

/-- A tree after an operation, and whether the operation succeeded. -/
abbrev Attempt := FileTree × Except Fault Unit

/-- Makes the directory `p` inside an existing one; slashes at the end of `p` do not count. -/
def makeDirectory (t : FileTree) (p : Path) : Except Fault FileTree := do
  if isLongPath p then .error .badName
  let trimmed : Path := ⟨p.head, (p.tail.reverse.dropWhile (· == "")).reverse⟩
  let l ← t.locate (if trimmed = .empty then p else trimmed)
  match t.get? l, l.getLast? with
  | some _, _ => .error .exists
  | none, some name =>
    match t.addDirectory? l.dropLast name with
    | some t => .ok t
    | none => .error .missing
  | none, none => .error .missing

/-- Makes the first of some directories, each of which is inside the next. If a directory is
    missing on the way, the next one is made first. -/
def makeFirst (t : FileTree) : List Path → Attempt
  | [] => (t, .error .missing)
  | p :: above =>
    if p = .empty then (t, .ok ())
    else
      match t.makeDirectory p with
      | .ok t => (t, .ok ())
      | .error .missing =>
        match t.makeFirst above with
        | (t, .error fault) => (t, .error fault)
        | (t, .ok ()) =>
          match t.makeDirectory p with
          | .ok t => (t, .ok ())
          | .error fault => (t, if t.isDirectory p then .ok () else .error fault)
      | .error fault => (t, if t.isDirectory p then .ok () else .error fault)

/-- Makes a directory and those above it that are missing. -/
def makeDirectories (t : FileTree) (p : Path) : Attempt := t.makeFirst p.ancestors

/-- Writes a file in an existing directory. -/
def writeFile (t : FileTree) (p : Path) (content : Content) : Except Fault FileTree := do
  let l ← t.locate p
  match l.getLast? with
  | none => .error .isDirectory
  | some name =>
    if t.get? l = some .directory then .error .isDirectory
    else
      match t.putFile? l.dropLast name content with
      | some t => .ok t
      | none => .error .missing

/-- The path from the root directory of the file that has the text until it takes the place of
    `p`. It is in the same directory, under a name of ten characters. -/
def draftPath (t : FileTree) (p : Path) : Path :=
  (t.workingDirectory.join p.directory).child ".tmp000000"

/-- Puts a text in the place of a file in one step, so that nobody ever finds a part of it. The
    directory of the file is made if it is missing. -/
def replaceFile (t : FileTree) (p : Path) (text : String) : Attempt :=
  match t.makeDirectories p.directory with
  | (t, .error fault) => (t, .error fault)
  | (t, .ok ()) =>
    if isLongPath (t.draftPath p) then (t, .error .badName)
    else
      match t.writeFile p (.text text) with
      | .ok t => (t, .ok ())
      | .error fault => (t, .error fault)

/-- Waits until what was changed in a directory is on the disk. The directory has to be opened for
    that; no entry changes. -/
def flushDirectory (t : FileTree) (dir : Path) : Except Fault Unit :=
  (t.openDirectory dir).map fun _ => ()

/-- Removes a file. -/
def removeFile (t : FileTree) (p : Path) : Except Fault FileTree := do
  let l ← t.locate p
  match t.get? l with
  | none => .error .missing
  | some .directory => .error .isDirectory
  | some (.file _) => .ok (t.dropFile l)

end FileTree

-- ── Operations ───────────────────────────────────────────────────────────────

/-- A change of one file. -/
inductive Operation where
  /-- Puts a text in the place of the file. -/
  | write (path : Path) (text : String)
  /-- Removes the file if that is possible. -/
  | remove (path : Path)
deriving DecidableEq, Repr

namespace Operation

/-- Makes the change: the tree after it, and the error if it could not be made. -/
def perform (t : FileTree) : Operation → FileTree × Except Error Unit
  | write path text =>
    match t.replaceFile path text with
    | (t, .ok ()) => (t, .ok ())
    | (t, .error _) => (t, .error (.writeFailed path))
  | remove path =>
    match t.removeFile path with
    | .ok t => (t, .ok ())
    | .error _ => (t, .ok ())

/-- Waits until a change that was made is on the disk. This can fail, and the change stays. -/
def settle (t : FileTree) : Operation → Except Error Unit
  | write path _ => (t.flushDirectory path.directory).mapError fun _ => .writeFailed path
  | remove _ => .ok ()

/-- The tree after an operation, and the error if it failed. -/
def run (t : FileTree) (operation : Operation) : FileTree × Except Error Unit :=
  match operation.perform t with
  | (t, .ok ()) => (t, operation.settle t)
  | (t, .error e) => (t, .error e)

/-- Goes through operations in order, up to the first one whose step fails. -/
def inOrder (step : FileTree → Operation → FileTree × Except Error Unit) (t : FileTree) :
    List Operation → FileTree × Except Error Unit
  | [] => (t, .ok ())
  | operation :: rest =>
    match step t operation with
    | (t, .ok ()) => inOrder step t rest
    | (t, .error e) => (t, .error e)

/-- Carries operations out in order, up to the first one that fails. -/
def runAll : FileTree → List Operation → FileTree × Except Error Unit := inOrder run

theorem runAll_cons (t : FileTree) (operation : Operation) (rest : List Operation) :
    runAll t (operation :: rest) =
      match operation.run t with
      | (t, .ok ()) => runAll t rest
      | (t, .error e) => (t, .error e) := rfl

end Operation

-- ── Outcomes ─────────────────────────────────────────────────────────────────

/-- What an operation on files leaves: the files as they are after it, warnings, and a result or an
    error. -/
structure Outcome (α : Type) where
  files : FileTree
  warnings : List Warning := []
  result : Except Error α

namespace Outcome

variable {α : Type}

/-- An operation that fails before it changes anything. -/
def failed (files : FileTree) (e : Error) : Outcome α := { files, result := .error e }

/-- An operation that succeeds. -/
def done (files : FileTree) (a : α) : Outcome α := { files, result := .ok a }

end Outcome

end ShaderTemplates
