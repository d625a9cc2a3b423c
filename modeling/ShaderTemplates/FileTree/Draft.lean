import ShaderTemplates.FileTree.Write

/-!
# Drafts

A text takes the place of a file in one step because it is written somewhere else first: into a
draft, a new file in the same directory, which is then renamed to the file.  If anything fails up to
there the draft is removed.  At last the directory is flushed; if that fails, the text has taken the
place of the file all the same.

How drafts are made, filled and renamed is not the business of this library (`DraftStore`), and each
of these steps may fail for whatever reason, flushing the directory like the others.  What is relied
on are five things (`DraftStore.Lawful`): a draft gets a name that nothing has, filling it changes
nothing else, renaming is done as a whole or not at all, a draft that is given up is gone, and a
directory that cannot be opened is not flushed.  `DraftStore.replaceFile` is what is done with
drafts, one step after the other.
-/

namespace ShaderTemplates

open FileTree (Attempt)

/-- The operations on drafts. A draft is known by its location. -/
structure DraftStore where
  /-- Makes an empty draft in a directory. -/
  make : FileTree → Path → FileTree × Except Fault Location
  /-- Writes a text into a draft. -/
  fill : FileTree → Location → String → Attempt
  /-- Waits until the text of a draft is on the disk. -/
  flush : FileTree → Location → Except Fault Unit
  /-- Renames a draft, so that it takes the place of what has the path. -/
  persist : FileTree → Location → Path → Attempt
  /-- Removes a draft. -/
  discard : FileTree → Location → FileTree
  /-- Opens a directory and waits until what was changed in it is on the disk. -/
  flushDirectory : FileTree → Path → Except Fault Unit

namespace FileTree

/-- One location has another entry, or none, and everything else is the same. -/
structure Sets (t t' : FileTree) (l : Location) (e : Option Entry) : Prop where
  process : t'.process = t.process
  entries : ∀ k, t'.get? k = if k = l then e else t.get? k

end FileTree

namespace DraftStore

/-- What is relied on. Every operation may fail, for whatever reason. -/
structure Lawful (d : DraftStore) : Prop where
  /-- A draft is a new file. -/
  make_ok : ∀ {t t' : FileTree} {dir l}, d.make t dir = (t', .ok l) →
    t.get? l = none ∧ ∃ content, t.Sets t' l (some (.file content))
  /-- A draft that could not be made is not there. -/
  make_error : ∀ {t t' : FileTree} {dir fault}, d.make t dir = (t', .error fault) → t' = t
  /-- A draft that was filled has the text. -/
  fill_ok : ∀ {t t' : FileTree} {l content text}, t.get? l = some (.file content) →
    d.fill t l text = (t', .ok ()) → t.Sets t' l (some (.file (.text text)))
  /-- A draft that could not be filled may have a part of the text. -/
  fill_error : ∀ {t t' : FileTree} {l content text fault}, t.get? l = some (.file content) →
    d.fill t l text = (t', .error fault) → ∃ part, t.Sets t' l (some (.file part))
  /-- A draft that was renamed has left its name and taken the place of a file, or of nothing. -/
  persist_ok : ∀ {t t' : FileTree} {l content p}, t.get? l = some (.file content) →
    d.persist t l p = (t', .ok ()) → ∃ k, t.locate p = .ok k ∧ t.get? k ≠ some .directory ∧
      t'.process = t.process ∧ ∀ j, t'.get? j =
        if j = k then some (.file content) else if j = l then none else t.get? j
  /-- A draft that could not be renamed is still where it was. -/
  persist_error : ∀ {t t' : FileTree} {l p fault}, d.persist t l p = (t', .error fault) → t' = t
  /-- A draft that was given up is gone. -/
  discard : ∀ {t : FileTree} {l content},
    t.get? l = some (.file content) → t.Sets (d.discard t l) l none
  /-- A directory that was flushed could be opened. -/
  flushDirectory_ok : ∀ {t : FileTree} {dir}, d.flushDirectory t dir = .ok () →
    ∃ l, t.openDirectory dir = .ok l

variable (d : DraftStore)

/-- Gives a draft up because of a fault. -/
def giveUp (t : FileTree) (draft : Location) (fault : Fault) : Attempt :=
  (d.discard t draft, .error fault)

/-- Puts a text in the place of a file by means of a draft, and flushes the directory. When that
    fails there is no draft any more to give up. -/
def replaceFile (t : FileTree) (p : Path) (text : String) : Attempt :=
  match t.makeDirectories p.directory with
  | (t, .error fault) => (t, .error fault)
  | (t, .ok ()) =>
    match d.make t p.directory with
    | (t, .error fault) => (t, .error fault)
    | (t, .ok draft) =>
      match d.fill t draft text with
      | (t, .error fault) => d.giveUp t draft fault
      | (t, .ok ()) =>
        match d.flush t draft with
        | .error fault => d.giveUp t draft fault
        | .ok () =>
          match d.persist t draft p with
          | (t, .error fault) => d.giveUp t draft fault
          | (t, .ok ()) => (t, d.flushDirectory t p.directory)

/-- Writes a file by means of a draft, as `Operation.run` writes it. -/
def write (t : FileTree) (p : Path) (text : String) : FileTree × Except Error Unit :=
  match d.replaceFile t p text with
  | (t, .ok ()) => (t, .ok ())
  | (t, .error _) => (t, .error (.writeFailed p))

end DraftStore

end ShaderTemplates
