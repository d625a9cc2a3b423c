import ShaderTemplates.CommandLine.Run

/-!
# The program

The program reads the part of the disk that a command can look at into a file tree, lets the
command run on it, and then makes the disk agree with the tree that the command left. That part is
the project around the working directory, or the working directory if there is no project, and
everything that the paths among the arguments lead to.
-/

namespace ShaderTemplates.CommandLine

/-- The text of a location on disk. -/
def diskName (l : Location) : String := "/" ++ "/".intercalate l

/-- The paths among the operands and options of a command. -/
def Command.paths : Command → List Path
  | scan file _ => [file]
  | convert template values output _ => template :: (values.toList ++ output.toList)
  | exportGenerator generator | pullGenerator generator => [generator]
  | _ => []

-- ── Reading the disk ─────────────────────────────────────────────────────────

/-- Adds what is at a location, whose directory has been added before. -/
def loadEntry (t : FileTree) (l : Location) : IO FileTree := do
  match l.getLast? with
  | none => return t
  | some name =>
    if (t.get? l).isSome then return t
    let place := (← IO.currentDir) / diskName l
    if ← place.isDir then return (t.addDirectory? l.dropLast name).getD t
    if ← place.pathExists then
      let bytes ← IO.FS.readBinFile place
      return (t.putFile? l.dropLast name (.ofBytes bytes)).getD t
    return t

/-- Adds a location and everything below it. Links to directories are not followed. -/
partial def loadBelow (t : FileTree) (l : Location) : IO FileTree := do
  let mut t ← loadEntry t l
  let place := (← IO.currentDir) / diskName l
  if (← place.symlinkMetadata).type == .dir then
    match ← place.readDir.toBaseIO with
    | .error _ => t := t.withUnopened l
    | .ok found =>
      for e in found do
        t ← loadBelow t (l ++ [e.fileName])
  return t

/-- Adds what is at each step of a path. -/
def loadAlong (t : FileTree) (start : Location) (segments : List String) : IO FileTree := do
  let mut t := t
  let mut l := start
  for segment in segments do
    if Path.isSilent segment then continue
    l := if segment = ".." then l.dropLast else l ++ [segment]
    t ← loadEntry t l
  return t

/-- The nearest of a location and those above it that has a configuration. -/
def projectLocation? (l : Location) : IO (Option Location) := do
  for n in (List.range (l.length + 1)).reverse do
    let place := (← IO.currentDir) / diskName (l.take n ++ [Config.fileName])
    if (← place.pathExists) && !(← place.isDir) then return some (l.take n)
  return none

/-- The part of the disk that a command can look at. -/
def loadFor (command : Command) : IO FileTree := do
  let current := (Path.ofString (← IO.currentDir).toString).names
  let mut t ← loadAlong ∅ [] current
  t := t.withCurrent current
  match command with
  | .init _ | .scan _ _ | .convert _ _ _ _ => t ← loadEntry t (current ++ [Config.fileName])
  | _ => t ← loadBelow t ((← projectLocation? current).getD current)
  for path in command.paths do
    t ← loadAlong t (if path.isRooted then [] else current) (path.head :: path.tail)
    t ← loadAlong t (if path.isRooted then [] else current)
      (path.directory.head :: path.directory.tail)
  return t

-- ── Writing the disk ─────────────────────────────────────────────────────────

/-- Makes the disk agree with a tree that came from another one: new directories first, then files,
    each replaced in one step, and removed files last. -/
def store (before after : FileTree) : IO Unit := do
  for (l, e) in after.entries.entries do
    if before.get? l ≠ some e then
      match e with
      | .directory => IO.FS.createDir (diskName l)
      | .file content =>
        let part := diskName l ++ ".part"
        IO.FS.writeBinFile part content.toBytes
        IO.FS.rename part (diskName l)
  for (l, _) in before.entries.entries do
    if (after.get? l).isNone then IO.FS.removeFile (diskName l)

/-- Answers the arguments of the program on the disk. -/
def runOnDisk (words : List String) : IO UInt32 := do
  let before ←
    match Request.parse? words with
    | some (.run command _) => loadFor command
    | _ => pure ∅
  let reply := answer before words
  store before reply.files
  IO.print reply.output
  IO.eprint reply.errors
  if reply.code = 2 then IO.eprintln "usage: shadergen [-v] COMMAND [ARGUMENTS]"
  return reply.code.toUInt32

end ShaderTemplates.CommandLine

def main (words : List String) : IO UInt32 := ShaderTemplates.CommandLine.runOnDisk words
