import BlockSieve.CommandLine

/-!
The program on a real disk. The files that a call names are read into a
picture of the disk, the call is answered on the picture, and the files that
the answer changed are written.
-/

namespace BlockSieve.Main

/-- The spelling of a place from the root. -/
def spelling (p : Place) : String := "/" ++ String.ofList (Text.joinBy '/' p)

/-- What stands at a place. What is there and cannot be read as a file is taken for a directory. -/
def entryAt? (p : Place) : IO (Option Entry) := do
  try
    let bytes ← IO.FS.readBinFile (spelling p)
    return some (.file bytes.toList 0o644)
  catch e =>
    match e with
    | .noFileOrDirectory _ _ _ => return none
    | _ => return some .directory

/-- Adds to a picture what stands at a place. -/
def look (d : Disk) (p : Place) : IO Disk := do
  match ← entryAt? p with
  | some entry => return d.put p entry
  | none => return d

/-- Adds to a picture all that the names of a path lead over. -/
def lookAlong (d : Disk) (path : Text) : IO Disk := do
  let mut d := d
  let mut place := if Tree.fromRoot path then [] else d.home
  for name in Tree.namesOf path do
    if name = ['.', '.'] then place := place.dropLast
    else if name ≠ ['.'] then
      place := place ++ [name]
      d ← look d place
  return d

/-- A picture of the disk with the working directory and the files that a run names. -/
def picture (options : Options) : IO Disk := do
  let home := (← IO.currentDir).toString.toList
  let empty : Disk := ⟨Tree.empty, [], 0⟩
  let base ← lookAlong empty home
  let d : Disk := { base with home := Tree.namesOf home }
  let source := options.sourcePath
  let d ← lookAlong d source.text
  let d ← lookAlong d source.backup.text
  match options.allowList with
  | some t => lookAlong d (Path.ofText t).text
  | none => return d

/-- Writes the files and makes the directories that are new or different. -/
def restore (before after : Disk) : IO Unit := do
  for (place, entry) in after.tree.below [] do
    if before.tree.get? place ≠ some entry then
      match entry with
      | .directory => IO.FS.createDirAll (spelling place)
      | .file bytes _ => IO.FS.writeBinFile (spelling place) (ByteArray.mk bytes.toArray)
      | .link _ => pure ()

/-- Whether the environment asks for colours. -/
def colours : IO Bool := do
  if (← IO.getEnv "NO_COLOR").isSome then return false
  match ← IO.getEnv "CLICOLOR_FORCE" with
  | some v => return v != "0"
  | none => return false

end BlockSieve.Main

open BlockSieve BlockSieve.CommandLine in
/-- Answers one call of the program. -/
def main (arguments : List String) : IO UInt32 := do
  let environment := (← IO.getEnv sourceVariable).map String.toList
  let call : Invocation := ⟨arguments.map String.toList, environment, ← Main.colours⟩
  let before ← match request call.environment call.arguments with
    | .ok wanted => Main.picture wanted.options
    | .error _ => pure ⟨Tree.empty, [], 0⟩
  let reply := call.answer before
  Main.restore before reply.disk
  IO.print (String.ofList reply.printed)
  match reply.fault with
  | some fault => IO.eprint (String.ofList (errorLine call.coloured fault.message))
  | none => pure ()
  return reply.exit.toUInt32
