import BlockSieve.Disk.Directories

/-!
Replacing a file as a whole. The new bytes are written to a temporary file
beside the old one, which is then moved over it, so the file holds the old
bytes or the new ones and nothing between. A link is followed first, so that
the link stays and its target is replaced. Missing directories are made, and
an existing file keeps its permission bits.
-/

namespace BlockSieve.Disk

/-- The permission bits of a new file. -/
def newFileMode : Nat := 0o644

/-- The path of the file that writing to `path` replaces. -/
def resolve (d : Disk) (path : Path) : Except Fault Text :=
  if d.isLink path.text then
    match d.canonical path.text with
    | .ok target => .ok target
    | .error cause => .error (.disk path.text cause)
  else .ok path.text

/-- The name of the temporary file for a path: hidden, and marked with the number of the process. -/
def temporaryName (d : Disk) (path : Path) : Text :=
  '.' :: path.fileName?.getD [] ++ '.' :: (toString d.process).toList ++ ".tmp".toList

/-- Makes the directory that holds a path, if the path names one. -/
def makeParent (d : Disk) (path : Path) : Except Fault Unit × Disk :=
  match path.parent? with
  | none => (.ok (), d)
  | some parent =>
    match d.makeDirectories parent.text with
    | (.ok (), after) => (.ok (), after)
    | (.error cause, after) => (.error (.disk parent.text cause), after)

/-- Writes `bytes` to a temporary file and moves it to `target`. A temporary file that cannot be
moved is removed. -/
def install (d : Disk) (temporary target : Text) (bytes : Bytes) : Except Fault Unit × Disk :=
  let kept := d.mode? target
  match d.openEmpty temporary newFileMode with
  | .error cause => (.error (.disk temporary cause), d)
  | .ok (place, opened) =>
    let mode := kept.getD ((opened.mode? temporary).getD newFileMode)
    let written := opened.put place (.file bytes mode)
    match written.move temporary target with
    | .error cause => (.error (.disk target cause), written.remove temporary)
    | .ok moved => (.ok (), moved)

/-- Replaces the file at `path` by one with the given bytes, or makes it. -/
def replace (d : Disk) (path : Path) (bytes : Bytes) : Except Fault Unit × Disk :=
  match d.resolve path with
  | .error fault => (.error fault, d)
  | .ok target =>
    let shown := Path.ofText target
    match d.makeParent shown with
    | (.error fault, after) => (.error fault, after)
    | (.ok (), after) =>
      after.install (Component.beside target (d.temporaryName shown)) target bytes

/-- Replaces the file at `path` by one that holds a text. -/
def writeText (d : Disk) (path : Path) (t : Text) : Except Fault Unit × Disk :=
  d.replace path (Utf8.encode t)

/-- The text that the file at `path` holds; bytes that are not text are read as replacement
characters. -/
def readText (d : Disk) (path : Path) : Except Fault Text :=
  match d.read path.text with
  | .ok bytes => .ok (Utf8.decode bytes)
  | .error cause => .error (.disk path.text cause)

end BlockSieve.Disk
