import BlockSieve.Digest
import BlockSieve.Disk

/-!
Backup copies. The copy of a file stands beside it under a longer name and
takes its permission bits. Copying opens the file first and then empties the
copy; when both paths lead to one file, that file is emptied. A backup counts
as made when file and copy have the same checksum.
-/

namespace BlockSieve.Disk

/-- Copies the bytes and permission bits of a file to another path. -/
def copy (d : Disk) (source target : Text) : Except Cause Disk :=
  match d.locate true source with
  | .error cause => .error cause
  | .ok (.there place (.file _ mode)) =>
    match d.openEmpty target mode with
    | .error cause => .error cause
    | .ok (copyPlace, opened) =>
      match opened.tree.get? place with
      | some (.file bytes _) => .ok (opened.put copyPlace (.file bytes mode))
      | _ => .error .notFound
  | .ok (.there _ _) => .error .notRegular
  | .ok (.vacant _ _) => .error .notFound

/-- The checksum of the file that a path leads to. -/
def checksum (d : Disk) (path : Text) : Except Cause Text :=
  match d.read path with
  | .ok bytes => .ok (Digest.checksum bytes)
  | .error cause => .error cause

/-- Copies a file to its backup and compares the two. The answer is the path of the backup. -/
def backUp (d : Disk) (source : Path) : Except Fault Path × Disk :=
  let target := source.backup
  match d.copy source.text target.text with
  | .error cause => (.error (.disk target.text cause), d)
  | .ok copied =>
    match copied.checksum source.text, copied.checksum target.text with
    | .error cause, _ => (.error (.disk source.text cause), copied)
    | _, .error cause => (.error (.disk target.text cause), copied)
    | .ok expected, .ok actual =>
      if expected = actual then (.ok target, copied)
      else (.error (.backupDiffers target.text), copied)

end BlockSieve.Disk
