import BlockSieve.Disk
import BlockSieve.Path.Component

/-!
Making a directory together with the directories above it that are missing.
Directories made before a failure stay.
-/

namespace BlockSieve.Disk

/-- Makes the first of the given directories. Where it cannot be made because something above it is
missing, the rest of the list is made first. One that is there already is fine. -/
def makeInnermost (d : Disk) : List Text → Except Cause Unit × Disk
  | [] => (.error .notFound, d)
  | path :: above =>
    if path = [] then (.ok (), d)
    else
      match d.makeDirectory path with
      | .ok made => (.ok (), made)
      | .error .notFound =>
        match d.makeInnermost above with
        | (.error cause, after) => (.error cause, after)
        | (.ok (), after) =>
          match after.makeDirectory path with
          | .ok made => (.ok (), made)
          | .error cause => if after.isDirectory path then (.ok (), after) else (.error cause, after)
      | .error cause => if d.isDirectory path then (.ok (), d) else (.error cause, d)

/-- Makes a directory and the missing ones above it. -/
def makeDirectories (d : Disk) (path : Text) : Except Cause Unit × Disk :=
  d.makeInnermost (Component.upwards path)

end BlockSieve.Disk
