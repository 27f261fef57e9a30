import BlockSieve.Text.Cut

/-!
The last component of a path as the disk's callers take it: slashes at the
end do not count, and neither does a single dot there, unless it is the whole
path. From it come the path of the directory that holds the component, and
the path of another name beside it.
-/

namespace BlockSieve.Component

/-- Drops slashes, and dots that follow a slash, from the end of a path whose characters are given
last to first. A path of slashes only keeps one. -/
def dropIdle : Text → Text
  | [] => []
  | c :: r =>
    if c = '/' then if r = [] then ['/'] else dropIdle r
    else
      match r with
      | d :: s => if c = '.' ∧ d = '/' then if s = [] then ['/'] else dropIdle s else c :: r
      | [] => [c]

/-- A path without the slashes and dots at its end that name nothing. -/
def bare (path : Text) : Text := (dropIdle path.reverse).reverse

/-- The path of the directory that holds the last component; the root and the empty path have no
component. -/
def directory? (path : Text) : Option Text :=
  let b := bare path
  if b = [] ∨ b = ['/'] then none
  else
    match Text.cutLast '/' b with
    | none => some []
    | some ([], _) => some ['/']
    | some (before, _) => some (bare before)

/-- The last component, unless the path ends in dots or has none. -/
def last? (path : Text) : Option Text :=
  let b := bare path
  let name := match Text.cutLast '/' b with
    | none => b
    | some (_, after) => after
  if name = [] ∨ name = ['.'] ∨ name = ['.', '.'] then none else some name

/-- A name appended to the path of a directory. -/
def within (directory name : Text) : Text :=
  if directory = [] then name
  else if directory.getLast? = some '/' then directory ++ name
  else directory ++ '/' :: name

/-- The path of `name` in the directory that holds the last component; a path that ends in dots
counts as that directory itself. -/
def beside (path name : Text) : Text :=
  match last? path with
  | none => within path name
  | some _ => within ((directory? path).getD []) name

/-- A path and the paths of the directories above it, from the innermost on. -/
def upwards (path : Text) : List Text :=
  match directory? path with
  | none => [path]
  | some d => if d.length < path.length then path :: upwards d else [path]
termination_by path.length

end BlockSieve.Component
