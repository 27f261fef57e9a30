import BlockSieve.Fault
import BlockSieve.Tree

/-!
Following a path through a tree. Names are taken one after another; a single
dot stays, two dots go up, and a link is replaced by the path it holds, at
most forty times. A slash at the end asks for a directory, just as a dot
there does.
-/

namespace BlockSieve

namespace Tree

/-- The names of a path: what stands between its slashes, empty names left out. -/
def namesOf (path : Text) : List Text := (Text.cutAt '/' path).filter (· ≠ [])

/-- The names to follow for a path. A slash at the end counts as a dot after it. -/
def route (path : Text) : List Text :=
  if path.getLast? = some '/' then namesOf path ++ [['.']] else namesOf path

/-- Whether a path starts at the root. -/
def fromRoot (path : Text) : Bool := path.head? == some '/'

/-- The longest name, in bytes. -/
def longestName : Nat := 255

/-- Paths of this many bytes are too long. -/
def pathLimit : Nat := 4096

/-- How many links one path may lead through. -/
def linkLimit : Nat := 40

/-- Whether a name is too long to stand in a directory. -/
def tooLong (name : Text) : Bool := longestName < (Utf8.encode name).length

/-- Where a path leads: to something that is there, or to a free name in a directory. -/
inductive Landing where
  | there (place : Place) (entry : Entry)
  | vacant (directory : Place) (name : Text)

/-- Follows a route from a directory. A link that ends the route is followed only if asked for. -/
def walk (t : Tree) (follow : Bool) (links : Nat) (here : Place) (names : List Text) :
    Except Cause Landing :=
  match names with
  | [] => .ok (.there here .directory)
  | name :: rest =>
    if name = ['.'] then t.walk follow links here rest
    else if name = ['.', '.'] then t.walk follow links here.dropLast rest
    else if tooLong name then .error .nameTooLong
    else
      match t.get? (here ++ [name]) with
      | none => if rest = [] then .ok (.vacant here name) else .error .notFound
      | some .directory => t.walk follow links (here ++ [name]) rest
      | some (.file bytes mode) =>
        if rest = [] then .ok (.there (here ++ [name]) (.file bytes mode))
        else .error .notDirectory
      | some (.link target) =>
        if rest = [] ∧ follow = false then .ok (.there (here ++ [name]) (.link target))
        else
          match links with
          | 0 => .error .tooManyLinks
          | links + 1 =>
            if target = [] then .error .notFound
            else t.walk follow links (if fromRoot target then [] else here) (route target ++ rest)
termination_by (links, names.length)

end Tree

end BlockSieve
