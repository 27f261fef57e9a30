import BlockSieve.Tree.Walk

/-!
A disk: a tree together with the directory that paths start from and the
number of the running process. Each request either answers, with the disk
after it where it changes something, or names the cause why it is refused
and leaves the disk alone.
-/

namespace BlockSieve

/-- A tree, the working directory, and the number of the process that works there. -/
structure Disk where
  tree : Tree
  home : Place
  process : Nat
  deriving DecidableEq

namespace Disk

open BlockSieve.Tree (Landing)

/-- Why a path is refused before anything is looked up. -/
def refusal? (path : Text) : Option Cause :=
  if '\x00' ∈ path then some .nulInPath
  else if path = [] then some .notFound
  else if Tree.pathLimit ≤ (Utf8.encode path).length then some .nameTooLong
  else none

/-- The directory that a path starts from. -/
def start (d : Disk) (path : Text) : Place := if Tree.fromRoot path then [] else d.home

/-- Where a path leads. -/
def locate (d : Disk) (follow : Bool) (path : Text) : Except Cause Landing :=
  match refusal? path with
  | some cause => .error cause
  | none => d.tree.walk follow Tree.linkLimit (d.start path) (Tree.route path)

/-- The directory that holds the last name of a path, and that name. There is no such name when the
path is the root or ends in dots. -/
def holder (d : Disk) (path : Text) : Except Cause (Place × Option Text) :=
  match refusal? path with
  | some cause => .error cause
  | none =>
    let names := Tree.namesOf path
    match d.tree.walk true Tree.linkLimit (d.start path) (names.dropLast ++ [['.']]) with
    | .error cause => .error cause
    | .ok (.vacant _ _) => .error .notFound
    | .ok (.there directory _) =>
      match names.getLast? with
      | none => .ok (directory, none)
      | some name =>
        if name = ['.'] ∨ name = ['.', '.'] then .ok (directory, none)
        else if Tree.tooLong name then .error .nameTooLong
        else .ok (directory, some name)

/-- The bytes of the file that a path leads to. -/
def read (d : Disk) (path : Text) : Except Cause Bytes :=
  match d.locate true path with
  | .error cause => .error cause
  | .ok (.there _ (.file bytes _)) => .ok bytes
  | .ok (.there _ .directory) => .error .isDirectory
  | .ok _ => .error .notFound

/-- Whether a path leads to a directory. -/
def isDirectory (d : Disk) (path : Text) : Bool :=
  match d.locate true path with
  | .ok (.there _ .directory) => true
  | _ => false

/-- Whether a path ends at a link. -/
def isLink (d : Disk) (path : Text) : Bool :=
  match d.locate false path with
  | .ok (.there _ (.link _)) => true
  | _ => false

/-- The permission bits of all directories. -/
def directoryMode : Nat := 0o755

/-- The permission bits of what a path leads to. -/
def mode? (d : Disk) (path : Text) : Option Nat :=
  match d.locate true path with
  | .ok (.there _ (.file _ mode)) => some mode
  | .ok (.there _ .directory) => some directoryMode
  | _ => none

/-- The spelling of a place as a path from the root. -/
def spell (place : Place) : Text := '/' :: Text.joinBy '/' place

/-- The path from the root, free of links and dots, of what a path leads to. -/
def canonical (d : Disk) (path : Text) : Except Cause Text :=
  match d.locate true path with
  | .error cause => .error cause
  | .ok (.there place _) => .ok (spell place)
  | .ok (.vacant _ _) => .error .notFound

/-- The disk with an entry put at a place. -/
def put (d : Disk) (place : Place) (entry : Entry) : Disk := { d with tree := d.tree.put place entry }

/-- Makes one directory. -/
def makeDirectory (d : Disk) (path : Text) : Except Cause Disk :=
  match d.holder path with
  | .error cause => .error cause
  | .ok (_, none) => .error .occupied
  | .ok (directory, some name) =>
    match d.tree.get? (directory ++ [name]) with
    | some _ => .error .occupied
    | none => .ok (d.put (directory ++ [name]) .directory)

/-- Opens a file for writing: it is made, with the given permission bits, if it is not there, and
emptied if it is. The answer holds its place. -/
def openEmpty (d : Disk) (path : Text) (mode : Nat) : Except Cause (Place × Disk) :=
  match d.locate true path with
  | .error cause => .error cause
  | .ok (.there place (.file _ old)) => .ok (place, d.put place (.file [] old))
  | .ok (.there _ .directory) => .error .isDirectory
  | .ok (.there _ (.link _)) => .error .tooManyLinks
  | .ok (.vacant directory name) =>
    .ok (directory ++ [name], d.put (directory ++ [name]) (.file [] mode))

/-- Moves what stands at one path, which is not a directory, to another path, over what is there. -/
def move (d : Disk) (source target : Text) : Except Cause Disk :=
  match d.holder source, d.holder target with
  | .error cause, _ => .error cause
  | _, .error cause => .error cause
  | .ok (_, none), _ => .error .busy
  | _, .ok (_, none) => .error .busy
  | .ok (sourceDir, some sourceName), .ok (targetDir, some targetName) =>
    match d.tree.get? (sourceDir ++ [sourceName]) with
    | none => .error .notFound
    | some entry =>
      if target.getLast? = some '/' then .error .notDirectory
      else
        match d.tree.get? (targetDir ++ [targetName]) with
        | some .directory => .error .isDirectory
        | _ =>
          .ok { d with
            tree := (d.tree.erase (sourceDir ++ [sourceName])).put (targetDir ++ [targetName]) entry }

/-- Removes what stands at a path, if it can be removed. -/
def remove (d : Disk) (path : Text) : Disk :=
  match d.holder path with
  | .ok (directory, some name) => { d with tree := d.tree.erase (directory ++ [name]) }
  | _ => d

end Disk

end BlockSieve
