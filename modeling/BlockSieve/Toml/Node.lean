import BlockSieve.Text.Blank

/-!
What a TOML document says: tables of keys, and under each key a value, a
table, or an array of tables. A table remembers how it came about, because
that decides what may still be added to it. A header makes a table once; the
tables on the way to it come about implicitly, and one of those may still get
a header of its own. A dotted key makes tables that only dotted keys may
extend.
-/

namespace BlockSieve.Toml

/-- How a table came about. -/
inductive Origin where
  | header
  | underHeader
  | dottedKey
  | inline
  deriving DecidableEq

/-- What stands under a key. Of numbers, truth values, dates and times only the text matters. The
tables of an array are kept with the latest first. -/
inductive Node where
  | string (t : Text)
  | scalar (written : Text)
  | array (items : List Node)
  | table (origin : Origin) (members : List (Text × Node))
  | tables (latest : List (Text × Node)) (earlier : List (List (Text × Node)))

/-- The keys of a table with what stands under them, in the order in which they came. -/
abbrev Members := List (Text × Node)

namespace Members

/-- What stands under a key. -/
def get? (key : Text) : Members → Option Node
  | [] => none
  | (k, node) :: rest => if k = key then some node else get? key rest

/-- The members with a node under a key, at the key's place or at the end. -/
def set (key : Text) (node : Node) : Members → Members
  | [] => [(key, node)]
  | (k, old) :: rest => if k = key then (k, node) :: rest else (k, old) :: set key node rest

/-- Changes the members of the table that the keys of a header lead to. Missing tables come about
implicitly, and of an array of tables the latest is meant. -/
def under (change : Members → Option Members) : List Text → Members → Option Members
  | [], members => change members
  | key :: path, members =>
    match get? key members with
    | none => do some (set key (.table .underHeader (← under change path [])) members)
    | some (.table .inline _) => none
    | some (.table origin inner) => do
      some (set key (.table origin (← under change path inner)) members)
    | some (.tables latest earlier) => do
      some (set key (.tables (← under change path latest) earlier) members)
    | some _ => none

/-- Gives the table at a key its header. -/
def openTable (key : Text) (members : Members) : Option Members :=
  match get? key members with
  | none => some (set key (.table .header []) members)
  | some (.table .underHeader inner) => some (set key (.table .header inner) members)
  | some _ => none

/-- Begins a new table in the array of tables at a key. -/
def openElement (key : Text) (members : Members) : Option Members :=
  match get? key members with
  | none => some (set key (.tables [] []) members)
  | some (.tables latest earlier) => some (set key (.tables [] (latest :: earlier)) members)
  | some _ => none

/-- Puts a value under a key that is not there yet. -/
def insertNew (key : Text) (node : Node) (members : Members) : Option Members :=
  match get? key members with
  | none => some (set key node members)
  | some _ => none

/-- Puts a value under a dotted key: the keys on the way, then the last one. The table that takes
the value must have come from dotted keys as well. -/
def insertDotted (last : Text) (node : Node) : List Text → Members → Option Members
  | [], members => insertNew last node members
  | key :: path, members =>
    match get? key members with
    | none => do some (set key (.table .dottedKey (← insertDotted last node path [])) members)
    | some (.table .dottedKey inner) => do
      some (set key (.table .dottedKey (← insertDotted last node path inner)) members)
    | some (.table .underHeader inner) =>
      if path = [] then none
      else do some (set key (.table .underHeader (← insertDotted last node path inner)) members)
    | some (.tables latest earlier) =>
      if path = [] then none
      else do some (set key (.tables (← insertDotted last node path latest) earlier) members)
    | some _ => none

end Members

/-- The texts of an array of strings. -/
def Node.texts? : Node → Option (List Text)
  | .array items => items.mapM fun item =>
    match item with
    | .string t => some t
    | _ => none
  | _ => none

end BlockSieve.Toml
