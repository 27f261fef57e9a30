import BlockSieve.Toml.Node
import BlockSieve.Toml.Scalar

/-!
Reading a TOML document: lines of keys and values, and headers that open
tables. Arrays and inline tables may stand in one another to a limited depth.
-/

namespace BlockSieve.Toml

/-- The items of an array up to its closing bracket. A comma may follow the last. -/
def items (read : Text → Taken Node) (t : Text) : Taken (List Node) :=
  match skipLines t with
  | ']' :: rest => some ([], rest)
  | start =>
    match read start with
    | none => none
    | some (item, rest) =>
      match skipLines rest with
      | ']' :: rest => some ([item], rest)
      | ',' :: rest =>
        if rest.length < t.length then (items read rest).map fun r => (item :: r.1, r.2) else none
      | _ => none
termination_by t.length

/-- The pairs of an inline table up to its closing brace, on one line and without a comma at the
end. -/
def pairs (read : Text → Taken Node) (t : Text) : Taken (List (List Text × Node)) :=
  match key? t with
  | none => none
  | some (key, '=' :: rest) =>
    match read (skipGap rest) with
    | none => none
    | some (node, rest) =>
      match skipGap rest with
      | '\x7d' :: rest => some ([(key, node)], rest)
      | ',' :: rest =>
        if rest.length < t.length then (pairs read rest).map fun r => ((key, node) :: r.1, r.2)
        else none
      | _ => none
  | some _ => none
termination_by t.length

/-- The members of an inline table with the given pairs. -/
def membersOf (pairs : List (List Text × Node)) : Option Members :=
  pairs.foldlM (fun members pair =>
    match pair.1.getLast? with
    | none => none
    | some last => Members.insertDotted last pair.2 pair.1.dropLast members) []

/-- An inline table, after its opening brace. -/
def inlineTable (read : Text → Taken Node) (t : Text) : Taken Node :=
  match skipGap t with
  | '\x7d' :: rest => some (.table .inline [], rest)
  | _ =>
    match pairs read t with
    | none => none
    | some (pairs, rest) => (membersOf pairs).map fun members => (.table .inline members, rest)

/-- A value in which arrays and inline tables stand in one another at most `depth` deep. -/
def value? : Nat → Text → Taken Node
  | _, [] => none
  | depth, c :: rest =>
    if c = '"' ∨ c = '\'' then (string? (c :: rest)).map fun r => (.string r.1, r.2)
    else if c = '[' then
      match depth with
      | 0 => none
      | depth + 1 => (items (value? depth) rest).map fun r => (.array r.1, r.2)
    else if c = '\x7b' then
      match depth with
      | 0 => none
      | depth + 1 => inlineTable (value? depth) rest
    else
      (scalar? (c :: rest)).map fun after =>
        (.scalar ((c :: rest).take (rest.length + 1 - after.length)), after)

/-- How deep values may nest. -/
def depthLimit : Nat := 79

/-- One line of a document, by what it says. -/
inductive Statement where
  | nothing
  | table (path : List Text)
  | element (path : List Text)
  | pair (key : List Text) (node : Node)

/-- The statement that a text begins with, together with the end of its line. -/
def statement? (t : Text) : Taken Statement :=
  match t with
  | '[' :: '[' :: rest =>
    match key? rest with
    | some (path, ']' :: ']' :: rest) => (lineTail? rest).map fun rest => (.element path, rest)
    | _ => none
  | '[' :: rest =>
    match key? rest with
    | some (path, ']' :: rest) => (lineTail? rest).map fun rest => (.table path, rest)
    | _ => none
  | c :: _ =>
    if c = '#' ∨ c = '\n' ∨ c = '\r' then (lineTail? t).map fun rest => (.nothing, rest)
    else
      match key? t with
      | some (key, '=' :: rest) =>
        match value? depthLimit (skipGap rest) with
        | none => none
        | some (node, rest) => (lineTail? rest).map fun rest => (.pair key node, rest)
      | _ => none
  | [] => none

/-- The statements of a document. -/
def statements? (t : Text) : Option (List Statement) :=
  match skipGap t with
  | [] => some []
  | start =>
    match statement? start with
    | none => none
    | some (s, rest) => if rest.length < t.length then (statements? rest).map (s :: ·) else none
termination_by t.length

/-- Adds what a statement says to a document, together with the path of the table that is open. -/
def Statement.addTo (doc : List Text × Members) : Statement → Option (List Text × Members)
  | .nothing => some doc
  | .table path => do
    let last ← path.getLast?
    some (path, ← Members.under (Members.openTable last) path.dropLast doc.2)
  | .element path => do
    let last ← path.getLast?
    some (path, ← Members.under (Members.openElement last) path.dropLast doc.2)
  | .pair key node => do
    let last ← key.getLast?
    some (doc.1, ← Members.under (Members.insertDotted last node key.dropLast) doc.1 doc.2)

/-- A document without the byte order mark it may begin with. -/
def skipMark (t : Text) : Text :=
  match t with
  | '\uFEFF' :: rest => rest
  | _ => t

/-- The members of the table that a document describes. -/
def read? (t : Text) : Option Members := do
  let statements ← statements? (skipMark t)
  let doc ← statements.foldlM Statement.addTo ([], [])
  some doc.2

end BlockSieve.Toml
