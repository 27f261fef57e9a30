import BlockSieve.Yaml.Layout
import BlockSieve.Yaml.Node

/-!
Reading a YAML document from its tokens. A stream holds one document at most;
a stream without one stands for an empty scalar. Nodes that are left out, as
after a colon with nothing behind it, are empty scalars as well.
-/

namespace BlockSieve.Yaml

/-- What is read from the front of a list of tokens, and the tokens after it. -/
abbrev Parsed (α : Type) := Option (α × List Token)

/-- Whether the next token can only stand where a node is left out, among the keys and values of a
block mapping. -/
def leftOut : List Token → Bool
  | .key :: _ => true
  | .value :: _ => true
  | .blockEnd :: _ => true
  | _ => false

/-- Whether a tag handle stands for something. Two always do, and a tag may have none. -/
def knows (handles : List Text) (handle : Text) : Bool :=
  handle == [] || handle == ['!'] || handle == ['!', '!'] || handles.contains handle

/-- A node that is left out after an anchor or a tag. -/
def absent? (marked : Bool) (ts : List Token) : Parsed (Node Text) :=
  if marked then some (.empty, ts) else none

mutual

/-- A node with its anchor and tag, in either order. `block` allows block collections, and
`indentless` a sequence whose dashes are no deeper than the key before it. -/
def node? (handles : List Text) (block indentless : Bool) : List Token → Parsed (Node Text)
  | .alias name :: rest => some (.alias name, rest)
  | .anchor name :: .tag handle :: rest =>
    if knows handles handle then
      (content? handles block indentless true rest).map fun r => (.anchored name r.1, r.2)
    else none
  | .tag handle :: .anchor name :: rest =>
    if knows handles handle then
      (content? handles block indentless true rest).map fun r => (.anchored name r.1, r.2)
    else none
  | .anchor name :: rest =>
    (content? handles block indentless true rest).map fun r => (.anchored name r.1, r.2)
  | .tag handle :: rest =>
    if knows handles handle then content? handles block indentless true rest else none
  | ts => content? handles block indentless false ts
termination_by ts => 6 * ts.length + 2

/-- A node without its anchor and tag. It may be left out if it has one of them. -/
def content? (handles : List Text) (block indentless marked : Bool) :
    List Token → Parsed (Node Text)
  | .scalar plain t :: rest => some (.scalar plain t, rest)
  | .openBracket :: rest => (items? handles rest).map fun r => (.sequence r.1, r.2)
  | .openBrace :: rest => (members? handles rest).map fun r => (.mapping r.1, r.2)
  | .dash :: rest =>
    if indentless then (dashes? handles (.dash :: rest)).map fun r => (.sequence r.1, r.2)
    else absent? marked (.dash :: rest)
  | .blockSequence :: rest =>
    if block then (blockItems? handles rest).map fun r => (.sequence r.1, r.2)
    else absent? marked (.blockSequence :: rest)
  | .blockMapping :: rest =>
    if block then (blockPairs? handles rest).map fun r => (.mapping r.1, r.2)
    else absent? marked (.blockMapping :: rest)
  | ts => absent? marked ts
termination_by ts => 6 * ts.length + 1

/-- A node in a block, unless the next token shows that it is left out. -/
def blockNode? (handles : List Text) (indentless : Bool) (ts : List Token) : Parsed (Node Text) :=
  if leftOut ts then some (.empty, ts) else node? handles true indentless ts
termination_by 6 * ts.length + 3

/-- The value in a block mapping, or none if no colon comes next. -/
def blockValue? (handles : List Text) : List Token → Parsed (Node Text)
  | .value :: rest => blockNode? handles true rest
  | ts => some (.empty, ts)
termination_by ts => 6 * ts.length

/-- The items of a block sequence, with its end. -/
def blockItems? (handles : List Text) : List Token → Parsed (List (Node Text))
  | .blockEnd :: rest => some ([], rest)
  | .dash :: .dash :: rest =>
    (blockItems? handles (.dash :: rest)).map fun r => (.empty :: r.1, r.2)
  | .dash :: .blockEnd :: rest => some ([.empty], rest)
  | .dash :: rest =>
    match node? handles true false rest with
    | none => none
    | some (item, after) =>
      if after.length ≤ rest.length then
        (blockItems? handles after).map fun r => (item :: r.1, r.2)
      else none
  | _ => none
termination_by ts => 6 * ts.length

/-- The items of a sequence whose dashes are no deeper than its key. It ends where no dash follows. -/
def dashes? (handles : List Text) : List Token → Parsed (List (Node Text))
  | .dash :: .dash :: rest =>
    (dashes? handles (.dash :: rest)).map fun r => (.empty :: r.1, r.2)
  | .dash :: rest =>
    match blockNode? handles false rest with
    | none => none
    | some (item, after) =>
      if after.length ≤ rest.length then (dashes? handles after).map fun r => (item :: r.1, r.2)
      else none
  | ts => some ([], ts)
termination_by ts => 6 * ts.length

/-- The pairs of a block mapping, with its end. -/
def blockPairs? (handles : List Text) : List Token → Parsed (List (Node Text × Node Text))
  | .blockEnd :: rest => some ([], rest)
  | .key :: rest =>
    match blockNode? handles true rest with
    | none => none
    | some (key, after) =>
      if after.length ≤ rest.length then
        match blockValue? handles after with
        | none => none
        | some (value, next) =>
          if next.length ≤ rest.length then
            (blockPairs? handles next).map fun r => ((key, value) :: r.1, r.2)
          else none
      else none
  | _ => none
termination_by ts => 6 * ts.length
decreasing_by all_goals (simp only [List.length_cons]; omega)

/-- The value in a flow collection that the token `close` ends, or none if no colon comes next. -/
def flowValue? (handles : List Text) (close : Token) : List Token → Parsed (Node Text)
  | .value :: rest =>
    if rest.head? = some .comma ∨ rest.head? = some close then some (.empty, rest)
    else node? handles false false rest
  | ts => some (.empty, ts)
termination_by ts => 6 * ts.length

/-- The items of a flow sequence, after its bracket or a comma, with its end. -/
def items? (handles : List Text) : List Token → Parsed (List (Node Text))
  | .closeBracket :: rest => some ([], rest)
  | ts =>
    match item? handles ts with
    | none => none
    | some (item, .closeBracket :: after) => some ([item], after)
    | some (item, .comma :: after) =>
      if after.length < ts.length then (items? handles after).map fun r => (item :: r.1, r.2)
      else none
    | some _ => none
termination_by ts => 6 * ts.length + 5

/-- An item of a flow sequence. -/
def item? (handles : List Text) : List Token → Parsed (Node Text)
  | .key :: rest => pair? handles rest
  | ts => node? handles false false ts
termination_by ts => 6 * ts.length + 4

/-- A mapping of one pair that stands in a flow sequence without braces. Where its key is left out,
so is the sign that follows. -/
def pair? (handles : List Text) : List Token → Parsed (Node Text)
  | .value :: rest => pairAfter? handles .empty rest
  | .comma :: rest => pairAfter? handles .empty rest
  | .closeBracket :: rest => pairAfter? handles .empty rest
  | ts =>
    match node? handles false false ts with
    | none => none
    | some (key, after) => if after.length ≤ ts.length then pairAfter? handles key after else none
termination_by ts => 6 * ts.length + 4

/-- The pair with a key, of which the value may follow. -/
def pairAfter? (handles : List Text) (key : Node Text) (ts : List Token) : Parsed (Node Text) :=
  (flowValue? handles .closeBracket ts).map fun r => (.mapping [(key, r.1)], r.2)
termination_by 6 * ts.length + 1

/-- The pairs of a flow mapping, after its brace or a comma, with its end. -/
def members? (handles : List Text) : List Token → Parsed (List (Node Text × Node Text))
  | .closeBrace :: rest => some ([], rest)
  | ts =>
    match member? handles ts with
    | none => none
    | some (pair, .closeBrace :: after) => some ([pair], after)
    | some (pair, .comma :: after) =>
      if after.length < ts.length then (members? handles after).map fun r => (pair :: r.1, r.2)
      else none
    | some _ => none
termination_by ts => 6 * ts.length + 5

/-- A pair of a flow mapping. -/
def member? (handles : List Text) : List Token → Parsed (Node Text × Node Text)
  | .key :: rest =>
    match memberKey? handles rest with
    | none => none
    | some (key, after) =>
      if after.length ≤ rest.length then
        (flowValue? handles .closeBrace after).map fun r => ((key, r.1), r.2)
      else none
  | ts => (node? handles false false ts).map fun r => ((r.1, .empty), r.2)
termination_by ts => 6 * ts.length + 4

/-- The key of a flow mapping, which may be left out. -/
def memberKey? (handles : List Text) : List Token → Parsed (Node Text)
  | .value :: rest => some (.empty, .value :: rest)
  | .comma :: rest => some (.empty, .comma :: rest)
  | .closeBrace :: rest => some (.empty, .closeBrace :: rest)
  | ts => node? handles false false ts
termination_by ts => 6 * ts.length + 3

end

/-! ### Documents -/

/-- The handles that the directives of a document make known, and the tokens after them. The version
is named once at most and is 1.1 or 1.2, and no handle is made known twice. -/
def directives? (versioned : Bool) (handles : List Text) : List Token → Parsed (List Text)
  | .version major minor :: rest =>
    if versioned ∨ major ≠ 1 ∨ (minor ≠ 1 ∧ minor ≠ 2) then none
    else directives? true handles rest
  | .handle name :: rest =>
    if handles.contains name then none else directives? versioned (name :: handles) rest
  | ts => some (handles, ts)

/-- Whether tokens begin with a directive or the mark that begins a document. -/
def beginsDocument : List Token → Bool
  | .version _ _ :: _ => true
  | .handle _ :: _ => true
  | .documentStart :: _ => true
  | _ => false

/-- The node of a document with the mark of its beginning. Nothing needs to follow the mark. -/
def marked? (ts : List Token) : Parsed (Node Text) :=
  match directives? false [] ts with
  | some (handles, .documentStart :: rest) =>
    if beginsDocument rest ∨ rest.head? = none ∨ rest.head? = some .documentEnd then
      some (.empty, rest)
    else node? handles true false rest
  | _ => none

/-- The node of the only document of a stream. -/
def document? (ts : List Token) : Option (Node Text) :=
  match ts with
  | [] => some .empty
  | _ =>
    let parsed := if beginsDocument ts then marked? ts else node? [] true false ts
    match parsed with
    | none => none
    | some (node, rest) => if rest.all (· == .documentEnd) then some node else none

/-- The node of a document, with its aliases numbered. -/
def read? (t : Text) : Option (Node Nat) := do
  let node ← document? (← tokens? t)
  (node.numbered []).map (·.1)

end BlockSieve.Yaml
