import BlockSieve.Text.Blank

/-!
What a YAML document says: scalars, sequences and mappings, anchors on them,
and aliases for anchored nodes. An alias means the latest anchor of its name
before it. To follow aliases, anchors get numbers in the order of the
document, where an anchor's number is the count of different names before it;
an alias takes over the number of the anchor it means, and then stands for
the last node with that number in the whole document. Where no name is
anchored twice every number is used once.
-/

namespace BlockSieve.Yaml

/-- A node whose anchors and aliases carry labels. Of a scalar it is known whether it is plain. -/
inductive Node (Label : Type) where
  | scalar (plain : Bool) (t : Text)
  | sequence (items : List (Node Label))
  | mapping (pairs : List (Node Label × Node Label))
  | anchored (label : Label) (node : Node Label)
  | alias (label : Label)

/-- The number that each anchored name has, with the latest first. -/
abbrev Numbers := List (Text × Nat)

/-- The number of a name. -/
def Numbers.get? (name : Text) : Numbers → Option Nat
  | [] => none
  | (n, number) :: rest => if n = name then some number else get? name rest

/-- The number for the next anchor: the count of different names so far. -/
def Numbers.next (names : Numbers) : Nat := (names.map Prod.fst).eraseDups.length

namespace Node

/-- A scalar that is not written at all. -/
def empty {Label : Type} : Node Label := .scalar true []

mutual

/-- A node with numbers in place of names, given the numbers before it. An alias must have its
anchor before it. -/
def numbered (names : Numbers) : Node Text → Option (Node Nat × Numbers)
  | .scalar plain t => some (.scalar plain t, names)
  | .sequence items => (numberedItems names items).map fun r => (.sequence r.1, r.2)
  | .mapping pairs => (numberedPairs names pairs).map fun r => (.mapping r.1, r.2)
  | .anchored name node =>
    let number := names.next
    (numbered ((name, number) :: names) node).map fun r => (.anchored number r.1, r.2)
  | .alias name => (names.get? name).map fun number => (.alias number, names)

/-- The items of a sequence with numbers in place of names. -/
def numberedItems (names : Numbers) : List (Node Text) → Option (List (Node Nat) × Numbers)
  | [] => some ([], names)
  | item :: items =>
    match numbered names item with
    | none => none
    | some (item, names) => (numberedItems names items).map fun r => (item :: r.1, r.2)

/-- The pairs of a mapping with numbers in place of names. -/
def numberedPairs (names : Numbers) :
    List (Node Text × Node Text) → Option (List (Node Nat × Node Nat) × Numbers)
  | [] => some ([], names)
  | (key, value) :: pairs =>
    match numbered names key with
    | none => none
    | some (key, names) =>
      match numbered names value with
      | none => none
      | some (value, names) => (numberedPairs names pairs).map fun r => ((key, value) :: r.1, r.2)

end

mutual

/-- The anchored nodes in a node with their labels, in the order of the document. -/
def anchors {Label : Type} : Node Label → List (Label × Node Label)
  | .scalar _ _ => []
  | .sequence items => anchorsOfItems items
  | .mapping pairs => anchorsOfPairs pairs
  | .anchored label node => (label, node) :: anchors node
  | .alias _ => []

/-- The anchored nodes in the items of a sequence. -/
def anchorsOfItems {Label : Type} : List (Node Label) → List (Label × Node Label)
  | [] => []
  | item :: items => anchors item ++ anchorsOfItems items

/-- The anchored nodes in the pairs of a mapping. -/
def anchorsOfPairs {Label : Type} :
    List (Node Label × Node Label) → List (Label × Node Label)
  | [] => []
  | (key, value) :: pairs => anchors key ++ anchors value ++ anchorsOfPairs pairs

end

/-- The last node with a number among anchored nodes. -/
def last? (number : Nat) (anchors : List (Nat × Node Nat)) : Option (Node Nat) :=
  (anchors.reverse.find? fun a => a.1 == number).map (·.2)

/-- What a node stands for, without its anchor: an alias stands for an anchored node. -/
def meant (anchors : List (Nat × Node Nat)) : Node Nat → Node Nat
  | .anchored _ node => node
  | .alias number => (last? number anchors).getD empty
  | node => node

/-- The text that a node stands for, if that is a scalar. -/
def text? (anchors : List (Nat × Node Nat)) (node : Node Nat) : Option Text :=
  match node.meant anchors with
  | .scalar _ t => some t
  | _ => none

/-- The texts of a sequence of scalars. A scalar that is not written at all is an empty sequence. -/
def texts? (anchors : List (Nat × Node Nat)) (node : Node Nat) : Option (List Text) :=
  match node.meant anchors with
  | .sequence items => items.mapM (text? anchors)
  | .scalar true [] => some []
  | _ => none

end Node

end BlockSieve.Yaml
