import BlockSieve.Text.Blank

/-!
JSON values. A string is what its escapes make of it; where they name half of
a surrogate pair without its other half, the string stands for no text. A
number is kept as it is written. The members of an object keep their order
and their repeats.
-/

namespace BlockSieve.Json

/-- What a written string stands for: a text, or none when an escape names an unpaired surrogate. -/
abbrev Written := Option Text

/-- A JSON value. -/
inductive Value where
  | null
  | bool (b : Bool)
  | number (digits : Text)
  | string (s : Written)
  | array (items : List Value)
  | object (members : List (Written × Value))

namespace Value

/-- The string value of a text. -/
def text (t : Text) : Value := .string (some t)

/-- The number value of a natural number. -/
def nat (n : Nat) : Value := .number (toString n).toList

/-- The texts of an array of strings. -/
def texts? : Value → Option (List Text)
  | .array items => items.mapM fun item =>
    match item with
    | .string s => s
    | _ => none
  | _ => none

end Value

end BlockSieve.Json
