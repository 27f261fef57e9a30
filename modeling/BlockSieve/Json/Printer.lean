import BlockSieve.Json.Value

/-!
Writing JSON values over several lines, two spaces deeper for each level.
An empty array or object stays on its line. Quotation marks, backslashes and
control characters are escaped, and all else stands for itself.
-/

namespace BlockSieve.Json

/-- A digit in hexadecimal, in lower case. -/
def hexDigit (n : Nat) : Char := Nat.digitChar n

/-- How a character is written in a string. -/
def escape (c : Char) : Text :=
  match c with
  | '"' => ['\\', '"']
  | '\\' => ['\\', '\\']
  | '\x08' => ['\\', 'b']
  | '\x0c' => ['\\', 'f']
  | '\n' => ['\\', 'n']
  | '\r' => ['\\', 'r']
  | '\t' => ['\\', 't']
  | _ =>
    if c.toNat < 0x20 then
      ['\\', 'u', '0', '0', hexDigit (c.toNat / 16), hexDigit (c.toNat % 16)]
    else [c]

/-- A text as a JSON string. -/
def quote (t : Text) : Text := '"' :: t.flatMap escape ++ ['"']

/-- How a written string is written again; one that stands for no text is written empty. -/
def quoteWritten (s : Written) : Text := quote (s.getD [])

/-- A new line at the given depth. -/
def newline (depth : Nat) : Text := '\n' :: List.replicate (2 * depth) ' '

mutual

/-- A value whose first line stands at the given depth. -/
def pretty (depth : Nat) : Value → Text
  | .null => "null".toList
  | .bool true => "true".toList
  | .bool false => "false".toList
  | .number n => n
  | .string s => quoteWritten s
  | .array [] => ['[', ']']
  | .array (item :: items) =>
    '[' :: newline (depth + 1) ++ pretty (depth + 1) item ++ prettyItems (depth + 1) items ++
      newline depth ++ [']']
  | .object [] => ['\x7b', '\x7d']
  | .object ((key, value) :: members) =>
    '\x7b' :: newline (depth + 1) ++ quoteWritten key ++ ':' :: ' ' :: pretty (depth + 1) value ++
      prettyMembers (depth + 1) members ++ newline depth ++ ['\x7d']

/-- The items of an array after its first. -/
def prettyItems (depth : Nat) : List Value → Text
  | [] => []
  | item :: items => ',' :: newline depth ++ pretty depth item ++ prettyItems depth items

/-- The members of an object after its first. -/
def prettyMembers (depth : Nat) : List (Written × Value) → Text
  | [] => []
  | (key, value) :: members =>
    ',' :: newline depth ++ quoteWritten key ++ ':' :: ' ' :: pretty depth value ++
      prettyMembers depth members

end

/-- A value as a document. -/
def print (v : Value) : Text := pretty 0 v

end BlockSieve.Json
