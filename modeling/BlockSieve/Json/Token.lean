import BlockSieve.Json.Value
import BlockSieve.Text.Cut
import BlockSieve.Text.Hex

/-!
The tokens of a JSON document: brackets, braces, commas, colons, strings,
numbers and the three words. Between tokens stand spaces, tabs, newlines and
carriage returns.
-/

namespace BlockSieve.Json

/-- A token. -/
inductive Token where
  | openArray
  | closeArray
  | openObject
  | closeObject
  | comma
  | colon
  | null
  | bool (b : Bool)
  | number (digits : Text)
  | string (s : Written)
  deriving DecidableEq

namespace Token

/-- Whether a character may stand between tokens. -/
def isSpace (c : Char) : Bool := c == ' ' || c == '\t' || c == '\n' || c == '\r'

/-- The value of four hexadecimal digits. -/
def hex4? (a b c d : Char) : Option Nat := (Text.hexNumber? 4 0 [a, b, c, d]).map (·.1)

/-- The character that a backslash and a letter stand for. -/
def escaped? : Char → Option Char
  | '"' => some '"'
  | '\\' => some '\\'
  | '/' => some '/'
  | 'b' => some '\x08'
  | 'f' => some '\x0c'
  | 'n' => some '\n'
  | 'r' => some '\r'
  | 't' => some '\t'
  | _ => none

/-- A piece of a string before surrogates are paired: a character, or one 16-bit unit. -/
inductive Unit16 where
  | char (c : Char)
  | unit (n : Nat)
  deriving DecidableEq

/-- The text of the pieces of a string, if every surrogate has its partner right after it. -/
def paired : List Unit16 → Written
  | [] => some []
  | .char c :: rest => (paired rest).map (c :: ·)
  | .unit n :: rest =>
    if 0xD800 ≤ n ∧ n < 0xDC00 then
      match rest with
      | .unit m :: rest' =>
        if 0xDC00 ≤ m ∧ m < 0xE000 then
          (paired rest').map (Char.ofNat (0x10000 + (n - 0xD800) * 0x400 + (m - 0xDC00)) :: ·)
        else none
      | _ => none
    else if 0xDC00 ≤ n ∧ n < 0xE000 then none
    else (paired rest).map (Char.ofNat n :: ·)

/-- The pieces of a string up to its closing quotation mark, and what follows that. Control
characters and unknown escapes are refused. -/
def stringBody : Text → Option (List Unit16 × Text)
  | [] => none
  | '"' :: rest => some ([], rest)
  | '\\' :: 'u' :: a :: b :: c :: d :: rest =>
    match hex4? a b c d with
    | none => none
    | some n => (stringBody rest).map fun r => (.unit n :: r.1, r.2)
  | '\\' :: c :: rest =>
    match escaped? c with
    | none => none
    | some e => (stringBody rest).map fun r => (.char e :: r.1, r.2)
  | c :: rest =>
    if c.toNat < 0x20 ∨ c = '\\' then none
    else (stringBody rest).map fun r => (.char c :: r.1, r.2)

/-- The digits that a text begins with, and the rest. -/
def digits (t : Text) : Text × Text := (t.takeWhile Char.isDigit, t.dropWhile Char.isDigit)

/-- One digit or more. -/
def someDigits? (t : Text) : Option (Text × Text) :=
  match digits t with
  | ([], _) => none
  | r => some r

/-- The whole part of a number: a zero alone, or digits that do not begin with one. -/
def whole? : Text → Option (Text × Text)
  | '0' :: rest =>
    match rest with
    | [] => some (['0'], [])
    | c :: _ => if c.isDigit then none else some (['0'], rest)
  | t => someDigits? t

/-- The decimal places of a number, if it has any. -/
def places? : Text → Option (Text × Text)
  | '.' :: rest => (someDigits? rest).map fun r => ('.' :: r.1, r.2)
  | t => some ([], t)

/-- The exponent of a number, if it has one. -/
def exponent? : Text → Option (Text × Text)
  | c :: rest =>
    if c = 'e' ∨ c = 'E' then
      match rest with
      | s :: more =>
        if s = '+' ∨ s = '-' then (someDigits? more).map fun r => (c :: s :: r.1, r.2)
        else (someDigits? rest).map fun r => (c :: r.1, r.2)
      | [] => none
    else some ([], c :: rest)
  | [] => some ([], [])

/-- A number without its sign. -/
def unsigned? (t : Text) : Option (Text × Text) := do
  let (a, t) ← whole? t
  let (b, t) ← places? t
  let (c, t) ← exponent? t
  some (a ++ b ++ c, t)

/-- The token that begins with `c`, and what follows it. -/
def next? (c : Char) (rest : Text) : Option (Token × Text) :=
  match c with
  | '[' => some (.openArray, rest)
  | ']' => some (.closeArray, rest)
  | '\x7b' => some (.openObject, rest)
  | '\x7d' => some (.closeObject, rest)
  | ',' => some (.comma, rest)
  | ':' => some (.colon, rest)
  | '"' => (stringBody rest).map fun r => (.string (paired r.1), r.2)
  | '-' => (unsigned? rest).map fun r => (.number ('-' :: r.1), r.2)
  | 'n' => (Text.after? "ull".toList rest).map fun r => (.null, r)
  | 't' => (Text.after? "rue".toList rest).map fun r => (.bool true, r)
  | 'f' => (Text.after? "alse".toList rest).map fun r => (.bool false, r)
  | _ => if c.isDigit then (unsigned? (c :: rest)).map fun r => (.number r.1, r.2) else none

/-- The tokens of a document. A token that takes nothing would not be one. -/
def all? (t : Text) : Option (List Token) :=
  match t with
  | [] => some []
  | c :: rest =>
    if isSpace c then all? rest
    else
      match next? c rest with
      | none => none
      | some (token, rest') =>
        if rest'.length ≤ rest.length then (all? rest').map (token :: ·) else none
termination_by t.length
decreasing_by all_goals simp <;> omega

end Token

end BlockSieve.Json
