import BlockSieve.Yaml.Scalar

/-!
The tokens of a YAML document, and the short ones that begin with a sign:
anchors, aliases, tags and directives. What a tag says of the type of a value
plays no part here; all that counts is whether its handle is known.
-/

namespace BlockSieve.Yaml

/-- A token. The beginnings and ends of block collections have no characters of their own: they come
from the indentation. -/
inductive Token where
  | version (major minor : Nat)
  | handle (name : Text)
  | documentStart
  | documentEnd
  | blockSequence
  | blockMapping
  | blockEnd
  | openBracket
  | closeBracket
  | openBrace
  | closeBrace
  | dash
  | comma
  | key
  | value
  | anchor (name : Text)
  | alias (name : Text)
  | tag (handle : Text)
  | scalar (plain : Bool) (t : Text)
  deriving DecidableEq

namespace Token

/-! ### Anchors and aliases -/

/-- The name of an anchor or an alias, after its sign. -/
def name? (c : Cursor) : Found Text :=
  let name := c.rest.takeWhile isWord
  let after := c.skip name.length
  if name ≠ [] ∧
      (edge after.rest ∨ beginsWith ['?', ':', ',', ']', '\x7d', '%', '@', '\x60'] after.rest) then
    some (name, after)
  else none

/-! ### Tags -/

/-- Whether a character may stand in a tag. -/
def inTag (c : Char) : Bool :=
  isWord c || [';', '/', '?', ':', '@', '&', '=', '+', '$', '.', '%', '!', '~', '*', '\'', '(',
    ')'].contains c

/-- Whether a character may stand in a tag that is written out, or in what a handle stands for. -/
def inFullTag (c : Char) : Bool := inTag c || c == ',' || c == '[' || c == ']'

/-- How many bytes make a character that begins with the given byte. -/
def width? (byte : Nat) : Option Nat :=
  if byte < 0x80 then some 1
  else if byte < 0xC0 then none
  else if byte < 0xE0 then some 2
  else if byte < 0xF0 then some 3
  else if byte < 0xF8 then some 4
  else none

/-- The byte that a percent sign and two hexadecimal digits stand for. -/
def percent? : Text → Option (Nat × Text)
  | '%' :: rest => Text.hexNumber? 2 0 rest
  | _ => none

/-- What follows the `n` further bytes of a character. -/
def afterBytes? : Nat → Text → Option Text
  | 0, t => some t
  | n + 1, t =>
    match percent? t with
    | none => none
    | some (byte, rest) => if byte / 64 = 2 then afterBytes? n rest else none

/-- What follows the character whose bytes are written with percent signs. -/
def afterPercent? (t : Text) : Option Text :=
  match percent? t with
  | none => none
  | some (byte, rest) =>
    match width? byte with
    | none => none
    | some n => afterBytes? (n - 1) rest

/-- What follows the characters of a tag. -/
def afterTag? (inside : Char → Bool) (t : Text) : Option Text :=
  match t with
  | [] => some []
  | c :: rest =>
    if c = '%' ∧ inside c then
      match afterPercent? (c :: rest) with
      | none => none
      | some rest' => if rest'.length ≤ rest.length then afterTag? inside rest' else none
    else if inside c then afterTag? inside rest
    else some (c :: rest)
termination_by t.length
decreasing_by all_goals simp <;> omega

/-- The cursor after the characters of a tag. -/
def skipTag? (inside : Char → Bool) (c : Cursor) : Option Cursor :=
  (afterTag? inside c.rest).map fun rest => c.skip (c.rest.length - rest.length)

/-- The cursor after the characters of a tag, of which there must be one. -/
def skipSomeTag? (inside : Char → Bool) (c : Cursor) : Option Cursor :=
  match skipTag? inside c with
  | none => none
  | some after => if after.rest.length < c.rest.length then some after else none

/-- What a tag begins with: an exclamation mark, word characters, and a second exclamation mark if
it has a handle. -/
def tagStart (c : Cursor) : Text × Cursor :=
  let start := '!' :: (c.rest.drop 1).takeWhile isWord
  let after := c.skip start.length
  if beginsWith ['!'] after.rest then (start ++ ['!'], after.skip 1) else (start, after)

/-- A tag: the one written out has no handle, and one without a second exclamation mark has the
handle `!`, unless nothing follows that mark. -/
def tagHandle? (c : Cursor) : Found Text :=
  match c.rest with
  | '!' :: '<' :: _ =>
    match skipSomeTag? inFullTag (c.skip 2) with
    | none => none
    | some after => if beginsWith ['>'] after.rest then some ([], after.skip 1) else none
  | _ =>
    let (start, after) := tagStart c
    if start.length ≠ 1 ∧ start.getLast? = some '!' then
      (skipSomeTag? inTag after).map (start, ·)
    else
      (skipTag? inTag after).map fun next =>
        if start.length + after.rest.length - next.rest.length = 1 then ([], next) else (['!'], next)

/-- The tag at a cursor. In a flow collection a comma may follow it. -/
def tag? (flow : Bool) (c : Cursor) : Found Token :=
  match tagHandle? c with
  | none => none
  | some (name, after) =>
    if edge after.rest || (flow && beginsWith [','] after.rest) then some (.tag name, after)
    else none

/-! ### Directives -/

/-- A number of at most nine digits. -/
def number? (c : Cursor) : Found Nat :=
  let digits := c.rest.takeWhile Char.isDigit
  if digits = [] ∨ 9 < digits.length then none
  else some (digits.foldl (fun n d => 10 * n + (d.toNat - '0'.toNat)) 0, c.skip digits.length)

/-- The version that a directive names: two numbers with a dot between them. -/
def version? (c : Cursor) : Option (Token × Cursor) := do
  let (major, c) ← number? (c.skipWhile isGap)
  if beginsWith ['.'] c.rest then
    let (minor, c) ← number? (c.skip 1)
    some (.version major minor, c)
  else none

/-- The handle that a directive makes known, and what it stands for. -/
def handle? (c : Cursor) : Found Token :=
  let c := c.skipWhile isGap
  if beginsWith ['!'] c.rest then
    let (name, after) := tagStart c
    if name.getLast? = some '!' ∧ beginsWith [' ', '\t'] after.rest then
      match skipSomeTag? inFullTag (after.skipWhile isGap) with
      | none => none
      | some after => if edge after.rest then some (.handle name, after) else none
    else none
  else none

/-- The directive at a cursor, with the end of its line. -/
def directive? (c : Cursor) : Option (Token × Cursor) := do
  let c := c.skip 1
  let name := c.rest.takeWhile isWord
  let c := c.skip name.length
  if edge c.rest then
    let (token, c) ←
      if name = "YAML".toList then version? c
      else if name = "TAG".toList then handle? c
      else none
    let tail := c.skipTail
    if edge tail.rest then some (token, ((tail.break?).map (·.2)).getD tail) else none
  else none

end Token

end BlockSieve.Yaml
