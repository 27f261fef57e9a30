import BlockSieve.Text.Cut
import BlockSieve.Text.Hex

/-!
The smallest parts of a TOML document: blanks, comments, line ends, keys,
strings, numbers, dates and times. Each reader takes its part off the front
of a text and gives back what follows.
-/

namespace BlockSieve.Toml

/-- What a reader took off the front of a text, and the rest. -/
abbrev Taken (α : Type) := Option (α × Text)

/-! ### Blanks and line ends -/

/-- Whether a character is a blank within a line. -/
def isGap (c : Char) : Bool := c == ' ' || c == '\t'

/-- A text without the blanks it begins with. -/
def skipGap (t : Text) : Text := t.dropWhile isGap

/-- What follows a line end: a newline, with or without a carriage return before it. -/
def lineEnd? : Text → Option Text
  | '\n' :: rest => some rest
  | '\r' :: '\n' :: rest => some rest
  | _ => none

/-- Whether a character may stand in a comment. Control characters other than the tab may not. -/
def inComment (c : Char) : Bool := c == '\t' || (0x20 ≤ c.toNat && c.toNat != 0x7F)

/-- A text without the comment it begins with, if it begins with one. -/
def skipComment : Text → Text
  | '#' :: rest => rest.dropWhile inComment
  | t => t

/-- What follows the end of a line, where blanks and a comment may stand before it. The end of the
document ends its last line. -/
def lineTail? (t : Text) : Option Text :=
  match skipComment (skipGap t) with
  | [] => some []
  | rest => lineEnd? rest

/-- A text without the blanks, comments and line ends it begins with. A comment counts only if its
line ends. -/
def skipLines (t : Text) : Text :=
  match t with
  | [] => []
  | c :: rest =>
    if isGap c then skipLines rest
    else
      match lineEnd? (skipComment (c :: rest)) with
      | none => c :: rest
      | some rest' => if rest'.length ≤ rest.length then skipLines rest' else c :: rest
termination_by t.length
decreasing_by all_goals simp <;> omega

/-! ### Strings -/

/-- Whether a character stands for itself between double quotation marks. -/
def isBasic (c : Char) : Bool :=
  c == '\t' || (0x20 ≤ c.toNat && c.toNat != 0x7F && c != '"' && c != '\\')

/-- Whether a character may stand between single quotation marks. -/
def isLiteral (c : Char) : Bool :=
  c == '\t' || (0x20 ≤ c.toNat && c.toNat != 0x7F && c != '\'')

/-- The character that a backslash and a letter stand for. -/
def escaped? : Char → Option Char
  | 'b' => some '\x08'
  | 'f' => some '\x0c'
  | 'n' => some '\n'
  | 'r' => some '\r'
  | 't' => some '\t'
  | '\\' => some '\\'
  | '"' => some '"'
  | _ => none

/-- The character of an escape, after its backslash. -/
def escape? : Text → Taken Char
  | [] => none
  | c :: rest =>
    if c = 'u' ∨ c = 'U' then
      match Text.hexNumber? (if c = 'u' then 4 else 8) 0 rest with
      | none => none
      | some (n, rest) => (Text.charOf? n).map (·, rest)
    else (escaped? c).map (·, rest)

/-- Appends to what a reader takes. -/
def Taken.cons (c : Char) (r : Taken Text) : Taken Text := r.map fun x => (c :: x.1, x.2)

/-- The rest of a string between double quotation marks. -/
def basicBody (t : Text) : Taken Text :=
  match t with
  | [] => none
  | c :: rest =>
    if c = '"' then some ([], rest)
    else if c = '\\' then
      match escape? rest with
      | none => none
      | some (e, rest') =>
        if rest'.length ≤ rest.length then (basicBody rest').cons e else none
    else if isBasic c then (basicBody rest).cons c
    else none
termination_by t.length
decreasing_by all_goals simp <;> omega

/-- The rest of a string between single quotation marks. -/
def literalBody : Text → Taken Text
  | [] => none
  | c :: rest =>
    if c = '\'' then some ([], rest)
    else if isLiteral c then Taken.cons c (literalBody rest)
    else none

/-- What closes a string over several lines: three quotation marks, with up to two more before them
that belong to the string. -/
def closing? (q : Char) (t : Text) : Taken Text :=
  let run := t.takeWhile (· == q)
  if run.length < 3 then none
  else
    let extra := min (run.length - 3) 2
    some (List.replicate extra q, t.drop (extra + 3))

/-- What follows a backslash at the end of a line: the blanks and line ends up to the next
character. -/
def continuation? (t : Text) : Option Text :=
  match lineEnd? (skipGap t) with
  | none => none
  | some rest => some (skipBreaks rest)
where
  /-- A text without the blanks and line ends it begins with. -/
  skipBreaks : Text → Text
    | '\n' :: rest => skipBreaks rest
    | '\r' :: '\n' :: rest => skipBreaks rest
    | c :: rest => if isGap c then skipBreaks rest else c :: rest
    | [] => []

/-- The rest of a string over several lines between double quotation marks. -/
def basicLinesBody (t : Text) : Taken Text :=
  match t with
  | [] => none
  | c :: rest =>
    match closing? '"' (c :: rest) with
    | some closed => some closed
    | none =>
      if c = '"' then (basicLinesBody rest).cons c
      else if c = '\\' then
        match continuation? rest with
        | some rest' =>
          if rest'.length ≤ rest.length then basicLinesBody rest' else none
        | none =>
          match escape? rest with
          | none => none
          | some (e, rest') =>
            if rest'.length ≤ rest.length then (basicLinesBody rest').cons e else none
      else if isBasic c then (basicLinesBody rest).cons c
      else
        match lineEnd? (c :: rest) with
        | none => none
        | some rest' =>
          if rest'.length ≤ rest.length then (basicLinesBody rest').cons '\n' else none
termination_by t.length
decreasing_by all_goals simp <;> omega

/-- The rest of a string over several lines between single quotation marks. -/
def literalLinesBody (t : Text) : Taken Text :=
  match t with
  | [] => none
  | c :: rest =>
    match closing? '\'' (c :: rest) with
    | some closed => some closed
    | none =>
      if c = '\'' ∨ isLiteral c then (literalLinesBody rest).cons c
      else
        match lineEnd? (c :: rest) with
        | none => none
        | some rest' =>
          if rest'.length ≤ rest.length then (literalLinesBody rest').cons '\n' else none
termination_by t.length
decreasing_by all_goals simp <;> omega

/-- A text without the line end it begins with, if it begins with one. -/
def skipFirstLineEnd (t : Text) : Text := (lineEnd? t).getD t

/-- A string value in any of its four forms. -/
def string? (t : Text) : Taken Text :=
  match t with
  | '"' :: '"' :: '"' :: rest => basicLinesBody (skipFirstLineEnd rest)
  | '"' :: rest => basicBody rest
  | '\'' :: '\'' :: '\'' :: rest => literalLinesBody (skipFirstLineEnd rest)
  | '\'' :: rest => literalBody rest
  | _ => none

/-! ### Keys -/

/-- Whether a character may stand in a key without quotation marks. -/
def isBare (c : Char) : Bool := c.isAlphanum || c == '-' || c == '_'

/-- One part of a key. -/
def simpleKey? (t : Text) : Taken Text :=
  match t with
  | '"' :: rest => basicBody rest
  | '\'' :: rest => literalBody rest
  | _ =>
    match t.takeWhile isBare with
    | [] => none
    | part => some (part, t.dropWhile isBare)

/-- The most parts that a key may have. -/
def keyLimit : Nat := 79

/-- The parts of a key, between dots; blanks may stand around each. -/
def keyParts (t : Text) : Taken (List Text) :=
  match simpleKey? (skipGap t) with
  | none => none
  | some (part, rest) =>
    match skipGap rest with
    | '.' :: more =>
      if more.length < t.length then (keyParts more).map fun r => (part :: r.1, r.2) else none
    | rest => some ([part], rest)
termination_by t.length

/-- A key: its parts, of which there are not too many. -/
def key? (t : Text) : Taken (List Text) :=
  match keyParts t with
  | none => none
  | some (parts, rest) => if parts.length ≤ keyLimit then some (parts, rest) else none

end BlockSieve.Toml
