import BlockSieve.Boundary

/-!
Blocks shaped as a call whose first argument is a quoted name.

A block opens on a line where the callee and an opening parenthesis are
followed by a quoted name, with nothing but white space between them. That
white space may run past the end of the line: then the first line after it
that is not blank has to begin with the name. The call need not stand at the
start of its line. A block closes on a line that is the closing token, white
space aside, when the next line exists and is blank. Parentheses are not
balanced.
-/

namespace BlockSieve

/-- A call to look for, and the token that closes its block. -/
structure Call where
  callee : Text
  close : Text

namespace Call

/-- The calls that register a tool. -/
def serverTool : Call := ⟨"server.tool".toList, [')']⟩

/-- Whether a character is a quotation mark, single or double. -/
def isQuote (c : Char) : Bool := c == '"' || c == '\''

/-- The quoted name that a text begins with, white space aside. It is not empty and holds no
quotation mark; the mark that ends it need not be the one that begins it. -/
def leadingName? (t : Text) : Option Name :=
  match Text.trimStart t with
  | [] => none
  | q :: r =>
    if isQuote q then
      match r.takeWhile (!isQuote ·), r.dropWhile (!isQuote ·) with
      | [], _ => none
      | _ :: _, [] => none
      | n :: ame, _ :: _ => some (n :: ame)
    else none

/-- What follows each occurrence of the callee and its opening parenthesis, from left to right. -/
def argumentsIn (callee : Text) (t : Text) : List Text :=
  match t with
  | [] => []
  | c :: r =>
    match _h : Text.after? (callee ++ ['(']) (c :: r) with
    | some rest => rest :: argumentsIn callee rest
    | none => argumentsIn callee r
termination_by t.length
decreasing_by
  · have := congrArg List.length ((Text.after?_eq_some_iff _ _ _).mp _h)
    simp at this ⊢
    omega
  · simp

/-- The name in the first of the given arguments that has one. An argument that is blank to the end
of its line hands over to the next line that is not blank, and no later one is tried. -/
def firstName? (later : List Line) : List Text → Option Name
  | [] => none
  | argument :: more =>
    match leadingName? argument with
    | some name => some name
    | none =>
      if Text.blank argument then (later.find? (!Text.blank ·)).bind leadingName?
      else firstName? later more

/-- The name of the block that opens on line `i`, if one does. -/
def opens (call : Call) (doc : List Line) (i : Nat) : Option Name :=
  match doc.drop i with
  | [] => none
  | line :: later => firstName? later (argumentsIn call.callee line)

/-- Whether line `i` is the closing token and is followed by a blank line. -/
def closes (call : Call) (doc : List Line) (i : Nat) : Bool :=
  match doc.drop i with
  | line :: next :: _ => decide (Text.trim line = call.close) && Text.blank next
  | _ => false

/-- The boundary of the blocks that such calls make. -/
def boundary (call : Call) : Boundary := ⟨call.opens, call.closes⟩

end Call

end BlockSieve
