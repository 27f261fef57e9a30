import BlockSieve.Diff.Hunk

/-!
The unified form of a difference. It names both sides, and for each hunk the
ranges of rows on either side. Then come the rows: those that stay after a
blank, those taken away after a minus, those put in after a plus. A row
without an end is followed by a remark that says so.
-/

namespace BlockSieve.Diff

/-- A range of rows: the number of its first row and its length. A range of one row leaves out the
length, and an empty one stands at the row before it. -/
def range (start stop : Nat) : Text :=
  let length := stop - start
  if length = 1 then (toString (start + 1)).toList
  else
    let first := if length = 0 then start else start + 1
    (toString first).toList ++ ',' :: (toString length).toList

/-- The line that a hunk begins with. It goes by the places of the first and the last piece. -/
def header (hunk : Hunk) : Text :=
  match hunk.head?, hunk.getLast? with
  | some first, some last =>
    "@@ -".toList ++ range first.old (last.old + last.oldLength) ++ " +".toList ++
      range first.new (last.new + last.newLength) ++ " @@\n".toList
  | _, _ => []

/-- A row after its sign. -/
def signed (sign : Char) (row : Row) : Text :=
  sign :: row ++ if ended row then [] else "\n\\ No newline at end of file\n".toList

/-- The rows of a piece. -/
def printPiece (old new : List Row) (p : Piece) : Text :=
  let oldRows := (old.drop p.old).take p.oldLength
  let newRows := (new.drop p.new).take p.newLength
  if p.stays then oldRows.flatMap (signed ' ')
  else oldRows.flatMap (signed '-') ++ newRows.flatMap (signed '+')

/-- A hunk: its ranges and its rows. -/
def printHunk (old new : List Row) (hunk : Hunk) : Text :=
  header hunk ++ hunk.flatMap (printPiece old new)

/-- The difference between two texts under the given names. Equal texts have none. -/
def unified (oldName newName old new : Text) : Text :=
  match hunks (pieces (edits (rows old) (rows new))) with
  | [] => []
  | found =>
    "--- ".toList ++ oldName ++ "\n+++ ".toList ++ newName ++
      '\n' :: found.flatMap (printHunk (rows old) (rows new))

end BlockSieve.Diff
