import BlockSieve.AllowList
import BlockSieve.Text.Line

/-!
How a block that is not allowed is written: a marker line with its name, then
each of its lines behind a comment mark. Lines that are blank come out empty.
-/

namespace BlockSieve.Comment

/-- What stands before every line of a filtered block that is not blank. -/
def mark : Text := "  // ".toList

/-- What stands before the name on the marker line. -/
def filteredMark : Text := "  // [FILTERED] ".toList

/-- The line set before a filtered block. The name is written as it is. -/
def marker (name : Name) : Line := filteredMark ++ name

/-- A line behind the comment mark; a blank line becomes empty. -/
def comment (line : Line) : Line :=
  if Text.blank line then [] else mark ++ line

/-- A filtered block: its marker, then its lines commented out. -/
def block (name : Name) (lines : List Line) : List Line :=
  marker name :: lines.map comment

end BlockSieve.Comment
