import BlockSieve.Text.Blank

/-!
The rows of a text: its lines together with their ends. A row ends after a
newline, after a carriage return and a newline, or after a carriage return
alone; the last row may have no end. The rows one after the other make the
text again.
-/

namespace BlockSieve.Diff

/-- A line with its end. -/
abbrev Row := Text

/-- The rows of a text. -/
def rows : Text → List Row
  | [] => []
  | '\r' :: '\n' :: t => ['\r', '\n'] :: rows t
  | c :: t =>
    if c = '\n' ∨ c = '\r' then [c] :: rows t
    else
      match rows t with
      | [] => [[c]]
      | row :: more => (c :: row) :: more

/-- Whether a row has its end. -/
def ended (row : Row) : Bool := row.getLast? == some '\n' || row.getLast? == some '\r'

theorem flatten_rows (t : Text) : (rows t).flatten = t := by
  fun_induction rows t <;> simp_all

end BlockSieve.Diff
