import BlockSieve.Text.Cut

/-!
Lines. A text with `n` newlines has `n + 1` lines, so a newline at the end
makes an empty last line, and joining the lines with newlines gives the text
back.
-/

namespace BlockSieve

/-- A line of a document. It may hold any character; cutting a text makes lines without a newline. -/
abbrev Line := Text

namespace Text

/-- The lines of a text, cut at every newline. -/
def lines (t : Text) : List Line := cutAt '\n' t

/-- The text whose lines are given, with a newline between each two. -/
def ofLines (ls : List Line) : Text := joinBy '\n' ls

theorem ofLines_lines (t : Text) : ofLines (lines t) = t := joinBy_cutAt '\n' t

theorem lines_ofLines {ls : List Line} (hne : ls ≠ []) (h : ∀ line ∈ ls, '\n' ∉ line) :
    lines (ofLines ls) = ls :=
  cutAt_joinBy hne h

theorem not_mem_of_mem_lines {t : Text} {line : Line} (h : line ∈ lines t) : '\n' ∉ line :=
  not_mem_of_mem_cutAt h

end Text

end BlockSieve
