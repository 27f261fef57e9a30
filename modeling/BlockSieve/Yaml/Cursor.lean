import BlockSieve.Text.Blank

/-!
A place in a YAML document: what follows it, how many characters stand before
it, and its line and column. The layout of a document carries meaning, so the
readers of its parts move a cursor instead of taking a text apart.
-/

namespace BlockSieve.Yaml

/-! ### Characters -/

/-- Whether a character may stand in a document. -/
def isPrintable (c : Char) : Bool :=
  let n := c.toNat
  n == 0x09 || n == 0x0A || n == 0x0D || (0x20 ≤ n && n ≤ 0x7E) || n == 0x85 ||
    (0xA0 ≤ n && n ≤ 0xFFFD) || 0x10000 ≤ n

/-- Whether a character is a blank within a line. -/
def isGap (c : Char) : Bool := c == ' ' || c == '\t'

/-- Whether a character ends a line. -/
def isBreak (c : Char) : Bool :=
  c == '\n' || c == '\r' || c == '\x85' || c == '\u2028' || c == '\u2029'

/-- Whether a character may stand in a name. -/
def isWord (c : Char) : Bool := c.isAlphanum || c == '-' || c == '_'

/-- Whether a text is at its end, or goes on with a blank or a line break. -/
def edge : Text → Bool
  | [] => true
  | c :: _ => isGap c || isBreak c

/-- Whether a text begins with one of the given characters. -/
def beginsWith (cs : List Char) : Text → Bool
  | [] => false
  | c :: _ => cs.contains c

/-! ### Cursors -/

/-- A place in a document, with what follows it. -/
structure Cursor where
  rest : Text
  index : Nat
  line : Nat
  column : Nat
  deriving DecidableEq

namespace Cursor

/-- The beginning of a document. A byte order mark there takes up a column. -/
def ofText : Text → Cursor
  | '\uFEFF' :: rest => ⟨rest, 1, 0, 1⟩
  | t => ⟨t, 0, 0, 0⟩

/-- The cursor `n` characters further on in its line. -/
def skip (n : Nat) (c : Cursor) : Cursor :=
  { c with rest := c.rest.drop n, index := c.index + n, column := c.column + n }

/-- The cursor after the characters with a property. -/
def skipWhile (p : Char → Bool) (c : Cursor) : Cursor := c.skip (c.rest.takeWhile p).length

/-- The cursor after the blanks and the comment that may stand before the end of a line. A comment
needs no blank before it. -/
def skipTail (c : Cursor) : Cursor :=
  let c := c.skipWhile isGap
  if beginsWith ['#'] c.rest then c.skipWhile (!isBreak ·) else c

/-- The cursor `n` characters further on, at the beginning of the next line. -/
def nextLine (n : Nat) (c : Cursor) : Cursor := ⟨c.rest.drop n, c.index + n, c.line + 1, 0⟩

/-- The line break at a cursor, if there is one: what it stands for, and the cursor after it. The
two separators of lines and paragraphs stand for themselves, all others for a newline. -/
def break? (c : Cursor) : Option (Text × Cursor) :=
  match c.rest with
  | '\r' :: '\n' :: _ => some (['\n'], c.nextLine 2)
  | ch :: _ =>
    if ch == '\u2028' || ch == '\u2029' then some ([ch], c.nextLine 1)
    else if isBreak ch then some (['\n'], c.nextLine 1)
    else none
  | [] => none

/-- Whether a line begins at the cursor with three of the given character and an edge after them. -/
def marked (ch : Char) (c : Cursor) : Bool :=
  c.column == 0 && c.rest.take 3 == [ch, ch, ch] && edge (c.rest.drop 3)

/-- Whether a document begins or ends at the cursor. -/
def atDocumentMark (c : Cursor) : Bool := c.marked '-' || c.marked '.'

theorem break?_lt {c after : Cursor} {t : Text} (h : c.break? = some (t, after)) :
    after.rest.length < c.rest.length := by
  unfold break? at h
  split at h
  · next r hr =>
    obtain ⟨-, rfl⟩ := Prod.mk.inj (Option.some.inj h)
    simp only [nextLine, hr, List.length_drop, List.length_cons]
    omega
  · next ch r _ hr =>
    have lt : (c.nextLine 1).rest.length < c.rest.length := by
      simp only [nextLine, hr, List.length_drop, List.length_cons]
      omega
    split at h
    · obtain ⟨-, rfl⟩ := Prod.mk.inj (Option.some.inj h)
      exact lt
    · split at h
      · obtain ⟨-, rfl⟩ := Prod.mk.inj (Option.some.inj h)
        exact lt
      · simp at h
  · simp at h

theorem length_skip (n : Nat) (c : Cursor) :
    (c.skip n).rest.length = c.rest.length - n := by simp [skip]

end Cursor

end BlockSieve.Yaml
