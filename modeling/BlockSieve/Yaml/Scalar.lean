import BlockSieve.Text.Hex
import BlockSieve.Yaml.Cursor

/-!
The scalars of a YAML document: quoted, plain, and in blocks. A scalar may go
on over several lines, and line breaks within it are folded: a single break
stands for a space, and of several breaks the first one is dropped.
-/

namespace BlockSieve.Yaml

/-- What a reader found at a cursor, and the cursor after it. -/
abbrev Found (α : Type) := Option (α × Cursor)

/-- Puts a text in front of the one found. -/
def Found.prepend (t : Text) (r : Found Text) : Found Text := r.map fun x => (t ++ x.1, x.2)

/-! ### Blanks and line breaks between words -/

/-- What stands between two words of a scalar: blanks, or line breaks with blanks around them. -/
structure Gap where
  blanks : Text
  broken : Bool
  first : Text
  later : Text

namespace Gap

/-- Nothing between two words. -/
def none : Gap := ⟨[], false, [], []⟩

/-- A line break that a backslash has made void. -/
def void : Gap := ⟨[], true, [], []⟩

/-- The gap with a blank after it. Blanks around line breaks do not count. -/
def blank (g : Gap) (c : Char) : Gap := if g.broken then g else { g with blanks := g.blanks ++ [c] }

/-- The gap with a line break after it. -/
def lineBreak (g : Gap) (b : Text) : Gap :=
  if g.broken then { g with later := g.later ++ b } else ⟨[], true, b, []⟩

/-- What a gap stands for. -/
def folded (g : Gap) : Text :=
  if g.broken then
    if g.first = ['\n'] then (if g.later = [] then [' '] else g.later) else g.first ++ g.later
  else g.blanks

end Gap

/-- The gap at a cursor, after the part `g` of it. After a line break, tabs may not stand to the
left of `indent`. -/
def gap? (indent : Nat) (g : Gap) (c : Cursor) : Found Gap :=
  match _h : c.break? with
  | some (b, after) => gap? indent (g.lineBreak b) after
  | none =>
    match _hc : c.rest with
    | [] => some (g, c)
    | ch :: _ =>
      if isGap ch then
        if g.broken ∧ c.column < indent ∧ ch = '\t' then none
        else gap? indent (g.blank ch) (c.skip 1)
      else some (g, c)
termination_by c.rest.length
decreasing_by
  · exact Cursor.break?_lt _h
  · simp [Cursor.skip, _hc]

/-! ### Quoted scalars -/

/-- What a backslash and a character stand for. -/
def escaped? : Char → Option Char
  | '0' => some '\x00'
  | 'a' => some '\x07'
  | 'b' => some '\x08'
  | 't' => some '\t'
  | '\t' => some '\t'
  | 'n' => some '\n'
  | 'v' => some '\x0b'
  | 'f' => some '\x0c'
  | 'r' => some '\r'
  | 'e' => some '\x1b'
  | ' ' => some ' '
  | '"' => some '"'
  | '/' => some '/'
  | '\\' => some '\\'
  | 'N' => some '\x85'
  | '_' => some '\xa0'
  | 'L' => some '\u2028'
  | 'P' => some '\u2029'
  | _ => none

/-- How many hexadecimal digits follow a backslash and a letter. -/
def digitCount? : Char → Option Nat
  | 'x' => some 2
  | 'u' => some 4
  | 'U' => some 8
  | _ => none

/-- The character of an escape after its backslash, and the length of the escape without it. -/
def escape? : Text → Option (Char × Nat)
  | [] => none
  | c :: rest =>
    match digitCount? c with
    | none => (escaped? c).map (·, 1)
    | some n =>
      match Text.hexNumber? n 0 rest with
      | none => none
      | some (value, _) => (Text.charOf? value).map (·, n + 1)

/-- A word of a scalar in quotation marks `q`, and whether a backslash before a line break ends it.
Between single ones, two in a row stand for one. -/
def quotedWord (q : Char) (c : Cursor) : Found (Text × Bool) :=
  match _hc : c.rest with
  | [] => some (([], false), c)
  | ch :: rest =>
    if isGap ch || isBreak ch then some (([], false), c)
    else if ch = q then
      if q = '\'' ∧ rest.head? = some '\'' then
        (quotedWord q (c.skip 2)).map fun r => ((q :: r.1.1, r.1.2), r.2)
      else some (([], false), c)
    else if q = '"' ∧ ch = '\\' then
      match (c.skip 1).break? with
      | some (_, after) => some (([], true), after)
      | none =>
        match escape? rest with
        | none => none
        | some (e, n) =>
          (quotedWord q (c.skip (n + 1))).map fun r => ((e :: r.1.1, r.1.2), r.2)
    else (quotedWord q (c.skip 1)).map fun r => ((ch :: r.1.1, r.1.2), r.2)
termination_by c.rest.length
decreasing_by all_goals (simp only [Cursor.skip, List.length_drop, _hc, List.length_cons]; omega)

/-- The rest of a scalar in quotation marks. It may not reach over the mark of a document. -/
def quotedBody (q : Char) (c : Cursor) : Found Text :=
  if c.atDocumentMark || c.rest.isEmpty then none
  else
    match quotedWord q c with
    | none => none
    | some ((word, voided), after) =>
      if after.rest.head? = some q then some (word, after.skip 1)
      else
        match gap? 0 (if voided then .void else .none) after with
        | none => none
        | some (g, next) =>
          if next.rest.length < c.rest.length then
            (quotedBody q next).prepend (word ++ g.folded)
          else none
termination_by c.rest.length

/-- The scalar whose opening quotation mark stands at a cursor. -/
def quoted? (q : Char) (c : Cursor) : Found Text := quotedBody q (c.skip 1)

/-! ### Plain scalars -/

/-- A word of a plain scalar. It ends before a colon with an edge after it, and among brackets and
braces before those and before commas; there a colon may not touch them either. -/
def plainWord (flow : Bool) (c : Cursor) : Found Text :=
  match _hc : c.rest with
  | [] => some ([], c)
  | ch :: rest =>
    if isGap ch || isBreak ch then some ([], c)
    else if flow && ch == ':' && beginsWith [',', '?', '[', ']', '\x7b', '\x7d'] rest then none
    else if ch == ':' && edge rest then some ([], c)
    else if flow && beginsWith [',', '[', ']', '\x7b', '\x7d'] c.rest then some ([], c)
    else (plainWord flow (c.skip 1)).prepend [ch]
termination_by c.rest.length
decreasing_by simp [Cursor.skip, _hc]

/-- The rest of a plain scalar after the gap `g`, and whether its end has line breaks before it. It
ends at a comment, at the mark of a document, and in a block where a line goes less deep than
`indent`. -/
def plainBody (flow : Bool) (indent : Nat) (g : Gap) (c : Cursor) : Found (Text × Bool) :=
  if c.atDocumentMark || beginsWith ['#'] c.rest then some (([], g.broken), c)
  else
    match plainWord flow c with
    | none => none
    | some ([], _) => some (([], g.broken), c)
    | some (word, after) =>
      match gap? indent .none after with
      | none => none
      | some (g', next) =>
        let found : Found (Text × Bool) :=
          if !flow && decide (next.column < indent) then some (([], g'.broken), next)
          else if next.rest.length < c.rest.length then plainBody flow indent g' next
          else none
        found.map fun r => ((g.folded ++ word ++ r.1.1, r.1.2), r.2)
termination_by c.rest.length

/-- The plain scalar at a cursor, and whether line breaks follow it. -/
def plain? (flow : Bool) (indent : Nat) (c : Cursor) : Found (Text × Bool) :=
  plainBody flow indent .none c

/-! ### Scalars in blocks -/

/-- What becomes of the line breaks at the end of a block. -/
inductive Chomping where
  | strip
  | clip
  | keep
  deriving DecidableEq

/-- What the first line of a block may say: what becomes of its last line breaks, and how much
deeper its lines are. -/
structure BlockHeader where
  chomping : Chomping
  deeper : Option Nat

/-- The sign that says what becomes of the last line breaks. -/
def chomping? : Text → Option Chomping
  | '+' :: _ => some .keep
  | '-' :: _ => some .strip
  | _ => none

/-- The digit that says how much deeper the lines of a block are. A zero is refused. -/
def deeper? (c : Cursor) : Found (Option Nat) :=
  match c.rest with
  | '0' :: _ => none
  | ch :: _ => if ch.isDigit then some (some (ch.toNat - '0'.toNat), c.skip 1) else some (none, c)
  | [] => some (none, c)

/-- What the first line of a block says. The sign and the digit come in either order. -/
def blockHeader? (c : Cursor) : Found BlockHeader :=
  match chomping? c.rest with
  | some chomping => (deeper? (c.skip 1)).map fun r => (⟨chomping, r.1⟩, r.2)
  | none =>
    match deeper? c with
    | none => none
    | some (none, _) => some (⟨.clip, none⟩, c)
    | some (deeper, after) =>
      match chomping? after.rest with
      | some chomping => some (⟨chomping, deeper⟩, after.skip 1)
      | none => some (⟨.clip, deeper⟩, after)

/-- The cursor after the spaces that lead up to the column `indent`, or after all spaces. -/
def skipIndent (indent : Option Nat) (c : Cursor) : Cursor :=
  let spaces := (c.rest.takeWhile (· == ' ')).length
  match indent with
  | none => c.skip spaces
  | some n => c.skip (min spaces (n - c.column))

/-- The line breaks of empty lines in a block, and the largest column that their spaces reach. A tab
may not stand where an indentation is due. -/
def emptyLines (indent : Option Nat) (deepest : Nat) (c : Cursor) : Found (Text × Nat) :=
  let inner := skipIndent indent c
  let deepest := max deepest inner.column
  let due := match indent with
    | none => true
    | some n => decide (inner.column < n)
  if due && beginsWith ['\t'] inner.rest then none
  else
    match inner.break? with
    | none => some (([], deepest), inner)
    | some (b, after) =>
      if after.rest.length < c.rest.length then
        (emptyLines indent deepest after).map fun r => ((b ++ r.1.1, r.1.2), r.2)
      else none
termination_by c.rest.length

/-- The lines of a block so far: their text, the break of the last line, the breaks of empty lines
after it, and whether the last line began with a blank. -/
structure BlockLines where
  text : Text
  last : Text
  empty : Text
  blankStart : Bool

/-- The text with a further line after it. A break between two lines that do not begin with blanks
is folded, unless the block is literal. -/
def BlockLines.add (literal : Bool) (line last empty : Text) (b : BlockLines) : BlockLines :=
  let blankStart := match line with
    | [] => false
    | c :: _ => isGap c
  let joint :=
    if !literal && beginsWith ['\n'] b.last && !b.blankStart && !blankStart then
      if b.empty = [] then [' '] else []
    else b.last
  ⟨b.text ++ joint ++ b.empty ++ line, last, empty, blankStart⟩

/-- The lines of a block whose indentation is known. -/
def blockLines (literal : Bool) (indent : Nat) (b : BlockLines) (c : Cursor) : Found BlockLines :=
  if c.column = indent ∧ c.rest ≠ [] then
    let line := c.rest.takeWhile (!isBreak ·)
    let tail := c.skip line.length
    let (last, next) := (tail.break?).getD ([], tail)
    match emptyLines (some indent) 0 next with
    | none => none
    | some ((empty, _), after) =>
      if after.rest.length < c.rest.length then
        blockLines literal indent (b.add literal line last empty) after
      else none
  else some (b, c)
termination_by c.rest.length

/-- The text of a block, with its last line breaks as its header wants them. -/
def BlockLines.chomped (chomping : Chomping) (b : BlockLines) : Text :=
  match chomping with
  | .strip => b.text
  | .clip => b.text ++ b.last
  | .keep => b.text ++ b.last ++ b.empty

/-- The scalar in the block whose indicator stands at a cursor; `outer` is the least column that
lines inside the collection around it can have. -/
def block? (literal : Bool) (outer : Nat) (c : Cursor) : Found Text :=
  match blockHeader? (c.skip 1) with
  | none => none
  | some (header, c) =>
    let tail := c.skipTail
    if !edge tail.rest then none
    else
      let (_, next) := (tail.break?).getD ([], tail)
      let known := header.deeper.map (outer - 1 + ·)
      match emptyLines known 0 next with
      | none => none
      | some ((empty, deepest), after) =>
        let indent := known.getD (max deepest (max outer 1))
        (blockLines literal indent ⟨[], [], empty, false⟩ after).map fun r =>
          (r.1.chomped header.chomping, r.2)

end BlockSieve.Yaml
