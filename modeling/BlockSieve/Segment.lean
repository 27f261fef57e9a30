import BlockSieve.Boundary

/-!
A document cut into segments: lines outside every block, blocks that close,
and at most one block that stays open to the end. One pass over the lines
makes the cut. Outside a block it asks whether the line opens one, inside a
block whether the line closes it, so the line that opens a block never closes
it, and a call inside a block opens nothing.
-/

namespace BlockSieve

/-- A block that was opened: its name, the number of the line that opened it (counted from one),
and its lines so far, that one included. -/
structure Block where
  name : Name
  startLine : Nat
  lines : List Line
  deriving DecidableEq

namespace Block

/-- The block with one more line. -/
def add (b : Block) (line : Line) : Block := { b with lines := b.lines ++ [line] }

/-- The number of the block's last line. -/
def endLine (b : Block) : Nat := b.startLine + b.lines.length - 1

end Block

/-- A piece of a document. -/
inductive Segment where
  | plain (line : Line)
  | closed (block : Block)
  | unclosed (block : Block)
  deriving DecidableEq

/-- Cuts the lines from the one with index `i` on, inside the given block if there is one. -/
def Boundary.segmentsFrom (b : Boundary) (doc : List Line) :
    Nat → Option Block → List Line → List Segment
  | _, none, [] => []
  | _, some block, [] => [.unclosed block]
  | i, none, line :: rest =>
    match b.opens doc i with
    | none => .plain line :: b.segmentsFrom doc (i + 1) none rest
    | some name => b.segmentsFrom doc (i + 1) (some ⟨name, i + 1, [line]⟩) rest
  | i, some block, line :: rest =>
    if b.closes doc i then
      .closed (block.add line) :: b.segmentsFrom doc (i + 1) none rest
    else b.segmentsFrom doc (i + 1) (some (block.add line)) rest

/-- The segments of a document. -/
def Boundary.segments (b : Boundary) (doc : List Line) : List Segment :=
  b.segmentsFrom doc 0 none doc

/-- The lines of the document that a segment covers. -/
def Segment.source : Segment → List Line
  | .plain line => [line]
  | .closed block => block.lines
  | .unclosed block => block.lines

/-- The segments cover the document: nothing is lost, added or moved. -/
theorem Boundary.source_segmentsFrom (b : Boundary) (doc : List Line) (i : Nat)
    (inside : Option Block) (rest : List Line) :
    (b.segmentsFrom doc i inside rest).flatMap Segment.source =
      (inside.map Block.lines).getD [] ++ rest := by
  induction rest generalizing i inside with
  | nil => cases inside <;> simp [Boundary.segmentsFrom, Segment.source]
  | cons line rest ih =>
    cases inside with
    | none =>
      simp only [Boundary.segmentsFrom]
      split <;> simp [Segment.source, ih]
    | some block =>
      simp only [Boundary.segmentsFrom]
      split <;> simp [Segment.source, ih, Block.add]

end BlockSieve
