import BlockSieve.Diff.Compaction

/-!
Hunks: the changes between two texts, each with a few rows around it that
stay. Removals and additions side by side make one change, in which the rows
taken away come first. Where more rows stay between two changes than both
want to show, a new hunk begins.
-/

namespace BlockSieve.Diff

/-- A run of rows that stay, or a change of a run of old rows into a run of new rows. -/
structure Piece where
  stays : Bool
  old : Nat
  oldLength : Nat
  new : Nat
  newLength : Nat
  deriving DecidableEq

/-- Changes that lie side by side and are not closed yet: the removal and the addition in them. -/
structure Pending where
  removed : Option Edit
  added : Option Edit

namespace Pending

/-- The piece that a pending change makes, if there is one. -/
def piece? (p : Pending) : Option Piece :=
  match p.removed, p.added with
  | none, none => none
  | some r, none => some ⟨false, r.old, r.length, r.new, 0⟩
  | none, some a => some ⟨false, a.old, 0, a.new, a.length⟩
  | some r, some a => some ⟨false, r.old, r.length, a.new, a.length⟩

/-- The change with a further edit in it. -/
def add (e : Edit) (p : Pending) : Pending :=
  match e.kind with
  | .removed => { p with removed := some (p.removed.elim e fun r => r.extend e.length) }
  | .added => { p with added := some (p.added.elim e fun a => a.extend e.length) }
  | .same => p

end Pending

/-- The pieces that edits make after a pending change. -/
def piecesFrom (pending : Pending) : List Edit → List Piece
  | [] => pending.piece?.toList
  | e :: rest =>
    if e.kind = .same then
      let more := piecesFrom ⟨none, none⟩ rest
      let joined :=
        match more with
        | p :: ps =>
          if p.stays then ⟨true, e.old, e.length + p.oldLength, e.new, e.length + p.newLength⟩ :: ps
          else ⟨true, e.old, e.length, e.new, e.length⟩ :: more
        | [] => [⟨true, e.old, e.length, e.new, e.length⟩]
      pending.piece?.toList ++ joined
    else piecesFrom (pending.add e) rest

/-- The pieces that edits make. -/
def pieces (edits : List Edit) : List Piece := piecesFrom ⟨none, none⟩ edits

namespace Piece

/-- The rows that stay, without the first `n` of them. -/
def dropRows (n : Nat) (p : Piece) : Piece :=
  ⟨p.stays, p.old + n, p.oldLength - n, p.new + n, p.newLength - n⟩

/-- The rows that stay, but at most the first `n` of them. -/
def takeRows (n : Nat) (p : Piece) : Piece :=
  { p with oldLength := min n p.oldLength, newLength := min n p.newLength }

/-- The rows that stay, but at most the last `n` of them. -/
def lastRows (n : Nat) (p : Piece) : Piece := p.dropRows (p.oldLength - n)

end Piece

/-- A run of pieces that are shown together. -/
abbrev Hunk := List Piece

/-- How many rows that stay are shown on either side of a change. -/
def radius : Nat := 2

/-- The pieces with only the last rows of the run that stays at the beginning. -/
def trimFirst : List Piece → List Piece
  | [] => []
  | p :: ps => if p.stays then p.lastRows radius :: ps else p :: ps

/-- The pieces with only the first rows of the run that stays at the end. -/
def trimLast (ps : List Piece) : List Piece :=
  match ps.getLast? with
  | none => []
  | some p => if p.stays then ps.dropLast ++ [p.takeRows radius] else ps

/-- Cuts pieces into hunks where a long run stays; `open` pieces are those of the hunk begun, the
latest first. -/
def cutHunks (begun : Hunk) : List Piece → List Hunk
  | [] => [begun.reverse]
  | p :: ps =>
    if p.stays ∧ 2 * radius < p.oldLength then
      (p.takeRows radius :: begun).reverse :: cutHunks [p.lastRows radius] ps
    else cutHunks (p :: begun) ps

/-- The hunks of pieces. A last hunk without a change is left out. -/
def hunks (ps : List Piece) : List Hunk :=
  let cut := cutHunks [] (trimLast (trimFirst ps))
  cut.dropLast ++ (cut.getLast?.toList.filter fun hunk => hunk.any fun p => !p.stays)

end BlockSieve.Diff
