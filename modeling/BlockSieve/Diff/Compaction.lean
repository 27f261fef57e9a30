import BlockSieve.Diff.Search

/-!
Compaction of edits. Each removal, and then each addition, is moved up and
then down past the equal rows beside it as far as the rows allow it, so that
it can run into another one of its kind and be joined with it. An addition
may pass a row that equals the one at its own other end, which then takes its
part; a removal passes no rows. A removal and an addition that stand side by
side change their order without their places being looked at again.
-/

namespace BlockSieve.Diff

/-- The edits with one of them singled out: those before it, the nearest first, and those after it. -/
structure Focus where
  before : List Edit
  here : Edit
  after : List Edit

namespace Focus

/-- The edits after a focus that moves up `n` equal rows, which now come after it. -/
def takeUp (n : Nat) (previous here : Edit) (after : List Edit) : List Edit :=
  match after with
  | next :: rest =>
    if next.kind = .same then (next.raise n).extend n :: rest
    else
      ⟨.same, previous.old + previous.oldLength - n, here.new + here.newLength - n, n⟩ :: next ::
        rest
  | [] => [⟨.same, previous.old + previous.oldLength - n, here.new + here.newLength - n, n⟩]

/-- The edits before a focus that moves down `n` equal rows, which now come before it. -/
def takeDown (n : Nat) (next here : Edit) (before : List Edit) : List Edit :=
  match before with
  | previous :: rest =>
    if previous.kind = .same then previous.extend n :: rest
    else ⟨.same, next.old, here.new, n⟩ :: previous :: rest
  | [] => [⟨.same, next.old, here.new, n⟩]

/-- How much there is that a focus could pass: the edits and the equal rows. -/
def room : List Edit → Nat
  | [] => 0
  | e :: rest => e.length + 1 + room rest

/-- Moves the focus up as far as it goes. -/
def up (old new : List Row) (before : List Edit) (here : Edit) (after : List Edit) : Focus :=
  match before with
  | [] => ⟨[], here, after⟩
  | previous :: rest =>
    if previous.kind = here.kind then
      up old new rest (previous.extend here.length) after
    else if previous.kind = .same then
      let n := commonSuffix (previous.oldRows old) (here.newRows new)
      if previous.length ≤ n then
        up old new rest (here.raise n) (if n = 0 then after else takeUp n previous here after)
      else if n = 0 then ⟨previous :: rest, here, after⟩
      else up old new (previous.shorten n :: rest) (here.raise n) (takeUp n previous here after)
    else up old new rest here (previous :: after)
termination_by room before
decreasing_by all_goals simp [room, Edit.shorten] <;> omega

/-- Moves the focus down as far as it goes. -/
def down (old new : List Row) (before : List Edit) (here : Edit) (after : List Edit) : Focus :=
  match after with
  | [] => ⟨before, here, []⟩
  | next :: rest =>
    if next.kind = here.kind then
      down old new before (here.extend next.length) rest
    else if next.kind = .same then
      let n := commonPrefix (next.oldRows old) (here.newRows new)
      if next.length ≤ n then
        down old new (if n = 0 then before else takeDown n next here before) (here.lower n) rest
      else if n = 0 then ⟨before, here, next :: rest⟩
      else
        down old new (takeDown n next here before) (here.lower n)
          ((next.lower n).shorten n :: rest)
    else down old new (next :: before) here rest
termination_by room after
decreasing_by all_goals simp [room, Edit.shorten, Edit.lower] <;> omega

/-- Moves the focus up and then down. -/
def settle (old new : List Row) (f : Focus) : Focus :=
  let raised := up old new f.before f.here f.after
  down old new raised.before raised.here raised.after

end Focus

/-- How many edits are of a kind. -/
def countKind (kind : Kind) (edits : List Edit) : Nat := edits.countP (·.kind = kind)

/-- Settles all edits of a kind from the front on; `before` are those passed, the nearest first. -/
def settleAll (old new : List Row) (kind : Kind) (before after : List Edit) : List Edit :=
  match after with
  | [] => before.reverse
  | here :: rest =>
    if here.kind = kind then
      match Focus.settle old new ⟨before, here, rest⟩ with
      | ⟨passed, settled, next⟩ =>
        if countKind kind next ≤ countKind kind rest then
          settleAll old new kind (settled :: passed) next
        else before.reverse ++ here :: rest
    else settleAll old new kind (here :: before) rest
termination_by (countKind kind after, after.length)
decreasing_by
  · apply Prod.Lex.left
    have : countKind kind (here :: rest) = countKind kind rest + 1 := by simp [countKind, *]
    omega
  · have : countKind kind (here :: rest) = countKind kind rest := by simp [countKind, *]
    simp [Prod.lex_def, this]

/-- The edits with the removals and then the additions settled. -/
def compact (old new : List Row) (edits : List Edit) : List Edit :=
  settleAll old new .added [] (settleAll old new .removed [] edits)

/-- The edits between two lists of rows. -/
def edits (old new : List Row) : List Edit := compact old new (search 0 0 old new)

end BlockSieve.Diff
