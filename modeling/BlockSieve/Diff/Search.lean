import BlockSieve.Diff.Edit

/-!
The search for a short list of edits. Common rows at either end are set
aside; what is left is cut in two where a path of edits from the front meets
a path from the back, and the halves are searched in turn. A path with `d`
edits ends on one of the `d + 1` diagonals from `d` down to `-d` in steps of
two, where a diagonal is the number of old rows passed less the number of new
rows passed; of all such paths only the one that gets furthest is kept.
-/

namespace BlockSieve.Diff

/-- How far the paths with `d` edits get: the old rows passed on each diagonal, from `d` down. -/
abbrev Frontier := Array Nat

/-- The new rows passed after `x` old rows on the `i`-th diagonal of the paths with `d` edits. -/
def across (d i x : Nat) : Nat := x + 2 * i - d

/-- The old rows passed with one more edit, before any rows in common are. On each diagonal the
better of two paths counts: one that skips a further old row, and one that skips a new one. -/
def Frontier.step (f : Frontier) : Frontier :=
  if f.size = 0 then #[0]
  else
    Array.ofFn fun i : Fin (f.size + 1) =>
      if i.val = 0 then f.getD 0 0 + 1
      else if i.val = f.size then f.getD (i.val - 1) 0
      else if f.getD i.val 0 < f.getD (i.val - 1) 0 then f.getD (i.val - 1) 0
      else f.getD i.val 0 + 1

/-- The old rows passed when all rows in common from the places `x` and `y` on are passed too. -/
def slide (old new : Array Row) (x y : Nat) : Nat :=
  if x < old.size ∧ y < new.size ∧ old[x]? = new[y]? then slide old new (x + 1) (y + 1) else x
termination_by old.size - x
decreasing_by omega

/-- The frontier when all rows in common are passed. -/
def Frontier.slid (old new : Array Row) (f : Frontier) : Frontier :=
  Array.ofFn fun i : Fin f.size =>
    slide old new f[i] (across (f.size - 1) i.val f[i])

/-- The first of the diagonals of `f` where its path meets one of the paths of `g`, which come from
the other end of `n` old rows; `delta` is the number of old rows less the number of new rows. -/
def Frontier.meets? (n : Nat) (delta : Int) (f g : Frontier) : Option Nat :=
  (List.range f.size).find? fun i =>
    let across : Int := delta - (f.size - 1 - 2 * i : Int)
    decide (0 < g.size ∧ across.natAbs ≤ g.size - 1) &&
      decide (n ≤ f.getD i 0 + g.getD ((g.size - 1 - across) / 2).toNat 0)

/-- The place on both sides where paths from the front and from the back meet. `oldBack` and
`newBack` are the rows in reverse, `forward` and `backward` the frontiers so far. -/
def meeting? (old new oldBack newBack : Array Row) :
    Nat → Frontier → Frontier → Option (Nat × Nat)
  | 0, _, _ => none
  | more + 1, forward, backward =>
    let n := old.size
    let m := new.size
    let delta : Int := (n : Int) - m
    let odd := decide (delta % 2 ≠ 0)
    let d := forward.size
    let begun := forward.step
    let forward := begun.slid old new
    match if odd then forward.meets? n delta backward else none with
    | some i =>
      let x := begun.getD i 0
      some (x, across d i x)
    | none =>
      let backward := backward.step.slid oldBack newBack
      match if odd then none else backward.meets? n delta forward with
      | some i =>
        let x := backward.getD i 0
        some (n - x, m - across d i x)
      | none => meeting? old new oldBack newBack more forward backward

/-- Where to cut two lists of rows in two. -/
def middle? (old new : List Row) : Option (Nat × Nat) :=
  meeting? old.toArray new.toArray old.reverse.toArray new.reverse.toArray
    ((old.length + new.length + 1) / 2 + 1) #[] #[]

/-- The edits that take away all old rows and put in all new ones; `x` and `y` are their places. -/
def replaced (x y : Nat) (old new : List Row) : List Edit :=
  [⟨.removed, x, y, old.length⟩, ⟨.added, x, y, new.length⟩]

/-- A run of equal rows, unless there are none. -/
def kept (x y length : Nat) : List Edit := if length = 0 then [] else [⟨.same, x, y, length⟩]

/-- The rows of `a` without those that it has in common with `b` at either end. -/
def core (a b : List Row) : List Row :=
  let front := commonPrefix a b
  (a.drop front).take (a.length - front - commonSuffix (a.drop front) (b.drop front))

theorem length_core_le (a b : List Row) : (core a b).length ≤ a.length := by
  simp only [core, List.length_take, List.length_drop]
  omega

/-- The edits from `old` to `new`, whose rows begin at the places `x` and `y`. -/
def search (x y : Nat) (old new : List Row) : List Edit :=
  let front := commonPrefix old new
  let back := commonSuffix (old.drop front) (new.drop front)
  let x' := x + front
  let y' := y + front
  let edits :=
    if core old new = [] ∧ core new old = [] then []
    else if core new old = [] then [⟨.removed, x', y', (core old new).length⟩]
    else if core old new = [] then [⟨.added, x', y', (core new old).length⟩]
    else
      match middle? (core old new) (core new old) with
      | none => replaced x' y' (core old new) (core new old)
      | some (i, j) =>
        if 0 < i + j ∧ i ≤ (core old new).length ∧ j ≤ (core new old).length ∧
            i + j < (core old new).length + (core new old).length then
          search x' y' ((core old new).take i) ((core new old).take j) ++
            search (x' + i) (y' + j) ((core old new).drop i) ((core new old).drop j)
        else replaced x' y' (core old new) (core new old)
  kept x y front ++ edits ++ kept (x' + (core old new).length) (y' + (core new old).length) back
termination_by old.length + new.length
decreasing_by
  all_goals
    have := length_core_le old new
    have := length_core_le new old
    simp only [List.length_take, List.length_drop]
    omega

end BlockSieve.Diff
