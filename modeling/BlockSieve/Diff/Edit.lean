import BlockSieve.Diff.Row

/-!
Edits: how one list of rows becomes another. Each edit covers a run of old
rows, of new rows, or of both where they are equal, and carries the places
where the run begins on either side. On the side where an edit covers
nothing, its place says what it stands beside.
-/

namespace BlockSieve.Diff

/-- Whether rows are kept, taken away or put in. -/
inductive Kind where
  | same
  | removed
  | added
  deriving DecidableEq

/-- A run of `length` rows from the places `old` and `new` on. -/
structure Edit where
  kind : Kind
  old : Nat
  new : Nat
  length : Nat
  deriving DecidableEq

namespace Edit

/-- How many old rows an edit covers. -/
def oldLength (e : Edit) : Nat := if e.kind = .added then 0 else e.length

/-- How many new rows an edit covers. -/
def newLength (e : Edit) : Nat := if e.kind = .removed then 0 else e.length

/-- The old rows that an edit covers. -/
def oldRows (old : List Row) (e : Edit) : List Row := (old.drop e.old).take e.oldLength

/-- The new rows that an edit covers. -/
def newRows (new : List Row) (e : Edit) : List Row := (new.drop e.new).take e.newLength

/-- The edit `n` rows higher up. -/
def raise (n : Nat) (e : Edit) : Edit := { e with old := e.old - n, new := e.new - n }

/-- The edit `n` rows further down. -/
def lower (n : Nat) (e : Edit) : Edit := { e with old := e.old + n, new := e.new + n }

/-- The edit with `n` more rows at its end. -/
def extend (n : Nat) (e : Edit) : Edit := { e with length := e.length + n }

/-- The edit without its last `n` rows. -/
def shorten (n : Nat) (e : Edit) : Edit := { e with length := e.length - n }

end Edit

/-- How many rows two lists begin with in common. -/
def commonPrefix : List Row → List Row → Nat
  | a :: as, b :: bs => if a = b then commonPrefix as bs + 1 else 0
  | _, _ => 0

/-- How many rows two lists end with in common. -/
def commonSuffix (as bs : List Row) : Nat := commonPrefix as.reverse bs.reverse

theorem commonPrefix_le (as bs : List Row) :
    commonPrefix as bs ≤ as.length ∧ commonPrefix as bs ≤ bs.length := by
  induction as generalizing bs with
  | nil => simp [commonPrefix]
  | cons a as ih =>
    cases bs with
    | nil => simp [commonPrefix]
    | cons b bs =>
      obtain ⟨hleft, hright⟩ := ih bs
      simp only [commonPrefix, List.length_cons]
      split
      · exact ⟨Nat.succ_le_succ hleft, Nat.succ_le_succ hright⟩
      · exact ⟨Nat.zero_le _, Nat.zero_le _⟩

theorem commonSuffix_le (as bs : List Row) :
    commonSuffix as bs ≤ as.length ∧ commonSuffix as bs ≤ bs.length := by
  simpa [commonSuffix] using commonPrefix_le as.reverse bs.reverse

end BlockSieve.Diff
