import BlockSieve.Proofs.Hunks
import BlockSieve.Proofs.PatchText

/-!
A printed difference as a patch. A reader takes it row by row: the first row
of a hunk tells where its rows stand and how many there are on either side, a
row that stays or is taken away must be the next old row, and no row may be
missing or left over. What the reader makes is never anything but the new
text, and it makes it if and only if what each hunk's first row says of the
rows under it is right.
-/

namespace BlockSieve.Diff

/-! ### The reader -/

/-- A reader between two rows of a patch: how many old rows are passed, those that are not, the new
rows made so far, and how many rows on either side the hunk at hand is to have yet. -/
structure Reader where
  passed : Nat
  rest : List Row
  made : List Row
  oldLeft : Nat
  newLeft : Nat

namespace Reader

/-- The reader goes on to a hunk at the place `a` of `m` old rows, and the place `b` of `n` new
ones. The old rows before it stay. -/
def enter? (r : Reader) (a m b n : Nat) : Option Reader :=
  let gap := a - r.passed
  if r.passed ≤ a ∧ gap ≤ r.rest.length ∧ r.made.length + gap = b then
    some ⟨a, r.rest.drop gap, r.made ++ r.rest.take gap, m, n⟩
  else none

/-- The reader takes a signed row of a hunk. -/
def take? (r : Reader) (row : Row) : Option Reader :=
  match row, r with
  | ' ' :: shown, ⟨passed, first :: rest, made, m + 1, n + 1⟩ =>
    if shown = first then some ⟨passed + 1, rest, made ++ [shown], m, n⟩ else none
  | '-' :: shown, ⟨passed, first :: rest, made, m + 1, n⟩ =>
    if shown = first then some ⟨passed + 1, rest, made, m, n⟩ else none
  | '+' :: shown, ⟨passed, rest, made, m, n + 1⟩ =>
    some ⟨passed, rest, made ++ [shown], m, n⟩
  | _, _ => none

/-- The reader takes a row: the first one of a hunk when the hunk before it has all its rows. -/
def step? (r : Reader) (row : Row) : Option Reader :=
  if r.oldLeft = 0 ∧ r.newLeft = 0 then
    match ranges? row with
    | some ((a, m), (b, n)) => r.enter? a m b n
    | none => none
  else r.take? row

/-- The new rows, when the last hunk has all its rows. The old rows after it stay. -/
def finish? (r : Reader) : Option (List Row) :=
  if r.oldLeft = 0 ∧ r.newLeft = 0 then some (r.made ++ r.rest) else none

/-- The new rows that come of reading the rows of a patch. -/
def read? (r : Reader) (patch : List Row) : Option (List Row) := do
  (← patch.foldlM step? r).finish?

end Reader

/-- The lines in front of the hunks, which name both sides. -/
def preamble (oldName newName : Text) : Text :=
  "--- ".toList ++ oldName ++ "\n+++ ".toList ++ newName ++ ['\n']

/-- The text that a patch under the given names makes of another. -/
def patched? (oldName newName patch old : Text) : Option Text := do
  let body ← Text.after? (preamble oldName newName) patch
  let new ← Reader.read? ⟨0, rows old, [], 0, 0⟩ (unmark (rows body))
  some new.flatten

/-! ### What the rows of a hunk show -/

/-- The signed rows lead from the places `x` and `y` to the places `x'` and `y'`: each that stays is
the row at hand on both sides, each taken away that of the old rows, each put in that of the new
ones. -/
inductive Follows (old new : List Row) : Nat → Nat → List Row → Nat → Nat → Prop
  | done {x y} : Follows old new x y [] x y
  | stays {x y row lines x' y'} (old_at : old[x]? = some row) (new_at : new[y]? = some row)
      (rest : Follows old new (x + 1) (y + 1) lines x' y') :
      Follows old new x y ((' ' :: row) :: lines) x' y'
  | removed {x y row lines x' y'} (old_at : old[x]? = some row)
      (rest : Follows old new (x + 1) y lines x' y') :
      Follows old new x y (('-' :: row) :: lines) x' y'
  | added {x y row lines x' y'} (new_at : new[y]? = some row)
      (rest : Follows old new x (y + 1) lines x' y') :
      Follows old new x y (('+' :: row) :: lines) x' y'

variable {old new : List Row} {x y x' y' x'' y'' m n : Nat} {lines more : List Row}

theorem drop_eq_cons {all : List Row} {row : Row} (h : all[x]? = some row) :
    all.drop x = row :: all.drop (x + 1) := by
  obtain ⟨hx, rfl⟩ := List.getElem?_eq_some_iff.mp h
  exact List.drop_eq_getElem_cons hx

theorem take_drop_succ {all : List Row} {row : Row} (h : all[x]? = some row) :
    (all.drop x).take (n + 1) = row :: (all.drop (x + 1)).take n := by
  rw [drop_eq_cons h, List.take_succ_cons]

namespace Follows

theorem append (h : Follows old new x y lines x' y') (h' : Follows old new x' y' more x'' y'') :
    Follows old new x y (lines ++ more) x'' y'' := by
  induction h with
  | done => exact h'
  | stays old_at new_at _ ih => exact .stays old_at new_at (ih h')
  | removed old_at _ ih => exact .removed old_at (ih h')
  | added new_at _ ih => exact .added new_at (ih h')

theorem of_agree (h : Agree old new x y n) :
    Follows old new x y (((old.drop x).take n).map (' ' :: ·)) (x + n) (y + n) := by
  induction n generalizing x y with
  | zero => exact .done
  | succ n ih =>
      have hx : x < old.length := by
        have := h.old_le
        omega
      have hold : old[x]? = some old[x] := List.getElem?_eq_getElem hx
      have hnew : new[y]? = some old[x] := (h.rows 0 (Nat.succ_pos n)).symm.trans hold
      have hrest := ih (h.drop (m := 1) (Nat.succ_le_succ (Nat.zero_le n)))
      rw [take_drop_succ hold, List.map_cons, show x + (n + 1) = x + 1 + n by omega,
        show y + (n + 1) = y + 1 + n by omega]
      exact .stays hold hnew hrest

theorem of_removed (h : x + n ≤ old.length) :
    Follows old new x y (((old.drop x).take n).map ('-' :: ·)) (x + n) y := by
  induction n generalizing x with
  | zero => exact .done
  | succ n ih =>
      have hold : old[x]? = some old[x] := List.getElem?_eq_getElem (by omega)
      rw [take_drop_succ hold, List.map_cons, show x + (n + 1) = x + 1 + n by omega]
      exact .removed hold (ih (by omega))

theorem of_added (h : y + n ≤ new.length) :
    Follows old new x y (((new.drop y).take n).map ('+' :: ·)) x (y + n) := by
  induction n generalizing y with
  | zero => exact .done
  | succ n ih =>
      have hnew : new[y]? = some new[y] := List.getElem?_eq_getElem (by omega)
      rw [take_drop_succ hnew, List.map_cons, show y + (n + 1) = y + 1 + n by omega]
      exact .added hnew (ih (by omega))

theorem le (h : Follows old new x y lines x' y') : x ≤ x' ∧ y ≤ y' := by
  induction h with
  | done => exact ⟨Nat.le_refl _, Nat.le_refl _⟩
  | stays _ _ _ ih => omega
  | removed _ _ ih => omega
  | added _ _ ih => omega

end Follows

/-- The rows of pieces are those at their places. -/
theorem Cover.follows {ps : List Piece} (h : Cover old new x y ps x' y') :
    Follows old new x y (ps.flatMap (Piece.lines old new)) x' y' := by
  have hplace : ∀ {all : List Row} {a x m : Nat}, (0 < m → a = x) →
      (all.drop a).take m = (all.drop x).take m := by
    intro all a x m h
    rcases Nat.eq_zero_or_pos m with rfl | hpos
    · rfl
    · rw [h hpos]
  induction h with
  | done => exact .done
  | stays agree _ ih => exact (Follows.of_agree agree).append ih
  | change _ old_le new_le old_at new_at _ ih =>
      rw [List.flatMap_cons]
      refine Follows.append ?_ ih
      simp only [Piece.lines, Bool.false_eq_true, if_false, hplace old_at, hplace new_at]
      exact (Follows.of_removed old_le).append (.of_added new_le)

/-! ### Reading -/

/-- How many old rows a hunk shows. -/
def Hunk.oldLength : Hunk → Nat
  | [] => 0
  | p :: ps => p.oldLength + Hunk.oldLength ps

/-- How many new rows a hunk shows. -/
def Hunk.newLength : Hunk → Nat
  | [] => 0
  | p :: ps => p.newLength + Hunk.newLength ps

/-- What the first row of a hunk says is right: where its rows stand, and how many there are. -/
def Hunk.Right (h : Hunk) : Prop :=
  ranges? (header h) = some ((h.start.1, h.oldLength), (h.start.2, h.newLength))

instance (h : Hunk) : Decidable h.Right := inferInstanceAs (Decidable (_ = _))

theorem Cover.lengths {h : Hunk} (hcover : Cover old new x y h x' y') :
    x' = x + h.oldLength ∧ y' = y + h.newLength := by
  induction hcover with
  | done => exact ⟨rfl, rfl⟩
  | stays _ _ ih =>
      simp only [Hunk.oldLength, Hunk.newLength] at ih ⊢
      omega
  | change _ _ _ _ _ _ ih =>
      simp only [Hunk.oldLength, Hunk.newLength] at ih ⊢
      omega

/-- The first piece of a hunk has its right place on one side at least. -/
theorem Cover.first_at {h : Hunk} {p : Piece} (hcover : Cover old new x y h x' y')
    (hfirst : h.head? = some p) : p.old = x ∨ p.new = y := by
  cases hcover with
  | done => cases hfirst
  | stays => exact .inl (by cases hfirst; rfl)
  | change some _ _ old_at new_at _ =>
      cases hfirst
      exact some.imp old_at new_at

theorem take_succ_eq {all : List Row} {row : Row} (h : all[x]? = some row) :
    all.take (x + 1) = all.take x ++ [row] := by
  rw [List.take_add_one, h]
  rfl

theorem ranges?_eq_none {row : Row} (h : row.head? ≠ some '@') : ranges? row = none := by
  unfold ranges?
  split
  · next opening old new closing hcut =>
      have hjoin := Text.joinBy_cutAt ' ' row
      rw [hcut] at hjoin
      rw [if_neg]
      rintro ⟨rfl, -⟩
      rw [← hjoin] at h
      exact h rfl
  · rfl

namespace Reader

/-- The reader at the places `x` and `y`. -/
def placed (old new : List Row) (x y m n : Nat) : Reader := ⟨x, old.drop x, new.take y, m, n⟩

variable {row : Row}

theorem step?_stays (hold : old[x]? = some row) (hnew : new[y]? = some row) (m n : Nat) :
    (Reader.placed old new x y m n).step? (' ' :: row) =
      if 1 ≤ m ∧ 1 ≤ n then some (Reader.placed old new (x + 1) (y + 1) (m - 1) (n - 1))
      else none := by
  have hsign : ranges? (' ' :: row) = none := ranges?_eq_none (by simp)
  unfold Reader.placed
  rw [drop_eq_cons hold, take_succ_eq hnew]
  cases m <;> cases n <;> simp [step?, take?, hsign]

theorem step?_removed (hold : old[x]? = some row) (m n : Nat) :
    (Reader.placed old new x y m n).step? ('-' :: row) =
      if 1 ≤ m ∧ 0 ≤ n then some (Reader.placed old new (x + 1) (y + 0) (m - 1) (n - 0))
      else none := by
  have hsign : ranges? ('-' :: row) = none := ranges?_eq_none (by simp)
  unfold Reader.placed
  rw [drop_eq_cons hold]
  cases m <;> cases n <;> simp [step?, take?, hsign]

theorem step?_added (hnew : new[y]? = some row) (m n : Nat) :
    (Reader.placed old new x y m n).step? ('+' :: row) =
      if 0 ≤ m ∧ 1 ≤ n then some (Reader.placed old new (x + 0) (y + 1) (m - 0) (n - 1))
      else none := by
  have hsign : ranges? ('+' :: row) = none := ranges?_eq_none (by simp)
  unfold Reader.placed
  rw [take_succ_eq hnew]
  cases m <;> cases n <;> simp [step?, take?, hsign]

theorem read?_append (r : Reader) (lines more : List Row) :
    r.read? (lines ++ more) = (lines.foldlM step? r).bind (·.read? more) := by
  rw [read?, List.foldlM_append]
  cases lines.foldlM step? r <;> rfl

theorem read?_cons (r : Reader) (row : Row) (more : List Row) :
    r.read? (row :: more) = (r.step? row).bind (·.read? more) := by
  rw [read?, List.foldlM_cons]
  cases r.step? row <;> rfl

/-- What a reader in the middle of a hunk is to have yet are signed rows, and not another hunk. -/
theorem read?_unfinished {hs : List Hunk} (hne : ∀ h ∈ hs, h ≠ []) (hleft : ¬ (m = 0 ∧ n = 0)) :
    (Reader.placed old new x y m n).read? (hs.flatMap (Hunk.lines old new)) = none := by
  cases hs with
  | nil =>
      have hfinish : (Reader.placed old new x y m n).finish? = none := if_neg hleft
      exact hfinish
  | cons h hs =>
      obtain ⟨t, hheader, -⟩ := exists_header (hne h (List.mem_cons_self ..))
      have hstep : (Reader.placed old new x y m n).step? (header h) = none := by
        have hunfinished : ¬ ((Reader.placed old new x y m n).oldLeft = 0 ∧
            (Reader.placed old new x y m n).newLeft = 0) := hleft
        rw [step?, if_neg hunfinished, hheader]
        rfl
      rw [List.flatMap_cons, Hunk.lines, List.cons_append, read?_cons, hstep]
      rfl

end Reader

theorem Reader.foldlM_step?_cons {row : Row} {i j : Nat}
    (hstep : (Reader.placed old new x y m n).step? row =
      if i ≤ m ∧ j ≤ n then some (Reader.placed old new (x + i) (y + j) (m - i) (n - j)) else none)
    (hle : x + i ≤ x' ∧ y + j ≤ y')
    (hrest : ∀ m n, lines.foldlM step? (Reader.placed old new (x + i) (y + j) m n) =
      if x' - (x + i) ≤ m ∧ y' - (y + j) ≤ n then
        some (Reader.placed old new x' y' (m - (x' - (x + i))) (n - (y' - (y + j))))
      else none) :
    (row :: lines).foldlM step? (Reader.placed old new x y m n) =
      if x' - x ≤ m ∧ y' - y ≤ n then
        some (Reader.placed old new x' y' (m - (x' - x)) (n - (y' - y)))
      else none := by
  rw [List.foldlM_cons, hstep]
  by_cases hroom : i ≤ m ∧ j ≤ n
  · have hiff : (x' - (x + i) ≤ m - i ∧ y' - (y + j) ≤ n - j) ↔ (x' - x ≤ m ∧ y' - y ≤ n) := by
      omega
    rw [if_pos hroom, Option.bind_eq_bind, Option.bind_some, hrest,
      show m - i - (x' - (x + i)) = m - (x' - x) by omega,
      show n - j - (y' - (y + j)) = n - (y' - y) by omega]
    simp only [hiff]
  · rw [if_neg hroom, if_neg (by omega)]
    rfl

/-- A reader takes the signed rows at its places, as long as its hunk is to have so many. -/
theorem Follows.foldlM_step? (h : Follows old new x y lines x' y') (m n : Nat) :
    lines.foldlM Reader.step? (Reader.placed old new x y m n) =
      if x' - x ≤ m ∧ y' - y ≤ n then
        some (Reader.placed old new x' y' (m - (x' - x)) (n - (y' - y)))
      else none := by
  induction h generalizing m n with
  | done => simp
  | stays hold hnew hrest ih =>
      exact Reader.foldlM_step?_cons (Reader.step?_stays hold hnew m n) hrest.le ih
  | removed hold hrest ih =>
      exact Reader.foldlM_step?_cons (Reader.step?_removed hold m n) hrest.le ih
  | added hnew hrest ih =>
      exact Reader.foldlM_step?_cons (Reader.step?_added hnew m n) hrest.le ih

theorem Agree.take_eq (h : Agree old new x y n) : (old.drop x).take n = (new.drop y).take n := by
  refine List.ext_getElem? fun i => ?_
  rw [List.getElem?_take, List.getElem?_take, List.getElem?_drop, List.getElem?_drop]
  split
  · next hi => exact h.rows i hi
  · rfl

/-- A reader goes on to a place after rows that stay. If the place is right on one side, it has to be
on the other. -/
theorem Reader.enter?_placed {a b g : Nat} (gap : Agree old new x y g)
    (hplace : a = x + g ∨ b = y + g) (m n : Nat) :
    (Reader.placed old new x y 0 0).enter? a m b n =
      if a = x + g ∧ b = y + g then some (Reader.placed old new (x + g) (y + g) m n) else none := by
  have hrest : (old.drop x).length = old.length - x := List.length_drop
  have hmade : (new.take y).length = y := List.length_take_of_le (by have := gap.new_le; omega)
  have hroom := gap.old_le
  unfold Reader.enter? Reader.placed
  dsimp only
  rw [hrest, hmade]
  by_cases hright : a = x + g ∧ b = y + g
  · obtain ⟨rfl, rfl⟩ := hright
    rw [if_pos (by omega), if_pos ⟨rfl, rfl⟩, Nat.add_sub_cancel_left, List.drop_drop, gap.take_eq,
      ← List.take_add]
  · rw [if_neg (by omega), if_neg hright]

/-- A reader goes on to a hunk if and only if what its first row says is where it stands. -/
theorem Reader.step?_header {h : Hunk} {a b g : Nat} (hne : h ≠ []) (gap : Agree old new x y g)
    (hcover : Cover old new (x + g) (y + g) h x' y')
    (hranges : ranges? (header h) = some ((a, m), (b, n))) :
    (Reader.placed old new x y 0 0).step? (header h) =
      if a = x + g ∧ b = y + g then some (Reader.placed old new (x + g) (y + g) m n) else none := by
  have hplace : a = x + g ∨ b = y + g := by
    obtain ⟨first, last, hfirst, hlast⟩ := Hunk.exists_ends hne
    have hnamed := hranges.symm.trans (ranges?_header hfirst hlast)
    simp only [Option.some.injEq, Prod.mk.injEq] at hnamed
    rw [hnamed.1.1, hnamed.2.1]
    exact hcover.first_at hfirst
  rw [Reader.step?, if_pos ⟨rfl, rfl⟩, hranges]
  exact Reader.enter?_placed gap hplace m n

theorem Shown.ne_nil {hs : List Hunk} (h : Shown old new x y hs x' y') : ∀ h ∈ hs, h ≠ [] := by
  induction h with
  | done => exact fun _ h => absurd h List.not_mem_nil
  | hunk ne_nil _ _ _ _ ih => exact List.forall_mem_cons.mpr ⟨ne_nil, ih⟩

/-- **A reader of hunks makes the new rows** if what the first row of each says is right, and
nothing otherwise. -/
theorem Shown.read? {hs : List Hunk} (h : Shown old new x y hs x' y') (hx : x' = old.length)
    (hy : y' = new.length) :
    (Reader.placed old new x y 0 0).read? (hs.flatMap (Hunk.lines old new)) =
      if ∀ h ∈ hs, h.Right then some new else none := by
  induction h with
  | @done x y n gap =>
      have hrest : old.drop x = new.drop y := by
        have htake := gap.take_eq
        rwa [List.take_of_length_le (by rw [List.length_drop]; omega),
          List.take_of_length_le (by rw [List.length_drop]; omega)] at htake
      rw [if_pos (by simp)]
      show some (new.take y ++ old.drop x) = some new
      rw [hrest, List.take_append_drop]
  | @hunk x y g hunk x' y' hs _ _ hne gap start cover rest ih =>
      obtain ⟨⟨⟨a, m⟩, ⟨b, n⟩⟩, hranges⟩ := exists_ranges?_header hne
      obtain ⟨hx', hy'⟩ := cover.lengths
      have hright : Hunk.Right hunk ↔
          (a = x + g ∧ b = y + g) ∧ m = Hunk.oldLength hunk ∧ n = Hunk.newLength hunk := by
        rw [Hunk.Right, hranges, start]
        simp only [Option.some.injEq, Prod.mk.injEq]
        tauto
      have hstep := Reader.step?_header hne gap cover hranges
      have hrows := cover.follows.foldlM_step? m n
      simp only [List.forall_mem_cons]
      rw [List.flatMap_cons, Hunk.lines, List.cons_append, Reader.read?_cons, hstep]
      by_cases hplace : a = x + g ∧ b = y + g
      · rw [if_pos hplace, Option.bind_some, Reader.read?_append, hrows]
        by_cases hcounts : m = Hunk.oldLength hunk ∧ n = Hunk.newLength hunk
        · have hm : m - (x' - (x + g)) = 0 := by omega
          have hn : n - (y' - (y + g)) = 0 := by omega
          rw [if_pos (by omega), Option.bind_some, hm, hn, ih hx hy]
          simp only [hright.mpr ⟨hplace, hcounts⟩, true_and]
        · have hwrong : ¬ (Hunk.Right hunk ∧ ∀ h ∈ hs, h.Right) := fun h =>
            hcounts (hright.mp h.1).2
          rw [if_neg hwrong]
          by_cases hroom : x' - (x + g) ≤ m ∧ y' - (y + g) ≤ n
          · rw [if_pos hroom]
            exact Reader.read?_unfinished rest.ne_nil (by omega)
          · rw [if_neg hroom]
            rfl
      · rw [if_neg hplace, if_neg (fun h => hplace (hright.mp h.1).1)]
        rfl

/-! ### The hunks of two texts -/

/-- A piece with rows on both sides, so that both its places are right. -/
def Piece.Anchored (p : Piece) : Prop := p.stays = true ∨ 0 < p.oldLength ∧ 0 < p.newLength

/-- A hunk whose first and last pieces have rows on both sides. -/
def Hunk.Anchored (h : Hunk) : Prop :=
  (∀ p ∈ h.head?, p.Anchored) ∧ ∀ p ∈ h.getLast?, p.Anchored

theorem Cover.anchored {p : Piece} {ps : List Piece} (hcover : Cover old new x y (p :: ps) x' y')
    (hp : p.Anchored) : p.old = x ∧ p.new = y := by
  cases hcover with
  | stays => exact ⟨rfl, rfl⟩
  | change _ _ _ old_at new_at _ =>
      rcases hp with hstays | ⟨hm, hn⟩
      · cases hstays
      · exact ⟨old_at hm, new_at hn⟩

/-- Wrong places do not get into the first row of a hunk but by its first and its last piece. -/
theorem Cover.right_of_anchored {h : Hunk} (hcover : Cover old new x y h x' y') (hne : h ≠ [])
    (hstart : h.start = (x, y)) (hanchored : h.Anchored) : h.Right := by
  obtain ⟨first, last, hfirst, hlast⟩ := Hunk.exists_ends hne
  have hbegins : first.old = x ∧ first.new = y := by
    obtain ⟨ps, rfl⟩ := List.head?_eq_some_iff.mp hfirst
    exact hcover.anchored (hanchored.1 first hfirst)
  have hends : last.old + last.oldLength = x' ∧ last.new + last.newLength = y' := by
    obtain ⟨init, rfl⟩ := List.getLast?_eq_some_iff.mp hlast
    obtain ⟨u, v, -, hcover'⟩ := hcover.of_append
    obtain ⟨rfl, rfl⟩ := hcover'.anchored (hanchored.2 last hlast)
    obtain ⟨hx, hy⟩ := Cover.lengths (h := [last]) hcover'
    exact ⟨hx.symm, hy.symm⟩
  obtain ⟨hx, hy⟩ := hcover.lengths
  rw [Hunk.Right, ranges?_header hfirst hlast, hstart]
  simp only [Option.some.injEq, Prod.mk.injEq]
  omega

/-- The rows that each hunk shows are those where it stands. -/
theorem Shown.follows {hs : List Hunk} (hshown : Shown old new x y hs x' y') : ∀ h ∈ hs,
    Follows old new h.start.1 h.start.2 (h.flatMap (Piece.lines old new))
        (h.start.1 + h.oldLength) (h.start.2 + h.newLength) ∧
      (h.Anchored → h.Right) := by
  induction hshown with
  | done => exact fun _ h => absurd h List.not_mem_nil
  | hunk hne gap start cover rest ih =>
      refine List.forall_mem_cons.mpr ⟨⟨?_, cover.right_of_anchored hne start⟩, ih⟩
      obtain ⟨rfl, rfl⟩ := cover.lengths
      rw [start]
      exact cover.follows

/-- The hunks that show how a text becomes another. -/
def changes (old new : Text) : List Hunk := hunks (pieces (edits (rows old) (rows new)))

theorem shown_changes (old new : Text) :
    Shown (rows old) (rows new) 0 0 (changes old new) (rows old).length (rows new).length :=
  shown_hunks (rows old) (rows new)

theorem changes_ne_nil {old new : Text} (hne : old ≠ new) : changes old new ≠ [] := by
  intro hnil
  have hread := (shown_changes old new).read? rfl rfl
  rw [hnil, if_pos (by simp)] at hread
  have hrows : rows old = rows new := Option.some.inj hread
  exact hne (by rw [← flatten_rows old, hrows, flatten_rows])

/-- The printed difference is its preamble and the rows of its hunks. -/
theorem unified_eq (oldName newName : Text) {old new : Text} (hne : old ≠ new) :
    unified oldName newName old new = preamble oldName newName ++
      ((changes old new).flatMap (Hunk.lines (rows old) (rows new))).flatMap mark := by
  rw [← flatMap_printHunk _ _ (shown_changes old new).ne_nil]
  unfold unified
  split
  · next hnil => exact absurd hnil (changes_ne_nil hne)
  · exact List.append_cons _ '\n' _

/-- **What a printed difference makes of the old text as a patch**: the new text if the first rows
of its hunks are right, and otherwise nothing. -/
theorem patched?_unified (oldName newName : Text) {old new : Text} (hne : old ≠ new) :
    patched? oldName newName (unified oldName newName old new) old =
      if ∀ h ∈ changes old new, h.Right then some new else none := by
  have hshown := shown_changes old new
  have hbody := (Text.after?_eq_some_iff _ _ _).mpr (unified_eq oldName newName hne)
  have hread : Reader.read? ⟨0, rows old, [], 0, 0⟩ _ = _ := hshown.read? rfl rfl
  rw [patched?, hbody, Option.bind_eq_bind, Option.bind_some,
    unmark_rows_lines old new hshown.ne_nil, hread]
  split
  · rw [Option.bind_eq_bind, Option.bind_some, flatten_rows]
  · rfl

end BlockSieve.Diff
