import BlockSieve.Text.Order

/-!
Allow-lists: sets of names. The names are kept in strictly ascending order of
their characters, so the order and the repeats of what was listed are
forgotten: two lists of the same names make the same allow-list, and the
names that nothing carries come out sorted.
-/

namespace BlockSieve

/-- The name of a block. -/
abbrev Name := Text

/-- Puts a name at its place in an ascending list, unless it is there already. -/
def insertName (n : Name) : List Name → List Name
  | [] => [n]
  | m :: rest =>
    if Text.precedes n m then n :: m :: rest
    else if n = m then m :: rest
    else m :: insertName n rest

theorem mem_insertName (n x : Name) (l : List Name) :
    x ∈ insertName n l ↔ x = n ∨ x ∈ l := by
  induction l with
  | nil => simp [insertName]
  | cons m rest ih =>
    unfold insertName
    split
    · simp
    · split
      · next h => subst h; simp
      · simp only [List.mem_cons, ih]
        constructor
        · rintro (h | h | h) <;> simp [h]
        · rintro (h | h | h) <;> simp [h]

theorem pairwise_insertName (n : Name) (l : List Name)
    (h : l.Pairwise fun a b => Text.precedes a b) :
    (insertName n l).Pairwise fun a b => Text.precedes a b := by
  induction l with
  | nil => simp [insertName]
  | cons m rest ih =>
    obtain ⟨hm, hrest⟩ := List.pairwise_cons.mp h
    unfold insertName
    split
    · next hlt =>
      refine List.pairwise_cons.mpr ⟨?_, h⟩
      intro x hx
      rcases List.mem_cons.mp hx with hx | hx
      · subst hx
        exact hlt
      · exact Text.precedes_trans hlt (hm x hx)
    · next hlt =>
      split
      · exact h
      · next hne =>
        refine List.pairwise_cons.mpr ⟨?_, ih hrest⟩
        intro x hx
        rcases (mem_insertName n x rest).mp hx with hx | hx
        · subst hx
          exact Text.precedes_of_ne hne (by simpa using hlt)
        · exact hm x hx

/-- A set of names, in strictly ascending order. -/
structure AllowList where
  names : List Name
  ascending : names.Pairwise fun a b => Text.precedes a b

namespace AllowList

/-- The list that allows nothing. -/
def empty : AllowList := ⟨[], List.Pairwise.nil⟩

/-- Allows one more name. -/
def insert (a : AllowList) (n : Name) : AllowList :=
  ⟨insertName n a.names, pairwise_insertName n a.names a.ascending⟩

/-- The allow-list of the given names. -/
def ofList (names : List Name) : AllowList := names.foldl insert empty

/-- Whether a name is allowed. The comparison is exact. -/
def contains (a : AllowList) (n : Name) : Bool := decide (n ∈ a.names)

/-- The number of distinct names. -/
def size (a : AllowList) : Nat := a.names.length

/-- Whether no name is allowed. -/
def isEmpty (a : AllowList) : Bool := a.names.isEmpty

/-- The names on the list that are not among those seen, sorted. The list is ascending, and so is
what is left of it: there is nothing to sort. -/
def unmatched (a : AllowList) (seen : List Name) : List Name :=
  a.names.filter fun n => decide (n ∉ seen)

theorem ascending_unmatched (a : AllowList) (seen : List Name) :
    (a.unmatched seen).Pairwise fun m n => Text.precedes m n :=
  a.ascending.filter _

theorem mem_insert (a : AllowList) (n x : Name) :
    x ∈ (a.insert n).names ↔ x = n ∨ x ∈ a.names :=
  mem_insertName n x a.names

theorem mem_ofList (names : List Name) (x : Name) : x ∈ (ofList names).names ↔ x ∈ names := by
  suffices h : ∀ a : AllowList, x ∈ (names.foldl insert a).names ↔ x ∈ a.names ∨ x ∈ names by
    simpa [ofList, empty] using h empty
  induction names with
  | nil => simp
  | cons n rest ih =>
    intro a
    rw [List.foldl_cons, ih, mem_insert, List.mem_cons]
    constructor
    · rintro ((h | h) | h) <;> simp [h]
    · rintro (h | h | h) <;> simp [h]

end AllowList

end BlockSieve
