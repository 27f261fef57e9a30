import BlockSieve.Text.Order
import BlockSieve.Text.Utf8

/-!
A tree of directories, files and symbolic links. What is in the tree is found
by its place, the names that lead to it from the root; the root itself is a
directory and is never listed. Reading after a write gives what was written
at its place and what was there before at every other place.
-/

namespace BlockSieve

/-- The names that lead from the root to something in a tree. Names are texts: bytes that are no text
name nothing here. -/
abbrev Place := List Text

/-- What stands at a place. The target of a link is a text, as names are. -/
inductive Entry where
  | directory
  | file (bytes : Bytes) (mode : Nat)
  | link (target : Text)
  deriving DecidableEq

/-- What stands at a place in a list of entries; the first one found counts. -/
def entryAt (p : Place) : List (Place × Entry) → Option Entry
  | [] => none
  | (q, e) :: rest => if q = p then some e else entryAt p rest

/-- The entries with `e` at place `p`: the one that was there is replaced, or a new one comes last. -/
def putEntry (p : Place) (e : Entry) : List (Place × Entry) → List (Place × Entry)
  | [] => [(p, e)]
  | (q, f) :: rest => if q = p then (p, e) :: rest else (q, f) :: putEntry p e rest

/-- The entries at places other than `p`. -/
def eraseEntry (p : Place) (l : List (Place × Entry)) : List (Place × Entry) :=
  l.filter fun x => decide (x.1 ≠ p)

theorem entryAt_putEntry (p q : Place) (e : Entry) (l : List (Place × Entry)) :
    entryAt q (putEntry p e l) = if p = q then some e else entryAt q l := by
  induction l with
  | nil => simp [putEntry, entryAt]
  | cons x rest ih =>
    obtain ⟨r, f⟩ := x
    by_cases hr : r = p
    · subst hr
      by_cases hq : r = q
      · simp [putEntry, entryAt, hq]
      · simp [putEntry, entryAt, hq]
    · by_cases hq : r = q
      · subst hq
        simp [putEntry, entryAt, hr, Ne.symm hr]
      · simp [putEntry, entryAt, hr, hq, ih]

theorem entryAt_eraseEntry (p q : Place) (l : List (Place × Entry)) :
    entryAt q (eraseEntry p l) = if p = q then none else entryAt q l := by
  induction l with
  | nil => simp [eraseEntry, entryAt]
  | cons x rest ih =>
    obtain ⟨r, f⟩ := x
    have ih' : entryAt q (rest.filter fun x => decide (x.1 ≠ p)) =
        if p = q then none else entryAt q rest := ih
    by_cases hr : r = p
    · subst hr
      by_cases hq : r = q
      · simp_all [eraseEntry]
      · simp_all [eraseEntry, entryAt]
    · by_cases hq : r = q
      · subst hq
        simp_all [eraseEntry, entryAt, Ne.symm hr]
      · simp_all [eraseEntry, entryAt]

/-- A tree, by the entries below its root. -/
structure Tree where
  entries : List (Place × Entry)
  deriving DecidableEq

namespace Tree

/-- The tree with nothing below its root. -/
def empty : Tree := ⟨[]⟩

/-- What stands at a place. -/
def get? (t : Tree) (p : Place) : Option Entry :=
  if p = [] then some .directory else entryAt p t.entries

/-- The tree with an entry at a place. -/
def put (t : Tree) (p : Place) (e : Entry) : Tree := ⟨putEntry p e t.entries⟩

/-- The tree with nothing at a place. -/
def erase (t : Tree) (p : Place) : Tree := ⟨eraseEntry p t.entries⟩

/-- Whether a place is another or comes before it: name by name, and a directory before all that is
in it. -/
def upTo : Place → Place → Bool
  | [], _ => true
  | _ :: _, [] => false
  | a :: p, b :: q => if a = b then upTo p q else Text.precedes a b

/-- What stands below a place, each with the names that lead to it from there. Names come in
ascending order, and a directory is followed at once by what it holds. -/
def below (t : Tree) (p : Place) : List (Place × Entry) :=
  let inside := t.entries.filterMap fun x =>
    if p.isPrefixOf x.1 && p.length < x.1.length then some (x.1.drop p.length, x.2) else none
  inside.mergeSort fun x y => upTo x.1 y.1

theorem get?_put (t : Tree) (p q : Place) (e : Entry) (hq : q ≠ []) :
    (t.put p e).get? q = if p = q then some e else t.get? q := by
  simp [get?, put, hq, entryAt_putEntry]

/-- The root cannot be put anew, and every other place can. -/
theorem get?_put_of_ne_nil (t : Tree) {p : Place} (hp : p ≠ []) (q : Place) (e : Entry) :
    (t.put p e).get? q = if p = q then some e else t.get? q := by
  by_cases hq : q = []
  · subst hq
    rw [if_neg hp]
    rfl
  · exact t.get?_put p q e hq

theorem get?_erase (t : Tree) (p q : Place) (hq : q ≠ []) :
    (t.erase p).get? q = if p = q then none else t.get? q := by
  simp [get?, erase, hq, entryAt_eraseEntry]

theorem get?_erase_of_ne_nil (t : Tree) {p : Place} (hp : p ≠ []) (q : Place) :
    (t.erase p).get? q = if p = q then none else t.get? q := by
  by_cases hq : q = []
  · subst hq
    rw [if_neg hp]
    rfl
  · exact t.get?_erase p q hq

end Tree

end BlockSieve
