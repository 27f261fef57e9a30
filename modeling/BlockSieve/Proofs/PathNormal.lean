import BlockSieve.Proofs.Encoding
import BlockSieve.Proofs.PathName

/-!
Which paths are spelled as paths are made: without backslashes, so that a
path made again from its spelling is the same path. Every path that is made
from bytes is one of them, and so is its parent; a suffix is appended as it
is, and a backslash in it stays.
-/

namespace BlockSieve.Path

variable {p q : Path} {suffix : Text} {b : Bytes}

/-- A path without backslashes, which is the one that its spelling, handed out as bytes, makes. -/
structure Normal (p : Path) : Prop where
  backslash_not_mem : '\\' ∉ p.text
  again : ofBytes (Utf8.encode p.text) = p

theorem ofBytes_encode (t : Text) : ofBytes (Utf8.encode t) = ofText t := by
  rw [ofBytes, Utf8.decode_encode]

theorem normal_iff : p.Normal ↔ '\\' ∉ p.text := by
  constructor
  · exact Normal.backslash_not_mem
  · intro h
    refine ⟨h, ?_⟩
    rw [ofBytes_encode]
    exact congrArg mk (ofText_of_not_mem h)

theorem normal_ofBytes (b : Bytes) : (ofBytes b).Normal :=
  normal_iff.mpr (backslash_not_mem_ofText _)

theorem Normal.parent? (h : p.Normal) (hparent : p.parent? = some q) : q.Normal :=
  normal_iff.mpr fun hmem => h.backslash_not_mem ((parent?_initial hparent).1.subset hmem)

theorem Normal.withSuffix (h : p.Normal) (hsuffix : '\\' ∉ suffix) :
    (p.withSuffix suffix).Normal := by
  refine normal_iff.mpr fun hmem => ?_
  rcases List.mem_append.mp hmem with hmem | hmem
  · exact h.backslash_not_mem ((dropSlashes_initial p.text).subset hmem)
  · exact hsuffix hmem

theorem Normal.backslash_not_mem_suffix (h : (p.withSuffix suffix).Normal) : '\\' ∉ suffix :=
  fun hmem => h.backslash_not_mem (List.mem_append_right _ hmem)

/-! ### Operations one after another -/

/-- What is done to a path once it is made. -/
inductive Operation where
  | parent
  | suffix (t : Text)

/-- The path after an operation. A path without a parent ends there. -/
def Operation.result? : Operation → Path → Option Path
  | .parent, p => p.parent?
  | .suffix t, p => some (p.withSuffix t)

/-- The path after operations, if every parent asked for is there. -/
def after? (p : Path) : List Operation → Option Path
  | [] => some p
  | op :: ops => (op.result? p).bind (after? · ops)

theorem after?_append (p : Path) (xs ys : List Operation) :
    p.after? (xs ++ ys) = (p.after? xs).bind (after? · ys) := by
  induction xs generalizing p with
  | nil => rfl
  | cons op xs ih =>
      cases hop : op.result? p with
      | none => simp [after?, hop]
      | some q => simp [after?, hop, ih]

theorem Normal.result? {op : Operation} (h : p.Normal) (hop : op.result? p = some q)
    (hsuffix : ∀ t, op = .suffix t → '\\' ∉ t) : q.Normal := by
  cases op with
  | parent => exact h.parent? hop
  | suffix t =>
      obtain rfl := Option.some.inj hop
      exact h.withSuffix (hsuffix t rfl)

theorem Normal.after? {ops : List Operation} (h : p.Normal) (hops : p.after? ops = some q)
    (hsuffix : ∀ t, .suffix t ∈ ops → '\\' ∉ t) : q.Normal := by
  induction ops generalizing p with
  | nil =>
      obtain rfl := Option.some.inj hops
      exact h
  | cons op ops ih =>
      obtain ⟨r, hop, hops⟩ := Option.bind_eq_some_iff.mp hops
      refine ih (h.result? hop fun t ht => ?_) hops fun t ht => ?_
      · exact hsuffix t (ht ▸ List.mem_cons_self ..)
      · exact hsuffix t (List.mem_cons_of_mem _ ht)

/-- **A path stays normal as long as no backslash is appended to it.** Of the paths that operations
lead through, the last one included, all are normal exactly when no suffix among them has a
backslash. -/
theorem normal_throughout_iff {ops : List Operation} (h : (ofBytes b).after? ops = some q) :
    (∀ before rest r, ops = before ++ rest → (ofBytes b).after? before = some r → r.Normal) ↔
      ∀ t, .suffix t ∈ ops → '\\' ∉ t := by
  constructor
  · intro hnormal t ht
    obtain ⟨before, rest, rfl⟩ := List.append_of_mem ht
    rw [after?_append] at h
    obtain ⟨r, hr, -⟩ := Option.bind_eq_some_iff.mp h
    have hlast : (ofBytes b).after? (before ++ [.suffix t]) = some (r.withSuffix t) := by
      rw [after?_append, hr]
      rfl
    exact (hnormal (before ++ [.suffix t]) rest _ (by simp) hlast).backslash_not_mem_suffix
  · rintro hsuffix before rest r rfl hr
    exact (normal_ofBytes b).after? hr fun t ht => hsuffix t (List.mem_append_left _ ht)

/-- The directory of the backup of a file whose path was written with a backslash. -/
theorem normal_throughout_backupDirectory :
    (ofBytes (Utf8.encode "src\\index.ts".toList)).after?
        [.suffix ".backup".toList, .parent] = some ⟨"src".toList⟩ ∧
      (⟨"src".toList⟩ : Path).Normal := by
  have hrun : (ofBytes (Utf8.encode "src\\index.ts".toList)).after?
      [.suffix ".backup".toList, .parent] = some ⟨"src".toList⟩ := by
    rw [ofBytes_encode]
    rfl
  refine ⟨hrun, (normal_throughout_iff hrun).mpr ?_ _ [] _ (List.append_nil _).symm hrun⟩
  simp

/-- A backslash that is appended makes a path that its spelling does not make again. -/
theorem not_normal_of_backslash_suffix :
    (ofBytes (Utf8.encode "src/index.ts".toList)).after? [.suffix "\\x".toList] =
        some ⟨"src/index.ts\\x".toList⟩ ∧
      ¬ (⟨"src/index.ts\\x".toList⟩ : Path).Normal ∧
      ofBytes (Utf8.encode "src/index.ts\\x".toList) = ⟨"src/index.ts/x".toList⟩ := by
  rw [ofBytes_encode, ofBytes_encode]
  exact ⟨rfl, fun h => h.backslash_not_mem (by decide), rfl⟩

end BlockSieve.Path
