import BlockSieve.Segment

/-!
The segments of a document as a relation, one rule for each kind of segment.
The pass over the lines goes line by line and carries an open block along;
the rules go segment by segment, and a block is there with all its lines at
once. Both say the same, so an induction over the rules is an induction over
the segments that the pass finds.
-/

namespace BlockSieve

/-- From index `i` on, the segments of the document are `segments`. Outside a block no line opens one
but the first of the block; of the lines after it, the last closes it and no other does. -/
inductive Boundary.Segmented (b : Boundary) (doc : List Line) : Nat → List Segment → Prop
  | nil {i} (here : doc.drop i = []) : Segmented b doc i []
  | plain {i line rest segments} (here : doc.drop i = line :: rest)
      (quiet : b.opens doc i = none) (tail : Segmented b doc (i + 1) segments) :
      Segmented b doc i (.plain line :: segments)
  | closed {i name first mid last rest segments}
      (here : doc.drop i = first :: (mid ++ last :: rest))
      (start : b.opens doc i = some name)
      (inside : ∀ j < mid.length, b.closes doc (i + 1 + j) = false)
      (stop : b.closes doc (i + 1 + mid.length) = true)
      (tail : Segmented b doc (i + 1 + mid.length + 1) segments) :
      Segmented b doc i (.closed ⟨name, i + 1, first :: (mid ++ [last])⟩ :: segments)
  | unclosed {i name first mid} (here : doc.drop i = first :: mid)
      (start : b.opens doc i = some name)
      (inside : ∀ j < mid.length, b.closes doc (i + 1 + j) = false) :
      Segmented b doc i [.unclosed ⟨name, i + 1, first :: mid⟩]

/-- What stands in a document after a line. -/
theorem drop_succ_of_drop {doc rest : List Line} {i : Nat} {line : Line}
    (h : doc.drop i = line :: rest) : doc.drop (i + 1) = rest := by
  rw [← List.tail_drop, h, List.tail_cons]

/-- What stands in a document after a stretch of lines. -/
theorem drop_add_of_drop {doc lines rest : List Line} {i : Nat}
    (h : doc.drop i = lines ++ rest) : doc.drop (i + lines.length) = rest := by
  rw [← List.drop_drop, h, List.drop_left]

namespace Boundary

variable {b : Boundary} {doc : List Line}

/-- Inside a block, lines that do not close it are added to it. -/
theorem segmentsFrom_inside {i : Nat} {block : Block} {mid rest : List Line}
    (h : ∀ j < mid.length, b.closes doc (i + j) = false) :
    b.segmentsFrom doc i (some block) (mid ++ rest) =
      b.segmentsFrom doc (i + mid.length) (some { block with lines := block.lines ++ mid })
        rest := by
  induction mid generalizing i block with
  | nil => simp
  | cons line mid ih =>
      have hfirst : b.closes doc i = false := h 0 (by simp)
      have hrest : ∀ j < mid.length, b.closes doc (i + 1 + j) = false := by
        intro j hj
        have := h (j + 1) (by simpa using hj)
        rwa [show i + (j + 1) = i + 1 + j by omega] at this
      simp only [List.cons_append, segmentsFrom, hfirst, Bool.false_eq_true, if_false]
      rw [ih hrest]
      simp [Block.add, Nat.add_assoc, Nat.add_comm 1]

/-- Lines end in a block either before the first one that closes it, or nowhere. -/
theorem exists_first_closing (b : Boundary) (doc : List Line) (i : Nat) (rest : List Line) :
    (∃ mid last after, rest = mid ++ last :: after ∧
        (∀ j < mid.length, b.closes doc (i + j) = false) ∧
        b.closes doc (i + mid.length) = true) ∨
      ∀ j < rest.length, b.closes doc (i + j) = false := by
  induction rest generalizing i with
  | nil => exact .inr (by simp)
  | cons line rest ih =>
      cases hline : b.closes doc i with
      | true => exact .inl ⟨[], line, rest, rfl, by simp, hline⟩
      | false =>
          have hcons : ∀ n, (∀ j < n, b.closes doc (i + 1 + j) = false) →
              ∀ j < n + 1, b.closes doc (i + j) = false := by
            intro n h j hj
            cases j with
            | zero => exact hline
            | succ j => simpa [Nat.add_assoc, Nat.add_comm 1] using h j (by omega)
          rcases ih (i + 1) with ⟨mid, last, after, rfl, hmid, hlast⟩ | hnone
          · refine .inl ⟨line :: mid, last, after, rfl, ?_, ?_⟩
            · simpa using hcons mid.length hmid
            · simpa [Nat.add_assoc, Nat.add_comm 1] using hlast
          · exact .inr (by simpa using hcons rest.length hnone)

/-- The pass finds segments as the rules say. -/
theorem segmented_segmentsFrom (b : Boundary) (doc : List Line) (i : Nat) :
    b.Segmented doc i (b.segmentsFrom doc i none (doc.drop i)) := by
  induction hn : doc.length - i using Nat.strongRecOn generalizing i with
  | ind n ih =>
      cases hdoc : doc.drop i with
      | nil => exact .nil hdoc
      | cons line rest =>
          have hlength := congrArg List.length hdoc
          simp only [List.length_drop, List.length_cons] at hlength
          have hrest : doc.drop (i + 1) = rest := drop_succ_of_drop hdoc
          cases hopen : b.opens doc i with
          | none =>
              simp only [segmentsFrom, hopen]
              have htail := ih (doc.length - (i + 1)) (by omega) (i + 1) rfl
              rw [hrest] at htail
              exact .plain hdoc hopen htail
          | some name =>
              simp only [segmentsFrom, hopen]
              rcases exists_first_closing b doc (i + 1) rest with
                ⟨mid, last, after, rfl, hmid, hlast⟩ | hnone
              · rw [segmentsFrom_inside hmid]
                simp only [segmentsFrom, hlast, if_true]
                have htail := ih (doc.length - (i + 1 + mid.length + 1)) (by omega)
                  (i + 1 + mid.length + 1) rfl
                rw [drop_succ_of_drop (drop_add_of_drop hrest)] at htail
                exact .closed hdoc hopen hmid hlast htail
              · rw [← List.append_nil rest, segmentsFrom_inside hnone]
                simpa [segmentsFrom] using Segmented.unclosed hdoc hopen hnone

/-- The rules leave no choice: the segments are those that the pass finds. -/
theorem Segmented.eq_segmentsFrom {i : Nat} {segments : List Segment}
    (h : b.Segmented doc i segments) : segments = b.segmentsFrom doc i none (doc.drop i) := by
  induction h with
  | nil here => rw [here, segmentsFrom]
  | plain here quiet _ ih =>
      rw [here, segmentsFrom, quiet, ih, drop_succ_of_drop here]
  | closed here start inside stop _ ih =>
      simp only [here, segmentsFrom, start]
      rw [segmentsFrom_inside inside]
      simp only [segmentsFrom, stop, if_true]
      rw [ih, drop_succ_of_drop (drop_add_of_drop (drop_succ_of_drop here))]
      rfl
  | @unclosed i name first mid here start inside =>
      simp only [here, segmentsFrom, start]
      rw [← List.append_nil mid, segmentsFrom_inside (by simpa using inside)]
      simp [segmentsFrom]

theorem Segmented.unique {i : Nat} {segments segments' : List Segment}
    (h : b.Segmented doc i segments) (h' : b.Segmented doc i segments') : segments = segments' :=
  h.eq_segmentsFrom.trans h'.eq_segmentsFrom.symm

theorem segmented_segments (b : Boundary) (doc : List Line) :
    b.Segmented doc 0 (b.segments doc) :=
  segmented_segmentsFrom b doc 0

theorem Segmented.eq_segments {segments : List Segment} (h : b.Segmented doc 0 segments) :
    segments = b.segments doc :=
  h.eq_segmentsFrom

/-- The segments after the first ones are those from where the first ones end. -/
theorem Segmented.of_append {i : Nat} {front back : List Segment}
    (h : b.Segmented doc i (front ++ back)) :
    b.Segmented doc (i + (front.flatMap Segment.source).length) back := by
  induction front generalizing i with
  | nil => exact h
  | cons segment front ih =>
      rw [List.cons_append] at h
      rw [List.flatMap_cons, List.length_append, ← Nat.add_assoc]
      generalize hsegments : front ++ back = segments at h
      cases h with
      | plain _ _ tail => exact ih (hsegments ▸ tail)
      | @closed _ _ _ mid _ _ _ _ _ _ _ tail =>
          have hlength : ∀ name first last, (Segment.closed
              ⟨name, i + 1, first :: (mid ++ [last])⟩).source.length = 1 + mid.length + 1 := by
            intro name first last
            simp [Segment.source]
            omega
          rw [hlength, show i + (1 + mid.length + 1) = i + 1 + mid.length + 1 by omega]
          exact ih (hsegments ▸ tail)
      | unclosed here _ _ =>
          obtain ⟨rfl, rfl⟩ := List.append_eq_nil_iff.mp hsegments
          refine .nil (List.drop_eq_nil_of_le ?_)
          have := congrArg List.length here
          simp [Segment.source] at this ⊢
          omega

/-- Blocks start where the search for them does or later. -/
theorem Segmented.lt_startLine {i : Nat} {segments : List Segment} {block : Block}
    (h : b.Segmented doc i segments)
    (hblock : .closed block ∈ segments ∨ .unclosed block ∈ segments) : i < block.startLine := by
  induction h with
  | nil _ => simp at hblock
  | plain _ _ _ ih =>
      have := ih (by simpa using hblock)
      omega
  | closed _ _ _ _ _ ih =>
      simp only [List.mem_cons, Segment.closed.injEq, reduceCtorEq, false_or, or_assoc] at hblock
      rcases hblock with rfl | hblock
      · exact Nat.lt_succ_self _
      · have := ih hblock
        omega
  | unclosed _ _ _ =>
      simp only [List.mem_singleton, Segment.unclosed.injEq, reduceCtorEq, false_or] at hblock
      rw [hblock]
      exact Nat.lt_succ_self _

/-- A block left open is the last segment, and the only one to be left open. -/
theorem Segmented.eq_append_unclosed {i : Nat} {segments : List Segment} {block : Block}
    (h : b.Segmented doc i segments) (hblock : .unclosed block ∈ segments) :
    ∃ front, segments = front ++ [.unclosed block] ∧ ∀ other, .unclosed other ∉ front := by
  induction h with
  | nil _ => simp at hblock
  | plain _ _ _ ih =>
      obtain ⟨front, rfl, hfront⟩ := ih (by simpa using hblock)
      exact ⟨_ :: front, rfl, by simpa using hfront⟩
  | closed _ _ _ _ _ ih =>
      obtain ⟨front, rfl, hfront⟩ := ih (by simpa using hblock)
      exact ⟨_ :: front, rfl, by simpa using hfront⟩
  | unclosed _ _ _ =>
      rw [List.mem_singleton.mp hblock]
      exact ⟨[], rfl, by simp⟩

theorem Segmented.unclosed_not_mem {i : Nat} {front back : List Segment} {segment : Segment}
    (h : b.Segmented doc i (front ++ segment :: back)) (block : Block) :
    .unclosed block ∉ front := by
  intro hmem
  obtain ⟨front', hsegments, hfront⟩ := h.eq_append_unclosed (List.mem_append_left _ hmem)
  have hinit := congrArg List.dropLast hsegments
  rw [List.dropLast_concat, List.dropLast_append_of_ne_nil (List.cons_ne_nil _ _)] at hinit
  exact hfront block (hinit ▸ List.mem_append_left _ hmem)

/-- Lines that open nothing are plain, one by one. -/
theorem Segmented.plains {i : Nat} {lines rest : List Line} {segments : List Segment}
    (here : doc.drop i = lines ++ rest) (quiet : ∀ j < lines.length, b.opens doc (i + j) = none)
    (tail : b.Segmented doc (i + lines.length) segments) :
    b.Segmented doc i (lines.map .plain ++ segments) := by
  induction lines generalizing i with
  | nil => simpa using tail
  | cons line lines ih =>
      refine .plain here (by simpa using quiet 0 (by simp)) (ih (drop_succ_of_drop here) ?_ ?_)
      · intro j hj
        have := quiet (j + 1) (by simpa using hj)
        rwa [show i + (j + 1) = i + 1 + j by omega] at this
      · simpa [Nat.add_assoc, Nat.add_comm 1] using tail

end Boundary

end BlockSieve
