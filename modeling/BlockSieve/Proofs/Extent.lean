import BlockSieve.Proofs.Segmentation
import BlockSieve.Sieve

/-!
Blocks by where they stand. Read as a rule, and not as a pass over the lines,
the blocks of a document are found by searching: the first line from some
index on that opens a block, then the first line after it that closes one, and
again from the line after that. The sieve writes what this rule says, whatever
a boundary takes for openings and closings.
-/

namespace BlockSieve

/-- Where a closed block stands: the indices of its first and of its last line. -/
structure Extent where
  name : Name
  first : Nat
  last : Nat

/-- A block without an end: its name and the index of its first line. -/
structure OpenTail where
  name : Name
  first : Nat

namespace Boundary

/-- The line `s` is the first from `p` on to open a block, and `name` is what it opens. -/
structure FirstOpening (b : Boundary) (doc : List Line) (p s : Nat) (name : Name) : Prop where
  from_le : p ≤ s
  lt_length : s < doc.length
  opens : b.opens doc s = some name
  least : ∀ i, p ≤ i → i < s → b.opens doc i = none

/-- The line `e` is the first after `s` to close a block. -/
structure FirstClosing (b : Boundary) (doc : List Line) (s e : Nat) : Prop where
  after : s < e
  lt_length : e < doc.length
  closes : b.closes doc e = true
  least : ∀ i, s < i → i < e → b.closes doc i = false

/-- The closed blocks from index `p` on, in order, and the block left open at the end, if any. -/
inductive Extents (b : Boundary) (doc : List Line) :
    Nat → List Extent → Option OpenTail → Prop
  | quiet {p} (none_opens : ∀ i, p ≤ i → i < doc.length → b.opens doc i = none) :
      Extents b doc p [] none
  | unclosed {p s name} (start : b.FirstOpening doc p s name)
      (none_closes : ∀ e, s < e → e < doc.length → b.closes doc e = false) :
      Extents b doc p [] (some ⟨name, s⟩)
  | closed {p s e name extents tail} (start : b.FirstOpening doc p s name)
      (stop : b.FirstClosing doc s e) (rest : Extents b doc (e + 1) extents tail) :
      Extents b doc p (⟨name, s, e⟩ :: extents) tail

variable {b : Boundary} {doc : List Line}

theorem FirstOpening.unique {p s t : Nat} {name other : Name}
    (hs : b.FirstOpening doc p s name) (ht : b.FirstOpening doc p t other) :
    s = t ∧ name = other := by
  have hst : s = t := by
    rcases Nat.lt_trichotomy s t with h | h | h
    · simpa [hs.opens] using ht.least s hs.from_le h
    · exact h
    · simpa [ht.opens] using hs.least t ht.from_le h
  subst hst
  exact ⟨rfl, Option.some.inj (hs.opens.symm.trans ht.opens)⟩

theorem FirstClosing.unique {s e f : Nat} (he : b.FirstClosing doc s e)
    (hf : b.FirstClosing doc s f) : e = f := by
  rcases Nat.lt_trichotomy e f with h | h | h
  · simpa [he.closes] using hf.least e he.after h
  · exact h
  · simpa [hf.closes] using he.least f hf.after h

/-- A document has its blocks in one way only. -/
theorem Extents.unique {p : Nat} {xs ys : List Extent} {t u : Option OpenTail}
    (hx : b.Extents doc p xs t) (hy : b.Extents doc p ys u) : ys = xs ∧ u = t := by
  induction hx generalizing ys u with
  | quiet hx =>
      cases hy with
      | quiet _ => exact ⟨rfl, rfl⟩
      | unclosed start _ => simpa [start.opens] using hx _ start.from_le start.lt_length
      | closed start _ _ => simpa [start.opens] using hx _ start.from_le start.lt_length
  | unclosed start hx =>
      cases hy with
      | quiet hy => simpa [start.opens] using hy _ start.from_le start.lt_length
      | unclosed start' _ =>
          obtain ⟨rfl, rfl⟩ := start.unique start'
          exact ⟨rfl, rfl⟩
      | closed start' stop _ =>
          obtain ⟨rfl, rfl⟩ := start.unique start'
          simpa [stop.closes] using hx _ stop.after stop.lt_length
  | closed start stop _ ih =>
      cases hy with
      | quiet hy => simpa [start.opens] using hy _ start.from_le start.lt_length
      | unclosed start' hy =>
          obtain ⟨rfl, rfl⟩ := start.unique start'
          simpa [stop.closes] using hy _ stop.after stop.lt_length
      | closed start' stop' rest' =>
          obtain ⟨rfl, rfl⟩ := start.unique start'
          obtain rfl := stop.unique stop'
          obtain ⟨rfl, rfl⟩ := ih rest'
          exact ⟨rfl, rfl⟩

theorem FirstOpening.of_succ {p s : Nat} {name : Name} (h : b.FirstOpening doc (p + 1) s name)
    (quiet : b.opens doc p = none) : b.FirstOpening doc p s name where
  from_le := by have := h.from_le; omega
  lt_length := h.lt_length
  opens := h.opens
  least i hi his := by
    rcases Nat.eq_or_lt_of_le hi with rfl | hlt
    · exact quiet
    · exact h.least i hlt his

end Boundary

/-- The decision on a closed block; lines are numbered from one. -/
def Extent.decision (a : AllowList) (x : Extent) : Decision :=
  ⟨x.name, a.action x.name, x.first + 1, x.last + 1⟩

/-- The report on a block left open in a document. -/
def OpenTail.report (doc : List Line) (t : OpenTail) : Unclosed :=
  ⟨t.name, t.first + 1, doc.length - t.first⟩

/-- What is written for the lines from index `p` on: those outside the blocks as they are, those of
a block as they are or, if its name is not allowed, behind its marker and commented out, and none of
a block left open. -/
def Extent.written (a : AllowList) (doc : List Line) : Nat → List Extent → Option OpenTail → List Line
  | p, [], none => doc.drop p
  | p, [], some tail => doc.extract p tail.first
  | p, x :: extents, tail =>
    let block := doc.extract x.first (x.last + 1)
    doc.extract p x.first ++
      ((if a.contains x.name then block
        else Comment.marker x.name :: block.map Comment.comment) ++
      Extent.written a doc (x.last + 1) extents tail)

namespace Boundary

variable {b : Boundary} {doc : List Line}

/-- A line outside every block is written first. -/
theorem Extents.written_of_plain (a : AllowList) {i : Nat} {line : Line} {rest : List Line}
    {extents : List Extent} {tail : Option OpenTail} (hdoc : doc.drop i = line :: rest)
    (h : b.Extents doc (i + 1) extents tail) :
    Extent.written a doc i extents tail = line :: Extent.written a doc (i + 1) extents tail := by
  have hrest : doc.drop (i + 1) = rest := drop_succ_of_drop hdoc
  have hextract : ∀ s, i + 1 ≤ s → doc.extract i s = line :: doc.extract (i + 1) s := by
    intro s hs
    simp only [List.extract_eq_take_drop, hdoc, hrest]
    rw [show s - i = s - (i + 1) + 1 by omega, List.take_succ_cons]
  cases h with
  | quiet _ => simp [Extent.written, hdoc, hrest]
  | unclosed start _ => simp [Extent.written, hextract _ start.from_le]
  | closed start _ _ => simp [Extent.written, hextract _ start.from_le]

theorem Extents.of_succ {p : Nat} {extents : List Extent} {tail : Option OpenTail}
    (h : b.Extents doc (p + 1) extents tail) (quiet : b.opens doc p = none) :
    b.Extents doc p extents tail := by
  cases h with
  | quiet hnone =>
      refine .quiet fun i hi hlt => ?_
      rcases Nat.eq_or_lt_of_le hi with rfl | hlt'
      · exact quiet
      · exact hnone i hlt' hlt
  | unclosed start hnone => exact .unclosed (start.of_succ quiet) hnone
  | closed start stop rest => exact .closed (start.of_succ quiet) stop rest

/-- The segments and the blocks by where they stand are two accounts of one document: they have the
same lines written, the same decisions and the same open tail. -/
theorem Segmented.exists_extents (a : AllowList) {i : Nat} {segments : List Segment}
    (h : b.Segmented doc i segments) :
    ∃ extents tail, b.Extents doc i extents tail ∧
      Outcome.ofSegments a segments =
        ⟨Extent.written a doc i extents tail, extents.map (Extent.decision a),
          .count (extents.map (Extent.decision a)), tail.map (OpenTail.report doc)⟩ := by
  induction h with
  | @nil i here =>
      have hlen : doc.length ≤ i := List.drop_eq_nil_iff.mp here
      refine ⟨[], none, .quiet (by omega), ?_⟩
      simp [Outcome.ofSegments_nil, Extent.written, here, Summary.count]
  | @plain i line rest segments here quiet _ ih =>
      obtain ⟨extents, tail, hext, hout⟩ := ih
      refine ⟨extents, tail, hext.of_succ quiet, ?_⟩
      rw [Outcome.ofSegments_plain, hout, hext.written_of_plain a here]
  | @closed i name first mid last rest segments here start inside stop _ ih =>
      have hlen := congrArg List.length here
      simp only [List.length_drop, List.length_cons, List.length_append] at hlen
      have hblock : doc.extract i (i + 1 + mid.length + 1) = first :: (mid ++ [last]) := by
        rw [List.extract_eq_take_drop, here,
          show i + 1 + mid.length + 1 - i = mid.length + 1 + 1 by omega, List.take_succ_cons]
        simp [List.take_append, List.take_of_length_le]
      obtain ⟨extents, tail, hext, hout⟩ := ih
      refine ⟨⟨name, i, i + 1 + mid.length⟩ :: extents, tail, .closed
        ⟨Nat.le_refl _, by omega, start, by omega⟩ ⟨by omega, by omega, stop, ?_⟩ hext, ?_⟩
      · intro j hj hlt
        have := inside (j - (i + 1)) (by omega)
        rwa [show i + 1 + (j - (i + 1)) = j by omega] at this
      · have hend : i + 1 + (first :: (mid ++ [last])).length - 1 = i + 1 + mid.length + 1 := by
          simp
          omega
        rw [Outcome.ofSegments_closed, hout]
        simp only [Extent.written, hblock, Segment.sieved, AllowList.action, Extent.decision,
          Block.endLine, hend, List.map_cons, Summary.count_cons]
        split <;> simp_all [Comment.block]
  | @unclosed i name first mid here start inside =>
      have hlen := congrArg List.length here
      simp only [List.length_drop, List.length_cons] at hlen
      refine ⟨[], some ⟨name, i⟩, .unclosed ⟨Nat.le_refl _, by omega, start, by omega⟩ ?_, ?_⟩
      · intro e he hlt
        have := inside (e - (i + 1)) (by omega)
        rwa [show i + 1 + (e - (i + 1)) = e by omega] at this
      · rw [Outcome.ofSegments_unclosed, Outcome.ofSegments_nil]
        simp [Extent.written, OpenTail.report, hlen, Summary.count]

end Boundary

/-- **The sieve does what the rule for blocks says.** A document has its closed blocks and its open
tail in exactly one way. Unless an open tail makes the pass fail, the lines written, the decisions,
their counts and the report on the tail are those of these blocks; otherwise the failure names the
tail. -/
theorem Sieve.sieveLines_extents (s : Sieve) (doc : List Line) :
    ∃ extents tail, s.boundary.Extents doc 0 extents tail ∧
      (∀ extents' tail', s.boundary.Extents doc 0 extents' tail' →
        extents' = extents ∧ tail' = tail) ∧
      (s.policy = .drop ∨ tail = none → ∃ o, s.sieveLines doc = .ok o ∧
        o.lines = Extent.written s.allowed doc 0 extents tail ∧
        o.decisions = extents.map (Extent.decision s.allowed) ∧
        o.summary.kept = extents.countP (fun x => s.allowed.contains x.name) ∧
        o.summary.filtered = extents.countP (fun x => !s.allowed.contains x.name) ∧
        o.unclosed = tail.map (OpenTail.report doc)) ∧
      ∀ t, s.policy = .fail → tail = some t →
        s.sieveLines doc = .error (OpenTail.report doc t) := by
  obtain ⟨extents, tail, hext, hout⟩ :=
    (s.boundary.segmented_segments doc).exists_extents s.allowed
  refine ⟨extents, tail, hext, fun _ _ h => hext.unique h, ?_, ?_⟩
  · intro hpolicy
    refine ⟨Outcome.ofSegments s.allowed (s.boundary.segments doc), ?_, ?_⟩
    · unfold Sieve.sieveLines
      rcases hpolicy with hdrop | hnone
      · simp [hdrop]
      · simp [hout, hnone]
    · rw [hout]
      refine ⟨rfl, rfl, ?_, ?_, rfl⟩
      · simp [Summary.count, Extent.decision, AllowList.action, Function.comp_def]
      · simp [Summary.count, Extent.decision, AllowList.action, Function.comp_def]
  · rintro t hfail rfl
    simp [Sieve.sieveLines, hfail, hout]

/-- The rule is not tied to calls. -/
example :
    (⟨.ofList [['a']], .delimited ['<'] ['>'], .drop⟩ : Sieve).sieveLines
        ["<a".toList, ['>'], "<b".toList, ['x'], ['>'], "<c".toList] =
      .ok ⟨["<a".toList, ['>'], "  // [FILTERED] b".toList, "  // <b".toList, "  // x".toList,
        "  // >".toList], [⟨['a'], .keep, 1, 2⟩, ⟨['b'], .filter, 3, 5⟩], ⟨1, 1⟩,
        some ⟨['c'], 6, 1⟩⟩ := by
  cbv

end BlockSieve
