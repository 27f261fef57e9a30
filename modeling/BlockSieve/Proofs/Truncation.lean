import BlockSieve.Proofs.Continuation
import BlockSieve.Proofs.WellPlaced

/-!
Documents cut off before a block that stays open. Every block closed before it
has its name, its closing line and the blank line after that among the lines
before the cut, so all of them are found again, and a line that opened nothing
opens nothing when it sees less. Dropping the open block is thus the same as
never having had its lines. An empty closing token breaks this: a blank line
may close a block then, and the block may have its name from a line after it.
-/

namespace BlockSieve

namespace Call

variable {call : Call} {xs ys : List Line} {i : Nat}

/-- Lines that end before the cut stand there in the shorter document too. -/
theorem exists_drop_of_append {lines rest : List Line} (h : (xs ++ ys).drop i = lines ++ rest)
    (hend : i + lines.length ≤ xs.length) :
    ∃ later, xs.drop i = lines ++ later ∧ rest = later ++ ys := by
  rw [List.drop_append_of_le_length (by omega)] at h
  rcases List.append_eq_append_iff.mp h with ⟨between, hlines, hys⟩ | ⟨later, hxs, hrest⟩
  · -- the lines cannot reach over the cut
    have hlength := congrArg List.length hlines
    rw [List.length_append, List.length_drop] at hlength
    obtain rfl := List.length_eq_zero_iff.mp (show between.length = 0 by omega)
    exact ⟨[], by simpa using hlines.symm, by simpa using hys.symm⟩
  · exact ⟨later, hxs, hrest⟩

/-- A line that opens nothing opens nothing in the shorter document. -/
theorem opens_eq_none_of_append (h : call.boundary.opens (xs ++ ys) i = none) :
    call.boundary.opens xs i = none := by
  refine Option.eq_none_iff_forall_ne_some.mpr fun name hname => ?_
  rw [opens_append hname ys] at h
  cases h

/-- The segments before a block left open are those of the lines before it. -/
theorem segmented_of_unclosed (hclose : call.close ≠ []) {front : List Segment} {block : Block}
    (h : call.boundary.Segmented (xs ++ ys) i (front ++ [.unclosed block]))
    (hblock : block.startLine = xs.length + 1) : call.boundary.Segmented xs i front := by
  induction front generalizing i with
  | nil =>
      cases h with
      | unclosed _ _ _ =>
          obtain rfl : i = xs.length := Nat.succ.inj hblock
          exact .nil List.drop_length
  | cons segment front ih =>
      rw [List.cons_append] at h
      generalize hsegments : front ++ [.unclosed block] = segments at h ih
      have hmem : .unclosed block ∈ segments := by simp [← hsegments]
      cases h with
      | @plain _ line rest _ here quiet tail =>
          have hstart := tail.lt_startLine (.inr hmem)
          have hline : (xs ++ ys).drop i = [line] ++ rest := here
          obtain ⟨later, here', -⟩ := exists_drop_of_append hline (by simp; omega)
          exact .plain here' (opens_eq_none_of_append quiet) (ih tail)
      | @closed _ name first mid last rest _ here start inside stop tail =>
          obtain ⟨next, after, more, rfl, -, rfl⟩ :=
            exists_plain_of_closes (drop_add_of_drop (drop_succ_of_drop here)) stop tail
          -- the blank line after the block stands before the cut, as it opens nothing
          have hstart : i + 1 + mid.length + 1 + 1 ≤ xs.length := by
            cases tail with
            | plain _ _ tail =>
                have := tail.lt_startLine (.inr (by simpa using hmem))
                omega
          have hblock : (xs ++ ys).drop i = first :: (mid ++ [last, next]) ++ after := by
            simpa using here
          obtain ⟨later, hlater, -⟩ := exists_drop_of_append hblock (by simp; omega)
          have here' : xs.drop i = first :: (mid ++ last :: next :: later) := by simpa using hlater
          exact segmented_kept hclose here here' start inside stop rfl (ih tail)
      | unclosed _ _ _ => simp at hsegments

end Call

namespace Sieve

/-- **Dropping an open block is cutting the document off before it**, if the closing token is not
empty. The block left open counts all lines from its first one on, and the lines before it leave
nothing open, so they also pass where open blocks are failures. What is written for them, decided on
them and counted is what was written, decided and counted for the whole document. -/
theorem sieveLines_take_of_unclosed {call : Call} (hclose : call.close ≠ []) (a : AllowList)
    {doc : List Line} {o : Outcome} {u : Unclosed}
    (ho : (⟨a, call.boundary, .drop⟩ : Sieve).sieveLines doc = .ok o)
    (hu : o.unclosed = some u) :
    0 < u.startLine ∧ u.startLine ≤ doc.length ∧
      u.lineCount = doc.length - (u.startLine - 1) ∧
      ∀ policy, ∃ o',
        (⟨a, call.boundary, policy⟩ : Sieve).sieveLines (doc.take (u.startLine - 1)) = .ok o' ∧
        o'.unclosed = none ∧ o'.lines = o.lines ∧ o'.decisions = o.decisions ∧
        o'.summary = o.summary := by
  have hsegmented := call.boundary.segmented_segments doc
  obtain rfl := eq_ofSegments_of_sieveLines ho
  obtain ⟨front, block, hsegments, hfront, rfl⟩ := hsegmented.eq_append_of_unclosed a hu
  rw [hsegments] at hsegmented ⊢
  have htail := hsegmented.of_append
  rw [Nat.zero_add] at htail
  generalize (front.flatMap Segment.source).length = k at htail
  cases htail with
  | @unclosed _ name first mid here _ _ =>
      have hlength := congrArg List.length here
      rw [List.length_drop, List.length_cons] at hlength
      have htake : (doc.take k).length = k := List.length_take_of_le (by omega)
      have hcut : call.boundary.Segmented (doc.take k) 0 front :=
        Call.segmented_of_unclosed hclose (by rwa [List.take_append_drop])
          (congrArg Nat.succ htake.symm)
      have hclosed : (Outcome.ofSegments a front).unclosed = none :=
        Outcome.unclosed_ofSegments_eq_none_iff.mpr hfront
      have happend := Call.ofSegments_append a [.unclosed ⟨name, k + 1, first :: mid⟩] hfront
      have hstart : k + 1 ≤ doc.length := by omega
      have hcount : mid.length + 1 = doc.length - k := hlength.symm
      refine ⟨Nat.succ_pos k, hstart, hcount, fun policy => ?_⟩
      refine ⟨Outcome.ofSegments a front, ?_, hclosed, ?_, ?_, ?_⟩
      · rw [hcut.eq_segments] at hclosed ⊢
        exact sieveLines_of_closed hclosed
      · rw [happend, Outcome.ofSegments_unclosed]
        exact (List.append_nil _).symm
      · rw [happend, Outcome.ofSegments_unclosed]
        exact (List.append_nil _).symm
      · rw [happend, Outcome.ofSegments_unclosed]
        rfl

/-- A block, and after it one whose closing line is the last line of the document. -/
def lastClosing : List Line :=
  ["f(".toList, "'a'".toList, ")".toList, [], "f('b'".toList, ")".toList]

theorem sieveLines_take_lastClosing :
    (⟨['f'], [')']⟩ : Call).close ≠ [] ∧
      (⟨.empty, (⟨['f'], [')']⟩ : Call).boundary, .drop⟩ : Sieve).sieveLines lastClosing =
        .ok ⟨["  // [FILTERED] a".toList, "  // f(".toList, "  // 'a'".toList, "  // )".toList, []],
          [⟨['a'], .filter, 1, 3⟩], ⟨0, 1⟩, some ⟨['b'], 5, 2⟩⟩ ∧
      ∃ o, (⟨.empty, (⟨['f'], [')']⟩ : Call).boundary, .fail⟩ : Sieve).sieveLines
          (lastClosing.take 4) = .ok o ∧
        o.decisions = [⟨['a'], .filter, 1, 3⟩] := by
  have hclose : (⟨['f'], [')']⟩ : Call).close ≠ [] := by decide
  have hwhole : (⟨.empty, (⟨['f'], [')']⟩ : Call).boundary, .drop⟩ : Sieve).sieveLines lastClosing =
      .ok ⟨["  // [FILTERED] a".toList, "  // f(".toList, "  // 'a'".toList, "  // )".toList, []],
        [⟨['a'], .filter, 1, 3⟩], ⟨0, 1⟩, some ⟨['b'], 5, 2⟩⟩ := by
    decide +kernel
  obtain ⟨-, -, -, hcut⟩ := sieveLines_take_of_unclosed hclose .empty hwhole rfl
  obtain ⟨o, ho, -, -, hdecisions, -⟩ := hcut .fail
  exact ⟨hclose, hwhole, o, ho, hdecisions⟩

/-- With an empty closing token the block on the first two lines has its name from the line that
opens the next one. -/
example :
    (⟨.empty, (⟨['f'], []⟩ : Call).boundary, .drop⟩ : Sieve).sieveLines
        ["f(".toList, [], [], "'a' f('b'".toList] =
      .ok ⟨["  // [FILTERED] a".toList, "  // f(".toList, [], []],
        [⟨['a'], .filter, 1, 2⟩], ⟨0, 1⟩, some ⟨['b'], 4, 1⟩⟩ ∧
    (⟨.empty, (⟨['f'], []⟩ : Call).boundary, .drop⟩ : Sieve).sieveLines ["f(".toList, [], []] =
      .ok ⟨["f(".toList, [], []], [], ⟨0, 0⟩, none⟩ := by
  decide +kernel

end Sieve

end BlockSieve
