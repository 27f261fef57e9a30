import BlockSieve.Proofs.CallLine
import BlockSieve.Sieve

/-!
Where the blocks that calls make stand. A closing line needs a blank line after
it, and a blank line opens nothing: so the line after a block is always plain,
is written as it is, and keeps blocks two lines apart. Names come from between
quotation marks, and unless the closing token is empty, from inside the block.
-/

namespace BlockSieve

def Block.decision (a : AllowList) (b : Block) : Decision :=
  ⟨b.name, a.action b.name, b.startLine, b.endLine⟩

/-! ### Decisions and the segments that they are on -/

namespace Segment

variable {a : AllowList} {segments : List Segment}

/-- A decision among others is on a block among segments. -/
theorem exists_closed_of_decisions {before after : List Decision} {d : Decision}
    (h : segments.filterMap (decision? a) = before ++ d :: after) :
    ∃ front block back, segments = front ++ .closed block :: back ∧
      front.filterMap (decision? a) = before ∧ d = block.decision a := by
  obtain ⟨front, rest, rfl, rfl, hrest⟩ := List.filterMap_eq_append_iff.mp h
  obtain ⟨quiet, segment, back, rfl, hquiet, hsegment, -⟩ := List.filterMap_eq_cons_iff.mp hrest
  cases segment with
  | plain line => cases hsegment
  | closed block =>
      refine ⟨front ++ quiet, block, back, by simp, ?_, (Option.some.inj hsegment).symm⟩
      rw [List.filterMap_append, List.filterMap_eq_nil_iff.mpr hquiet, List.append_nil]
  | unclosed block => cases hsegment

theorem mem_decisions_iff {d : Decision} :
    d ∈ segments.filterMap (decision? a) ↔
      ∃ block, .closed block ∈ segments ∧ block.decision a = d := by
  rw [List.mem_filterMap]
  constructor
  · rintro ⟨segment, hmem, hsegment⟩
    cases segment with
    | plain line => cases hsegment
    | closed block => exact ⟨block, hmem, Option.some.inj hsegment⟩
    | unclosed block => cases hsegment
  · rintro ⟨block, hmem, rfl⟩
    exact ⟨.closed block, hmem, rfl⟩

/-- Segments that close take as many lines as they had, and a marker for each block filtered. -/
theorem length_sieved (hopen : ∀ block, .unclosed block ∉ segments) :
    (segments.flatMap (sieved a)).length = (segments.flatMap source).length +
      (segments.filterMap (decision? a)).countP fun d => d.action = .filter := by
  induction segments with
  | nil => rfl
  | cons segment segments ih =>
      have ih' := ih fun block hmem => hopen block (List.mem_cons_of_mem _ hmem)
      simp only [List.flatMap_cons, List.length_append, List.filterMap_cons, ih']
      cases segment with
      | plain line =>
          simp only [sieved, source, decision?]
          omega
      | closed block =>
          cases haction : a.action block.name with
          | keep => simp [sieved, source, decision?, haction]; omega
          | filter => simp [sieved, source, decision?, haction, Comment.block]; omega
      | unclosed block => exact absurd (List.mem_cons_self ..) (hopen block)

end Segment

/-- The block that an outcome reports as left open is the last segment. -/
theorem Boundary.Segmented.eq_append_of_unclosed {b : Boundary} {doc : List Line} {i : Nat}
    {segments : List Segment} (h : b.Segmented doc i segments) (a : AllowList) {u : Unclosed}
    (hu : (Outcome.ofSegments a segments).unclosed = some u) :
    ∃ front block, segments = front ++ [.unclosed block] ∧
      (∀ other, .unclosed other ∉ front) ∧
      u = ⟨block.name, block.startLine, block.lines.length⟩ := by
  obtain ⟨segment, hmem, hsegment⟩ := List.exists_of_findSome?_eq_some hu
  cases segment with
  | plain line => cases hsegment
  | closed block => cases hsegment
  | unclosed block =>
      obtain ⟨front, hsegments, hfront⟩ := h.eq_append_unclosed hmem
      exact ⟨front, block, hsegments, hfront, (Option.some.inj hsegment).symm⟩

namespace Call

open Text (blank)

variable {call : Call} {doc : List Line} {i : Nat}

/-- A closed block from index `i` on, with a blank line after it. -/
structure ClosedAt (call : Call) (doc : List Line) (i : Nat) (block : Block) (next : Line) :
    Prop where
  start : block.startLine = i + 1
  two_le_length : 2 ≤ block.lines.length
  lines : ∃ after, doc.drop i = block.lines ++ next :: after
  next_blank : blank next = true
  name_ne_nil : block.name ≠ []
  name_unquoted : ∀ c ∈ block.name, isQuote c = false
  name_inside : call.close ≠ [] → ∃ line ∈ block.lines, QuotedOn line block.name

theorem closedAt_of_segmented {block : Block} {back : List Segment}
    (h : call.boundary.Segmented doc i (.closed block :: back)) :
    ∃ next more, back = .plain next :: more ∧ call.ClosedAt doc i block next ∧
      call.boundary.Segmented doc (i + block.lines.length + 1) more := by
  cases h with
  | @closed _ name first mid last rest _ here start inside stop tail =>
      have hlast := drop_add_of_drop (drop_succ_of_drop here)
      obtain ⟨next, after, more, rfl, hblank, rfl⟩ := exists_plain_of_closes hlast stop tail
      have hname := start
      rw [opens_of_drop here] at hname
      obtain ⟨hne, hunquoted, -⟩ := exists_quotedOn_of_firstName? hname
      refine ⟨next, more, rfl,
        ⟨rfl, by simp, ⟨after, by simp [here]⟩, hblank, hne, hunquoted, ?_⟩, ?_⟩
      · intro hclose
        rw [opens_of_drop_block here (blank_eq_false_of_closes hclose hlast stop)] at start
        obtain ⟨-, -, source, hsource, hquoted⟩ := exists_quotedOn_of_firstName? start
        exact ⟨source, hsource, hquoted⟩
      · cases tail with
        | plain _ _ tail =>
            have hlength : i + (first :: (mid ++ [last])).length + 1 =
                i + 1 + mid.length + 1 + 1 := by
              simp
              omega
            rw [hlength]
            exact tail

namespace ClosedAt

variable {block : Block} {next : Line} (h : call.ClosedAt doc i block next)

include h

theorem endLine_eq : block.endLine = i + block.lines.length := by
  rw [Block.endLine, h.start]
  omega

theorem endLine_lt : block.endLine < doc.length := by
  obtain ⟨after, hdoc⟩ := h.lines
  have hlength := congrArg List.length hdoc
  simp only [List.length_drop, List.length_append, List.length_cons] at hlength
  have := h.endLine_eq
  omega

theorem getElem?_endLine : doc[block.endLine]? = some next := by
  obtain ⟨after, hdoc⟩ := h.lines
  rw [h.endLine_eq, ← List.head?_drop, drop_add_of_drop hdoc, List.head?_cons]

theorem getElem?_line {k : Nat} (hk : k < block.lines.length) :
    doc[i + k]? = some block.lines[k] := by
  obtain ⟨after, hdoc⟩ := h.lines
  rw [← List.getElem?_drop, hdoc, List.getElem?_append_left hk, List.getElem?_eq_getElem hk]

theorem within :
    1 ≤ block.startLine ∧ block.startLine < block.endLine ∧ block.endLine < doc.length := by
  have hstart := h.start
  have hend := h.endLine_eq
  have htwo := h.two_le_length
  have hlt := h.endLine_lt
  omega

theorem extract_eq : doc.extract (block.startLine - 1) block.endLine = block.lines := by
  obtain ⟨after, hdoc⟩ := h.lines
  rw [h.start, h.endLine_eq, List.extract_eq_take_drop, Nat.add_sub_cancel, hdoc,
    Nat.add_sub_cancel_left, List.take_left]

end ClosedAt

/-- Blocks after a closed one start two lines below its last one, or further down. -/
theorem endLine_add_two_le {block other : Block} {back : List Segment}
    (h : call.boundary.Segmented doc i (.closed block :: back))
    (hother : .closed other ∈ back ∨ .unclosed other ∈ back) :
    block.endLine + 2 ≤ other.startLine := by
  obtain ⟨next, more, rfl, hclosed, tail⟩ := closedAt_of_segmented h
  have hstart := tail.lt_startLine (by simpa using hother)
  have hend := hclosed.endLine_eq
  omega

theorem pairwise_decisions (a : AllowList) {segments : List Segment}
    (h : call.boundary.Segmented doc i segments) :
    (segments.filterMap (Segment.decision? a)).Pairwise fun d e => d.endLine + 2 ≤ e.startLine := by
  induction h with
  | nil _ => exact .nil
  | plain _ _ _ ih => exact ih
  | closed here start inside stop tail ih =>
      refine .cons (fun e he => ?_) ih
      obtain ⟨other, hother, rfl⟩ := Segment.mem_decisions_iff.mp he
      exact endLine_add_two_le (.closed here start inside stop tail) (.inl hother)
  | unclosed _ _ _ => exact .nil

/-- A block left open starts two lines below the last closed one, or further down. -/
theorem endLine_add_two_le_unclosed (a : AllowList) {front : List Segment} {block : Block}
    (h : call.boundary.Segmented doc i (front ++ [.unclosed block])) {d : Decision}
    (hd : d ∈ front.filterMap (Segment.decision? a)) : d.endLine + 2 ≤ block.startLine := by
  obtain ⟨other, hother, rfl⟩ := Segment.mem_decisions_iff.mp hd
  obtain ⟨above, between, rfl⟩ := List.append_of_mem hother
  rw [List.append_assoc, List.cons_append] at h
  exact endLine_add_two_le h.of_append (.inr (by simp))

theorem name_of_unclosed {front : List Segment} {block : Block}
    (h : call.boundary.Segmented doc i (front ++ [.unclosed block])) :
    block.name ≠ [] ∧ ∀ c ∈ block.name, isQuote c = false := by
  cases h.of_append with
  | unclosed here start _ =>
      rw [opens_of_drop here] at start
      obtain ⟨hne, hunquoted, -⟩ := exists_quotedOn_of_firstName? start
      exact ⟨hne, hunquoted⟩

/-- The block on which a decision was taken stands where the segments before it end. -/
theorem exists_closedAt {a : AllowList} {segments : List Segment}
    (h : call.boundary.Segmented doc 0 segments) {before after : List Decision} {d : Decision}
    (hd : segments.filterMap (Segment.decision? a) = before ++ d :: after) :
    ∃ front block next more, segments = front ++ .closed block :: .plain next :: more ∧
      front.filterMap (Segment.decision? a) = before ∧ d = block.decision a ∧
      call.ClosedAt doc (front.flatMap Segment.source).length block next := by
  obtain ⟨front, block, back, rfl, hbefore, rfl⟩ := Segment.exists_closed_of_decisions hd
  have hrest := h.of_append
  rw [Nat.zero_add] at hrest
  obtain ⟨next, more, rfl, hclosed, -⟩ := closedAt_of_segmented hrest
  exact ⟨front, block, next, more, rfl, hbefore, rfl, hclosed⟩

end Call

/-- The lines written for a block. -/
def Decision.written (doc : List Line) (d : Decision) : List Line :=
  let lines := doc.extract (d.startLine - 1) d.endLine
  match d.action with
  | .keep => lines
  | .filter => Comment.block d.name lines

theorem Call.ClosedAt.written_decision {call : Call} {doc : List Line} {i : Nat} {block : Block}
    {next : Line} (h : call.ClosedAt doc i block next) (a : AllowList) :
    (block.decision a).written doc = Segment.sieved a (.closed block) := by
  change (match a.action block.name with
    | .keep => doc.extract (block.startLine - 1) block.endLine
    | .filter => Comment.block block.name (doc.extract (block.startLine - 1) block.endLine)) = _
  rw [h.extract_eq]
  rfl

/-- Blocks lie inside the document and apart from each other, each with a blank line after it that is
written as it is. Their names are proper ones, and a closed block has its name from one of its own
lines. -/
structure Outcome.WellPlaced (call : Call) (doc : List Line) (o : Outcome) : Prop where
  within : ∀ d ∈ o.decisions,
    1 ≤ d.startLine ∧ d.startLine < d.endLine ∧ d.endLine < doc.length
  apart : o.decisions.Pairwise fun d e => d.endLine + 2 ≤ e.startLine
  tail_apart : ∀ u, o.unclosed = some u → ∀ d ∈ o.decisions, d.endLine + 2 ≤ u.startLine
  followed : ∀ before d after, o.decisions = before ++ d :: after →
    ∃ line, doc[d.endLine]? = some line ∧ Text.blank line = true ∧
      ∃ above below, o.lines = above ++ (d.written doc ++ line :: below) ∧
        (above ++ d.written doc).length =
          d.endLine + (before ++ [d]).countP fun d => d.action = .filter
  names : ∀ name, name ∈ o.decisions.map Decision.name ∨ o.unclosed.map Unclosed.name = some name →
    name ≠ [] ∧ ∀ c ∈ name, Call.isQuote c = false
  names_inside : call.close ≠ [] → ∀ d ∈ o.decisions,
    ∃ n line, d.startLine ≤ n ∧ n ≤ d.endLine ∧ doc[n - 1]? = some line ∧ Call.QuotedOn line d.name

namespace Sieve

open Call

/-- **Blocks are well placed.** Whatever the calls and the closing token are, the blocks of an outcome
lie inside the document, two lines apart at least, and the line after each is blank and is written
right after the block, further down by one line for each filtered block so far. Names are not empty
and hold no quotation mark. Where the closing token is not empty, a line of each closed block has its
name between two such marks. -/
theorem sieveLines_wellPlaced (call : Call) (a : AllowList) (policy : Policy) {doc : List Line}
    {o : Outcome} (ho : (⟨a, call.boundary, policy⟩ : Sieve).sieveLines doc = .ok o) :
    o.WellPlaced call doc := by
  have h := call.boundary.segmented_segments doc
  obtain rfl := eq_ofSegments_of_sieveLines ho
  clear ho
  dsimp only
  generalize call.boundary.segments doc = segments at h
  have hclosedAt : ∀ d ∈ segments.filterMap (Segment.decision? a),
      ∃ block next i, d = block.decision a ∧ call.ClosedAt doc i block next := by
    intro d hd
    obtain ⟨before, after, hsplit⟩ := List.append_of_mem hd
    obtain ⟨_, block, next, _, _, _, hdecision, hclosed⟩ := exists_closedAt h hsplit
    exact ⟨block, next, _, hdecision, hclosed⟩
  constructor
  case within =>
    intro d hd
    obtain ⟨block, next, i, rfl, hclosed⟩ := hclosedAt d hd
    exact hclosed.within
  case apart => exact pairwise_decisions a h
  case tail_apart =>
    intro u hu d hd
    obtain ⟨front, block, rfl, -, rfl⟩ := h.eq_append_of_unclosed a hu
    refine endLine_add_two_le_unclosed a h (d := d) ?_
    simpa [Outcome.ofSegments, Segment.decision?] using hd
  case followed =>
    intro before d after hd
    obtain ⟨front, block, next, more, rfl, rfl, rfl, hclosed⟩ := exists_closedAt h hd
    refine ⟨next, hclosed.getElem?_endLine, hclosed.next_blank, front.flatMap (Segment.sieved a),
      more.flatMap (Segment.sieved a), ?_, ?_⟩
    · rw [hclosed.written_decision a]
      simp [Outcome.ofSegments, Segment.sieved]
    · have hopen : ∀ other, .unclosed other ∉ front ++ [.closed block] := fun other hmem =>
        h.unclosed_not_mem other (by simpa using hmem)
      have hlength := Segment.length_sieved (a := a) hopen
      have hend : (front.flatMap Segment.source ++ block.lines).length =
          (block.decision a).endLine := by
        rw [List.length_append]
        exact hclosed.endLine_eq.symm
      rw [List.flatMap_append, List.flatMap_append, List.flatMap_singleton, List.flatMap_singleton,
        List.filterMap_append, Segment.source, hend] at hlength
      rw [hclosed.written_decision a, hlength]
      rfl
  case names =>
    rintro name (hname | hname)
    · obtain ⟨d, hd, rfl⟩ := List.mem_map.mp hname
      obtain ⟨block, next, i, rfl, hclosed⟩ := hclosedAt d hd
      exact ⟨hclosed.name_ne_nil, hclosed.name_unquoted⟩
    · obtain ⟨u, hu, rfl⟩ := Option.map_eq_some_iff.mp hname
      obtain ⟨front, block, rfl, -, rfl⟩ := h.eq_append_of_unclosed a hu
      exact name_of_unclosed h
  case names_inside =>
    intro hclose d hd
    obtain ⟨block, next, i, rfl, hclosed⟩ := hclosedAt d hd
    obtain ⟨line, hline, hquoted⟩ := hclosed.name_inside hclose
    obtain ⟨k, hk, rfl⟩ := List.getElem_of_mem hline
    have hstart : (block.decision a).startLine = i + 1 := hclosed.start
    have hend : (block.decision a).endLine = i + block.lines.length := hclosed.endLine_eq
    exact ⟨i + k + 1, _, by omega, by omega, hclosed.getElem?_line hk, hquoted⟩

/-- A block with its name beside the call, one with its name below it, and one left open. -/
def threeCalls : List Line :=
  ["server.tool('a',".toList, ")".toList, [], "server.tool(".toList, "'b',".toList, ")".toList,
    " ".toList, "server.tool('c'".toList]

/-- What a pass makes of them, when `a` is on the list. -/
def threeCallsOutcome : Outcome where
  lines := ["server.tool('a',".toList, ")".toList, [], "  // [FILTERED] b".toList,
    "  // server.tool(".toList, "  // 'b',".toList, "  // )".toList, " ".toList]
  decisions := [⟨['a'], .keep, 1, 2⟩, ⟨['b'], .filter, 4, 6⟩]
  summary := ⟨1, 1⟩
  unclosed := some ⟨['c'], 8, 1⟩

theorem wellPlaced_threeCalls :
    (⟨.ofList [['a']], serverTool.boundary, .drop⟩ : Sieve).sieveLines threeCalls =
        .ok threeCallsOutcome ∧
      threeCallsOutcome.WellPlaced serverTool threeCalls := by
  have ho : (⟨.ofList [['a']], serverTool.boundary, .drop⟩ : Sieve).sieveLines threeCalls =
      .ok threeCallsOutcome := by
    decide +kernel
  exact ⟨ho, sieveLines_wellPlaced _ _ _ ho⟩

end Sieve

end BlockSieve
