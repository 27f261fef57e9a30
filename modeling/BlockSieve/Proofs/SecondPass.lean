import BlockSieve.Proofs.CallLine
import BlockSieve.Proofs.Segmentation
import BlockSieve.Sieve

/-!
Sieving what was sieved before. A second pass reads the blocks that the first
one kept as they were read then, and nothing in the blocks that the first one
commented out, as long as no line in those has both a call and its name. Two
passes then write what one pass with the names on both lists writes.
-/

namespace BlockSieve

/-- The list of the names that are on two lists. -/
def AllowList.inter (a b : AllowList) : AllowList :=
  ⟨a.names.filter b.contains, a.ascending.filter _⟩

namespace AllowList

@[simp] theorem contains_inter (a b : AllowList) (n : Name) :
    (a.inter b).contains n = (a.contains n && b.contains n) := by
  simp [contains, inter]

@[simp] theorem inter_self (a : AllowList) : a.inter a = a := by
  obtain ⟨names, ascending⟩ := a
  simp only [inter, AllowList.mk.injEq]
  exact List.filter_eq_self.mpr fun n hn => by simpa [contains] using hn

end AllowList

/-- The decisions of a second pass on the blocks that a first one kept, where `f` of the blocks
before them were filtered: each of those left a marker line more. -/
def Decision.reread (b : AllowList) : Nat → List Decision → List Decision
  | _, [] => []
  | f, d :: decisions =>
    match d.action with
    | .keep =>
      ⟨d.name, b.action d.name, d.startLine + f, d.endLine + f⟩ :: Decision.reread b f decisions
    | .filter => Decision.reread b (f + 1) decisions

/-- The segments that a second pass finds: the blocks kept, further down by the markers before them,
and plain lines. -/
def Segment.again (a : AllowList) : Nat → List Segment → List Segment
  | _, [] => []
  | f, .plain line :: segments => .plain line :: Segment.again a f segments
  | f, .closed block :: segments =>
    match a.action block.name with
    | .keep =>
      .closed { block with startLine := block.startLine + f } :: Segment.again a f segments
    | .filter =>
      (Comment.block block.name block.lines).map .plain ++ Segment.again a (f + 1) segments
  | f, .unclosed _ :: segments => Segment.again a f segments

/-- Calls that marks and closing lines cannot be mistaken for: the callee begins with a character
that no mark has, and the closing token is not blank and has no opening parenthesis. -/
structure Call.Distinct (call : Call) : Prop where
  callee_ne_nil : call.callee ≠ []
  mark : ∀ c ∈ Comment.mark, call.callee.head? ≠ some c
  filteredMark : ∀ c ∈ Comment.filteredMark, call.callee.head? ≠ some c
  close_not_blank : Text.blank call.close = false
  close_opens_nothing : '(' ∉ call.close

namespace Call

theorem head?_ne_of_not_mem {callee mark : Text} {c : Char} (hhead : callee.head? = some c)
    (h : c ∉ mark) : ∀ d ∈ mark, callee.head? ≠ some d := by
  intro d hd hsome
  obtain rfl : c = d := Option.some.inj (hhead.symm.trans hsome)
  exact h hd

theorem serverTool_distinct : serverTool.Distinct where
  callee_ne_nil := by decide
  mark := head?_ne_of_not_mem rfl (by decide)
  filteredMark := head?_ne_of_not_mem rfl (by decide)
  close_not_blank := by decide
  close_opens_nothing := by decide

variable {call : Call} {doc : List Line}

theorem Distinct.close_ne_nil (hcall : call.Distinct) : call.close ≠ [] := by
  intro hclose
  have := hcall.close_not_blank
  rw [hclose] at this
  cases this

/-- A closing line holds no call. -/
theorem Distinct.argumentsIn_of_closes (hcall : call.Distinct) {later : List Line} {line : Line}
    {i : Nat} (hdoc : doc.drop i = line :: later) (h : call.boundary.closes doc i = true) :
    argumentsIn call.callee line = [] := by
  rw [closes_of_drop hdoc, Bool.and_eq_true, decide_eq_true_eq] at h
  refine argumentsIn_of_not_mem (c := '(') (by simp) fun hmem => ?_
  exact hcall.close_opens_nothing (h.1 ▸ Text.mem_trim hmem (by decide))

/-- The lines written after some line hand over the name that the lines read after it hand over, or
none. -/
theorem nextName?_sieved (a : AllowList) {i : Nat} {segments : List Segment}
    (h : call.boundary.Segmented doc i segments) (hopen : ∀ block, .unclosed block ∉ segments) :
    nextName? (segments.flatMap (Segment.sieved a)) = nextName? (doc.drop i) ∨
      nextName? (segments.flatMap (Segment.sieved a)) = none := by
  induction h with
  | nil _ => exact .inr rfl
  | @plain i line rest segments here _ _ ih =>
      rw [here, List.flatMap_cons, Segment.sieved, List.singleton_append]
      cases hblank : Text.blank line with
      | true =>
          rw [nextName?_of_blank _ hblank, nextName?_of_blank _ hblank, ← drop_succ_of_drop here]
          exact ih fun block hmem => hopen block (List.mem_cons_of_mem _ hmem)
      | false =>
          rw [nextName?_of_not_blank _ hblank, nextName?_of_not_blank _ hblank]
          exact .inl rfl
  | @closed i name first mid last rest segments here start _ _ _ _ =>
      rw [opens_of_drop here] at start
      have hfirst := blank_eq_false_of_firstName? start
      simp only [here, List.flatMap_cons, Segment.sieved]
      split
      · left
        rw [List.cons_append, nextName?_of_not_blank _ hfirst, nextName?_of_not_blank _ hfirst]
      · right
        rw [Comment.block, List.cons_append, nextName?_of_not_blank _ (blank_marker name),
          leadingName?_marker]
  | unclosed _ _ _ => exact absurd (List.mem_singleton.mpr rfl) (hopen _)

/-- The marker of a filtered block opens nothing. -/
theorem Distinct.quiet_marker (hcall : call.Distinct) {i : Nat} {name : Name}
    {lines out : List Line} (hname : ∀ c ∈ name, isQuote c = false)
    (hlines : ∃ line ∈ lines, Text.blank line = false)
    (hdoc : doc.drop i = Comment.block name lines ++ out) :
    call.boundary.opens doc i = none := by
  rw [Comment.block, List.cons_append] at hdoc
  rw [opens_of_drop hdoc]
  refine firstName?_eq_none (fun argument hargument => ?_) (nextName?_map_comment hlines out)
  rw [argumentsIn_marker hcall.callee_ne_nil hcall.filteredMark] at hargument
  obtain ⟨before, rfl⟩ := mem_argumentsIn hargument
  exact leadingName?_of_no_quote fun c hc => hname c (by simp [hc])

/-- A line that was commented out opens nothing, unless it holds a call and its name. -/
theorem Distinct.quiet_comment (hcall : call.Distinct) {i : Nat} {line : Line}
    {lines out : List Line} (hfree : ∀ n, ¬ call.NamedOn line n)
    (hlines : (∃ line ∈ lines, Text.blank line = false) ∨ argumentsIn call.callee line = [])
    (hdoc : doc.drop i = (line :: lines).map Comment.comment ++ out) :
    call.boundary.opens doc i = none := by
  rw [List.map_cons, List.cons_append] at hdoc
  rw [opens_of_drop hdoc, argumentsIn_comment hcall.callee_ne_nil hcall.mark]
  rcases hlines with hlines | hnone
  · exact firstName?_eq_none (fun argument => leadingName?_of_not_namedOn hfree)
      (nextName?_map_comment hlines out)
  · rw [hnone]
    rfl

/-- The marker of a filtered block and its lines before the last one are plain, as long as none of
these lines has a call and its name. -/
theorem Distinct.segmented_quiet (hcall : call.Distinct) {i : Nat} {name : Name}
    {lines rest out : List Line} {segments : List Segment}
    (hname : ∀ c ∈ name, isQuote c = false)
    (hfree : ∀ line ∈ lines, ∀ n, ¬ call.NamedOn line n)
    (hrest : ∃ line ∈ rest, Text.blank line = false)
    (hdoc : doc.drop i = Comment.block name (lines ++ rest) ++ out)
    (tail : call.boundary.Segmented doc (i + (Comment.block name lines).length) segments) :
    call.boundary.Segmented doc i ((Comment.block name lines).map .plain ++ segments) := by
  have hmarker : call.boundary.opens doc i = none := by
    obtain ⟨line, hline, hblank⟩ := hrest
    exact hcall.quiet_marker hname ⟨line, List.mem_append_right _ hline, hblank⟩ hdoc
  have hlines : ∀ k < lines.length, call.boundary.opens doc (i + 1 + k) = none := by
    intro k hk
    have hdrop : doc.drop (i + 1 + k) =
        (lines[k] :: (lines.drop (k + 1) ++ rest)).map Comment.comment ++ out := by
      rw [Comment.block, List.cons_append] at hdoc
      rw [← List.drop_drop, drop_succ_of_drop hdoc, List.drop_append_of_le_length (by simp; omega),
        ← List.map_drop, List.drop_append_of_le_length (by omega), List.drop_eq_getElem_cons hk,
        List.cons_append]
    refine hcall.quiet_comment (hfree _ (List.getElem_mem hk)) (.inl ?_) hdrop
    obtain ⟨line, hline, hblank⟩ := hrest
    exact ⟨line, List.mem_append_right _ hline, hblank⟩
  have hquiet : ∀ j < (Comment.block name lines).length, call.boundary.opens doc (i + j) = none := by
    intro j hj
    cases j with
    | zero => exact hmarker
    | succ k =>
        have hk : k < lines.length := by simpa [Comment.block] using hj
        rw [show i + (k + 1) = i + 1 + k by omega]
        exact hlines k hk
  have hdoc' : doc.drop i = Comment.block name lines ++ (rest.map Comment.comment ++ out) := by
    simpa [Comment.block] using hdoc
  exact .plains hdoc' hquiet tail

/-- All lines that a filtered block is written as are plain, if no line of it has a call and its
name. The last line has nothing after it to hide its calls, so it must not have any. -/
theorem Distinct.segmented_filtered (hcall : call.Distinct) {i : Nat} {name : Name}
    {lines out : List Line} {last : Line} {segments : List Segment}
    (hname : ∀ c ∈ name, isQuote c = false)
    (hfree : ∀ line ∈ lines ++ [last], ∀ n, ¬ call.NamedOn line n)
    (hlast : Text.blank last = false) (hargs : argumentsIn call.callee last = [])
    (hdoc : doc.drop i = Comment.block name (lines ++ [last]) ++ out)
    (tail : call.boundary.Segmented doc (i + (Comment.block name (lines ++ [last])).length)
      segments) :
    call.boundary.Segmented doc i
      ((Comment.block name (lines ++ [last])).map .plain ++ segments) := by
  have hsplit : Comment.block name (lines ++ [last]) =
      Comment.block name lines ++ [Comment.comment last] := by simp [Comment.block]
  have hend : doc.drop (i + (Comment.block name lines).length) =
      [last].map Comment.comment ++ out :=
    drop_add_of_drop (by rw [hdoc, hsplit, List.append_assoc]; rfl)
  rw [hsplit, List.length_append, List.length_singleton, ← Nat.add_assoc] at tail
  have hquiet := hcall.quiet_comment (hfree last (by simp)) (.inr hargs) hend
  have hblock := hcall.segmented_quiet hname
    (fun line hline => hfree line (List.mem_append_left _ hline))
    ⟨last, List.mem_singleton.mpr rfl, hlast⟩ hdoc (.plain hend hquiet tail)
  rw [hsplit, List.map_append, List.append_assoc]
  exact hblock

/-- What a second pass finds in the lines that the first one wrote for some of the segments, if it
finds the given segments after them. -/
theorem Distinct.segmented_again_append (hcall : call.Distinct) (a : AllowList) {doc' : List Line}
    {i f : Nat} {front back tail : List Segment}
    (h : call.boundary.Segmented doc i (front ++ back))
    (hdoc' : doc'.drop (i + f) = (front ++ back).flatMap (Segment.sieved a))
    (hopen : ∀ block, .unclosed block ∉ front ++ back)
    (hfree : ∀ block, .closed block ∈ front → a.contains block.name = false →
      ∀ line ∈ block.lines, ∀ n, ¬ call.NamedOn line n)
    (htail : call.boundary.Segmented doc'
      (i + f + (front.flatMap (Segment.sieved a)).length) tail) :
    call.boundary.Segmented doc' (i + f) (Segment.again a f front ++ tail) := by
  induction front generalizing i f with
  | nil => exact htail
  | cons segment front ih =>
      rw [List.cons_append] at h hdoc' hopen
      rw [List.flatMap_cons, List.length_append, ← Nat.add_assoc] at htail
      have hopen' : ∀ block, .unclosed block ∉ front ++ back := fun block hmem =>
        hopen block (List.mem_cons_of_mem _ hmem)
      have hfree' := fun block hmem => hfree block (List.mem_cons_of_mem _ hmem)
      generalize hsegments : front ++ back = segments at h hdoc' hopen hopen' ih
      cases h with
      | @plain _ line rest _ here quiet hsegmented =>
          have here' : doc'.drop (i + f) = line :: segments.flatMap (Segment.sieved a) := hdoc'
          refine .plain here' ?_ ?_
          · rw [opens_of_drop here] at quiet
            rw [opens_of_drop here']
            rcases nextName?_sieved a hsegmented hopen' with hnext | hnext
            · rw [firstName?_congr hnext, drop_succ_of_drop here, quiet]
            · exact firstName?_eq_none_of_nextName? hnext quiet
          · rw [Nat.add_right_comm]
            refine ih hsegmented ?_ hopen' hfree' ?_
            · rw [Nat.add_right_comm, drop_succ_of_drop here']
            · rwa [Nat.add_right_comm i]
      | @closed _ name first mid last rest _ here start inside stop hsegmented =>
          have hlast := drop_add_of_drop (drop_succ_of_drop here)
          have hblank := blank_eq_false_of_closes hcall.close_ne_nil hlast stop
          obtain ⟨next, after, more, rfl, -, rfl⟩ := exists_plain_of_closes hlast stop hsegmented
          cases haction : a.action name with
          | keep =>
              have here' : doc'.drop (i + f) =
                  first :: (mid ++ last :: (.plain next :: more).flatMap (Segment.sieved a)) := by
                simp [hdoc', Segment.sieved, haction]
              have hend : i + 1 + mid.length + 1 + f = i + f + 1 + mid.length + 1 := by omega
              have hlength : i + f + (Segment.sieved a (.closed
                  ⟨name, i + 1, first :: (mid ++ [last])⟩)).length = i + f + 1 + mid.length + 1 := by
                simp [Segment.sieved, haction]
                omega
              rw [hlength, ← hend] at htail
              have hrest := ih hsegmented (by
                rw [hend, drop_succ_of_drop (drop_add_of_drop (drop_succ_of_drop here'))])
                hopen' hfree' htail
              rw [hend] at hrest
              simp only [Segment.again, haction, List.cons_append, Nat.add_right_comm i 1 f]
              exact segmented_kept hcall.close_ne_nil here here' start inside stop rfl hrest
          | filter =>
              have here' : doc'.drop (i + f) = Comment.block name ((first :: mid) ++ [last]) ++
                  (.plain next :: more).flatMap (Segment.sieved a) := by
                simp [hdoc', Segment.sieved, haction]
              have hquote : ∀ c ∈ name, isQuote c = false := by
                rw [opens_of_drop here] at start
                exact (exists_quotedOn_of_firstName? start).2.1
              have hend : i + f + (Comment.block name ((first :: mid) ++ [last])).length =
                  i + 1 + mid.length + 1 + (f + 1) := by
                simp [Comment.block]
                omega
              have hsieved : Segment.sieved a (.closed ⟨name, i + 1, first :: (mid ++ [last])⟩) =
                  Comment.block name ((first :: mid) ++ [last]) := by
                simp [Segment.sieved, haction]
              have hrest := drop_add_of_drop here'
              rw [hend] at hrest
              rw [hsieved, hend] at htail
              have hrest' := ih hsegmented hrest hopen' hfree' htail
              rw [← hend] at hrest'
              simp only [Segment.again, haction, ← List.cons_append, List.append_assoc]
              exact hcall.segmented_filtered hquote
                (hfree _ (List.mem_cons_self ..) (by simpa [AllowList.action] using haction)) hblank
                (hcall.argumentsIn_of_closes hlast stop) here' hrest'
      | unclosed _ _ _ => exact absurd (List.mem_singleton.mpr rfl) (hopen _)

/-- What a second pass finds in the lines that the first one wrote. -/
theorem Distinct.segmented_again (hcall : call.Distinct) (a : AllowList) {doc' : List Line}
    {i f : Nat} {segments : List Segment} (h : call.boundary.Segmented doc i segments)
    (hdoc' : doc'.drop (i + f) = segments.flatMap (Segment.sieved a))
    (hopen : ∀ block, .unclosed block ∉ segments)
    (hfree : ∀ block, .closed block ∈ segments → a.contains block.name = false →
      ∀ line ∈ block.lines, ∀ n, ¬ call.NamedOn line n) :
    call.boundary.Segmented doc' (i + f) (Segment.again a f segments) := by
  have hend : doc'.drop (i + f + (segments.flatMap (Segment.sieved a)).length) = [] :=
    drop_add_of_drop (by rw [hdoc', List.append_nil])
  rw [← List.append_nil segments] at h hdoc' hopen
  simpa using hcall.segmented_again_append a h hdoc' hopen hfree (.nil hend)

/-- Lines written have no newline if the lines read have none. -/
theorem newline_not_mem_sieved (a : AllowList) (hdoc : ∀ line ∈ doc, '\n' ∉ line) {i : Nat}
    {segments : List Segment} (h : call.boundary.Segmented doc i segments) :
    ∀ line ∈ segments.flatMap (Segment.sieved a), '\n' ∉ line := by
  have hcomment : ∀ line, '\n' ∉ line → '\n' ∉ Comment.comment line := by
    intro line hline
    unfold Comment.comment
    split
    · simp
    · rw [List.mem_append, not_or]
      exact ⟨by decide, hline⟩
  induction h with
  | nil _ => simp
  | @plain i line rest segments here _ _ ih =>
      intro l hl
      rcases List.mem_cons.mp hl with rfl | hl
      · exact hdoc _ (List.mem_of_mem_drop (here ▸ List.mem_cons_self ..))
      · exact ih l hl
  | @closed i name first mid last rest segments here start _ _ _ ih =>
      have hhere : ∀ l ∈ first :: (mid ++ last :: rest), '\n' ∉ l := fun l hl =>
        hdoc l (List.mem_of_mem_drop (here ▸ hl))
      have hblock : ∀ l ∈ first :: (mid ++ [last]), '\n' ∉ l := by
        intro l hl
        simp only [List.mem_cons, List.mem_append, List.not_mem_nil, or_false] at hl
        rcases hl with rfl | hl | rfl <;> exact hhere _ (by simp [*])
      intro l hl
      rw [List.flatMap_cons, List.mem_append] at hl
      rcases hl with hl | hl
      · simp only [Segment.sieved] at hl
        split at hl
        · exact hblock l hl
        · rcases List.mem_cons.mp hl with rfl | hl
          · rw [opens_of_drop here] at start
            obtain ⟨-, -, source, hsource, hquoted⟩ := exists_quotedOn_of_firstName? start
            rw [Comment.marker, List.mem_append, not_or]
            exact ⟨by decide, fun hmem => hhere source hsource (hquoted.mem _ hmem)⟩
          · obtain ⟨line, hline, rfl⟩ := List.mem_map.mp hl
            exact hcomment line (hblock line hline)
      · exact ih l hl
  | unclosed _ _ _ => simp [Segment.sieved]

end Call

/-- Something is written for a document that has lines and no block left open. -/
theorem Boundary.Segmented.sieved_ne_nil (a : AllowList) {boundary : Boundary} {doc : List Line}
    {i : Nat} {segments : List Segment} (h : boundary.Segmented doc i segments)
    (hne : doc.drop i ≠ []) (hopen : ∀ block, .unclosed block ∉ segments) :
    segments.flatMap (Segment.sieved a) ≠ [] := by
  cases h with
  | nil here => exact absurd here hne
  | plain _ _ _ => simp [Segment.sieved]
  | closed _ _ _ _ _ =>
      simp only [List.flatMap_cons, Segment.sieved]
      split <;> simp [Comment.block]
  | unclosed _ _ _ => exact absurd (List.mem_singleton.mpr rfl) (hopen _)

/-- The blocks that a second pass finds are written as one pass with both lists writes them, and
decided on by the second list. -/
theorem Outcome.ofSegments_again {segments : List Segment}
    (hstart : ∀ block, .closed block ∈ segments → 0 < block.startLine)
    (hopen : ∀ block, .unclosed block ∉ segments) (a b : AllowList) (f : Nat) :
    Outcome.ofSegments b (Segment.again a f segments) =
      ⟨(Outcome.ofSegments (a.inter b) segments).lines,
        Decision.reread b f (Outcome.ofSegments a segments).decisions,
        .count (Decision.reread b f (Outcome.ofSegments a segments).decisions), none⟩ := by
  induction segments generalizing f with
  | nil => rfl
  | cons segment segments ih =>
      have ih' := ih (fun block hmem => hstart block (List.mem_cons_of_mem _ hmem))
        (fun block hmem => hopen block (List.mem_cons_of_mem _ hmem))
      cases segment with
      | plain line =>
          rw [Segment.again, Outcome.ofSegments_plain, Outcome.ofSegments_plain,
            Outcome.ofSegments_plain, ih']
      | closed block =>
          have hinter : (a.inter b).action block.name =
              if a.action block.name = .keep then b.action block.name else .filter := by
            by_cases ha : a.contains block.name <;> simp [AllowList.action, ha]
          rw [Outcome.ofSegments_closed, Outcome.ofSegments_closed]
          cases haction : a.action block.name with
          | keep =>
              have hend : block.startLine + f + block.lines.length - 1 =
                  block.startLine + block.lines.length - 1 + f := by
                have := hstart block (List.mem_cons_self ..)
                omega
              simp only [Segment.again, haction, Outcome.ofSegments_closed, ih', Decision.reread,
                Summary.count_cons, Segment.sieved, hinter, if_true, Block.endLine, hend]
          | filter =>
              simp only [Segment.again, haction, Outcome.ofSegments_plains, ih', Decision.reread,
                Segment.sieved, hinter]
              rfl
      | unclosed block => exact absurd (List.mem_cons_self ..) (hopen block)

theorem Boundary.Segmented.ofSegments_again {boundary : Boundary} {doc : List Line} {i : Nat}
    {segments : List Segment} (h : boundary.Segmented doc i segments)
    (hopen : ∀ block, .unclosed block ∉ segments) (a b : AllowList) (f : Nat) :
    Outcome.ofSegments b (Segment.again a f segments) =
      ⟨(Outcome.ofSegments (a.inter b) segments).lines,
        Decision.reread b f (Outcome.ofSegments a segments).decisions,
        .count (Decision.reread b f (Outcome.ofSegments a segments).decisions), none⟩ :=
  Outcome.ofSegments_again
    (fun _ hmem => Nat.lt_of_le_of_lt (Nat.zero_le i) (h.lt_startLine (.inl hmem))) hopen a b f

/-- A second pass sees the lines that the first one wrote, if that left no block open. -/
theorem Outcome.lines_content (call : Call) (a : AllowList) {t : Text}
    (hopen : ∀ block, .unclosed block ∉ call.boundary.segments (Text.lines t)) :
    Text.lines (Outcome.ofSegments a (call.boundary.segments (Text.lines t))).content =
      (Outcome.ofSegments a (call.boundary.segments (Text.lines t))).lines := by
  have hsegmented := call.boundary.segmented_segments (Text.lines t)
  exact Text.lines_ofLines (hsegmented.sieved_ne_nil a (Text.cutAt_ne_nil _ _) hopen)
    (Call.newline_not_mem_sieved a (fun _ h => Text.not_mem_of_mem_lines h) hsegmented)

namespace Sieve

/-- **Two passes are one with the names on both lists.** If the first pass leaves no block open, and
no line of a block that it filters holds a call together with its name, then the second pass leaves
none open either, writes what one pass with both lists writes, and decides on the blocks that the
first one kept, in order, each further down by the markers before it. With the same list, it changes
nothing. Without the condition on the filtered blocks it may change what it reads. -/
theorem second_pass_eq_inter :
    (∀ (a b : AllowList) (p q r : Policy) (t : Text) (o : Outcome),
      (⟨a, Call.serverTool.boundary, p⟩ : Sieve).sieveText t = .ok o →
      o.unclosed = none →
      (∀ block, .closed block ∈ Call.serverTool.boundary.segments (Text.lines t) →
        a.contains block.name = false →
        ∀ line ∈ block.lines, ∀ name, ¬ Call.serverTool.NamedOn line name) →
      ∃ again both,
        (⟨b, Call.serverTool.boundary, q⟩ : Sieve).sieveText o.content = .ok again ∧
        (⟨a.inter b, Call.serverTool.boundary, r⟩ : Sieve).sieveText t = .ok both ∧
        again.unclosed = none ∧ again.content = both.content ∧
        again.decisions = Decision.reread b 0 o.decisions ∧
        (a = b → again.content = o.content)) ∧
    ∃ (a : AllowList) (t : Text) (o again : Outcome),
      (⟨a, Call.serverTool.boundary, .drop⟩ : Sieve).sieveText t = .ok o ∧
      o.unclosed = none ∧
      (⟨a, Call.serverTool.boundary, .drop⟩ : Sieve).sieveText o.content = .ok again ∧
      again.content ≠ o.content := by
  refine ⟨?_, ?_⟩
  · intro a b p q r t o hfirst hclosed hfree
    have hsegmented := Call.serverTool.boundary.segmented_segments (Text.lines t)
    have ho := eq_ofSegments_of_sieveLines hfirst
    rw [ho] at hclosed
    have hopen := Outcome.unclosed_ofSegments_eq_none_iff.mp hclosed
    have hlines : Text.lines o.content = o.lines := by
      rw [ho]
      exact Outcome.lines_content Call.serverTool a hopen
    have hagain : Segment.again a 0 (Call.serverTool.boundary.segments (Text.lines t)) =
        Call.serverTool.boundary.segments o.lines :=
      (Call.serverTool_distinct.segmented_again a (f := 0) hsegmented
        (by rw [ho]; rfl) hopen hfree).eq_segments
    have hsecond : Outcome.ofSegments b (Call.serverTool.boundary.segments o.lines) =
        ⟨(Outcome.ofSegments (a.inter b)
            (Call.serverTool.boundary.segments (Text.lines t))).lines,
          Decision.reread b 0 o.decisions, .count (Decision.reread b 0 o.decisions), none⟩ := by
      rw [← hagain, hsegmented.ofSegments_again hopen, ho]
    refine ⟨Outcome.ofSegments b (Call.serverTool.boundary.segments o.lines),
      Outcome.ofSegments (a.inter b) (Call.serverTool.boundary.segments (Text.lines t)),
      ?_, sieveLines_of_closed hclosed, ?_, ?_, ?_, ?_⟩
    · rw [sieveText, hlines]
      exact sieveLines_of_closed (by rw [hsecond])
    · rw [hsecond]
    · rw [hsecond]
      rfl
    · rw [hsecond]
    · rintro rfl
      rw [hsecond, AllowList.inter_self, ho]
      rfl
  · refine ⟨.empty, "server.tool(\"a\",\n)\n\n".toList,
      ⟨["  // [FILTERED] a".toList, "  // server.tool(\"a\",".toList, "  // )".toList, [], []],
        [⟨['a'], .filter, 1, 2⟩], ⟨0, 1⟩, none⟩,
      ⟨["  // [FILTERED] a".toList], [], ⟨0, 0⟩, some ⟨['a'], 2, 4⟩⟩, ?_, rfl, ?_, ?_⟩
    · decide +kernel
    · decide +kernel
    · decide

/-- Two calls. The first has its name on the line after it. -/
def twoCalls : Text := "server.tool(\n\"x\",\n)\n\nserver.tool(\"y\",\n)\n\n".toList

theorem second_pass_twoCalls :
    ∃ o again both,
      (⟨.ofList ["y".toList], Call.serverTool.boundary, .drop⟩ : Sieve).sieveText twoCalls =
        .ok o ∧
      (⟨.ofList ["x".toList], Call.serverTool.boundary, .fail⟩ : Sieve).sieveText o.content =
        .ok again ∧
      (⟨(AllowList.ofList ["y".toList]).inter (.ofList ["x".toList]), Call.serverTool.boundary,
        .drop⟩ : Sieve).sieveText twoCalls = .ok both ∧
      again.content = both.content := by
  have hfirst : (⟨.ofList ["y".toList], Call.serverTool.boundary, .drop⟩ : Sieve).sieveText
      twoCalls = .ok ⟨["  // [FILTERED] x".toList, "  // server.tool(".toList,
        "  // \"x\",".toList, "  // )".toList, [], "server.tool(\"y\",".toList, ")".toList, [],
        []], [⟨"x".toList, .filter, 1, 3⟩, ⟨"y".toList, .keep, 5, 6⟩], ⟨1, 1⟩, none⟩ := by
    decide +kernel
  have hsegments : Call.serverTool.boundary.segments (Text.lines twoCalls) =
      [.closed ⟨"x".toList, 1, ["server.tool(".toList, "\"x\",".toList, ")".toList]⟩, .plain [],
        .closed ⟨"y".toList, 5, ["server.tool(\"y\",".toList, ")".toList]⟩, .plain [],
        .plain []] := by
    decide +kernel
  have hfree : ∀ block, .closed block ∈ Call.serverTool.boundary.segments (Text.lines twoCalls) →
      (AllowList.ofList ["y".toList]).contains block.name = false →
      ∀ line ∈ block.lines, ∀ name, ¬ Call.serverTool.NamedOn line name := by
    intro block hblock hfiltered line hline name hnamed
    have hlong : 15 ≤ line.length := Call.NamedOn.length_le hnamed
    rw [hsegments] at hblock
    simp only [List.mem_cons, Segment.closed.injEq, reduceCtorEq, List.not_mem_nil, or_false,
      false_or] at hblock
    rcases hblock with rfl | rfl
    · have hshort : line.length ≤ 12 := by
        simp only [List.mem_cons, List.not_mem_nil, or_false] at hline
        rcases hline with rfl | rfl | rfl <;> decide
      omega
    · exact absurd hfiltered (by decide +kernel)
  obtain ⟨again, both, hagain, hboth, -, hsame, -⟩ :=
    second_pass_eq_inter.1 (.ofList ["y".toList]) (.ofList ["x".toList]) .drop .fail .drop twoCalls
      _ hfirst rfl hfree
  exact ⟨_, again, both, hfirst, hagain, hboth, hsame⟩

end Sieve

end BlockSieve
