import BlockSieve.Proofs.CallLine
import BlockSieve.Proofs.Segmentation
import BlockSieve.Sieve

/-!
Documents that go on. Lines added at the end can close a block that was open,
and they can give a name to a call that only blank lines follow. Neither
touches a block that was closed, so decisions once taken stand. If nothing was
open and no call waited for its name, the lines added are sieved as a document
of their own.
-/

namespace BlockSieve

def Decision.shift (n : Nat) (d : Decision) : Decision :=
  { d with startLine := n + d.startLine, endLine := n + d.endLine }

def Unclosed.shift (n : Nat) (u : Unclosed) : Unclosed :=
  { u with startLine := n + u.startLine }

def Block.shift (n : Nat) (b : Block) : Block :=
  { b with startLine := n + b.startLine }

/-- The segment as it is found `n` lines further down. -/
def Segment.shift (n : Nat) : Segment → Segment
  | .plain line => .plain line
  | .closed block => .closed (block.shift n)
  | .unclosed block => .unclosed (block.shift n)

namespace Outcome

/-- The outcome of a document of `n` lines, and after it that of what follows them. -/
def followedBy (n : Nat) (o o' : Outcome) : Outcome where
  lines := o.lines ++ o'.lines
  decisions := o.decisions ++ o'.decisions.map (Decision.shift n)
  summary :=
    ⟨o.summary.kept + o'.summary.kept, o.summary.filtered + o'.summary.filtered⟩
  unclosed := o'.unclosed.map (Unclosed.shift n)

/-- The second outcome has all decisions of the first. If a block was left open in the first, it is
the next one that the second decides on or leaves open. -/
structure ContinuedBy (o o' : Outcome) : Prop where
  decisions : o.decisions <+: o'.decisions
  reopened : ∀ u, o.unclosed = some u →
    (∃ d, o.decisions ++ [d] <+: o'.decisions ∧ d.name = u.name ∧ d.startLine = u.startLine) ∨
      (o'.decisions = o.decisions ∧
        ∃ u', o'.unclosed = some u' ∧ u'.name = u.name ∧ u'.startLine = u.startLine)

theorem ContinuedBy.plain {a : AllowList} {segments segments' : List Segment} (line line' : Line)
    (h : (ofSegments a segments).ContinuedBy (ofSegments a segments')) :
    (ofSegments a (.plain line :: segments)).ContinuedBy
      (ofSegments a (.plain line' :: segments')) :=
  ⟨h.decisions, h.reopened⟩

theorem ContinuedBy.closed {a : AllowList} {segments segments' : List Segment} (block : Block)
    (h : (ofSegments a segments).ContinuedBy (ofSegments a segments')) :
    (ofSegments a (.closed block :: segments)).ContinuedBy
      (ofSegments a (.closed block :: segments')) := by
  rw [ofSegments_closed, ofSegments_closed]
  refine ⟨(List.prefix_cons_inj _).mpr h.decisions, fun u hu => ?_⟩
  rcases h.reopened u hu with ⟨d, hd, hname, hstart⟩ | ⟨hsame, hopen⟩
  · exact .inl ⟨d, (List.prefix_cons_inj _).mpr hd, hname, hstart⟩
  · exact .inr ⟨congrArg (List.cons _) hsame, hopen⟩

/-- Anything continues a document on which nothing is decided and nothing left open. -/
theorem ContinuedBy.of_plains (a : AllowList) (lines : List Line) (o : Outcome) :
    (ofSegments a (lines.map .plain)).ContinuedBy o := by
  rw [← List.append_nil (lines.map _), ofSegments_plains]
  exact ⟨List.nil_prefix, fun u hu => by cases hu⟩

/-- A block left open is decided on in the second outcome. -/
theorem ContinuedBy.of_closed {a : AllowList} {block block' : Block} {segments : List Segment}
    (hname : block'.name = block.name) (hstart : block'.startLine = block.startLine) :
    (ofSegments a [.unclosed block]).ContinuedBy (ofSegments a (.closed block' :: segments)) := by
  rw [ofSegments_unclosed, ofSegments_closed]
  refine ⟨List.nil_prefix, fun u hu => ?_⟩
  obtain rfl := Option.some.inj hu
  exact .inl ⟨⟨block'.name, a.action block'.name, block'.startLine, block'.endLine⟩,
    (List.prefix_cons_inj _).mpr List.nil_prefix, hname, hstart⟩

/-- A block left open is left open in the second outcome. -/
theorem ContinuedBy.of_unclosed {a : AllowList} {block block' : Block}
    (hname : block'.name = block.name) (hstart : block'.startLine = block.startLine) :
    (ofSegments a [.unclosed block]).ContinuedBy (ofSegments a [.unclosed block']) := by
  refine ⟨List.nil_prefix, fun u hu => ?_⟩
  obtain rfl := Option.some.inj hu
  exact .inr ⟨rfl, _, rfl, hname, hstart⟩

end Outcome

namespace Call

variable {call : Call} {xs ys : List Line} {i : Nat}

/-! ### Lines seen from a longer document -/

theorem firstName?_append {later : List Line} {arguments : List Text} {name : Name}
    (h : firstName? later arguments = some name) (ys : List Line) :
    firstName? (later ++ ys) arguments = some name := by
  induction arguments with
  | nil => cases h
  | cons argument more ih =>
      simp only [firstName?] at h ⊢
      split at h
      · exact h
      · split at h
        · next hblank =>
            obtain ⟨found, hfound, hname⟩ := Option.bind_eq_some_iff.mp h
            rw [if_pos hblank, List.find?_append, hfound]
            exact hname
        · next hblank =>
            rw [if_neg hblank]
            exact ih h

theorem drop_append_of_drop {line : Line} {later : List Line} (h : xs.drop i = line :: later)
    (ys : List Line) : (xs ++ ys).drop i = line :: (later ++ ys) := by
  have hlt : i < xs.length := by
    have := congrArg List.length h
    simp at this
    omega
  rw [List.drop_append_of_le_length (by omega), h, List.cons_append]

/-- A line that opens a block opens it whatever the document goes on with. -/
theorem opens_append {name : Name} (h : call.boundary.opens xs i = some name) (ys : List Line) :
    call.boundary.opens (xs ++ ys) i = some name := by
  cases hdrop : xs.drop i with
  | nil => simp [boundary, opens, hdrop] at h
  | cons line later =>
      rw [opens_of_drop hdrop] at h
      rw [opens_of_drop (drop_append_of_drop hdrop ys)]
      exact firstName?_append h ys

/-- A line that opens nothing opens nothing in the longer document either, unless it may hand over to
the lines that are added: only blank lines follow it, and it holds a call. -/
theorem opens_append_eq_none {line : Line} {later : List Line} (hdrop : xs.drop i = line :: later)
    (h : call.boundary.opens xs i = none)
    (hlater : (∀ l ∈ later, Text.blank l = true) → argumentsIn call.callee line = [])
    (ys : List Line) : call.boundary.opens (xs ++ ys) i = none := by
  rw [opens_of_drop hdrop] at h
  rw [opens_of_drop (drop_append_of_drop hdrop ys)]
  by_cases hblank : ∀ l ∈ later, Text.blank l = true
  · rw [hlater hblank]
    rfl
  · have hlong : ∃ l ∈ later, Text.blank l = false := by simpa using hblank
    rw [firstName?_congr (nextName?_append hlong ys []), List.append_nil, h]

/-- Blank lines that end a document are plain. -/
theorem segments_of_blank {segments : List Segment} (h : call.boundary.Segmented xs i segments)
    (hblank : ∀ l ∈ xs.drop i, Text.blank l = true) :
    segments = (xs.drop i).map .plain := by
  have hquiet : ∀ j < (xs.drop i).length, call.boundary.opens xs (i + j) = none := by
    intro j hj
    have hdrop := List.drop_eq_getElem_cons hj
    rw [List.drop_drop] at hdrop
    rw [opens_of_drop hdrop, argumentsIn_of_blank (hblank _ (List.getElem_mem hj))]
    rfl
  have hend : xs.drop (i + (xs.drop i).length) = [] := by
    rw [← List.drop_drop, List.drop_length]
  have hplains := Boundary.Segmented.plains (List.append_nil _).symm hquiet (.nil hend)
  rw [h.eq_segmentsFrom, ← hplains.eq_segmentsFrom, List.append_nil]

/-! ### Segments of a longer document -/

/-- A closed block is found again in the longer document. -/
theorem segmented_block_append {name : Name} {first last : Line} {mid rest : List Line}
    {segments : List Segment} (here : xs.drop i = first :: (mid ++ last :: rest))
    (start : call.boundary.opens xs i = some name)
    (inside : ∀ j < mid.length, call.boundary.closes xs (i + 1 + j) = false)
    (stop : call.boundary.closes xs (i + 1 + mid.length) = true)
    (tail : call.boundary.Segmented (xs ++ ys) (i + 1 + mid.length + 1) segments) :
    call.boundary.Segmented (xs ++ ys) i
      (.closed ⟨name, i + 1, first :: (mid ++ [last])⟩ :: segments) := by
  have here' := drop_append_of_drop here ys
  rw [List.append_assoc, List.cons_append] at here'
  refine segmented_block here here' (opens_append start ys) inside stop ?_ tail
  rw [closes_of_drop (drop_add_of_drop (drop_succ_of_drop here))] at stop
  cases rest with
  | nil => simp at stop
  | cons next rest => rfl

/-- What is found in a document is found again in the longer one, up to what only blank lines
follow. -/
theorem continuedBy_segments (a : AllowList) {segments segments' : List Segment}
    (h : call.boundary.Segmented xs i segments)
    (h' : call.boundary.Segmented (xs ++ ys) i segments') :
    (Outcome.ofSegments a segments).ContinuedBy (Outcome.ofSegments a segments') := by
  induction h generalizing segments' with
  | nil _ => exact .of_plains a [] _
  | @plain i line rest segments here quiet tail ih =>
      by_cases hblank : ∀ l ∈ rest, Text.blank l = true
      · -- only blank lines follow, so nothing is decided from here on in the shorter document
        have hrest : ∀ l ∈ xs.drop (i + 1), Text.blank l = true := by
          rwa [drop_succ_of_drop here]
        rw [segments_of_blank tail hrest, ← List.map_cons]
        exact .of_plains a _ _
      · have quiet' := opens_append_eq_none here quiet (fun hall => absurd hall hblank) ys
        have tail' := call.boundary.segmented_segmentsFrom (xs ++ ys) (i + 1)
        rw [h'.unique (.plain (drop_append_of_drop here ys) quiet' tail')]
        exact (ih tail').plain line line
  | @closed i name first mid last rest segments here start inside stop tail ih =>
      have tail' := call.boundary.segmented_segmentsFrom (xs ++ ys) (i + 1 + mid.length + 1)
      rw [h'.unique (segmented_block_append here start inside stop tail')]
      exact (ih tail').closed _
  | @unclosed i name first mid here start inside =>
      have start' := opens_append start ys
      cases h' with
      | nil here' => simp [drop_append_of_drop here ys] at here'
      | plain _ quiet' _ => simp [quiet'] at start'
      | @closed _ name' _ _ _ _ _ _ again _ _ _ =>
          obtain rfl : name = name' := Option.some.inj (start'.symm.trans again)
          exact .of_closed rfl rfl
      | @unclosed _ name' _ _ _ again _ =>
          obtain rfl : name = name' := Option.some.inj (start'.symm.trans again)
          exact .of_unclosed rfl rfl

/-- Both predicates look ahead only, so lines are segmented alike wherever they stand. -/
theorem segmented_shift (xs : List Line) {segments : List Segment}
    (h : call.boundary.Segmented ys i segments) :
    call.boundary.Segmented (xs ++ ys) (xs.length + i)
      (segments.map (Segment.shift xs.length)) := by
  have hdrop : ∀ j, (xs ++ ys).drop (xs.length + j) = ys.drop j := by
    intro j
    rw [← List.drop_drop, List.drop_left]
  have hopens : ∀ j, call.boundary.opens (xs ++ ys) (xs.length + j) =
      call.boundary.opens ys j := by
    intro j
    simp only [boundary, opens, hdrop]
  have hcloses : ∀ j, call.boundary.closes (xs ++ ys) (xs.length + j) =
      call.boundary.closes ys j := by
    intro j
    simp only [boundary, closes, hdrop]
  induction h with
  | nil here => exact .nil (by rw [hdrop, here])
  | plain here quiet _ ih => exact .plain (by rw [hdrop, here]) (by rw [hopens, quiet]) ih
  | @closed i name first mid last rest segments here start inside stop _ ih =>
      have hinside : ∀ j < mid.length,
          call.boundary.closes (xs ++ ys) (xs.length + i + 1 + j) = false := by
        intro j hj
        rw [show xs.length + i + 1 + j = xs.length + (i + 1 + j) by omega, hcloses]
        exact inside j hj
      have hstop : call.boundary.closes (xs ++ ys) (xs.length + i + 1 + mid.length) = true := by
        rw [show xs.length + i + 1 + mid.length = xs.length + (i + 1 + mid.length) by omega,
          hcloses, stop]
      rw [show xs.length + (i + 1 + mid.length + 1) = xs.length + i + 1 + mid.length + 1 by
        omega] at ih
      exact .closed (by rw [hdrop, here]) (by rw [hopens, start]) hinside hstop ih
  | @unclosed i name first mid here start inside =>
      refine .unclosed (by rw [hdrop, here]) (by rw [hopens, start]) fun j hj => ?_
      rw [show xs.length + i + 1 + j = xs.length + (i + 1 + j) by omega, hcloses]
      exact inside j hj

/-- The segments of a document and of the lines after it, if nothing is left open in the document
and no call in it waits for a name. -/
theorem segmented_append {segments segments' : List Segment}
    (h : call.boundary.Segmented xs i segments) (hi : i ≤ xs.length)
    (hopen : ∀ block, .unclosed block ∉ segments)
    (hlast : ∀ j line later, xs.drop j = line :: later → (∀ l ∈ later, Text.blank l = true) →
      argumentsIn call.callee line = [])
    (h' : call.boundary.Segmented ys 0 segments') :
    call.boundary.Segmented (xs ++ ys) i (segments ++ segments'.map (Segment.shift xs.length)) := by
  induction h with
  | nil here =>
      obtain rfl := Nat.le_antisymm hi (List.drop_eq_nil_iff.mp here)
      exact segmented_shift xs h'
  | @plain i line rest segments here quiet _ ih =>
      have hlt : i < xs.length := by
        have := congrArg List.length here
        simp at this
        omega
      refine .plain (drop_append_of_drop here ys) ?_
        (ih hlt fun block hmem => hopen block (List.mem_cons_of_mem _ hmem))
      exact opens_append_eq_none here quiet (hlast _ _ _ here) ys
  | @closed i name first mid last rest segments here start inside stop _ ih =>
      have hlength := congrArg List.length here
      simp only [List.length_drop, List.length_cons, List.length_append] at hlength
      exact segmented_block_append here start inside stop
        (ih (by omega) fun block hmem => hopen block (List.mem_cons_of_mem _ hmem))
  | unclosed _ _ _ => exact absurd (List.mem_singleton.mpr rfl) (hopen _)

/-! ### Outcomes of a longer document -/

/-- What is made of lines does not depend on where they stand, line numbers aside. -/
theorem ofSegments_shift (a : AllowList) (n : Nat) {segments : List Segment}
    (h : call.boundary.Segmented ys i segments) :
    Outcome.ofSegments a (segments.map (Segment.shift n)) =
      ⟨(Outcome.ofSegments a segments).lines,
        (Outcome.ofSegments a segments).decisions.map (Decision.shift n),
        (Outcome.ofSegments a segments).summary,
        (Outcome.ofSegments a segments).unclosed.map (Unclosed.shift n)⟩ := by
  induction h with
  | nil _ => rfl
  | plain _ _ _ ih => rw [List.map_cons, Segment.shift, Outcome.ofSegments_plain, ih]; rfl
  | @closed i name first mid last rest segments _ _ _ _ _ ih =>
      have hend : (Block.shift n ⟨name, i + 1, first :: (mid ++ [last])⟩).endLine =
          n + (⟨name, i + 1, first :: (mid ++ [last])⟩ : Block).endLine := by
        simp only [Block.shift, Block.endLine]
        omega
      rw [List.map_cons, Segment.shift, Outcome.ofSegments_closed, ih, hend,
        Outcome.ofSegments_closed]
      rfl
  | unclosed _ _ _ => rfl

theorem ofSegments_append (a : AllowList) {segments : List Segment} (segments' : List Segment)
    (hopen : ∀ block, .unclosed block ∉ segments) :
    Outcome.ofSegments a (segments ++ segments') =
      ⟨(Outcome.ofSegments a segments).lines ++ (Outcome.ofSegments a segments').lines,
        (Outcome.ofSegments a segments).decisions ++ (Outcome.ofSegments a segments').decisions,
        ⟨(Outcome.ofSegments a segments).summary.kept +
            (Outcome.ofSegments a segments').summary.kept,
          (Outcome.ofSegments a segments).summary.filtered +
            (Outcome.ofSegments a segments').summary.filtered⟩,
        (Outcome.ofSegments a segments').unclosed⟩ := by
  have hnone : segments.findSome? Segment.unclosed? = none :=
    (Outcome.unclosed_ofSegments_eq_none_iff (a := a)).mpr hopen
  simp only [Outcome.summary_ofSegments, ← Summary.count_append]
  rw [Outcome.eq_ofSegments]
  simp [Outcome.ofSegments, List.findSome?_append, hnone]

/-- If the last line that is not blank holds no call, no line that only blank lines follow does. -/
theorem argumentsIn_of_getLast?
    (h : ∀ line, (xs.filter (!Text.blank ·)).getLast? = some line →
      ¬ call.callee ++ ['('] <:+: line)
    (j : Nat) (line : Line) (later : List Line) (hdrop : xs.drop j = line :: later)
    (hlater : ∀ l ∈ later, Text.blank l = true) : argumentsIn call.callee line = [] := by
  by_cases hblank : Text.blank line = true
  · exact argumentsIn_of_blank hblank
  · refine argumentsIn_of_no_call (h line ?_)
    have hnone : later.filter (!Text.blank ·) = [] := by simpa using hlater
    rw [← List.take_append_drop j xs, hdrop, List.filter_append,
      List.filter_cons_of_pos (by simpa using hblank), hnone, List.getLast?_concat]

end Call

namespace Sieve

/-- **What was decided stands.** A document that goes on keeps all decisions, and a block left open
before is the next to be decided on or left open. If no block was left open and the last line that is
not blank holds no call, what follows is sieved on its own: lines, decisions and counts are those of
the document and after them those of the lines that follow, with their numbers moved on. -/
theorem sieveLines_append (call : Call) (a : AllowList) (xs ys : List Line) :
    ∃ o o' whole, (⟨a, call.boundary, .drop⟩ : Sieve).sieveLines xs = .ok o ∧
      (⟨a, call.boundary, .drop⟩ : Sieve).sieveLines ys = .ok o' ∧
      (⟨a, call.boundary, .drop⟩ : Sieve).sieveLines (xs ++ ys) = .ok whole ∧
      o.ContinuedBy whole ∧
      (o.unclosed = none →
        (∀ line, (xs.filter (!Text.blank ·)).getLast? = some line →
          ¬ call.callee ++ ['('] <:+: line) →
        whole = o.followedBy xs.length o' ∧
          whole.summary.kept = o.summary.kept + o'.summary.kept ∧
          whole.summary.filtered = o.summary.filtered + o'.summary.filtered) := by
  have hxs := call.boundary.segmented_segments xs
  have hys := call.boundary.segmented_segments ys
  have hwhole := call.boundary.segmented_segments (xs ++ ys)
  refine ⟨_, _, _, sieveLines_drop .., sieveLines_drop .., sieveLines_drop .., ?_, ?_⟩
  · exact Call.continuedBy_segments a hxs hwhole
  · intro hclosed hlast
    have hopen := Outcome.unclosed_ofSegments_eq_none_iff.mp hclosed
    have happend : Outcome.ofSegments a (call.boundary.segments (xs ++ ys)) =
        (Outcome.ofSegments a (call.boundary.segments xs)).followedBy xs.length
          (Outcome.ofSegments a (call.boundary.segments ys)) := by
      have hsegments := Call.segmented_append hxs (Nat.zero_le _) hopen
        (Call.argumentsIn_of_getLast? hlast) hys
      rw [hwhole.unique hsegments, Call.ofSegments_append a _ hopen,
        Call.ofSegments_shift a xs.length hys]
      rfl
    rw [happend]
    exact ⟨rfl, rfl, rfl⟩

end Sieve

end BlockSieve
