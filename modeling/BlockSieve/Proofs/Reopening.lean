import BlockSieve.Proofs.Continuation
import BlockSieve.Proofs.Restoration
import BlockSieve.Proofs.SecondPass
import BlockSieve.Proofs.StartLine
import BlockSieve.Proofs.WellPlaced
import Mathlib.Data.Nat.Find

/-!
Where a second pass goes wrong. A call that was commented out together with its
name still opens a block when the lines written are read again, and no line
that was commented out closes one. So the second pass reads what the first one
did up to the first such call, opens a block there, and this block takes in the
rest of the filtered block at least, and what follows it up to the next closing
line, if there is one.
-/

namespace BlockSieve

namespace Call

open Text (blank)

variable {call : Call} {doc : List Line} {i : Nat}

/-! ### The first call with its name -/

/-- Of the calls on a line that have their names beside them, the leftmost is named so. -/
def LeftmostNamed (call : Call) (line : Line) (name : Name) : Prop :=
  ∃ before argument, CallAt call.callee line before argument ∧ BeginsWithName argument name ∧
    ∀ b a n, CallAt call.callee line b a → BeginsWithName a n → before.length ≤ b.length

theorem NamedOn.exists_leftmost {line : Line} {name : Name} (h : call.NamedOn line name) :
    ∃ leftmost, call.LeftmostNamed line leftmost := by
  classical
  have hsome : ∃ k before argument n, before.length = k ∧ CallAt call.callee line before argument ∧
      BeginsWithName argument n := by
    obtain ⟨before, argument, hcall, hname⟩ := h
    exact ⟨_, before, argument, name, rfl, hcall, hname⟩
  obtain ⟨before, argument, n, hlength, hcall, hname⟩ := Nat.find_spec hsome
  exact ⟨n, before, argument, hcall, hname, fun b a m hcall' hname' =>
    hlength ▸ Nat.find_min' hsome ⟨b, a, m, rfl, hcall', hname'⟩⟩

/-- A call with its name beside it needs no later line. -/
theorem LeftmostNamed.firstName? (hcallee : '(' ∉ call.callee) {line : Line} {name : Name}
    (h : call.LeftmostNamed line name) (later : List Line) :
    firstName? later (argumentsIn call.callee line) = some name := by
  obtain ⟨before, argument, hcall, hname, hfirst⟩ := h
  have hstarts : call.Starts [line] 0 name := .beside rfl hcall hname hfirst
  have hopens := opens_of_starts hcallee hstarts
  rw [opens_of_drop (show [line].drop 0 = line :: [] from rfl)] at hopens
  exact firstName?_append hopens later

theorem NamedOn.not_blank {line : Line} {name : Name} (h : call.NamedOn line name) :
    blank line = false := by
  obtain ⟨before, argument, rfl, -⟩ := h
  have hparen : Text.isBlank '(' = false := by decide
  simp [blank, hparen]

/-! ### Lines that were commented out -/

/-- No line that was commented out closes a block, if the closing token has no slash. -/
theorem closes_comment (hclose : call.close ≠ []) (hslash : '/' ∉ call.close) {line : Line}
    {rest : List Line} (hdoc : doc.drop i = Comment.comment line :: rest) :
    call.boundary.closes doc i = false := by
  have htrim : Text.trim (Comment.comment line) ≠ call.close := by
    intro htrim
    unfold Comment.comment at htrim
    split at htrim
    · exact hclose htrim.symm
    · refine hslash (htrim ▸ Text.mem_trim (List.mem_append_left _ ?_) ?_)
      · decide
      · decide
  rw [closes_of_drop hdoc, decide_eq_false htrim, Bool.false_and]

/-- A block that opens on a line that was commented out takes in the lines commented out after it. -/
theorem Distinct.reopened (hcall : call.Distinct) (hcallee : '(' ∉ call.callee)
    (hslash : '/' ∉ call.close) {line : Line} {name : Name} {post out : List Line}
    {segments : List Segment} (h : call.boundary.Segmented doc i segments)
    (hdoc : doc.drop i = (line :: post).map Comment.comment ++ out)
    (hname : call.LeftmostNamed line name) :
    (∃ lines, segments = [.unclosed ⟨name, i + 1, lines⟩]) ∨
      ∃ lines back, segments = .closed ⟨name, i + 1, lines⟩ :: back ∧
        post.length + 2 ≤ lines.length := by
  have hline : doc.drop i = Comment.comment line :: (post.map Comment.comment ++ out) := hdoc
  have hopens : call.boundary.opens doc i = some name := by
    rw [opens_of_drop hline, argumentsIn_comment hcall.callee_ne_nil hcall.mark]
    exact hname.firstName? hcallee _
  have hquiet : ∀ j < post.length, call.boundary.closes doc (i + 1 + j) = false := by
    intro j hj
    have hdrop : doc.drop (i + 1 + j) =
        Comment.comment post[j] :: ((post.drop (j + 1)).map Comment.comment ++ out) := by
      rw [← List.drop_drop, drop_succ_of_drop hline, List.drop_append_of_le_length (by simp; omega),
        ← List.map_drop, List.drop_eq_getElem_cons hj, List.map_cons, List.cons_append]
    exact closes_comment hcall.close_ne_nil hslash hdrop
  cases h with
  | nil here => simp [hline] at here
  | plain _ quiet _ => simp [hopens] at quiet
  | @closed _ name' first mid last rest back _ start _ stop _ =>
      obtain rfl := Option.some.inj (hopens.symm.trans start)
      refine .inr ⟨_, back, rfl, ?_⟩
      have hmid : post.length ≤ mid.length := by
        refine Nat.le_of_not_lt fun hlt => ?_
        rw [hquiet _ hlt] at stop
        cases stop
      simp
      omega
  | @unclosed _ name' first mid _ start _ =>
      obtain rfl := Option.some.inj (hopens.symm.trans start)
      exact .inl ⟨_, rfl⟩

/-- Line `n`, counted from one, was commented out and holds a call together with its name. -/
def NamedInside (call : Call) (doc : List Line) (decisions : List Decision) (n : Nat) : Prop :=
  Decision.Covers decisions n ∧ ∃ line name, doc[n - 1]? = some line ∧ call.NamedOn line name

theorem ClosedAt.namedInside {block : Block} {next : Line} (h : call.ClosedAt doc i block next)
    {a : AllowList} {decisions : List Decision} (hmem : block.decision a ∈ decisions)
    (hfilter : a.action block.name = .filter) {k : Nat} (hk : k < block.lines.length) {name : Name}
    (hnamed : call.NamedOn block.lines[k] name) : call.NamedInside doc decisions (i + k + 1) := by
  refine ⟨⟨block.decision a, hmem, hfilter, ?_, ?_⟩, _, name, h.getElem?_line hk, hnamed⟩
  · change block.startLine ≤ _
    rw [h.start]
    omega
  · change _ ≤ block.endLine
    rw [h.endLine_eq]
    omega

end Call

namespace Sieve

open Call

variable {call : Call} {doc : List Line} {a : AllowList}

/-- The line `n` is the first that was commented out with a call and its name on it, and `d` is the
decision on its block, which `before` precede. -/
structure FirstNamedInside (call : Call) (doc : List Line) (decisions : List Decision) (n : Nat)
    (line : Line) (before : List Decision) (d : Decision) : Prop where
  at_line : doc[n - 1]? = some line
  named : ∃ name, call.NamedOn line name
  first : ∀ m < n, ¬ call.NamedInside doc decisions m
  block : ∃ after, decisions = before ++ d :: after
  filtered : d.action = .filter
  inside : d.startLine ≤ n ∧ n ≤ d.endLine

theorem exists_firstNamedInside {decisions : List Decision}
    (h : ∃ n, call.NamedInside doc decisions n) :
    ∃ n line before d, FirstNamedInside call doc decisions n line before d := by
  classical
  obtain ⟨⟨d, hd, hfilter, hstart, hend⟩, line, name, hline, hnamed⟩ := Nat.find_spec h
  obtain ⟨before, after, hsplit⟩ := List.append_of_mem hd
  exact ⟨Nat.find h, line, before, d, hline, ⟨name, hnamed⟩, fun m hm => Nat.find_min h hm,
    ⟨after, hsplit⟩, hfilter, hstart, hend⟩

/-- An outcome has the decisions `first`, and after them a block `name` from line `q` on that is left
open or ends below line `r`. -/
inductive Reopened (o : Outcome) (first : List Decision) (name : Name) (q r : Nat) : Prop
  | unclosed {lineCount} (decisions : o.decisions = first)
      (tail : o.unclosed = some ⟨name, q, lineCount⟩) : Reopened o first name q r
  | closed {action endLine more}
      (decisions : o.decisions = first ++ ⟨name, action, q, endLine⟩ :: more)
      (below : r < endLine) : Reopened o first name q r

/-- The block of the first such line: no line before in it, and none in a filtered block before it,
holds a call with its name. -/
theorem FirstNamedInside.exists_block {segments : List Segment}
    (h : call.boundary.Segmented doc 0 segments) {n : Nat} {line : Line} {before : List Decision}
    {d : Decision}
    (hfirst : FirstNamedInside call doc (segments.filterMap (Segment.decision? a)) n line before d) :
    ∃ front block next more pre post,
      segments = front ++ .closed block :: .plain next :: more ∧
      front.filterMap (Segment.decision? a) = before ∧ d = block.decision a ∧
      call.ClosedAt doc (front.flatMap Segment.source).length block next ∧
      block.lines = pre ++ line :: post ∧
      n = (front.flatMap Segment.source).length + pre.length + 1 ∧
      (∀ other, .closed other ∈ front → a.contains other.name = false →
        ∀ l ∈ other.lines, ∀ m, ¬ call.NamedOn l m) ∧
      ∀ l ∈ pre, ∀ m, ¬ call.NamedOn l m := by
  obtain ⟨after, hsplit⟩ := hfirst.block
  obtain ⟨front, block, next, more, rfl, rfl, rfl, hclosed⟩ := exists_closedAt h hsplit
  generalize hi : (front.flatMap Segment.source).length = i at hclosed
  have hstart : i + 1 ≤ n := hclosed.start ▸ hfirst.inside.1
  have hend : n ≤ i + block.lines.length := hclosed.endLine_eq ▸ hfirst.inside.2
  obtain ⟨k, rfl⟩ : ∃ k, n = i + k + 1 := ⟨n - (i + 1), by omega⟩
  have hk : k < block.lines.length := by omega
  have hline : block.lines[k] = line :=
    Option.some.inj ((hclosed.getElem?_line hk).symm.trans hfirst.at_line)
  have hsource : block.lines = block.lines.take k ++ line :: block.lines.drop (k + 1) := by
    rw [← hline, ← List.drop_eq_getElem_cons hk, List.take_append_drop]
  have hpre : (block.lines.take k).length = k := List.length_take_of_le (Nat.le_of_lt hk)
  refine ⟨front, block, next, more, block.lines.take k, block.lines.drop (k + 1), rfl, rfl, rfl,
    hi ▸ hclosed, hsource, by rw [hi, hpre], ?_, ?_⟩
  · intro other hother hfilter l hl m hnamed
    obtain ⟨above, between, hfront⟩ := List.append_of_mem hother
    obtain ⟨j, hj, rfl⟩ := List.getElem_of_mem hl
    -- the other block ends before this one starts
    rw [hfront, List.append_assoc, List.cons_append] at h
    have hlater : other.endLine + 2 ≤ block.startLine :=
      endLine_add_two_le h.of_append (.inl (by simp))
    obtain ⟨_, _, _, hclosed', _⟩ := closedAt_of_segmented h.of_append
    have hmem := List.mem_append_left (.closed block :: .plain next :: more) hother
    refine hfirst.first _ ?_ (hclosed'.namedInside (Segment.mem_decisions_iff.mpr ⟨_, hmem, rfl⟩)
      (by simp [AllowList.action, hfilter]) hj hnamed)
    have hend' := hclosed'.endLine_eq
    have hstart' := hclosed.start
    omega
  · intro l hl m hnamed
    obtain ⟨j, hj, rfl⟩ := List.getElem_of_mem hl
    rw [hpre] at hj
    rw [List.getElem_take] at hnamed
    have hmem : .closed block ∈ front ++ .closed block :: .plain next :: more := by simp
    exact hfirst.first _ (by omega) (hclosed.namedInside
      (Segment.mem_decisions_iff.mpr ⟨_, hmem, rfl⟩) hfirst.filtered (by omega) hnamed)

/-- What a second pass finds up to a call that was commented out with its name: the blocks kept
before it, and then a block that the call opens. -/
theorem segmented_reopened (hcall : call.Distinct) (hcallee : '(' ∉ call.callee)
    (hslash : '/' ∉ call.close) {doc' pre post : List Line} {front more : List Segment}
    {block : Block} {line : Line} {name : Name}
    (h : call.boundary.Segmented doc 0 (front ++ .closed block :: more))
    (hdoc' : doc' = (front ++ .closed block :: more).flatMap (Segment.sieved a))
    (hopen : ∀ other, .unclosed other ∉ front ++ .closed block :: more)
    (hfilter : a.action block.name = .filter) (hlines : block.lines = pre ++ line :: post)
    (hfront : ∀ other, .closed other ∈ front → a.contains other.name = false →
      ∀ l ∈ other.lines, ∀ m, ¬ call.NamedOn l m)
    (hpre : ∀ l ∈ pre, ∀ m, ¬ call.NamedOn l m) (hname : call.LeftmostNamed line name) :
    ∃ tail, call.boundary.Segmented doc' 0 (Segment.again a 0 front ++
        ((Comment.block block.name pre).map .plain ++ tail)) ∧
      ((∃ lines, tail = [.unclosed
          ⟨name, (front.flatMap (Segment.sieved a)).length + pre.length + 2, lines⟩]) ∨
        ∃ lines back, tail = .closed
            ⟨name, (front.flatMap (Segment.sieved a)).length + pre.length + 2, lines⟩ :: back ∧
          post.length + 2 ≤ lines.length) := by
  generalize hlength : (front.flatMap (Segment.sieved a)).length = start
  have hwritten : doc'.drop start = Comment.block block.name (pre ++ line :: post) ++
      more.flatMap (Segment.sieved a) := by
    rw [hdoc', List.flatMap_append, ← hlength, List.drop_left, List.flatMap_cons]
    simp [Segment.sieved, hfilter, hlines]
  have hcalled : doc'.drop (start + pre.length + 1) = (line :: post).map Comment.comment ++
      more.flatMap (Segment.sieved a) := by
    have hsplit : Comment.block block.name (pre ++ line :: post) =
        Comment.block block.name pre ++ (line :: post).map Comment.comment := by
      simp [Comment.block]
    rw [hsplit, List.append_assoc] at hwritten
    have hdrop := drop_add_of_drop hwritten
    rwa [show (Comment.block block.name pre).length = pre.length + 1 by simp [Comment.block],
      ← Nat.add_assoc] at hdrop
  have hunquoted : ∀ c ∈ block.name, isQuote c = false := by
    obtain ⟨_, _, _, hclosed, _⟩ := closedAt_of_segmented h.of_append
    exact hclosed.name_unquoted
  have hblank : Text.blank line = false := by
    obtain ⟨before, argument, hat, hnamed, -⟩ := hname
    exact NamedOn.not_blank ⟨before, argument, hat, hnamed⟩
  obtain ⟨tail, htail⟩ : ∃ tail, call.boundary.Segmented doc' (start + pre.length + 1) tail :=
    ⟨_, call.boundary.segmented_segmentsFrom doc' _⟩
  refine ⟨_, ?_, hcall.reopened hcallee hslash htail hcalled hname⟩
  have hbelow : start + (Comment.block block.name pre).length = start + pre.length + 1 := by
    simp [Comment.block, Nat.add_assoc]
  have hblock := hcall.segmented_quiet hunquoted hpre ⟨line, List.mem_cons_self .., hblank⟩ hwritten
    (hbelow ▸ htail)
  have hzero : doc'.drop (0 + 0) = (front ++ .closed block :: more).flatMap (Segment.sieved a) := by
    rw [Nat.zero_add, List.drop_zero, hdoc']
  exact hcall.segmented_again_append a h hzero hopen hfront
    (by rw [hlength, Nat.zero_add]; exact hblock)

/-- The outcome of such a second pass. -/
theorem reopened_ofSegments {front tail : List Segment} {lines : List Line} {name : Name} {q k : Nat}
    (hstart : ∀ block, .closed block ∈ front → 0 < block.startLine)
    (hopen : ∀ block, .unclosed block ∉ front)
    (htail : (∃ lines, tail = [.unclosed ⟨name, q, lines⟩]) ∨
      ∃ lines back, tail = .closed ⟨name, q, lines⟩ :: back ∧ k + 2 ≤ lines.length) :
    Reopened (Outcome.ofSegments a (Segment.again a 0 front ++ (lines.map .plain ++ tail)))
      (Decision.reread a 0 (front.filterMap (Segment.decision? a))) name q (q + k) := by
  have hagain := Outcome.ofSegments_again hstart hopen a a 0
  have hquiet : ∀ block, .unclosed block ∉ Segment.again a 0 front :=
    (Outcome.unclosed_ofSegments_eq_none_iff (a := a)).mp (by rw [hagain])
  rw [ofSegments_append a _ hquiet, hagain, Outcome.ofSegments_plains]
  rcases htail with ⟨lines, rfl⟩ | ⟨lines, back, rfl, hlong⟩
  · exact .unclosed (List.append_nil _) rfl
  · refine .closed rfl ?_
    change q + k < q + lines.length - 1
    omega

/-- The lines of a filtered block are written as comments, further down by its marker and by those of
the filtered blocks before it. -/
theorem getElem?_commented {front more : List Segment} {block : Block} {next : Line}
    (hopen : ∀ other, .unclosed other ∉ front)
    (hblock : call.ClosedAt doc (front.flatMap Segment.source).length block next)
    (hfilter : a.action block.name = .filter) {m : Nat} (hstart : block.startLine ≤ m)
    (hend : m ≤ block.endLine) :
    ((front ++ .closed block :: more).flatMap (Segment.sieved a))[m - 1 +
        (front.filterMap (Segment.decision? a) ++ [block.decision a]).countP
          fun d => d.action = .filter]? = doc[m - 1]?.map Comment.comment := by
  have hlength := Segment.length_sieved (a := a) hopen
  have hstart' := hblock.start
  have hend' := hblock.endLine_eq
  generalize (front.flatMap Segment.source).length = i at *
  obtain ⟨k, rfl⟩ : ∃ k, m = i + k + 1 := ⟨m - (i + 1), by omega⟩
  have hk : k < block.lines.length := by omega
  have hwritten : (front ++ .closed block :: more).flatMap (Segment.sieved a) =
      front.flatMap (Segment.sieved a) ++
        (Comment.block block.name block.lines ++ more.flatMap (Segment.sieved a)) := by
    simp [Segment.sieved, hfilter]
  have hmarker : [block.decision a].countP (fun d => d.action = .filter) = 1 := by
    simp [Block.decision, hfilter]
  have hindex : i + k + 1 - 1 + (front.filterMap (Segment.decision? a) ++ [block.decision a]).countP
      (fun d => d.action = .filter) = (front.flatMap (Segment.sieved a)).length + (k + 1) := by
    rw [List.countP_append, hmarker]
    omega
  rw [hwritten, hindex, List.getElem?_append_right (by omega), Nat.add_sub_cancel_left,
    Nat.add_sub_cancel, hblock.getElem?_line hk, Comment.block, List.cons_append,
    List.getElem?_cons_succ, List.getElem?_append_left (by simpa using hk), List.getElem?_map,
    List.getElem?_eq_getElem hk]

/-- What becomes of the first call that was commented out with its name, when the lines written are
read again. -/
theorem FirstNamedInside.reopened (hcall : call.Distinct) (hcallee : '(' ∉ call.callee)
    (hslash : '/' ∉ call.close) {segments : List Segment}
    (h : call.boundary.Segmented doc 0 segments) (hopen : ∀ block, .unclosed block ∉ segments)
    {n : Nat} {line : Line} {name : Name} {before : List Decision} {d : Decision}
    (hfirst : FirstNamedInside call doc (segments.filterMap (Segment.decision? a)) n line before d)
    (hname : call.LeftmostNamed line name) {markers : Nat}
    (hmarkers : markers = (before ++ [d]).countP fun d => d.action = .filter) :
    (∀ m, d.startLine ≤ m → m ≤ d.endLine →
      (segments.flatMap (Segment.sieved a))[m - 1 + markers]? = doc[m - 1]?.map Comment.comment) ∧
    Reopened (Outcome.ofSegments a
        (call.boundary.segments (segments.flatMap (Segment.sieved a))))
      (Decision.reread a 0 before) name (n + markers) (d.endLine + markers) := by
  obtain ⟨front, block, next, more, pre, post, rfl, rfl, rfl, hblock, hlines, hn, hfront, hpre⟩ :=
    hfirst.exists_block h
  have hopen' : ∀ other, .unclosed other ∉ front := fun other => h.unclosed_not_mem other
  have hfilter : a.action block.name = .filter := hfirst.filtered
  refine ⟨fun m hstart hend => hmarkers ▸ getElem?_commented hopen' hblock hfilter hstart hend, ?_⟩
  obtain ⟨tail, hagain, htail⟩ :=
    segmented_reopened hcall hcallee hslash h rfl hopen hfilter hlines hfront hpre hname
  rw [← hagain.eq_segments]
  have hstart : ∀ other, .closed other ∈ front → 0 < other.startLine := fun other hmem =>
    h.lt_startLine (.inl (List.mem_append_left _ hmem))
  have hlength := Segment.length_sieved (a := a) hopen'
  have hcount : markers =
      (front.filterMap (Segment.decision? a)).countP (fun d => d.action = .filter) + 1 := by
    simp [hmarkers, Block.decision, hfilter]
  have hq : n + markers = (front.flatMap (Segment.sieved a)).length + pre.length + 2 := by omega
  have hr : (block.decision a).endLine + markers = n + markers + post.length := by
    have hend : (block.decision a).endLine = _ := hblock.endLine_eq
    rw [hend, hlines, List.length_append, List.length_cons]
    omega
  rw [hr, hq]
  exact reopened_ofSegments hstart hopen' htail

/-- **A second pass reopens at the first call commented out with its name.** The name beside the
leftmost such call on that line becomes the name of a block which starts where the line was written.
No line of the filtered block closes it: it is left open or ends below them all. Before it the second
pass decides on the blocks kept, further down by the markers before each, and on nothing else. -/
theorem sieveText_reopened (a : AllowList) (policy : Policy) {t : Text} {o : Outcome}
    (ho : (⟨a, serverTool.boundary, policy⟩ : Sieve).sieveText t = .ok o)
    (hclosed : o.unclosed = none)
    (hcall : ∃ n, serverTool.NamedInside (Text.lines t) o.decisions n) :
    (∃ n line before d name,
      FirstNamedInside serverTool (Text.lines t) o.decisions n line before d ∧
        serverTool.LeftmostNamed line name) ∧
    ∀ n line before d name markers,
      FirstNamedInside serverTool (Text.lines t) o.decisions n line before d →
      serverTool.LeftmostNamed line name →
      markers = ((before ++ [d]).countP fun d => d.action = .filter) →
      (∀ m, d.startLine ≤ m → m ≤ d.endLine →
        o.lines[m - 1 + markers]? = (Text.lines t)[m - 1]?.map Comment.comment) ∧
      ∃ again, (⟨a, serverTool.boundary, .drop⟩ : Sieve).sieveText o.content = .ok again ∧
        Reopened again (Decision.reread a 0 before) name (n + markers) (d.endLine + markers) := by
  have h := serverTool.boundary.segmented_segments (Text.lines t)
  obtain rfl := eq_ofSegments_of_sieveLines ho
  have hopen := Outcome.unclosed_ofSegments_eq_none_iff.mp hclosed
  constructor
  · obtain ⟨n, line, before, d, hfirst⟩ := exists_firstNamedInside hcall
    obtain ⟨_, hnamed⟩ := hfirst.named
    obtain ⟨name, hname⟩ := hnamed.exists_leftmost
    exact ⟨n, line, before, d, name, hfirst, hname⟩
  · intro n line before d name markers hfirst hname hmarkers
    obtain ⟨hwritten, hreopened⟩ :=
      hfirst.reopened serverTool_distinct (by decide) (by decide) h hopen hname hmarkers
    refine ⟨hwritten, _, ?_, hreopened⟩
    rw [sieveText, Outcome.lines_content serverTool a hopen]
    rfl

/-- A block that is kept; one with its name below its call and another call inside; and a block that
stands behind it. -/
def callInside : Text :=
  "server.tool('k',\n)\n\nserver.tool(\n'f',\nserver.tool('g',\n)\n\nserver.tool('k',\n)\n\n".toList

/-- What the first pass makes of it, when `k` is on the list. -/
def callInsideOutcome : Outcome where
  lines := ["server.tool('k',".toList, ")".toList, [], "  // [FILTERED] f".toList,
    "  // server.tool(".toList, "  // 'f',".toList, "  // server.tool('g',".toList,
    "  // )".toList, [], "server.tool('k',".toList, ")".toList, [], []]
  decisions := [⟨['k'], .keep, 1, 2⟩, ⟨['f'], .filter, 4, 7⟩, ⟨['k'], .keep, 9, 10⟩]
  summary := ⟨2, 1⟩
  unclosed := none

theorem sieveText_reopened_callInside :
    ∃ again,
      (⟨.ofList [['k']], serverTool.boundary, .fail⟩ : Sieve).sieveText callInside =
        .ok callInsideOutcome ∧
      callInsideOutcome.unclosed = none ∧
      (∃ n, serverTool.NamedInside (Text.lines callInside) callInsideOutcome.decisions n) ∧
      (⟨.ofList [['k']], serverTool.boundary, .drop⟩ : Sieve).sieveText callInsideOutcome.content =
        .ok again ∧
      Reopened again [⟨['k'], .keep, 1, 2⟩] ['g'] 7 8 := by
  have ho : (⟨.ofList [['k']], serverTool.boundary, .fail⟩ : Sieve).sieveText callInside =
      .ok callInsideOutcome := by
    decide +kernel
  have hcall : CallAt serverTool.callee "server.tool('g',".toList [] "'g',".toList := rfl
  have hargument : BeginsWithName "'g',".toList ['g'] :=
    ⟨[], '\'', '\'', [','], rfl, rfl, rfl, rfl, by simp, by simp [isQuote]⟩
  have hnamed : serverTool.NamedOn "server.tool('g',".toList ['g'] := ⟨[], _, hcall, hargument⟩
  -- the lines of the block that come before are too short for a call and a name
  have hshort : ∀ m < 6, Decision.Covers callInsideOutcome.decisions m →
      ((Text.lines callInside)[m - 1]?).all fun line => decide (line.length < 15) := by
    decide +kernel
  have hfirst : FirstNamedInside serverTool (Text.lines callInside) callInsideOutcome.decisions 6
      "server.tool('g',".toList [⟨['k'], .keep, 1, 2⟩] ⟨['f'], .filter, 4, 7⟩ := by
    refine ⟨by decide +kernel, ⟨_, hnamed⟩, ?_, ⟨_, rfl⟩, rfl, by decide⟩
    rintro m hm ⟨hcovers, line, name, hline, hnamed'⟩
    have hlong : 15 ≤ line.length := hnamed'.length_le
    have hlt := hshort m hm hcovers
    rw [hline, Option.all_some, decide_eq_true_eq] at hlt
    omega
  have hinside : ∃ n,
      serverTool.NamedInside (Text.lines callInside) callInsideOutcome.decisions n :=
    ⟨6, by decide, _, _, hfirst.at_line, hnamed⟩
  obtain ⟨-, hreopened⟩ := sieveText_reopened _ _ ho rfl hinside
  obtain ⟨-, again, hagain, hsecond⟩ := hreopened _ _ _ _ _ _ hfirst
    ⟨[], _, hcall, hargument, fun _ _ _ _ _ => Nat.zero_le _⟩ rfl
  exact ⟨again, ho, rfl, hinside, hagain, hsecond⟩

end Sieve

end BlockSieve
