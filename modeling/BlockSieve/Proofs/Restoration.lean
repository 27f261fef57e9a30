import BlockSieve.Proofs.Segmentation
import BlockSieve.Sieve

/-!
Undoing a pass. The lines written and the decisions on the blocks are enough
to rebuild the document: line numbers say where each marker stands, once the
markers before it are counted, and behind every comment mark the line is as it
was read. Lost are the white space of blank lines in filtered blocks, which
were written empty, and the lines of a block left open, which are counted.
-/

namespace BlockSieve

/-- The line that was commented out. A line without the mark is empty, or was never commented. -/
def Comment.uncomment? (line : Line) : Option Line :=
  if line = [] then some [] else Text.after? Comment.mark line

namespace Decision

def lineCount (d : Decision) : Nat := d.endLine + 1 - d.startLine

/-- Rebuilds what the lines written from index `p` on were made of, where `f` blocks before them
were filtered. Fails unless every filtered block has its marker where the line numbers say, and
after it lines that are commented out. -/
def restore? (out : List Line) : Nat → Nat → List Decision → Option (List Line)
  | p, _, [] => some (out.drop p)
  | p, f, d :: decisions =>
    match d.action with
    | .keep => restore? out p f decisions
    | .filter =>
      let marker := d.startLine - 1 + f
      let next := marker + 1 + d.lineCount
      if out[marker]? = some (Comment.marker d.name) then do
        let block ← (out.extract (marker + 1) next).mapM Comment.uncomment?
        let rest ← restore? out next (f + 1) decisions
        return out.extract p marker ++ (block ++ rest)
      else none

/-- Whether the line with a number, counted from one, is in a filtered block. -/
def Covers (decisions : List Decision) (n : Nat) : Prop :=
  ∃ d ∈ decisions, d.action = .filter ∧ d.startLine ≤ n ∧ n ≤ d.endLine

instance (decisions : List Decision) (n : Nat) : Decidable (Covers decisions n) :=
  inferInstanceAs (Decidable (∃ d ∈ decisions, _))

/-- The lines, the first of which has number `n`, with those emptied that are blank and in a
filtered block. -/
def emptied (decisions : List Decision) : Nat → List Line → List Line
  | _, [] => []
  | n, line :: lines =>
    (if Text.blank line = true ∧ Covers decisions n then [] else line) ::
      emptied decisions (n + 1) lines

theorem covers_cons {d : Decision} {decisions : List Decision} {n : Nat} :
    Covers (d :: decisions) n ↔
      (d.action = .filter ∧ d.startLine ≤ n ∧ n ≤ d.endLine) ∨ Covers decisions n := by
  simp [Covers]

theorem emptied_append (decisions : List Decision) (n : Nat) (xs ys : List Line) :
    emptied decisions n (xs ++ ys) =
      emptied decisions n xs ++ emptied decisions (n + xs.length) ys := by
  induction xs generalizing n with
  | nil => rfl
  | cons x xs ih => simp [emptied, ih, Nat.add_assoc, Nat.add_comm 1]

theorem emptied_congr {decisions decisions' : List Decision} {n : Nat} {lines : List Line}
    (h : ∀ m, n ≤ m → m < n + lines.length → (Covers decisions m ↔ Covers decisions' m)) :
    emptied decisions n lines = emptied decisions' n lines := by
  induction lines generalizing n with
  | nil => rfl
  | cons line lines ih =>
      have hrest := ih (n := n + 1) fun m hm hlt => h m (by omega) (by simp; omega)
      simp only [emptied, hrest, h n (Nat.le_refl n) (by simp)]

/-- Of lines that are all in filtered blocks, or all outside them, all that are blank are emptied,
or none. -/
theorem emptied_eq_map {decisions : List Decision} {n : Nat} {lines : List Line} {c : Prop}
    [Decidable c] (h : ∀ m, n ≤ m → m < n + lines.length → (Covers decisions m ↔ c)) :
    emptied decisions n lines =
      lines.map fun line => if Text.blank line = true ∧ c then [] else line := by
  induction lines generalizing n with
  | nil => rfl
  | cons line lines ih =>
      have hrest := ih (n := n + 1) fun m hm hlt => h m (by omega) (by simp; omega)
      simp only [emptied, hrest, h n (Nat.le_refl n) (by simp), List.map_cons]

theorem emptied_of_not_covers {decisions : List Decision} {n : Nat} {lines : List Line}
    (h : ∀ m, n ≤ m → m < n + lines.length → ¬ Covers decisions m) :
    emptied decisions n lines = lines := by
  rw [emptied_eq_map (c := False) fun m hm hlt => iff_false_intro (h m hm hlt)]
  simp

/-- Without filtered blocks there is nothing to undo. -/
theorem restore?_of_keep {out : List Line} {p f : Nat} {decisions : List Decision}
    (h : ∀ d ∈ decisions, d.action = .keep) : restore? out p f decisions = some (out.drop p) := by
  induction decisions with
  | nil => rfl
  | cons d decisions ih =>
      rw [restore?, h d (List.mem_cons_self ..)]
      exact ih fun d' hd' => h d' (List.mem_cons_of_mem _ hd')

end Decision

/-- The number of lines that were not written, being those of a block left open. -/
def Outcome.dropped (o : Outcome) : Nat := (o.unclosed.map Unclosed.lineCount).getD 0

/-! ### Comments -/

theorem Comment.uncomment?_comment (line : Line) :
    uncomment? (comment line) = some (if Text.blank line = true then [] else line) := by
  unfold comment
  split
  · rfl
  · have hne : mark ++ line ≠ [] := by simp [mark]
    rw [uncomment?, if_neg hne]
    exact (Text.after?_eq_some_iff _ _ _).mpr rfl

theorem Comment.mapM_uncomment?_map_comment (lines : List Line) :
    (lines.map comment).mapM uncomment? =
      some (lines.map fun line => if Text.blank line = true then [] else line) := by
  induction lines with
  | nil => rfl
  | cons line lines ih => simp [uncomment?_comment, ih]

/-! ### Reading the decisions -/

namespace Segment

/-- What a segment is restored to. -/
def restored (a : AllowList) : Segment → List Line
  | .plain line => [line]
  | .closed block =>
    match a.action block.name with
    | .keep => block.lines
    | .filter => block.lines.map fun line => if Text.blank line = true then [] else line
  | .unclosed _ => []

end Segment

namespace Boundary.Segmented

variable {b : Boundary} {doc : List Line} {i : Nat} {segments : List Segment}

/-- The decisions on a document lead back from the lines written to what its segments are restored
to. Lines outside filtered blocks wait in `before` until the next marker is reached. -/
theorem restore?_decisions (a : AllowList) (h : b.Segmented doc i segments) {out : List Line}
    (before : List Line) {p f : Nat} (hp : p + before.length = i + f)
    (hout : out.drop p = before ++ segments.flatMap (Segment.sieved a)) :
    Decision.restore? out p f (segments.filterMap (Segment.decision? a)) =
      some (before ++ segments.flatMap (Segment.restored a)) := by
  induction h generalizing p f before with
  | nil _ => simpa [Decision.restore?] using hout
  | @plain i line rest segments _ _ _ ih =>
      have hread := ih (before ++ [line]) (p := p) (f := f) (by simp; omega)
        (by simpa [Segment.sieved] using hout)
      rw [List.append_assoc] at hread
      exact hread
  | @closed i name first mid last rest segments _ _ _ _ _ ih =>
      generalize hlines : first :: (mid ++ [last]) = lines at ih ⊢
      have hlength : lines.length = mid.length + 2 := by simp [← hlines]
      cases haction : a.action name with
      | keep =>
          have hread := ih (before ++ lines) (p := p) (f := f) (by simp; omega)
            (by simpa [Segment.sieved, haction, hlines] using hout)
          simpa [Segment.decision?, Segment.restored, haction, Decision.restore?] using hread
      | filter =>
          have hblock : out.drop p = before ++ (Comment.marker name ::
              (lines.map Comment.comment ++ segments.flatMap (Segment.sieved a))) := by
            simpa [Segment.sieved, haction, Comment.block, hlines] using hout
          have hhere := drop_add_of_drop hblock
          rw [hp] at hhere
          have hmarker : out[i + f]? = some (Comment.marker name) := by
            rw [← List.head?_drop, hhere, List.head?_cons]
          have hbody := drop_succ_of_drop hhere
          have hrest := drop_add_of_drop hbody
          rw [List.length_map] at hrest
          have hread := ih [] (p := i + f + 1 + lines.length) (f := f + 1)
            (by simp; omega) (by simpa using hrest)
          have hbefore : out.extract p (i + f) = before := by
            rw [List.extract_eq_take_drop, hblock, ← hp, Nat.add_sub_cancel_left, List.take_left]
          have hcomments : out.extract (i + f + 1) (i + f + 1 + lines.length) =
              lines.map Comment.comment := by
            rw [List.extract_eq_take_drop, hbody, Nat.add_sub_cancel_left, List.take_left']
            rw [List.length_map]
          have hcount : (⟨name, .filter, i + 1, i + 1 + lines.length - 1⟩ : Decision).lineCount =
              lines.length := by
            simp only [Decision.lineCount]
            omega
          simp only [List.filterMap_cons, Segment.decision?, haction, Block.endLine]
          simp only [Decision.restore?, Nat.add_sub_cancel, hcount, hmarker, hcomments, hbefore,
            Comment.mapM_uncomment?_map_comment, hread]
          simp [Segment.restored, haction]
  | unclosed _ _ _ =>
      change Decision.restore? out p f [] = _
      simpa [Decision.restore?, Segment.sieved, Segment.restored] using hout

/-- Decisions from some line on cover no line before it. -/
theorem not_covers (a : AllowList) (h : b.Segmented doc i segments) {n : Nat} (hn : n ≤ i) :
    ¬ Decision.Covers (segments.filterMap (Segment.decision? a)) n := by
  induction h with
  | nil _ => simp [Decision.Covers]
  | plain _ _ _ ih => exact ih (by omega)
  | closed _ _ _ _ _ ih =>
      rintro ⟨d, hd, haction, hstart, hend⟩
      rcases List.mem_cons.mp hd with rfl | hd
      · dsimp only at hstart
        omega
      · exact ih (by omega) ⟨d, hd, haction, hstart, hend⟩
  | unclosed _ _ _ => simp [Decision.Covers, Segment.decision?]

/-- The segments are restored to the lines of the document before the block left open, except that
lines of filtered blocks that are blank are empty. -/
theorem emptied_decisions (a : AllowList) (h : b.Segmented doc i segments) :
    ∃ lines tail, doc.drop i = lines ++ tail ∧
      tail.length = (Outcome.ofSegments a segments).dropped ∧
      (segments.flatMap (Segment.sieved a)).length =
        lines.length + (Outcome.ofSegments a segments).summary.filtered ∧
      segments.flatMap (Segment.restored a) =
        Decision.emptied (segments.filterMap (Segment.decision? a)) (i + 1) lines := by
  induction h with
  | nil here => exact ⟨[], [], here, rfl, rfl, rfl⟩
  | @plain i line rest segments here _ htail ih =>
      obtain ⟨lines, tail, hdoc, hdropped, hcount, hrestored⟩ := ih
      have hline : ¬ Decision.Covers (segments.filterMap (Segment.decision? a)) (i + 1) :=
        htail.not_covers a (Nat.le_refl _)
      refine ⟨line :: lines, tail, ?_, hdropped, ?_, ?_⟩
      · rw [here, List.cons_append, ← hdoc, drop_succ_of_drop here]
      · change (segments.flatMap (Segment.sieved a)).length + 1 =
          lines.length + 1 + (Outcome.ofSegments a segments).summary.filtered
        omega
      · change line :: segments.flatMap (Segment.restored a) =
          Decision.emptied (segments.filterMap (Segment.decision? a)) (i + 1) (line :: lines)
        rw [Decision.emptied, if_neg fun hboth => hline hboth.2, hrestored]
  | @closed i name first mid last rest segments here _ _ _ htail ih =>
      obtain ⟨lines, tail, hdoc, hdropped, hcount, hrestored⟩ := ih
      have hbefore := fun m (hm : m ≤ i + 1 + mid.length + 1) => htail.not_covers a hm
      rw [drop_succ_of_drop (drop_add_of_drop (drop_succ_of_drop here))] at hdoc
      generalize hlines : first :: (mid ++ [last]) = block
      have hlength : block.length = mid.length + 2 := by simp [← hlines]
      have hblock : doc.drop i = block ++ rest := by simp [here, ← hlines]
      refine ⟨block ++ lines, tail, ?_, hdropped, ?_, ?_⟩
      · rw [hblock, hdoc, List.append_assoc]
      · rw [Outcome.ofSegments_closed]
        cases haction : a.action name with
        | keep =>
            simp [Summary.add, Segment.sieved, haction, hcount]
            omega
        | filter =>
            simp [Summary.add, Segment.sieved, haction, hcount, Comment.block]
            omega
      · -- a line is in the block, where the block's decision is the only one to cover it, or after
        -- the block, where the decision does not reach
        have hinside : ∀ m, i + 1 ≤ m → m < i + 1 + block.length →
            (Decision.Covers (⟨name, a.action name, i + 1, i + 1 + block.length - 1⟩ ::
              segments.filterMap (Segment.decision? a)) m ↔ a.action name = .filter) := by
          intro m hm hlt
          rw [Decision.covers_cons, or_iff_left (hbefore m (by omega))]
          exact and_iff_left ⟨hm, by dsimp only; omega⟩
        have houtside : ∀ m, i + 1 + block.length ≤ m → m < i + 1 + block.length + lines.length →
            (Decision.Covers (⟨name, a.action name, i + 1, i + 1 + block.length - 1⟩ ::
              segments.filterMap (Segment.decision? a)) m ↔
                Decision.Covers (segments.filterMap (Segment.decision? a)) m) := by
          intro m hm _
          rw [Decision.covers_cons, or_iff_right]
          rintro ⟨-, -, hend⟩
          dsimp only at hend
          omega
        have hindex : i + 1 + mid.length + 1 + 1 = i + 1 + block.length := by omega
        rw [hindex] at hrestored
        change Segment.restored a (.closed ⟨name, i + 1, block⟩) ++
            segments.flatMap (Segment.restored a) = Decision.emptied (⟨name, a.action name, i + 1,
              i + 1 + block.length - 1⟩ :: segments.filterMap (Segment.decision? a)) (i + 1)
              (block ++ lines)
        rw [Decision.emptied_append, Decision.emptied_eq_map hinside,
          Decision.emptied_congr houtside, ← hrestored]
        cases haction : a.action name with
        | keep => simp [Segment.restored, haction]
        | filter => simp [Segment.restored, haction]
  | @unclosed i name first mid here _ _ => exact ⟨[], first :: mid, here, rfl, rfl, rfl⟩

end Boundary.Segmented

namespace Sieve

/-- What undoing a pass gives back. -/
theorem restore?_ofSegments (a : AllowList) (b : Boundary) (doc : List Line) {o : Outcome}
    (ho : o = Outcome.ofSegments a (b.segments doc)) :
    o.dropped ≤ doc.length ∧
      Decision.restore? o.lines 0 0 o.decisions =
        some (Decision.emptied o.decisions 1 (doc.take (doc.length - o.dropped))) ∧
      o.lines.length = doc.length - o.dropped + o.summary.filtered := by
  have hsegmented := b.segmented_segments doc
  obtain ⟨lines, tail, hdoc, hdropped, hcount, hrestored⟩ := hsegmented.emptied_decisions a
  rw [← ho] at hdropped hcount
  rw [List.drop_zero] at hdoc
  have hlength : doc.length = lines.length + tail.length := by rw [hdoc, List.length_append]
  have htake : doc.take (doc.length - o.dropped) = lines := by
    rw [hlength, hdropped, Nat.add_sub_cancel, hdoc, List.take_left]
  refine ⟨by omega, ?_, ?_⟩
  · rw [htake, ho]
    have hread := hsegmented.restore?_decisions a [] (p := 0) (f := 0) rfl rfl
    rw [hrestored] at hread
    exact hread
  · have hwritten : o.lines.length = ((b.segments doc).flatMap (Segment.sieved a)).length := by
      rw [ho]
      rfl
    omega

/-- **A pass can be undone.** From the lines written and the decisions alone one gets back the lines
of the document before the block left open, but for the white space of blank lines in filtered
blocks. Each filtered block has cost one line more, its marker. A text of which no block was
filtered and none left open comes out as it went in. -/
theorem sieveLines_restored (a : AllowList) (b : Boundary) :
    (∀ doc, ∃ o, (⟨a, b, .drop⟩ : Sieve).sieveLines doc = .ok o ∧
      o.dropped ≤ doc.length ∧
      Decision.restore? o.lines 0 0 o.decisions =
        some (Decision.emptied o.decisions 1 (doc.take (doc.length - o.dropped))) ∧
      o.lines.length = doc.length - o.dropped + o.summary.filtered) ∧
    ∀ t, ∃ o, (⟨a, b, .drop⟩ : Sieve).sieveText t = .ok o ∧
      ((∀ d ∈ o.decisions, d.action = .keep) → o.unclosed = none → o.content = t) := by
  constructor
  · intro doc
    exact ⟨_, sieveLines_drop a b doc, restore?_ofSegments a b doc rfl⟩
  · intro t
    refine ⟨_, sieveLines_drop a b (Text.lines t), fun hkeep hclosed => ?_⟩
    obtain ⟨-, hread, -⟩ := restore?_ofSegments a b (Text.lines t) rfl
    generalize Outcome.ofSegments a (b.segments (Text.lines t)) = o at hkeep hclosed hread ⊢
    have hdropped : o.dropped = 0 := by rw [Outcome.dropped, hclosed]; rfl
    have hcovers : ∀ n, ¬ Decision.Covers o.decisions n := by
      rintro n ⟨d, hd, hfilter, -⟩
      rw [hkeep d hd] at hfilter
      cases hfilter
    rw [Decision.restore?_of_keep hkeep, Decision.emptied_of_not_covers fun m _ _ => hcovers m,
      hdropped, Nat.sub_zero, List.take_length, List.drop_zero, Option.some.injEq] at hread
    rw [Outcome.content, hread, Text.ofLines_lines]

end Sieve

end BlockSieve
