import BlockSieve.Comment
import BlockSieve.Segment

/-!
The sieve: a document goes in, the blocks on the allow-list stay as they are,
the others are commented out, and every closed block leaves a decision. A
block that never closes is dropped and reported, or makes the whole pass
fail, as the policy says.
-/

namespace BlockSieve

/-- What is done with a block. -/
inductive Action where
  | keep
  | filter
  deriving DecidableEq

/-- The action taken on one block, with the numbers of its first and last line. -/
structure Decision where
  name : Name
  action : Action
  startLine : Nat
  endLine : Nat
  deriving DecidableEq

/-- A block that is still open where the document ends, and how many lines it holds. -/
structure Unclosed where
  name : Name
  startLine : Nat
  lineCount : Nat
  deriving DecidableEq

/-- How many blocks were kept and how many filtered. -/
structure Summary where
  kept : Nat
  filtered : Nat
  deriving DecidableEq

namespace Summary

/-- The number of blocks decided on. -/
def total (s : Summary) : Nat := s.kept + s.filtered

/-- The counts after one more block. -/
def add (s : Summary) : Action → Summary
  | .keep => { s with kept := s.kept + 1 }
  | .filter => { s with filtered := s.filtered + 1 }

/-- The decisions of a list counted by their action. -/
def count (decisions : List Decision) : Summary where
  kept := decisions.countP fun d => d.action = .keep
  filtered := decisions.countP fun d => d.action = .filter

theorem count_cons (d : Decision) (decisions : List Decision) :
    count (d :: decisions) = (count decisions).add d.action := by
  cases h : d.action <;> simp [count, add, h]

theorem count_append (first second : List Decision) :
    count (first ++ second) =
      ⟨(count first).kept + (count second).kept,
        (count first).filtered + (count second).filtered⟩ := by
  simp [count]

end Summary

/-- What one pass makes of a document. -/
structure Outcome where
  lines : List Line
  decisions : List Decision
  summary : Summary
  unclosed : Option Unclosed
  deriving DecidableEq

/-- The lines written, as one text. -/
def Outcome.content (o : Outcome) : Text := Text.ofLines o.lines

/-- Whether a block that never closes is dropped or makes the pass fail. -/
inductive Policy where
  | drop
  | fail
  deriving DecidableEq

/-- The action that an allow-list asks for on a block of the given name. -/
def AllowList.action (a : AllowList) (name : Name) : Action :=
  if a.contains name then .keep else .filter

namespace Segment

/-- The lines written for a segment. -/
def sieved (a : AllowList) : Segment → List Line
  | .plain line => [line]
  | .closed b =>
    match a.action b.name with
    | .keep => b.lines
    | .filter => Comment.block b.name b.lines
  | .unclosed _ => []

/-- The decision that a segment leaves. -/
def decision? (a : AllowList) : Segment → Option Decision
  | .closed b => some ⟨b.name, a.action b.name, b.startLine, b.endLine⟩
  | _ => none

/-- The counts after a segment. -/
def counted (a : AllowList) (s : Summary) : Segment → Summary
  | .closed b => s.add (a.action b.name)
  | _ => s

/-- The block that a segment leaves open. -/
def unclosed? : Segment → Option Unclosed
  | .unclosed b => some ⟨b.name, b.startLine, b.lines.length⟩
  | _ => none

end Segment

/-- What is made of a document with the given segments. Blocks are counted as they come. -/
def Outcome.ofSegments (a : AllowList) (segments : List Segment) : Outcome where
  lines := segments.flatMap (Segment.sieved a)
  decisions := segments.filterMap (Segment.decision? a)
  summary := segments.foldl (Segment.counted a) ⟨0, 0⟩
  unclosed := segments.findSome? Segment.unclosed?

/-- Counting on from `s` adds the decisions that the segments leave. -/
theorem Segment.foldl_counted (a : AllowList) (s : Summary) (segments : List Segment) :
    segments.foldl (Segment.counted a) s =
      ⟨s.kept + (Summary.count (segments.filterMap (Segment.decision? a))).kept,
        s.filtered + (Summary.count (segments.filterMap (Segment.decision? a))).filtered⟩ := by
  induction segments generalizing s with
  | nil => rfl
  | cons segment segments ih =>
      rw [List.foldl_cons, ih]
      cases segment with
      | plain line => rfl
      | unclosed block => rfl
      | closed block =>
          have hdecision : Segment.decision? a (.closed block) =
              some ⟨block.name, a.action block.name, block.startLine, block.endLine⟩ := rfl
          rw [List.filterMap_cons_some hdecision, Summary.count_cons, Segment.counted]
          cases a.action block.name <;> simp only [Summary.add, Nat.succ_add, Nat.add_succ]

namespace Outcome

/-- The counters of a pass count its decisions. -/
theorem summary_ofSegments (a : AllowList) (segments : List Segment) :
    (ofSegments a segments).summary = .count (ofSegments a segments).decisions := by
  refine (Segment.foldl_counted a ⟨0, 0⟩ segments).trans ?_
  rw [Nat.zero_add, Nat.zero_add]
  rfl

/-- An outcome with its counters told from its decisions. -/
theorem eq_ofSegments (a : AllowList) (segments : List Segment) :
    ofSegments a segments =
      ⟨(ofSegments a segments).lines, (ofSegments a segments).decisions,
        .count (ofSegments a segments).decisions, (ofSegments a segments).unclosed⟩ := by
  rw [← summary_ofSegments]

theorem ofSegments_nil (a : AllowList) : ofSegments a [] = ⟨[], [], ⟨0, 0⟩, none⟩ := rfl

theorem ofSegments_plain (a : AllowList) (line : Line) (segments : List Segment) :
    ofSegments a (.plain line :: segments) =
      { ofSegments a segments with lines := line :: (ofSegments a segments).lines } := rfl

theorem ofSegments_closed (a : AllowList) (b : Block) (segments : List Segment) :
    ofSegments a (.closed b :: segments) =
      { ofSegments a segments with
        lines := Segment.sieved a (.closed b) ++ (ofSegments a segments).lines
        decisions := ⟨b.name, a.action b.name, b.startLine, b.endLine⟩ ::
          (ofSegments a segments).decisions
        summary := (ofSegments a segments).summary.add (a.action b.name) } := by
  have hsummary : (ofSegments a (.closed b :: segments)).summary =
      (ofSegments a segments).summary.add (a.action b.name) := by
    rw [summary_ofSegments, summary_ofSegments]
    exact Summary.count_cons ⟨b.name, a.action b.name, b.startLine, b.endLine⟩ _
  rw [← hsummary]
  rfl

theorem ofSegments_unclosed (a : AllowList) (b : Block) (segments : List Segment) :
    ofSegments a (.unclosed b :: segments) =
      { ofSegments a segments with
        unclosed := some ⟨b.name, b.startLine, b.lines.length⟩ } := rfl

theorem ofSegments_plains (a : AllowList) (lines : List Line) (segments : List Segment) :
    ofSegments a (lines.map .plain ++ segments) =
      { ofSegments a segments with lines := lines ++ (ofSegments a segments).lines } := by
  induction lines with
  | nil => rfl
  | cons line lines ih => simp [ofSegments_plain, ih]

theorem unclosed_ofSegments_eq_none_iff {a : AllowList} {segments : List Segment} :
    (ofSegments a segments).unclosed = none ↔ ∀ block, .unclosed block ∉ segments := by
  refine List.findSome?_eq_none_iff.trans ⟨fun h block hmem => ?_, fun h segment hmem => ?_⟩
  · have := h _ hmem
    cases this
  · cases segment with
    | plain _ => rfl
    | closed _ => rfl
    | unclosed block => exact absurd hmem (h block)

end Outcome

/-- An allow-list, a boundary, and what to do with a block that never closes. -/
structure Sieve where
  allowed : AllowList
  boundary : Boundary
  policy : Policy

namespace Sieve

/-- Passes the lines of a document through the sieve. The failure is the block that never closes. -/
def sieveLines (s : Sieve) (doc : List Line) : Except Unclosed Outcome :=
  let outcome := Outcome.ofSegments s.allowed (s.boundary.segments doc)
  match s.policy, outcome.unclosed with
  | .fail, some block => .error block
  | _, _ => .ok outcome

/-- A sieve that drops open blocks never fails. -/
theorem sieveLines_drop (a : AllowList) (b : Boundary) (doc : List Line) :
    (⟨a, b, .drop⟩ : Sieve).sieveLines doc = .ok (Outcome.ofSegments a (b.segments doc)) := rfl

/-- A pass that leaves no block open gives the outcome of the segments, whatever the policy. -/
theorem sieveLines_of_closed {s : Sieve} {doc : List Line}
    (h : (Outcome.ofSegments s.allowed (s.boundary.segments doc)).unclosed = none) :
    s.sieveLines doc = .ok (Outcome.ofSegments s.allowed (s.boundary.segments doc)) := by
  simp [sieveLines, h]

theorem eq_ofSegments_of_sieveLines {s : Sieve} {doc : List Line} {o : Outcome}
    (h : s.sieveLines doc = .ok o) :
    o = Outcome.ofSegments s.allowed (s.boundary.segments doc) := by
  simp only [sieveLines] at h
  split at h
  · simp at h
  · exact (Except.ok.inj h).symm

/-- Passes a text through the sieve, line by line. -/
def sieveText (s : Sieve) (t : Text) : Except Unclosed Outcome :=
  s.sieveLines (Text.lines t)

/-- The names on the allow-list that no decision carries. -/
def unmatched (s : Sieve) (o : Outcome) : List Name :=
  s.allowed.unmatched (o.decisions.map Decision.name)

end Sieve

end BlockSieve
