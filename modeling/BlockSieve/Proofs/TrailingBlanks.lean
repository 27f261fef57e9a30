import BlockSieve.Proofs.StartLine
import BlockSieve.Sieve
import Mathlib.Data.List.Forall2

/-!
White space at the ends of lines. The call, the quoted name and the closing
token of a block all end in a character that is no white space, or are compared
after trimming, so what white space a line ends with decides nothing. Two
documents that differ there only have their blocks at the same lines and under
the same names, and what is written for them differs there only. Carriage
returns before the newlines are such a difference.
-/

namespace BlockSieve

namespace Text

variable {t white : Text}

/-! ### Texts with white space at the end -/

theorem blank_append (t r : Text) : blank (t ++ r) = (blank t && blank r) := List.all_append

theorem exists_trimEnd_append (t : Text) : ∃ white, t = trimEnd t ++ white ∧ blank white = true := by
  refine ⟨(t.reverse.takeWhile isBlank).reverse, ?_, ?_⟩
  · rw [trimEnd, ← List.reverse_append, List.takeWhile_append_dropWhile, List.reverse_reverse]
  · rw [blank, List.all_reverse]
    exact List.all_eq_true.mpr fun c hc => List.mem_takeWhile_imp hc

theorem trimEnd_append_blank (h : blank white = true) (t : Text) :
    trimEnd (t ++ white) = trimEnd t := by
  have hall : ∀ c ∈ white.reverse, isBlank c = true := fun c hc =>
    List.all_eq_true.mp h c (List.mem_reverse.mp hc)
  rw [trimEnd, List.reverse_append, List.dropWhile_append_of_pos hall, trimEnd]

/-- Where a text is trimmed at its end makes no difference to what stands before it. -/
theorem trimEnd_append_trimEnd (t r : Text) : trimEnd (t ++ trimEnd r) = trimEnd (t ++ r) := by
  obtain ⟨white, hr, hwhite⟩ := exists_trimEnd_append r
  conv => rhs; rw [hr, ← List.append_assoc, trimEnd_append_blank hwhite]

@[simp] theorem trimEnd_trimEnd (t : Text) : trimEnd (trimEnd t) = trimEnd t :=
  trimEnd_append_trimEnd [] t

@[simp] theorem blank_trimEnd (t : Text) : blank (trimEnd t) = blank t := by
  obtain ⟨white, ht, hwhite⟩ := exists_trimEnd_append t
  conv => rhs; rw [ht, blank_append, hwhite, Bool.and_true]

theorem trim_append_blank (h : blank white = true) (t : Text) : trim (t ++ white) = trim t := by
  by_cases ht : blank t = true
  · rw [(trim_eq_nil_iff t).mpr ht, trim_eq_nil_iff, blank_append, ht, h]
    rfl
  · have hstart : trimStart (t ++ white) = trimStart t ++ white := by
      rw [trimStart, List.dropWhile_append, if_neg, ← trimStart]
      rwa [List.isEmpty_iff, ← trimStart, trimStart_eq_nil_iff]
    rw [trim, hstart, trimEnd_append_blank h, ← trim]

@[simp] theorem trim_trimEnd (t : Text) : trim (trimEnd t) = trim t := by
  obtain ⟨white, ht, hwhite⟩ := exists_trimEnd_append t
  conv => rhs; rw [ht, trim_append_blank hwhite]

/-- What ends in a character that is no white space ends before the white space at the end. -/
theorem exists_of_append_blank {front rest : Text} {c : Char} (hwhite : blank white = true)
    (hc : isBlank c = false) (h : t ++ white = front ++ c :: rest) :
    ∃ more, rest = more ++ white ∧ t = front ++ c :: more := by
  have hmem : c ∉ white := fun hmem => by
    rw [List.all_eq_true.mp hwhite c hmem] at hc
    cases hc
  rcases List.append_eq_append_iff.mp h with ⟨between, -, hsplit⟩ | ⟨between, hsplit, hrest⟩
  · exact absurd (hsplit ▸ List.mem_append_right _ (List.mem_cons_self ..)) hmem
  · cases between with
    | nil =>
        rw [List.nil_append] at hrest
        exact absurd (hrest ▸ List.mem_cons_self ..) hmem
    | cons d more =>
        obtain ⟨rfl, rfl⟩ := List.cons.inj hrest
        exact ⟨more, rfl, hsplit⟩

end Text

namespace Call

open Text (blank trimEnd isBlank)

variable {call : Call} {callee t white : Text} {name : Name}

/-! ### Calls and names -/

theorem leadingName?_append_blank (h : blank white = true) (t : Text) :
    leadingName? (t ++ white) = leadingName? t := by
  refine Option.ext fun name => ?_
  rw [leadingName?_eq_some_iff, leadingName?_eq_some_iff]
  constructor
  · rintro ⟨lead, q, r, after, hsplit, hlead, hq, hr, hne, hname⟩
    -- the closing quotation mark is no white space, so it stands in `t`
    have hquoted : t ++ white = lead ++ q :: name ++ r :: after := by simpa using hsplit
    obtain ⟨more, -, ht⟩ := Text.exists_of_append_blank h (isBlank_of_isQuote hr) hquoted
    exact ⟨lead, q, r, more, by simpa using ht, hlead, hq, hr, hne, hname⟩
  · rintro ⟨lead, q, r, after, rfl, hlead, hq, hr, hne, hname⟩
    exact ⟨lead, q, r, after ++ white, by simp, hlead, hq, hr, hne, hname⟩

theorem after?_append_blank (h : blank white = true) (callee t : Text) :
    Text.after? (callee ++ ['(']) (t ++ white) =
      (Text.after? (callee ++ ['(']) t).map (· ++ white) := by
  refine Option.ext fun rest => ?_
  simp only [Text.after?_eq_some_iff, Option.map_eq_some_iff, List.append_assoc,
    List.singleton_append]
  constructor
  · intro hsplit
    obtain ⟨more, hrest, ht⟩ := Text.exists_of_append_blank h (by decide) hsplit
    exact ⟨more, ht, hrest.symm⟩
  · rintro ⟨more, rfl, rfl⟩
    simp

/-- White space at the end of a line is white space at the end of each argument on it. -/
theorem argumentsIn_append_blank (h : blank white = true) (callee t : Text) :
    argumentsIn callee (t ++ white) = (argumentsIn callee t).map (· ++ white) := by
  fun_induction argumentsIn callee t with
  | case1 => exact argumentsIn_of_blank h
  | case2 c r argument hafter ih =>
      have hafter' := after?_append_blank h callee (c :: r)
      rw [hafter, Option.map_some, List.cons_append] at hafter'
      rw [List.cons_append, argumentsIn_of_after? hafter', ih, List.map_cons]
  | case3 c r hafter ih =>
      have hafter' := after?_append_blank h callee (c :: r)
      rw [hafter, Option.map_none, List.cons_append] at hafter'
      rw [List.cons_append, argumentsIn_of_after?_eq_none hafter', ih]

theorem firstName?_map_append_blank (h : blank white = true) (later : List Line)
    (arguments : List Text) :
    firstName? later (arguments.map (· ++ white)) = firstName? later arguments := by
  induction arguments with
  | nil => rfl
  | cons argument more ih =>
      simp only [List.map_cons, firstName?, leadingName?_append_blank h, Text.blank_append, h,
        Bool.and_true, ih]

theorem nextName?_map_trimEnd (later : List Line) :
    nextName? (later.map trimEnd) = nextName? later := by
  induction later with
  | nil => rfl
  | cons line later ih =>
      rw [List.map_cons]
      cases hblank : blank line with
      | true => rw [nextName?_of_blank _ (by simpa using hblank), nextName?_of_blank _ hblank, ih]
      | false =>
          rw [nextName?_of_not_blank _ (by simpa using hblank), nextName?_of_not_blank _ hblank]
          obtain ⟨white, hline, hwhite⟩ := Text.exists_trimEnd_append line
          conv => rhs; rw [hline, leadingName?_append_blank hwhite]

/-! ### Openings and closings -/

theorem opens_map_trimEnd (doc : List Line) (i : Nat) :
    call.boundary.opens (doc.map trimEnd) i = call.boundary.opens doc i := by
  cases hdrop : doc.drop i with
  | nil => simp [boundary, opens, ← List.map_drop, hdrop]
  | cons line later =>
      have hdrop' : (doc.map trimEnd).drop i = trimEnd line :: later.map trimEnd := by
        rw [← List.map_drop, hdrop, List.map_cons]
      obtain ⟨white, hline, hwhite⟩ := Text.exists_trimEnd_append line
      rw [opens_of_drop hdrop', opens_of_drop hdrop, firstName?_congr (nextName?_map_trimEnd later)]
      conv =>
        rhs
        rw [hline, argumentsIn_append_blank hwhite, firstName?_map_append_blank hwhite]

theorem closes_map_trimEnd (doc : List Line) (i : Nat) :
    call.boundary.closes (doc.map trimEnd) i = call.boundary.closes doc i := by
  cases hdrop : doc.drop i with
  | nil => simp [boundary, closes, ← List.map_drop, hdrop]
  | cons line later =>
      have hdrop' : (doc.map trimEnd).drop i = trimEnd line :: later.map trimEnd := by
        rw [← List.map_drop, hdrop, List.map_cons]
      rw [closes_of_drop hdrop', closes_of_drop hdrop, Text.trim_trimEnd]
      cases later <;> simp

end Call

/-! ### Segments and outcomes -/

def Block.mapLines (f : Line → Line) (b : Block) : Block := { b with lines := b.lines.map f }

/-- The segment with a function applied to each of its lines. -/
def Segment.mapLines (f : Line → Line) : Segment → Segment
  | .plain line => .plain (f line)
  | .closed block => .closed (block.mapLines f)
  | .unclosed block => .unclosed (block.mapLines f)

/-- What is done to lines without a difference to where blocks open and close makes no difference to
the cut. -/
theorem Boundary.Segmented.map {b : Boundary} {doc : List Line} {f : Line → Line} {i : Nat}
    {segments : List Segment} (h : b.Segmented doc i segments)
    (hopens : ∀ j, b.opens (doc.map f) j = b.opens doc j)
    (hcloses : ∀ j, b.closes (doc.map f) j = b.closes doc j) :
    b.Segmented (doc.map f) i (segments.map (Segment.mapLines f)) := by
  have hdrop : ∀ {j lines}, doc.drop j = lines → (doc.map f).drop j = lines.map f := by
    rintro j lines rfl
    exact List.map_drop.symm
  induction h with
  | nil here => exact .nil (hdrop here)
  | plain here quiet _ ih => exact .plain (hdrop here) (by rw [hopens, quiet]) ih
  | @closed i name first mid last rest segments here start inside stop _ ih =>
      have hmid : (mid.map f).length = mid.length := List.length_map f
      have hclosed : b.Segmented (doc.map f) i (.closed ⟨name, i + 1,
          f first :: (mid.map f ++ [f last])⟩ :: segments.map (Segment.mapLines f)) := by
        refine .closed (by simpa using hdrop here) (by rw [hopens, start]) ?_ ?_ ?_
        · intro j hj
          rw [hcloses]
          exact inside j (hmid ▸ hj)
        · rw [hcloses, hmid, stop]
        · rw [hmid]
          exact ih
      simpa [Segment.mapLines, Block.mapLines] using hclosed
  | unclosed here start inside =>
      refine .unclosed (hdrop here) (by rw [hopens, start]) fun j hj => ?_
      rw [hcloses]
      exact inside j (by simpa using hj)

/-- The lines written without the white space at their ends, and all else as it is. -/
def Outcome.trimmed (o : Outcome) : Outcome := { o with lines := o.lines.map Text.trimEnd }

theorem Comment.trimEnd_comment_trimEnd (line : Line) :
    Text.trimEnd (comment (Text.trimEnd line)) = Text.trimEnd (comment line) := by
  unfold comment
  rw [Text.blank_trimEnd]
  split
  · rfl
  · exact Text.trimEnd_append_trimEnd mark line

theorem Segment.map_trimEnd_sieved (a : AllowList) (segment : Segment) :
    ((segment.mapLines Text.trimEnd).sieved a).map Text.trimEnd =
      (segment.sieved a).map Text.trimEnd := by
  cases segment with
  | plain line => simp [Segment.mapLines, Segment.sieved]
  | closed block =>
      simp only [Segment.mapLines, Segment.sieved, Block.mapLines]
      split
      · simp
      · simp [Comment.block, Comment.trimEnd_comment_trimEnd]
  | unclosed block => rfl

theorem Outcome.trimmed_ofSegments_mapLines (a : AllowList) (segments : List Segment) :
    (ofSegments a (segments.map (Segment.mapLines Text.trimEnd))).trimmed =
      (ofSegments a segments).trimmed := by
  have hdecision : ∀ segment : Segment,
      (segment.mapLines Text.trimEnd).decision? a = segment.decision? a := by
    rintro (line | block | block) <;> simp [Segment.mapLines, Segment.decision?, Block.mapLines,
      Block.endLine]
  have hcounted : ∀ (s : Summary) (segment : Segment),
      Segment.counted a s (segment.mapLines Text.trimEnd) = Segment.counted a s segment := by
    rintro s (line | block | block) <;> rfl
  have hunclosed : ∀ segment : Segment,
      (segment.mapLines Text.trimEnd).unclosed? = segment.unclosed? := by
    rintro (line | block | block) <;> simp [Segment.mapLines, Segment.unclosed?, Block.mapLines]
  simp [ofSegments, trimmed, List.filterMap_map, List.findSome?_map, List.flatMap_map,
    List.map_flatMap, List.foldl_map, Function.comp_def, hdecision, hcounted, hunclosed,
    Segment.map_trimEnd_sieved]

theorem Call.trimmed_ofSegments_map_trimEnd (call : Call) (a : AllowList) (doc : List Line) :
    (Outcome.ofSegments a (call.boundary.segments (doc.map Text.trimEnd))).trimmed =
      (Outcome.ofSegments a (call.boundary.segments doc)).trimmed := by
  have hmap := (call.boundary.segmented_segments doc).map (opens_map_trimEnd doc)
    (closes_map_trimEnd doc)
  rw [← hmap.eq_segments, Outcome.trimmed_ofSegments_mapLines]

/-! ### Carriage returns -/

/-- The text with a carriage return before every newline. -/
def Text.withReturns (t : Text) : Text :=
  t.flatMap fun c => if c = '\n' then ['\r', '\n'] else [c]

theorem Text.map_trimEnd_lines_withReturns (t : Text) :
    (lines (withReturns t)).map trimEnd = (lines t).map trimEnd := by
  unfold lines
  induction t with
  | nil => rfl
  | cons c t ih =>
      by_cases hc : c = '\n'
      · subst hc
        have hcut : cutAt '\n' (withReturns ('\n' :: t)) = ['\r'] :: cutAt '\n' (withReturns t) :=
          cutAt_append '\n' ['\r'] (withReturns t)
        rw [hcut, List.map_cons, ih]
        rfl
      · have hcons : withReturns (c :: t) = c :: withReturns t := by simp [withReturns, hc]
        obtain ⟨piece, pieces, ht⟩ := List.exists_cons_of_ne_nil (cutAt_ne_nil '\n' t)
        obtain ⟨piece', pieces', ht'⟩ :=
          List.exists_cons_of_ne_nil (cutAt_ne_nil '\n' (withReturns t))
        rw [ht, ht', List.map_cons, List.map_cons] at ih
        obtain ⟨hpiece, hpieces⟩ := List.cons.inj ih
        have hfirst : trimEnd (c :: piece') = trimEnd (c :: piece) := by
          have happend := trimEnd_append_trimEnd [c]
          exact (happend piece').symm.trans (hpiece ▸ happend piece)
        simp only [hcons, cutAt, hc, if_false, ht, ht', List.map_cons, hfirst, hpieces]

/-! ### Passes over documents that differ in white space -/

/-- Two lines differ in the white space at their ends at most. -/
def Text.SameTrimmed (t r : Text) : Prop := trimEnd t = trimEnd r

theorem Text.forall₂_sameTrimmed_iff {ls ms : List Line} :
    List.Forall₂ SameTrimmed ls ms ↔ ls.map trimEnd = ms.map trimEnd := by
  rw [← List.forall₂_eq_eq_eq, List.forall₂_map_left_iff, List.forall₂_map_right_iff]
  rfl

namespace Sieve

/-- Two results of a pass are the same up to white space at the ends of the lines written. -/
inductive SameResult : Except Unclosed Outcome → Except Unclosed Outcome → Prop
  | failed (block : Unclosed) : SameResult (.error block) (.error block)
  | passed {o o' : Outcome} (lines : List.Forall₂ Text.SameTrimmed o.lines o'.lines)
      (decisions : o.decisions = o'.decisions) (summary : o.summary = o'.summary)
      (unclosed : o.unclosed = o'.unclosed) : SameResult (.ok o) (.ok o')

/-- Outcomes that are the same once trimmed make the pass succeed or fail alike. -/
theorem sameResult_of_trimmed {s : Sieve} {xs ys : List Line}
    (h : (Outcome.ofSegments s.allowed (s.boundary.segments xs)).trimmed =
      (Outcome.ofSegments s.allowed (s.boundary.segments ys)).trimmed) :
    SameResult (s.sieveLines xs) (s.sieveLines ys) := by
  unfold sieveLines
  generalize Outcome.ofSegments s.allowed (s.boundary.segments xs) = o at h ⊢
  generalize Outcome.ofSegments s.allowed (s.boundary.segments ys) = o' at h ⊢
  obtain ⟨hlines, hdecisions, hsummary, hunclosed⟩ := Outcome.mk.inj h
  have hpassed : SameResult (.ok o) (.ok o') :=
    .passed (Text.forall₂_sameTrimmed_iff.mpr hlines) hdecisions hsummary hunclosed
  simp only [← hunclosed]
  split
  · exact .failed _
  · exact hpassed

/-- **White space at the ends of lines changes nothing that is recognised.** Documents whose lines
are pairwise the same after trimming their ends fail alike, or have the same decisions, the same
counts and the same open tail, and lines written for them that are again pairwise the same after
trimming. A text and the text with a carriage return before every newline are such documents. -/
theorem sieveLines_sameTrimmed (call : Call) (a : AllowList) (policy : Policy) :
    (∀ xs ys : List Line, List.Forall₂ Text.SameTrimmed xs ys →
      SameResult ((⟨a, call.boundary, policy⟩ : Sieve).sieveLines xs)
        ((⟨a, call.boundary, policy⟩ : Sieve).sieveLines ys)) ∧
    ∀ t : Text, SameResult ((⟨a, call.boundary, policy⟩ : Sieve).sieveText t)
      ((⟨a, call.boundary, policy⟩ : Sieve).sieveText (Text.withReturns t)) := by
  have hlines : ∀ xs ys : List Line, xs.map Text.trimEnd = ys.map Text.trimEnd →
      SameResult ((⟨a, call.boundary, policy⟩ : Sieve).sieveLines xs)
        ((⟨a, call.boundary, policy⟩ : Sieve).sieveLines ys) := by
    intro xs ys h
    refine sameResult_of_trimmed ?_
    rw [← call.trimmed_ofSegments_map_trimEnd a xs, h, call.trimmed_ofSegments_map_trimEnd a ys]
  exact ⟨fun xs ys h => hlines xs ys (Text.forall₂_sameTrimmed_iff.mp h),
    fun t => hlines _ _ (Text.map_trimEnd_lines_withReturns t).symm⟩

/-- A block with a blank line inside and one after it. -/
def blankInside : List Line := ["f('a',".toList, "  ".toList, ")".toList, []]

/-- The same lines with other white space at their ends. -/
def blankInsideReturns : List Line := ["f('a',\r".toList, [], ") ".toList, "\r".toList]

theorem sameResult_returns :
    List.Forall₂ Text.SameTrimmed blankInside blankInsideReturns ∧
      (⟨.empty, (⟨['f'], [')']⟩ : Call).boundary, .fail⟩ : Sieve).sieveLines blankInside =
        .ok ⟨["  // [FILTERED] a".toList, "  // f('a',".toList, [], "  // )".toList, []],
          [⟨['a'], .filter, 1, 3⟩], ⟨0, 1⟩, none⟩ ∧
      SameResult ((⟨.empty, (⟨['f'], [')']⟩ : Call).boundary, .fail⟩ : Sieve).sieveLines blankInside)
        ((⟨.empty, (⟨['f'], [')']⟩ : Call).boundary, .fail⟩ : Sieve).sieveLines
          blankInsideReturns) := by
  have hsame : List.Forall₂ Text.SameTrimmed blankInside blankInsideReturns :=
    Text.forall₂_sameTrimmed_iff.mpr (by decide)
  exact ⟨hsame, by decide +kernel, (sieveLines_sameTrimmed ⟨['f'], [')']⟩ .empty .fail).1 _ _ hsame⟩

end Sieve

end BlockSieve
