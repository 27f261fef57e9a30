import BlockSieve.Proofs.CallLine
import BlockSieve.Sieve
import Mathlib.Data.List.Chain

/-!
Documents written from pieces. A piece is a line outside every block, or a
tool: a call, its quoted name beside it or below it, any body, a closing line
and a blank line. A body may hold calls, quotation marks, closing lines and
blank lines, as long as it has no closing line right before a blank one.
Sieving such a document finds its pieces again.
-/

namespace BlockSieve.Call

/-- A name between quotation marks, and the white space before it. -/
structure QuotedName where
  white : Text
  opening : Char
  name : Name
  closing : Char
  white_blank : Text.blank white = true
  opening_isQuote : isQuote opening = true
  closing_isQuote : isQuote closing = true
  name_ne_nil : name ≠ []
  name_unquoted : ∀ c ∈ name, isQuote c = false

def QuotedName.text (q : QuotedName) : Text :=
  q.white ++ q.opening :: (q.name ++ [q.closing])

/-- Where the name of a tool stands: on the line of the call, or on the first line below it that is
not blank, with white space only after the call. -/
inductive Placement where
  | beside
  | below (white : Text) (blanks : List Line) (white_blank : Text.blank white = true)
      (all_blank : ∀ line ∈ blanks, Text.blank line = true)

/-- A line that closes a block: a closing parenthesis, and a blank line after it. -/
def Closing (line next : Line) : Prop :=
  Text.trim line = [')'] ∧ Text.blank next = true

instance (line next : Line) : Decidable (Closing line next) :=
  inferInstanceAs (Decidable (_ ∧ _))

/-- What a tool is written from. -/
structure Tool where
  lead : Text
  placement : Placement
  quoted : QuotedName
  after : Text
  body : List Line
  close : Line
  separator : Line
  lead_opens_nothing : '(' ∉ lead
  body_closes_nothing : body.IsChain fun line next => ¬ Closing line next
  close_token : Text.trim close = [')']
  separator_blank : Text.blank separator = true

namespace Tool

variable (callee : Text) (t : Tool)

/-- The line with the call, which may be as far as the name goes. -/
def firstLine : Line :=
  match t.placement with
  | .beside => t.lead ++ callee ++ '(' :: (t.quoted.text ++ t.after)
  | .below white _ _ _ => t.lead ++ callee ++ '(' :: white

/-- The lines up to the name, if that is not on the first line. -/
def nameLines : List Line :=
  match t.placement with
  | .beside => []
  | .below _ blanks _ _ => blanks ++ [t.quoted.text ++ t.after]

/-- The lines between the first one and the one that closes the block. -/
def inner : List Line := t.nameLines ++ t.body

def lines : List Line := t.firstLine callee :: (t.inner ++ [t.close])

end Tool

/-- A piece of a document, for calls of a given callee. -/
inductive Piece (callee : Text) where
  | plain (line : Line) (no_call : ¬ callee ++ ['('] <:+: line)
  | tool (t : Tool)

namespace Piece

variable {callee : Text}

def lines : Piece callee → List Line
  | .plain line _ => [line]
  | .tool t => t.lines callee ++ [t.separator]

/-- What becomes of the lines of a piece. -/
def written (a : AllowList) : Piece callee → List Line
  | .plain line _ => [line]
  | .tool t =>
    (if a.contains t.quoted.name then t.lines callee
      else Comment.marker t.quoted.name :: (t.lines callee).map Comment.comment) ++ [t.separator]

/-- The decisions on pieces the first of which begins on line `n`: one for each tool, with the
numbers of its first line and of the line that closes it. -/
def decisions (a : AllowList) : Nat → List (Piece callee) → List Decision
  | _, [] => []
  | n, .plain _ _ :: pieces => decisions a (n + 1) pieces
  | n, .tool t :: pieces =>
    ⟨t.quoted.name, if a.contains t.quoted.name then .keep else .filter, n,
        n + t.inner.length + 1⟩ ::
      decisions a (n + t.inner.length + 3) pieces

end Piece

/-! ### Reading the lines of a tool -/

theorem QuotedName.beginsWithName (q : QuotedName) (after : Text) :
    BeginsWithName (q.text ++ after) q.name :=
  ⟨q.white, q.opening, q.closing, after, by simp [QuotedName.text], q.white_blank,
    q.opening_isQuote, q.closing_isQuote, q.name_ne_nil, q.name_unquoted⟩

theorem QuotedName.not_blank (q : QuotedName) (after : Text) :
    Text.blank (q.text ++ after) = false := by
  have hopening := isBlank_of_isQuote q.opening_isQuote
  simp [QuotedName.text, Text.blank, hopening]

/-- A line that begins with a quotation mark is no closing line. -/
theorem QuotedName.not_closing (q : QuotedName) (after : Text) (next : Line) :
    ¬ Closing (q.text ++ after) next := by
  rintro ⟨htrim, -⟩
  have hmem : q.opening ∈ Text.trim (q.text ++ after) :=
    Text.mem_trim (by simp [QuotedName.text]) (isBlank_of_isQuote q.opening_isQuote)
  have hquote := q.opening_isQuote
  rw [htrim, List.mem_singleton] at hmem
  rw [hmem] at hquote
  exact absurd hquote (by decide)

theorem not_closing_of_blank {line next : Line} (h : Text.blank line = true) :
    ¬ Closing line next := by
  rintro ⟨htrim, -⟩
  rw [(Text.trim_eq_nil_iff line).mpr h] at htrim
  cases htrim

namespace Tool

variable {callee : Text} (t : Tool)

/-- The first line opens a block under the tool's name, whatever follows the tool. -/
theorem firstName?_firstLine (hcallee : '(' ∉ callee) (rest : List Line) :
    firstName? (t.inner ++ rest) (argumentsIn callee (t.firstLine callee)) =
      some t.quoted.name := by
  have hname := leadingName?_of_beginsWithName (t.quoted.beginsWithName t.after)
  unfold firstLine inner nameLines
  cases t.placement with
  | beside =>
      rw [argumentsIn_call hcallee t.lead_opens_nothing]
      simp only [firstName?, hname]
  | below white blanks hwhite hblanks =>
      have hlater : blanks ++ [t.quoted.text ++ t.after] ++ t.body ++ rest =
          blanks ++ ((t.quoted.text ++ t.after) :: (t.body ++ rest)) := by simp
      rw [argumentsIn_call hcallee t.lead_opens_nothing, firstName?_of_blank _ _ hwhite, hlater,
        nextName?_of_all_blank _ hblanks, nextName?_of_not_blank _ (t.quoted.not_blank t.after),
        hname]

theorem not_closing_nameLines {line : Line} (h : line ∈ t.nameLines) (next : Line) :
    ¬ Closing line next := by
  unfold nameLines at h
  split at h
  · cases h
  · next _ blanks _ hblanks _ =>
      rcases List.mem_append.mp h with h | h
      · exact not_closing_of_blank (hblanks line h)
      · rw [List.mem_singleton.mp h]
        exact t.quoted.not_closing t.after next

/-- Before the closing line no line of a tool closes a block. -/
theorem isChain_inner : (t.inner ++ [t.close]).IsChain fun line next => ¬ Closing line next := by
  have hclose : ∀ line, ¬ Closing line t.close := by
    rintro line ⟨-, hblank⟩
    have htrim := (Text.trim_eq_nil_iff t.close).mpr hblank
    rw [t.close_token] at htrim
    cases htrim
  have hbody : (t.body ++ [t.close]).IsChain fun line next => ¬ Closing line next := by
    refine t.body_closes_nothing.append (.singleton _) fun line _ next hnext => ?_
    obtain rfl : t.close = next := by simpa using hnext
    exact hclose line
  rw [inner, List.append_assoc]
  have hname : ∀ line ∈ t.nameLines, ∀ next, ¬ Closing line next :=
    fun line hline next => t.not_closing_nameLines hline next
  generalize t.nameLines = names at hname
  induction names with
  | nil => exact hbody
  | cons line names ih =>
      exact (ih fun l hl => hname l (List.mem_cons_of_mem _ hl)).cons
        fun next _ => hname line (List.mem_cons_self ..) next

end Tool

/-! ### Sieving a document -/

section

variable {callee : Text}

/-- The call whose blocks end at a closing parenthesis. -/
def parenthesized (callee : Text) : Call := ⟨callee, [')']⟩

theorem closes_of_isChain {doc lines rest : List Line} {i j : Nat}
    (hdoc : doc.drop i = lines ++ rest) (h : lines.IsChain fun line next => ¬ Closing line next)
    (hj : j + 1 < lines.length) : (parenthesized callee).boundary.closes doc (i + j) = false := by
  obtain ⟨more, hmore⟩ := exists_drop_of_stretch hdoc hj
  have hpair : ¬ Closing lines[j] lines[j + 1] := List.isChain_iff_getElem.mp h j hj
  rw [closes_of_drop hmore]
  refine Bool.eq_false_iff.mpr fun hclose => hpair ?_
  obtain ⟨htrim, hnext⟩ := Bool.and_eq_true_iff.mp hclose
  exact ⟨of_decide_eq_true htrim, hnext⟩

/-- A tool is found as a block, and the blank line after it as a plain line. -/
theorem segmented_tool {doc rest : List Line} {i : Nat} (hcallee : '(' ∉ callee) (t : Tool)
    (hdoc : doc.drop i = t.lines callee ++ t.separator :: rest) {segments : List Segment}
    (tail : (parenthesized callee).boundary.Segmented doc (i + t.inner.length + 3) segments) :
    (parenthesized callee).boundary.Segmented doc i
      (.closed ⟨t.quoted.name, i + 1, t.lines callee⟩ :: .plain t.separator :: segments) := by
  have here : doc.drop i = t.firstLine callee :: (t.inner ++ t.close :: t.separator :: rest) := by
    simpa [Tool.lines] using hdoc
  have hinner : doc.drop (i + 1) = (t.inner ++ [t.close]) ++ t.separator :: rest := by
    rw [drop_succ_of_drop here, List.append_assoc, List.singleton_append]
  have hclose : doc.drop (i + 1 + t.inner.length) = t.close :: t.separator :: rest :=
    drop_add_of_drop (drop_succ_of_drop here)
  have hseparator := drop_succ_of_drop hclose
  refine .closed here ?_ ?_ ?_ (.plain hseparator ?_ ?_)
  · rw [opens_of_drop here]
    exact t.firstName?_firstLine hcallee _
  · intro j hj
    exact closes_of_isChain hinner t.isChain_inner (by simpa using hj)
  · rw [closes_of_drop hclose]
    simp [parenthesized, t.close_token, t.separator_blank]
  · rw [opens_of_drop hseparator, argumentsIn_of_blank t.separator_blank]
    rfl
  · rwa [show i + 1 + t.inner.length + 1 + 1 = i + t.inner.length + 3 by omega]

/-- Sieving finds the pieces that a document was written from. -/
theorem exists_segmented (hcallee : '(' ∉ callee) (a : AllowList) (pieces : List (Piece callee))
    {doc : List Line} {i : Nat} (hdoc : doc.drop i = pieces.flatMap Piece.lines) :
    ∃ segments, (parenthesized callee).boundary.Segmented doc i segments ∧
      Outcome.ofSegments a segments =
        ⟨pieces.flatMap (Piece.written a), Piece.decisions a (i + 1) pieces,
          .count (Piece.decisions a (i + 1) pieces), none⟩ := by
  induction pieces generalizing i with
  | nil => exact ⟨[], .nil hdoc, rfl⟩
  | cons piece pieces ih =>
      cases piece with
      | plain line no_call =>
          have here : doc.drop i = line :: pieces.flatMap Piece.lines := hdoc
          obtain ⟨segments, hsegments, houtcome⟩ := ih (drop_succ_of_drop here)
          refine ⟨.plain line :: segments, .plain here ?_ hsegments, ?_⟩
          · rw [opens_of_drop here]
            change firstName? _ (argumentsIn callee line) = none
            rw [argumentsIn_of_no_call no_call]
            rfl
          · rw [Outcome.ofSegments_plain, houtcome]
            rfl
      | tool t =>
          have here : doc.drop i = t.lines callee ++ t.separator :: pieces.flatMap Piece.lines := by
            simpa [Piece.lines] using hdoc
          have hrest : doc.drop (i + t.inner.length + 3) = pieces.flatMap Piece.lines := by
            have := drop_succ_of_drop (drop_add_of_drop here)
            rwa [show i + (t.lines callee).length + 1 = i + t.inner.length + 3 by
              simp [Tool.lines]; omega] at this
          obtain ⟨segments, hsegments, houtcome⟩ := ih hrest
          refine ⟨_, segmented_tool hcallee t here hsegments, ?_⟩
          have hend : (⟨t.quoted.name, i + 1, t.lines callee⟩ : Block).endLine =
              i + 1 + t.inner.length + 1 := by
            simp [Block.endLine, Tool.lines]
            omega
          have hline : i + t.inner.length + 3 + 1 = i + 1 + t.inner.length + 3 := by omega
          rw [Outcome.ofSegments_closed, Outcome.ofSegments_plain, houtcome, hend, hline]
          cases hallowed : a.contains t.quoted.name with
          | true =>
              simp [Segment.sieved, AllowList.action, Piece.written, Piece.decisions, hallowed,
                Summary.count_cons]
          | false =>
              simp [Segment.sieved, AllowList.action, Piece.written, Piece.decisions, hallowed,
                Comment.block, Summary.count_cons]

end

end BlockSieve.Call

namespace BlockSieve.Sieve

open Call

/-- **A document that is written from pieces is read as these pieces.** Whatever bodies the tools
have, the sieve takes one decision for each of them, in order, under its name and with the numbers of
its first and its closing line. It leaves nothing open, and each piece comes out as it was written
or, for a tool that is not allowed, behind its marker and commented out. -/
theorem sieveLines_document {callee : Text} (hcallee : '(' ∉ callee) (a : AllowList)
    (policy : Policy) (pieces : List (Piece callee)) :
    (⟨a, (parenthesized callee).boundary, policy⟩ : Sieve).sieveLines
        (pieces.flatMap Piece.lines) =
      .ok ⟨pieces.flatMap (Piece.written a), Piece.decisions a 1 pieces,
        .count (Piece.decisions a 1 pieces), none⟩ := by
  obtain ⟨segments, hsegments, houtcome⟩ :=
    exists_segmented hcallee a pieces List.drop_zero
  rw [hsegments.eq_segments] at houtcome
  rw [← houtcome]
  exact sieveLines_of_closed (by rw [houtcome])

/-- A plain line, a tool with its name beside the call, and a tool with its name below and another
call and a closing line in its body. -/
def twoTools : List (Piece ['f']) :=
  [.plain ['f'] (by decide),
    .tool {
      lead := [], placement := .beside, after := [','], body := [], close := [')'],
      separator := []
      quoted := ⟨[' '], '"', ['a'], '\'', rfl, rfl, rfl, by decide, List.forall_mem_singleton.mpr rfl⟩
      lead_opens_nothing := by decide
      body_closes_nothing := by decide
      close_token := by decide
      separator_blank := rfl },
    .tool {
      lead := [' '], placement := .below [' '] [[]] rfl (by decide), after := [],
      body := ["f(\"c\")".toList, [')'], ['y']], close := [' ', ')'], separator := [' ']
      quoted := ⟨[], '\'', ['b'], '\'', rfl, rfl, rfl, by decide, List.forall_mem_singleton.mpr rfl⟩
      lead_opens_nothing := by decide
      body_closes_nothing := by decide
      close_token := by decide
      separator_blank := rfl }]

theorem sieveLines_twoTools :
    '(' ∉ ['f'] ∧
      (⟨.ofList [['a']], (parenthesized ['f']).boundary, .fail⟩ : Sieve).sieveLines
          ["f".toList, "f( \"a',".toList, ")".toList, [], " f( ".toList, [], "'b'".toList,
            "f(\"c\")".toList, ")".toList, "y".toList, " )".toList, " ".toList] =
        .ok ⟨["f".toList, "f( \"a',".toList, ")".toList, [], "  // [FILTERED] b".toList,
            "  //  f( ".toList, [], "  // 'b'".toList, "  // f(\"c\")".toList, "  // )".toList,
            "  // y".toList, "  //  )".toList, " ".toList],
          [⟨['a'], .keep, 2, 3⟩, ⟨['b'], .filter, 5, 11⟩], ⟨1, 1⟩, none⟩ :=
  ⟨by decide, sieveLines_document (by decide) (.ofList [['a']]) .fail twoTools⟩

end BlockSieve.Sieve
