import BlockSieve.Diff.Printer
import BlockSieve.Text.Cut
import Mathlib.Data.List.Basic

/-!
The text of a printed difference, read again. It is cut into rows by the same
rule as the texts; the remarks that a row has no end are taken back, so that
what is left are the first rows of the hunks and the signed rows as they were
before they were printed. The first row of a hunk is read as two ranges.
-/

namespace BlockSieve.Diff

/-! ### Rows and remarks -/

/-- The rows of a printed text, without the remarks that a row has no end. The end that a remark
takes back is that of the row before it. -/
def unmark : List Row → List Row
  | row :: remark :: more =>
    if remark.head? = some '\\' then row.dropLast :: unmark more else row :: unmark (remark :: more)
  | short => short

/-- A row as it is printed: one without an end is followed by a remark. -/
def mark (row : Row) : Text :=
  row ++ if ended row then [] else "\n\\ No newline at end of file\n".toList

/-- The signed rows of a piece. -/
def Piece.lines (old new : List Row) (p : Piece) : List Row :=
  let oldRows := (old.drop p.old).take p.oldLength
  let newRows := (new.drop p.new).take p.newLength
  if p.stays then oldRows.map (' ' :: ·) else oldRows.map ('-' :: ·) ++ newRows.map ('+' :: ·)

/-- The rows of a hunk: its ranges, and the signed rows. -/
def Hunk.lines (old new : List Row) (hunk : Hunk) : List Row :=
  header hunk :: hunk.flatMap (Piece.lines old new)

/-- No end of a row is in the text. -/
def Plain (t : Text) : Prop := ∀ c ∈ t, c ≠ '\n' ∧ c ≠ '\r'

/-- A text that is a single row, with its end or without. -/
inductive Single : Row → Prop
  | unended {t} (plain : Plain t) : Single t
  | newline {t} (plain : Plain t) : Single (t ++ ['\n'])
  | carriage {t} (plain : Plain t) : Single (t ++ ['\r'])
  | both {t} (plain : Plain t) : Single (t ++ ['\r', '\n'])

variable {row t : Text} {c : Char}

theorem Plain.cons (h : Plain t) (hc : c ≠ '\n' ∧ c ≠ '\r') : Plain (c :: t) :=
  List.forall_mem_cons.mpr ⟨hc, h⟩

theorem Plain.append {u : Text} (h : Plain t) (hu : Plain u) : Plain (t ++ u) :=
  List.forall_mem_append.mpr ⟨h, hu⟩

theorem Single.cons (h : Single row) (hc : c ≠ '\n' ∧ c ≠ '\r') : Single (c :: row) := by
  cases h with
  | unended plain => exact .unended (plain.cons hc)
  | newline plain => exact .newline (plain.cons hc)
  | carriage plain => exact .carriage (plain.cons hc)
  | both plain => exact .both (plain.cons hc)

theorem single_of_mem_rows (h : row ∈ rows t) : Single row := by
  have hnil : Plain [] := fun _ h => absurd h List.not_mem_nil
  fun_induction rows t generalizing row with
  | case1 => cases h
  | case2 t ih =>
      rcases List.mem_cons.mp h with rfl | h
      · exact .both hnil
      · exact ih h
  | case3 c t _ hc ih =>
      rcases List.mem_cons.mp h with rfl | h
      · rcases hc with rfl | rfl
        · exact .newline hnil
        · exact .carriage hnil
      · exact ih h
  | case4 c t _ hc hrows ih =>
      obtain rfl := List.mem_singleton.mp h
      exact (Single.unended hnil).cons (not_or.mp hc)
  | case5 c t _ hc first more hrows ih =>
      rcases List.mem_cons.mp h with rfl | h
      · exact (ih (hrows ▸ List.mem_cons_self ..)).cons (not_or.mp hc)
      · exact ih (hrows ▸ List.mem_cons_of_mem _ h)

theorem rows_cons_of_plain (hc : c ≠ '\n' ∧ c ≠ '\r') {more : List Row} (h : rows t = row :: more) :
    rows (c :: t) = (c :: row) :: more := by
  rw [rows.eq_def]
  split
  · cases ‹_ = _›
  · next heq => exact absurd (List.cons.inj heq).1 hc.2
  · next heq =>
      obtain ⟨rfl, rfl⟩ := List.cons.inj heq
      rw [if_neg (not_or.mpr hc), h]

theorem rows_append_of_plain (hplain : Plain t) {u : Text} {more : List Row}
    (h : rows u = row :: more) : rows (t ++ u) = (t ++ row) :: more := by
  induction t with
  | nil => exact h
  | cons c t ih =>
      obtain ⟨hc, ht⟩ := List.forall_mem_cons.mp hplain
      exact rows_cons_of_plain hc (ih ht)

theorem rows_return (h : t.head? ≠ some '\n') : rows ('\r' :: t) = ['\r'] :: rows t := by
  cases t with
  | nil => rfl
  | cons c t =>
      rw [rows.eq_def]
      split
      · cases ‹_ = _›
      · next heq =>
          obtain ⟨-, hc⟩ := List.cons.inj heq
          exact absurd (congrArg List.head? hc) h
      · next heq =>
          obtain ⟨rfl, rfl⟩ := List.cons.inj heq
          rfl

/-- A row with its end is the first row of a text that begins with it. -/
theorem rows_append_of_single (hsingle : Single row) (hended : ended row = true)
    (ht : t.head? ≠ some '\n') : rows (row ++ t) = row :: rows t := by
  cases hsingle with
  | unended plain =>
      simp only [ended, Bool.or_eq_true, beq_iff_eq] at hended
      rcases hended with h | h
      · exact absurd rfl (plain _ (List.mem_of_getLast? h)).1
      · exact absurd rfl (plain _ (List.mem_of_getLast? h)).2
  | newline plain =>
      rw [List.append_assoc]
      exact rows_append_of_plain plain rfl
  | carriage plain =>
      rw [List.append_assoc]
      exact rows_append_of_plain plain (rows_return ht)
  | both plain =>
      rw [List.append_assoc]
      exact rows_append_of_plain plain rfl

theorem plain_of_not_ended (hsingle : Single row) (hended : ended row = false) : Plain row := by
  cases hsingle with
  | unended plain => exact plain
  | newline plain => simp [ended] at hended
  | carriage plain => simp [ended] at hended
  | both plain => simp [ended] at hended

/-- The first row of a text begins as the text does. -/
theorem head?_of_rows {more : List Row} (h : rows t = row :: more) : row.head? = t.head? := by
  fun_induction rows t with
  | case1 => cases h
  | case2 => exact (List.cons.inj h).1 ▸ rfl
  | case3 => exact (List.cons.inj h).1 ▸ rfl
  | case4 => exact (List.cons.inj h).1 ▸ rfl
  | case5 => exact (List.cons.inj h).1 ▸ rfl

theorem unmark_rows_cons (h : t.head? ≠ some '\\') :
    unmark (row :: rows t) = row :: unmark (rows t) := by
  cases hrows : rows t with
  | nil => rfl
  | cons first more => rw [unmark, head?_of_rows hrows, if_neg h]

/-- A row of a printed difference begins with none of the characters that would join it to the row
before it: neither with a newline nor with that of a remark. -/
structure Opened (row : Row) : Prop where
  single : Single row
  ne_nil : row ≠ []
  not_newline : row.head? ≠ some '\n'
  not_remark : row.head? ≠ some '\\'

theorem head?_mark (h : row ≠ []) (t : Text) : (mark row ++ t).head? = row.head? := by
  rw [mark, List.append_assoc, List.head?_append_of_ne_nil _ h]

theorem not_joined_flatMap_mark {lines : List Row} (h : ∀ row ∈ lines, Opened row) :
    (lines.flatMap mark).head? ≠ some '\n' ∧ (lines.flatMap mark).head? ≠ some '\\' := by
  cases lines with
  | nil => simp
  | cons row lines =>
      have hrow := h row (List.mem_cons_self ..)
      rw [List.flatMap_cons, head?_mark hrow.ne_nil]
      exact ⟨hrow.not_newline, hrow.not_remark⟩

/-- **Printed rows are read as they were.** -/
theorem unmark_rows_flatMap_mark {lines : List Row} (h : ∀ row ∈ lines, Opened row) :
    unmark (rows (lines.flatMap mark)) = lines := by
  induction lines with
  | nil => rfl
  | cons row lines ih =>
      obtain ⟨hrow, hlines⟩ := List.forall_mem_cons.mp h
      obtain ⟨hnewline, hremark⟩ := not_joined_flatMap_mark hlines
      have hrest := ih hlines
      rw [List.flatMap_cons]
      generalize lines.flatMap mark = rest at hnewline hremark hrest ⊢
      cases hended : ended row with
      | true =>
          rw [mark, hended, if_pos rfl, List.append_nil,
            rows_append_of_single hrow.single hended hnewline, unmark_rows_cons hremark, hrest]
      | false =>
          have hplain := plain_of_not_ended hrow.single hended
          have hremark : Single "\\ No newline at end of file\n".toList :=
            .newline (t := "\\ No newline at end of file".toList) (by simp [Plain])
          have hrows : rows (mark row ++ rest) =
              (row ++ ['\n']) :: "\\ No newline at end of file\n".toList :: rows rest := by
            rw [mark, hended, if_neg Bool.false_ne_true, List.append_assoc]
            refine rows_append_of_plain hplain ?_
            rw [← rows_append_of_single hremark (by decide) hnewline]
            rfl
          rw [hrows, unmark, if_pos (by decide), List.dropLast_concat, hrest]

/-! ### Printing row by row -/

theorem signed_eq_mark {sign : Char} (h : sign ≠ '\n' ∧ sign ≠ '\r') (row : Row) :
    signed sign row = mark (sign :: row) := by
  have hended : ended (sign :: row) = ended row := by
    cases row with
    | nil => simp [ended, h]
    | cons c row => simp [ended, List.getLast?_cons_cons]
  rw [signed, mark, hended]

theorem printPiece_eq (old new : List Row) (p : Piece) :
    printPiece old new p = (p.lines old new).flatMap mark := by
  have hsigned : ∀ sign : Char, sign ≠ '\n' ∧ sign ≠ '\r' → ∀ rs : List Row,
      rs.flatMap (signed sign) = (rs.map (sign :: ·)).flatMap mark := by
    intro sign hsign rs
    rw [List.flatMap_map]
    exact List.flatMap_congr fun row _ => signed_eq_mark hsign row
  unfold printPiece Piece.lines
  dsimp only
  split
  · exact hsigned ' ' (by decide) _
  · rw [List.flatMap_append, hsigned '-' (by decide), hsigned '+' (by decide)]

/-! ### The first row of a hunk -/

/-- A number that is written in digits. -/
def number? (t : Text) : Option Nat :=
  if t ≠ [] ∧ t.all Char.isDigit then some (Nat.ofDigitChars 10 t 0) else none

/-- A range: the place of its first row and its length. -/
def range? (t : Text) : Option (Nat × Nat) :=
  match Text.cutAt ',' t with
  | [first] => (number? first).map fun n => (n - 1, 1)
  | [first, length] => do
    let n ← number? first
    let l ← number? length
    some (if l = 0 then n else n - 1, l)
  | _ => none

/-- The ranges in the first row of a hunk: that of the old rows and that of the new ones. -/
def ranges? (row : Row) : Option ((Nat × Nat) × (Nat × Nat)) :=
  match Text.cutAt ' ' row with
  | [opening, '-' :: old, '+' :: new, closing] =>
    if opening = "@@".toList ∧ closing = "@@\n".toList then do
      let a ← range? old
      let b ← range? new
      some (a, b)
    else none
  | _ => none

theorem isDigit_of_mem_toString {n : Nat} (h : c ∈ (toString n).toList) : c.isDigit = true := by
  rw [Nat.toString_eq_repr, Nat.toList_repr] at h
  exact Nat.isDigit_of_mem_toDigits (by decide) (by decide) h

theorem number?_toString (n : Nat) : number? (toString n).toList = some n := by
  have hdigits : (toString n).toList.all Char.isDigit = true :=
    List.all_eq_true.mpr fun c => isDigit_of_mem_toString
  rw [number?, hdigits, Nat.toString_eq_repr, Nat.toList_repr, if_pos ⟨Nat.toDigits_ne_nil, rfl⟩,
    Nat.ofDigitChars_ten_toDigits]

theorem isDigit_or_comma_of_mem_range {start stop : Nat} (h : c ∈ range start stop) :
    c.isDigit = true ∨ c = ',' := by
  unfold range at h
  dsimp only at h
  split at h
  · exact .inl (isDigit_of_mem_toString h)
  · rcases List.mem_append.mp h with h | h
    · exact .inl (isDigit_of_mem_toString h)
    · exact (List.mem_cons.mp h).symm.imp_left isDigit_of_mem_toString

theorem comma_not_mem_toString (n : Nat) : ',' ∉ (toString n).toList := fun h =>
  absurd (isDigit_of_mem_toString h) (by decide)

theorem range?_range (start stop : Nat) :
    range? (range start stop) = some (start, stop - start) := by
  have hcut := fun n => Text.cutAt_of_not_mem (comma_not_mem_toString n)
  unfold range
  dsimp only
  by_cases hone : stop - start = 1
  · simp only [hone, if_true, range?, hcut, number?_toString, Option.map_some, Nat.add_sub_cancel]
  · simp only [if_neg hone, range?, Text.cutAt_append, hcut, List.cons_append, List.nil_append,
      number?_toString]
    by_cases hnone : stop - start = 0 <;> simp [hnone]

theorem Hunk.exists_ends {h : Hunk} (hne : h ≠ []) :
    ∃ first last, h.head? = some first ∧ h.getLast? = some last :=
  ⟨_, _, List.head?_eq_some_head hne, List.getLast?_eq_some_getLast hne⟩

/-- The parts of the first row of a hunk. It goes by the places of the first and the last piece. -/
def headerParts (first last : Piece) : List Text :=
  ["@@".toList, '-' :: range first.old (last.old + last.oldLength),
    '+' :: range first.new (last.new + last.newLength), "@@\n".toList]

theorem header_eq {h : Hunk} {first last : Piece} (hfirst : h.head? = some first)
    (hlast : h.getLast? = some last) : header h = Text.joinBy ' ' (headerParts first last) := by
  simp [header, hfirst, hlast, headerParts, Text.joinBy]

theorem ranges?_header {h : Hunk} {first last : Piece} (hfirst : h.head? = some first)
    (hlast : h.getLast? = some last) : ranges? (header h) =
      some ((first.old, last.old + last.oldLength - first.old),
        (first.new, last.new + last.newLength - first.new)) := by
  have hspace : ∀ start stop, ' ' ∉ range start stop := fun start stop h =>
    (isDigit_or_comma_of_mem_range h).elim (by decide) (by decide)
  have hparts : ∀ part ∈ headerParts first last, ' ' ∉ part := by
    simp [headerParts, hspace]
  rw [ranges?, header_eq hfirst hlast, Text.cutAt_joinBy (by simp [headerParts]) hparts]
  simp [headerParts, range?_range]

theorem exists_ranges?_header {h : Hunk} (hne : h ≠ []) : ∃ r, ranges? (header h) = some r := by
  obtain ⟨first, last, hfirst, hlast⟩ := Hunk.exists_ends hne
  exact ⟨_, ranges?_header hfirst hlast⟩

theorem plain_range (start stop : Nat) : Plain (range start stop) := by
  intro c hc
  constructor
  all_goals
    rintro rfl
    rcases isDigit_or_comma_of_mem_range hc with hdigit | hcomma
    · cases hdigit
    · cases hcomma

theorem exists_header {h : Hunk} (hne : h ≠ []) :
    ∃ t, header h = '@' :: (t ++ ['\n']) ∧ Plain t := by
  obtain ⟨first, last, hfirst, hlast⟩ := Hunk.exists_ends hne
  have hplain : ∀ t ∈ ["@ -".toList, " +".toList, " @@".toList], Plain t := by simp [Plain]
  refine ⟨"@ -".toList ++ range first.old (last.old + last.oldLength) ++ " +".toList ++
    range first.new (last.new + last.newLength) ++ " @@".toList, ?_, ?_⟩
  · simp [header, hfirst, hlast]
  · exact ((((hplain _ (by simp)).append (plain_range _ _)).append (hplain _ (by simp))).append
      (plain_range _ _)).append (hplain _ (by simp))

theorem opened_header {h : Hunk} (hne : h ≠ []) : Opened (header h) := by
  obtain ⟨t, hheader, hplain⟩ := exists_header hne
  rw [hheader]
  exact ⟨(Single.newline hplain).cons (by decide), by simp, by simp, by simp⟩

theorem Single.signed (h : Single row) {sign : Char} (hend : sign ≠ '\n' ∧ sign ≠ '\r')
    (hremark : sign ≠ '\\') : Opened (sign :: row) where
  single := h.cons hend
  ne_nil := List.cons_ne_nil _ _
  not_newline h := hend.1 (Option.some.inj h)
  not_remark h := hremark (Option.some.inj h)

theorem Piece.opened_of_mem_lines {old new : List Row} {p : Piece} (hold : ∀ r ∈ old, Single r)
    (hnew : ∀ r ∈ new, Single r) (h : row ∈ p.lines old new) : Opened row := by
  have hsigned : ∀ {sign : Char} {n m : Nat} {rs : List Row}, (∀ r ∈ rs, Single r) →
      sign ≠ '\n' ∧ sign ≠ '\r' → sign ≠ '\\' → row ∈ ((rs.drop n).take m).map (sign :: ·) →
      Opened row := by
    intro sign n m rs hrs hend hremark hrow
    obtain ⟨r, hr, rfl⟩ := List.mem_map.mp hrow
    exact (hrs r (List.mem_of_mem_drop (List.mem_of_mem_take hr))).signed hend hremark
  unfold lines at h
  dsimp only at h
  split at h
  · exact hsigned hold (by decide) (by decide) h
  · rcases List.mem_append.mp h with h | h
    · exact hsigned hold (by decide) (by decide) h
    · exact hsigned hnew (by decide) (by decide) h

theorem Hunk.opened_of_mem_lines {old new : List Row} {h : Hunk} (hne : h ≠ [])
    (hold : ∀ r ∈ old, Single r) (hnew : ∀ r ∈ new, Single r) (hrow : row ∈ h.lines old new) :
    Opened row := by
  rcases List.mem_cons.mp hrow with rfl | hrow
  · exact opened_header hne
  · obtain ⟨p, -, hp⟩ := List.mem_flatMap.mp hrow
    exact Piece.opened_of_mem_lines hold hnew hp

theorem printHunk_eq (old new : List Row) {h : Hunk} (hne : h ≠ []) :
    printHunk old new h = (h.lines old new).flatMap mark := by
  have hended : ended (header h) = true := by
    obtain ⟨t, hheader, -⟩ := exists_header hne
    rw [hheader, ended, ← List.cons_append, List.getLast?_concat]
    rfl
  have hheader : mark (header h) = header h := by
    rw [mark, hended, if_pos rfl, List.append_nil]
  rw [printHunk, Hunk.lines, List.flatMap_cons, hheader, List.flatMap_assoc]
  exact congrArg _ (List.flatMap_congr fun p _ => printPiece_eq old new p)

theorem flatMap_printHunk (old new : List Row) {hs : List Hunk} (hne : ∀ h ∈ hs, h ≠ []) :
    hs.flatMap (printHunk old new) = (hs.flatMap (Hunk.lines old new)).flatMap mark := by
  rw [List.flatMap_assoc]
  exact List.flatMap_congr fun h hh => printHunk_eq old new (hne h hh)

/-- **Printed hunks are read as their rows.** -/
theorem unmark_rows_lines (old new : Text) {hs : List Hunk} (hne : ∀ h ∈ hs, h ≠ []) :
    unmark (rows ((hs.flatMap (Hunk.lines (rows old) (rows new))).flatMap mark)) =
      hs.flatMap (Hunk.lines (rows old) (rows new)) := by
  refine unmark_rows_flatMap_mark fun row hrow => ?_
  obtain ⟨h, hh, hrow⟩ := List.mem_flatMap.mp hrow
  exact Hunk.opened_of_mem_lines (hne h hh) (fun _ => single_of_mem_rows)
    (fun _ => single_of_mem_rows) hrow

end BlockSieve.Diff
