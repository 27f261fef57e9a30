/-!
Text as a list of characters, and white space in the sense of the Unicode
property White_Space: 25 characters in ten ranges. Trimming removes such
characters at the ends of a text, and a text is blank when it holds nothing
else, which is to say when trimming leaves nothing.
-/

namespace BlockSieve

/-- A text is the list of its characters. -/
abbrev Text := List Char

namespace Text

/-- The code points with the property White_Space, as closed ranges in ascending order. -/
def blankRanges : List (Nat × Nat) :=
  [(0x09, 0x0D), (0x20, 0x20), (0x85, 0x85), (0xA0, 0xA0), (0x1680, 0x1680),
    (0x2000, 0x200A), (0x2028, 0x2029), (0x202F, 0x202F), (0x205F, 0x205F), (0x3000, 0x3000)]

/-- Whether a character is white space. -/
def isBlank (c : Char) : Bool :=
  blankRanges.any fun r => r.1 ≤ c.toNat && c.toNat ≤ r.2

/-- A text without the white space it begins with. -/
def trimStart (t : Text) : Text := t.dropWhile isBlank

/-- A text without the white space it ends with. -/
def trimEnd (t : Text) : Text := (t.reverse.dropWhile isBlank).reverse

/-- A text without the white space at either end. -/
def trim (t : Text) : Text := trimEnd (trimStart t)

/-- Whether a text holds white space only; the empty text does. -/
def blank (t : Text) : Bool := t.all isBlank

-- the ranges hold 25 characters in all
example : blankRanges.foldl (fun n r => n + (r.2 + 1 - r.1)) 0 = 25 := by decide

theorem trimStart_cons {c : Char} (hc : isBlank c = true) (r : Text) :
    trimStart (c :: r) = trimStart r := List.dropWhile_cons_of_pos hc

theorem blank_cons {c : Char} (hc : isBlank c = true) (r : Text) : blank (c :: r) = blank r := by
  rw [blank, List.all_cons, hc, Bool.true_and, blank]

theorem trimStart_eq_nil_iff (t : Text) : trimStart t = [] ↔ blank t = true := by
  induction t with
  | nil => simp [trimStart, blank]
  | cons c r ih =>
    by_cases hc : isBlank c = true
    · rwa [trimStart_cons hc, blank_cons hc]
    · simp [trimStart, blank, hc]

theorem trimEnd_eq_nil_iff (t : Text) : trimEnd t = [] ↔ blank t = true := by
  rw [trimEnd, List.reverse_eq_nil_iff, ← trimStart, trimStart_eq_nil_iff, blank,
    List.all_reverse, blank]

/-- Trimming leaves nothing exactly when the text is blank. -/
theorem trim_eq_nil_iff (t : Text) : trim t = [] ↔ blank t = true := by
  rw [trim, trimEnd_eq_nil_iff]
  induction t with
  | nil => simp [trimStart]
  | cons c r ih =>
    by_cases hc : isBlank c = true
    · rwa [trimStart_cons hc, blank_cons hc]
    · simp [trimStart, blank, hc]

theorem mem_trimStart {t : Text} {c : Char} (h : c ∈ t) (hc : isBlank c = false) :
    c ∈ trimStart t := by
  induction t with
  | nil => simp at h
  | cons d t ih =>
    by_cases hd : isBlank d = true
    · rcases List.mem_cons.mp h with rfl | h
      · simp [hc] at hd
      · simpa [trimStart, hd] using ih h
    · simpa [trimStart, hd] using h

/-- Trimming removes white space only. -/
theorem mem_trim {t : Text} {c : Char} (h : c ∈ t) (hc : isBlank c = false) : c ∈ trim t := by
  have hstart := mem_trimStart h hc
  simpa [trim, trimEnd, trimStart] using
    mem_trimStart (t := (trimStart t).reverse) (by simpa using hstart) hc

end Text

end BlockSieve
