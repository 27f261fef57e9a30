import BlockSieve.Text.Blank

/-!
Hexadecimal digits, and the numbers that escapes write with them.
-/

namespace BlockSieve.Text

/-- The value of a hexadecimal digit. -/
def hexDigit? (c : Char) : Option Nat :=
  if '0' ≤ c ∧ c ≤ '9' then some (c.toNat - '0'.toNat)
  else if 'a' ≤ c ∧ c ≤ 'f' then some (c.toNat - 'a'.toNat + 10)
  else if 'A' ≤ c ∧ c ≤ 'F' then some (c.toNat - 'A'.toNat + 10)
  else none

/-- The number that `count` hexadecimal digits continue from `high`, and what follows them. -/
def hexNumber? : Nat → Nat → Text → Option (Nat × Text)
  | 0, high, t => some (high, t)
  | _ + 1, _, [] => none
  | count + 1, high, c :: rest =>
    match hexDigit? c with
    | none => none
    | some d => hexNumber? count (high * 16 + d) rest

/-- The character with a code point, unless it is a surrogate or out of range. -/
def charOf? (n : Nat) : Option Char := if n.isValidChar then some (Char.ofNat n) else none

end BlockSieve.Text
