import BlockSieve.Text.Blank

/-!
Texts as bytes, in UTF-8. Every text has an encoding; decoding accepts every
sequence of bytes and puts the replacement character for each maximal part
that is not the encoding of a character: the longest beginning of an encoded
character that is there, or a single byte where not even one begins.
-/

namespace BlockSieve

/-- What a file holds. -/
abbrev Bytes := List UInt8

namespace Utf8

/-- The bytes of a text. -/
def encode (t : Text) : Bytes := t.flatMap String.utf8EncodeChar

/-- What stands for bytes that encode nothing. -/
def replacement : Char := '\uFFFD'

/-- Whether a byte can continue a character. -/
def continues (b : UInt8) : Bool := 0x80 ≤ b && b ≤ 0xBF

/-- Whether a byte begins a character of two bytes. -/
def lead2 (b : UInt8) : Bool := 0xC2 ≤ b && b ≤ 0xDF

/-- Whether `b` and `c` begin a character of three bytes. -/
def lead3 (b c : UInt8) : Bool :=
  (b == 0xE0 && 0xA0 ≤ c && c ≤ 0xBF) || (0xE1 ≤ b && b ≤ 0xEC && continues c) ||
    (b == 0xED && 0x80 ≤ c && c ≤ 0x9F) || (0xEE ≤ b && b ≤ 0xEF && continues c)

/-- Whether `b` and `c` begin a character of four bytes. -/
def lead4 (b c : UInt8) : Bool :=
  (b == 0xF0 && 0x90 ≤ c && c ≤ 0xBF) || (0xF1 ≤ b && b ≤ 0xF3 && continues c) ||
    (b == 0xF4 && 0x80 ≤ c && c ≤ 0x8F)

/-- Appends the six bits of a continuation byte. -/
def extend (n : Nat) (b : UInt8) : Nat := n * 64 + b.toNat % 64

/-- The text that a sequence of bytes stands for. -/
def decode : Bytes → Text
  | [] => []
  | b :: r =>
    if b < 0x80 then Char.ofNat b.toNat :: decode r
    else
      match r with
      | [] => [replacement]
      | c :: r₁ =>
        if lead2 b && continues c then Char.ofNat (extend (b.toNat % 32) c) :: decode r₁
        else if lead3 b c then
          match r₁ with
          | [] => [replacement]
          | d :: r₂ =>
            if continues d then Char.ofNat (extend (extend (b.toNat % 16) c) d) :: decode r₂
            else replacement :: decode (d :: r₂)
        else if lead4 b c then
          match r₁ with
          | [] => [replacement]
          | d :: r₂ =>
            if continues d then
              match r₂ with
              | [] => [replacement]
              | e :: r₃ =>
                if continues e then
                  Char.ofNat (extend (extend (extend (b.toNat % 8) c) d) e) :: decode r₃
                else replacement :: decode (e :: r₃)
            else replacement :: decode (d :: r₂)
        else replacement :: decode (c :: r₁)

/-- Whether a sequence of bytes is the encoding of a text. -/
def isEncoding (b : Bytes) : Bool := encode (decode b) == b

end Utf8

end BlockSieve
