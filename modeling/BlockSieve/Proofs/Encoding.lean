import BlockSieve.Text.Utf8

/-!
A text is read back from its bytes. A character takes one to four bytes, by
the size of its number; the first byte says how many there are and holds the
upper bits, and six more bits are in each of the others.
-/

namespace BlockSieve.Utf8

section

variable {b c d e : UInt8}

theorem toNat_ofNat {n : Nat} (h : n < 256) : (UInt8.ofNat n).toNat = n := by
  rw [UInt8.toNat_ofNat']
  exact Nat.mod_eq_of_lt h

theorem single_iff : b < 0x80 ↔ b.toNat < 0x80 := UInt8.lt_iff_toNat_lt

theorem continues_iff : continues c = true ↔ 0x80 ≤ c.toNat ∧ c.toNat ≤ 0xBF := by
  simp [continues, UInt8.le_iff_toNat_le]

theorem lead2_iff : lead2 b = true ↔ 0xC2 ≤ b.toNat ∧ b.toNat ≤ 0xDF := by
  simp [lead2, UInt8.le_iff_toNat_le]

theorem lead3_iff : lead3 b c = true ↔
    0xE0 ≤ b.toNat ∧ b.toNat ≤ 0xEF ∧ 0x80 ≤ c.toNat ∧ c.toNat ≤ 0xBF ∧
      (b.toNat = 0xE0 → 0xA0 ≤ c.toNat) ∧ (b.toNat = 0xED → c.toNat ≤ 0x9F) := by
  simp only [lead3, continues, Bool.or_eq_true, Bool.and_eq_true, decide_eq_true_eq, beq_iff_eq,
    UInt8.le_iff_toNat_le, ← UInt8.toNat_inj, UInt8.reduceToNat]
  omega

theorem lead4_iff : lead4 b c = true ↔
    0xF0 ≤ b.toNat ∧ b.toNat ≤ 0xF4 ∧ 0x80 ≤ c.toNat ∧ c.toNat ≤ 0xBF ∧
      (b.toNat = 0xF0 → 0x90 ≤ c.toNat) ∧ (b.toNat = 0xF4 → c.toNat ≤ 0x8F) := by
  simp only [lead4, continues, Bool.or_eq_true, Bool.and_eq_true, decide_eq_true_eq, beq_iff_eq,
    UInt8.le_iff_toNat_le, ← UInt8.toNat_inj, UInt8.reduceToNat]
  omega

theorem decode_two (r : Bytes) (hb : lead2 b = true) (hc : continues c = true) :
    decode (b :: c :: r) = Char.ofNat (extend (b.toNat % 32) c) :: decode r := by
  have hlarge : ¬ b < 0x80 := by
    have := lead2_iff.mp hb
    rw [single_iff]
    omega
  rw [decode.eq_def]
  simp [hlarge, hb, hc]

theorem decode_three (r : Bytes) (hbc : lead3 b c = true) (hd : continues d = true) :
    decode (b :: c :: d :: r) =
      Char.ofNat (extend (extend (b.toNat % 16) c) d) :: decode r := by
  have hlead := lead3_iff.mp hbc
  have hlarge : ¬ b < 0x80 := by
    rw [single_iff]
    omega
  have htwo : lead2 b = false := by
    rw [Bool.eq_false_iff, Ne, lead2_iff]
    omega
  rw [decode.eq_def]
  simp [hlarge, htwo, hbc, hd]

theorem decode_four (r : Bytes) (hbc : lead4 b c = true) (hd : continues d = true)
    (he : continues e = true) :
    decode (b :: c :: d :: e :: r) =
      Char.ofNat (extend (extend (extend (b.toNat % 8) c) d) e) :: decode r := by
  have hlead := lead4_iff.mp hbc
  have hlarge : ¬ b < 0x80 := by
    rw [single_iff]
    omega
  have htwo : lead2 b = false := by
    rw [Bool.eq_false_iff, Ne, lead2_iff]
    omega
  have hthree : lead3 b c = false := by
    rw [Bool.eq_false_iff, Ne, lead3_iff]
    omega
  rw [decode.eq_def]
  simp [hlarge, htwo, hthree, hbc, hd, he]

end

/-- A character is read back from its bytes, whatever comes after them. -/
theorem decode_encodeChar (c : Char) (r : Bytes) :
    decode (String.utf8EncodeChar c ++ r) = c :: decode r := by
  have hvalid := c.valid
  have hchar : Char.ofNat c.val.toNat = c := Char.ofNat_toNat c
  rw [String.utf8EncodeChar]
  change (c.val.toNat < 0xD800 ∨ 0xDFFF < c.val.toNat ∧ c.val.toNat < 0x110000) at hvalid
  generalize c.val.toNat = v at hvalid hchar ⊢
  subst hchar
  split
  · have hv : (UInt8.ofNat v).toNat = v := toNat_ofNat (by omega)
    have hsmall : UInt8.ofNat v < 0x80 := single_iff.mpr (by omega)
    rw [List.singleton_append, decode.eq_def]
    simp only [hsmall, if_true, hv]
  · have hlast : (UInt8.ofNat (v % 64 + 128)).toNat = v % 64 + 128 := toNat_ofNat (by omega)
    split
    · have hfirst : (UInt8.ofNat (v / 64 % 32 + 192)).toNat = v / 64 % 32 + 192 :=
        toNat_ofNat (by omega)
      have hnumber : (v / 64 % 32 + 192) % 32 * 64 + (v % 64 + 128) % 64 = v := by omega
      refine (decode_two r (lead2_iff.mpr ?_) (continues_iff.mpr ?_)).trans ?_
      · omega
      · omega
      · simp only [extend, hfirst, hlast, hnumber]
    · have hmiddle : (UInt8.ofNat (v / 64 % 64 + 128)).toNat = v / 64 % 64 + 128 :=
        toNat_ofNat (by omega)
      split
      · have hfirst : (UInt8.ofNat (v / 4096 % 16 + 224)).toNat = v / 4096 % 16 + 224 :=
          toNat_ofNat (by omega)
        have hnumber : ((v / 4096 % 16 + 224) % 16 * 64 + (v / 64 % 64 + 128) % 64) * 64 +
            (v % 64 + 128) % 64 = v := by omega
        refine (decode_three r (lead3_iff.mpr ?_) (continues_iff.mpr ?_)).trans ?_
        · omega
        · omega
        · simp only [extend, hfirst, hmiddle, hlast, hnumber]
      · have hfirst : (UInt8.ofNat (v / 262144 % 8 + 240)).toNat = v / 262144 % 8 + 240 :=
          toNat_ofNat (by omega)
        have hsecond : (UInt8.ofNat (v / 4096 % 64 + 128)).toNat = v / 4096 % 64 + 128 :=
          toNat_ofNat (by omega)
        have hnumber : (((v / 262144 % 8 + 240) % 8 * 64 + (v / 4096 % 64 + 128) % 64) * 64 +
            (v / 64 % 64 + 128) % 64) * 64 + (v % 64 + 128) % 64 = v := by omega
        refine (decode_four r (lead4_iff.mpr ?_) (continues_iff.mpr ?_)
          (continues_iff.mpr ?_)).trans ?_
        · omega
        · omega
        · omega
        · simp only [extend, hfirst, hsecond, hmiddle, hlast, hnumber]

/-- **A text is read back from its bytes.** -/
theorem decode_encode (t : Text) : decode (encode t) = t := by
  induction t with
  | nil => rfl
  | cons c t ih =>
      have hcons : encode (c :: t) = String.utf8EncodeChar c ++ encode t := List.flatMap_cons
      rw [hcons, decode_encodeChar, ih]

end BlockSieve.Utf8
