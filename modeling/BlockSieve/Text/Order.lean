import BlockSieve.Text.Blank

/-!
The order of texts: by the first character in which they differ, where a text
comes before all that continue it. Characters go by their code points, which
is also the order of the encoded bytes.
-/

namespace BlockSieve.Text

/-- Whether a text comes before another. -/
def precedes : Text → Text → Bool
  | _, [] => false
  | [], _ :: _ => true
  | a :: s, b :: t => if a = b then precedes s t else decide (a.toNat < b.toNat)

theorem precedes_irrefl (t : Text) : precedes t t = false := by
  induction t with
  | nil => rfl
  | cons a t ih => simpa [precedes] using ih

theorem precedes_trans {r s t : Text} (hrs : precedes r s = true) (hst : precedes s t = true) :
    precedes r t = true := by
  induction r generalizing s t with
  | nil =>
    cases t with
    | nil => simp [precedes] at hst
    | cons c t => rfl
  | cons a r ih =>
    cases s with
    | nil => simp [precedes] at hrs
    | cons b s =>
      cases t with
      | nil => simp [precedes] at hst
      | cons c t =>
        by_cases hab : a = b
        · subst hab
          by_cases hac : a = c
          · subst hac
            simp only [precedes, if_true] at hrs hst ⊢
            exact ih hrs hst
          · simpa [precedes, hac] using hst
        · have lt : a.toNat < b.toNat := by simpa [precedes, hab] using hrs
          by_cases hbc : b = c
          · subst hbc
            simpa [precedes, hab] using lt
          · have lt' : b.toNat < c.toNat := by simpa [precedes, hbc] using hst
            have hac : a ≠ c := by
              intro h
              subst h
              omega
            have : a.toNat < c.toNat := by omega
            simpa [precedes, hac] using this

/-- Of two different texts one comes before the other. -/
theorem precedes_of_ne {s t : Text} (h : s ≠ t) (hst : precedes s t = false) :
    precedes t s = true := by
  induction s generalizing t with
  | nil =>
    cases t with
    | nil => exact absurd rfl h
    | cons b t => simp [precedes] at hst
  | cons a s ih =>
    cases t with
    | nil => rfl
    | cons b t =>
      by_cases hab : a = b
      · subst hab
        have hne : s ≠ t := fun e => h (by rw [e])
        simp only [precedes, if_true] at hst ⊢
        exact ih hne hst
      · have hn : a.toNat ≠ b.toNat := by
          intro e
          exact hab (Char.ext (UInt32.toNat_inj.mp e))
        have hle : ¬ a.toNat < b.toNat := by simpa [precedes, hab] using hst
        have : b.toNat < a.toNat := by omega
        simpa [precedes, Ne.symm hab] using this

end BlockSieve.Text
