import BlockSieve.Text.Blank

/-!
Taking texts apart: what follows a given beginning, what stands before and
after the last occurrence of a character, and the pieces between all its
occurrences. Joining the pieces again gives the text back.
-/

namespace BlockSieve.Text

/-- What follows the beginning `b` in a text that begins so. -/
def after? : Text → Text → Option Text
  | [], t => some t
  | _ :: _, [] => none
  | c :: b, d :: t => if c = d then after? b t else none

/-- The parts of a text before and after the last `sep` in it. -/
def cutLast (sep : Char) : Text → Option (Text × Text)
  | [] => none
  | c :: r =>
    match cutLast sep r with
    | some (before, after) => some (c :: before, after)
    | none => if c = sep then some ([], r) else none

/-- The pieces of a text between the occurrences of `sep`; there is one piece more than those. -/
def cutAt (sep : Char) : Text → List Text
  | [] => [[]]
  | c :: r =>
    if c = sep then [] :: cutAt sep r
    else
      match cutAt sep r with
      | [] => [[c]]
      | piece :: pieces => (c :: piece) :: pieces

/-- The pieces with `sep` between each two. -/
def joinBy (sep : Char) : List Text → Text
  | [] => []
  | [piece] => piece
  | piece :: pieces => piece ++ sep :: joinBy sep pieces

theorem after?_eq_some_iff (b t r : Text) : after? b t = some r ↔ t = b ++ r := by
  induction b generalizing t with
  | nil => simp [after?, eq_comm]
  | cons c b ih =>
    cases t with
    | nil => simp [after?]
    | cons d t =>
      by_cases h : c = d
      · simp [after?, h, ih]
      · simp [after?, h, Ne.symm h]

theorem cutLast_eq_none_iff (sep : Char) (t : Text) : cutLast sep t = none ↔ sep ∉ t := by
  induction t with
  | nil => simp [cutLast]
  | cons c r ih =>
    cases hr : cutLast sep r with
    | none =>
      have hmem := ih.mp hr
      by_cases hc : c = sep
      · simp [cutLast, hr, hc]
      · simp [cutLast, hr, hc, hmem, Ne.symm hc]
    | some p =>
      have hmem : sep ∈ r := by simpa [hr] using mt ih.mpr
      simp [cutLast, hr, hmem]

/-- The two parts make the text again, and the second is free of the separator. -/
theorem eq_of_cutLast {sep : Char} {t before after : Text}
    (h : cutLast sep t = some (before, after)) : t = before ++ sep :: after ∧ sep ∉ after := by
  induction t generalizing before with
  | nil => simp [cutLast] at h
  | cons c r ih =>
    cases hr : cutLast sep r with
    | none =>
      have hmem := (cutLast_eq_none_iff sep r).mp hr
      by_cases hc : c = sep
      · simp only [cutLast, hr, hc, if_true, Option.some.injEq, Prod.mk.injEq] at h
        obtain ⟨rfl, rfl⟩ := h
        exact ⟨by simp [hc], hmem⟩
      · simp [cutLast, hr, hc] at h
    | some p =>
      obtain ⟨p₁, p₂⟩ := p
      simp only [cutLast, hr, Option.some.injEq, Prod.mk.injEq] at h
      obtain ⟨rfl, rfl⟩ := h
      obtain ⟨hr', hmem⟩ := ih hr
      exact ⟨by simp [hr'], hmem⟩

theorem cutAt_ne_nil (sep : Char) (t : Text) : cutAt sep t ≠ [] := by
  cases t with
  | nil => simp [cutAt]
  | cons c r =>
    unfold cutAt
    split
    · simp
    · split <;> simp

/-- Cutting and joining gives the text back. -/
theorem joinBy_cutAt (sep : Char) (t : Text) : joinBy sep (cutAt sep t) = t := by
  induction t with
  | nil => rfl
  | cons c r ih =>
    unfold cutAt
    cases hr : cutAt sep r with
    | nil => exact absurd hr (cutAt_ne_nil sep r)
    | cons piece pieces =>
      rw [hr] at ih
      split
      · next hc => simp [joinBy, ih, hc]
      · cases pieces with
        | nil => simpa [joinBy] using ih
        | cons q qs => simpa [joinBy] using ih

/-- A text is cut at a separator in it just as the parts before and after that separator are. -/
theorem cutAt_append (sep : Char) (t r : Text) :
    cutAt sep (t ++ sep :: r) = cutAt sep t ++ cutAt sep r := by
  induction t with
  | nil => simp [cutAt]
  | cons c t ih =>
    simp only [List.cons_append, cutAt, ih]
    split
    · rfl
    · cases ht : cutAt sep t with
      | nil => exact absurd ht (cutAt_ne_nil sep t)
      | cons piece pieces => rfl

theorem cutAt_of_not_mem {sep : Char} {t : Text} (h : sep ∉ t) : cutAt sep t = [t] := by
  induction t with
  | nil => rfl
  | cons c t ih =>
    have hc : c ≠ sep := fun hc => h (by simp [hc])
    have ht : sep ∉ t := fun ht => h (by simp [ht])
    simp [cutAt, hc, ih ht]

theorem not_mem_of_mem_cutAt {sep : Char} {t piece : Text} (h : piece ∈ cutAt sep t) :
    sep ∉ piece := by
  induction t generalizing piece with
  | nil => simp_all [cutAt]
  | cons c t ih =>
    simp only [cutAt] at h
    split at h
    · rcases List.mem_cons.mp h with rfl | h
      · simp
      · exact ih h
    · next hc =>
      cases ht : cutAt sep t with
      | nil => exact absurd ht (cutAt_ne_nil sep t)
      | cons first pieces =>
        rw [ht] at h ih
        rcases List.mem_cons.mp h with rfl | h
        · simpa [Ne.symm hc] using ih (List.mem_cons_self ..)
        · exact ih (List.mem_cons_of_mem _ h)

/-- Joining pieces that are free of the separator and cutting gives the pieces back. -/
theorem cutAt_joinBy {sep : Char} {pieces : List Text} (hne : pieces ≠ [])
    (h : ∀ piece ∈ pieces, sep ∉ piece) : cutAt sep (joinBy sep pieces) = pieces := by
  induction pieces with
  | nil => exact absurd rfl hne
  | cons piece pieces ih =>
    have hpiece : cutAt sep piece = [piece] := cutAt_of_not_mem (h piece (by simp))
    cases pieces with
    | nil => exact hpiece
    | cons second rest =>
      have hrest := ih (by simp) fun p hp => h p (List.mem_cons_of_mem _ hp)
      simp only [joinBy, cutAt_append, hpiece, hrest, List.singleton_append]

end BlockSieve.Text
