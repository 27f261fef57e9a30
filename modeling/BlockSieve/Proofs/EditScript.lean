import BlockSieve.Diff.Search

/-!
Edits that fit: each takes up where the one before it ends, so that together
they lead from the first rows on both sides to the last. Only the side that an
edit covers counts for that; its place on the other side may be any. The
search for a short list of edits finds such ones, wherever it cuts the rows in
two.
-/

namespace BlockSieve.Diff

/-- `n` rows from the places `x` and `y` on are on both sides, and are the same there. -/
structure Agree (old new : List Row) (x y n : Nat) : Prop where
  old_le : x + n ≤ old.length
  new_le : y + n ≤ new.length
  rows : ∀ i, i < n → old[x + i]? = new[y + i]?

namespace Agree

variable {old new : List Row} {x y m n : Nat}

theorem nil (hx : x ≤ old.length) (hy : y ≤ new.length) : Agree old new x y 0 :=
  ⟨hx, hy, fun _ h => absurd h (Nat.not_lt_zero _)⟩

theorem take (h : Agree old new x y n) (hm : m ≤ n) : Agree old new x y m where
  old_le := by have := h.old_le; omega
  new_le := by have := h.new_le; omega
  rows i hi := h.rows i (by omega)

theorem drop (h : Agree old new x y n) (hm : m ≤ n) : Agree old new (x + m) (y + m) (n - m) where
  old_le := by have := h.old_le; omega
  new_le := by have := h.new_le; omega
  rows i hi := by
    rw [Nat.add_assoc, Nat.add_assoc]
    exact h.rows (m + i) (by omega)

theorem append (h : Agree old new x y m) (h' : Agree old new (x + m) (y + m) n) :
    Agree old new x y (m + n) where
  old_le := by have := h'.old_le; omega
  new_le := by have := h'.new_le; omega
  rows i hi := by
    rcases Nat.lt_or_ge i m with hlt | hge
    · exact h.rows i hlt
    · obtain ⟨j, rfl⟩ := Nat.exists_eq_add_of_le hge
      rw [← Nat.add_assoc, ← Nat.add_assoc]
      exact h'.rows j (by omega)

end Agree

/-- The edits lead from the places `x` and `y` to the places `x'` and `y'`: each takes up where the
one before it ends, on the sides that it covers, and the rows that it keeps are the same on both
sides. On a side that it does not cover, its place may be any. -/
inductive Script (old new : List Row) : Nat → Nat → List Edit → Nat → Nat → Prop
  | done {x y} : Script old new x y [] x y
  | same {x y n edits x' y'} (pos : 0 < n) (agree : Agree old new x y n)
      (rest : Script old new (x + n) (y + n) edits x' y') :
      Script old new x y (⟨.same, x, y, n⟩ :: edits) x' y'
  | removed {x y n b edits x' y'} (pos : 0 < n) (fits : x + n ≤ old.length)
      (rest : Script old new (x + n) y edits x' y') :
      Script old new x y (⟨.removed, x, b, n⟩ :: edits) x' y'
  | added {x y n a edits x' y'} (pos : 0 < n) (fits : y + n ≤ new.length)
      (rest : Script old new x (y + n) edits x' y') :
      Script old new x y (⟨.added, a, y, n⟩ :: edits) x' y'

namespace Script

variable {old new : List Row} {x y x' y' x'' y'' : Nat} {edits more : List Edit}

theorem append (h : Script old new x y edits x' y') (h' : Script old new x' y' more x'' y'') :
    Script old new x y (edits ++ more) x'' y'' := by
  induction h with
  | done => exact h'
  | same pos agree _ ih => exact .same pos agree (ih h')
  | removed pos fits _ ih => exact .removed pos fits (ih h')
  | added pos fits _ ih => exact .added pos fits (ih h')

theorem of_append (h : Script old new x y (edits ++ more) x'' y'') :
    ∃ x' y', Script old new x y edits x' y' ∧ Script old new x' y' more x'' y'' := by
  induction edits generalizing x y with
  | nil => exact ⟨x, y, .done, h⟩
  | cons e edits ih =>
      cases h with
      | same pos agree rest =>
          obtain ⟨x', y', hfirst, hrest⟩ := ih rest
          exact ⟨x', y', .same pos agree hfirst, hrest⟩
      | removed pos fits rest =>
          obtain ⟨x', y', hfirst, hrest⟩ := ih rest
          exact ⟨x', y', .removed pos fits hfirst, hrest⟩
      | added pos fits rest =>
          obtain ⟨x', y', hfirst, hrest⟩ := ih rest
          exact ⟨x', y', .added pos fits hfirst, hrest⟩

/-- What a stretch of edits at the end is exchanged for only has to lead where the stretch led. -/
theorem exchange {edits' : List Edit} (h : Script old new x y (more ++ edits) x'' y'')
    (hexchange : ∀ x y, Script old new x y edits x'' y'' → Script old new x y edits' x'' y'') :
    Script old new x y (more ++ edits') x'' y'' := by
  obtain ⟨x', y', hfirst, hrest⟩ := h.of_append
  exact hfirst.append (hexchange x' y' hrest)

end Script

/-! ### The search -/

theorem getElem?_of_commonPrefix {as bs : List Row} {i : Nat} (h : i < commonPrefix as bs) :
    as[i]? = bs[i]? := by
  induction as generalizing bs i with
  | nil => simp [commonPrefix] at h
  | cons a as ih =>
      cases bs with
      | nil => simp [commonPrefix] at h
      | cons b bs =>
          simp only [commonPrefix] at h
          split at h
          · next hab =>
              cases i with
              | zero => simp [hab]
              | succ i => simpa using ih (Nat.lt_of_succ_lt_succ h)
          · exact absurd h (Nat.not_lt_zero _)

theorem getElem?_of_commonSuffix {as bs : List Row} {i : Nat} (h : i < commonSuffix as bs) :
    as[as.length - commonSuffix as bs + i]? = bs[bs.length - commonSuffix as bs + i]? := by
  obtain ⟨has, hbs⟩ := commonSuffix_le as bs
  have hreverse := @getElem?_of_commonPrefix as.reverse bs.reverse (commonSuffix as bs - 1 - i)
    (by unfold commonSuffix at h ⊢; omega)
  rw [List.getElem?_reverse (by omega), List.getElem?_reverse (by omega)] at hreverse
  rw [show as.length - commonSuffix as bs + i =
      as.length - 1 - (commonSuffix as bs - 1 - i) by omega,
    show bs.length - commonSuffix as bs + i = bs.length - 1 - (commonSuffix as bs - 1 - i) by omega]
  exact hreverse

theorem commonPrefix_comm (as bs : List Row) : commonPrefix as bs = commonPrefix bs as := by
  induction as generalizing bs with
  | nil => cases bs <;> rfl
  | cons a as ih =>
      cases bs with
      | nil => rfl
      | cons b bs => simp only [commonPrefix, ih bs, eq_comm]

theorem commonSuffix_comm (as bs : List Row) : commonSuffix as bs = commonSuffix bs as :=
  commonPrefix_comm _ _

/-- The rows that are searched stand at a place among all rows. -/
def Part (all : List Row) (x : Nat) (part : List Row) : Prop := part <+: all.drop x

namespace Part

variable {all old new part as bs : List Row} {x y n i j : Nat}

theorem take (h : Part all x part) (n : Nat) : Part all x (part.take n) :=
  (List.take_prefix n part).trans h

theorem drop (h : Part all x part) (n : Nat) : Part all (x + n) (part.drop n) := by
  obtain ⟨rest, hrest⟩ := h
  unfold Part
  rw [← List.drop_drop, ← hrest, List.drop_append]
  exact List.prefix_append ..

theorem le (h : Part all x part) (hne : part ≠ []) : x + part.length ≤ all.length := by
  have hlength := h.length_le
  have hpos := List.length_pos_iff.mpr hne
  rw [List.length_drop] at hlength
  omega

theorem getElem? (h : Part all x part) (hi : i < part.length) : all[x + i]? = part[i]? := by
  obtain ⟨rest, hrest⟩ := h
  rw [← List.getElem?_drop, ← hrest, List.getElem?_append_left hi]

/-- Rows in common, at places in the searched rows, are rows in common at the places of these. -/
theorem agree (ha : Part old x as) (hb : Part new y bs) (hi : i + n ≤ as.length)
    (hj : j + n ≤ bs.length) (hn : 0 < n) (h : ∀ k, k < n → as[i + k]? = bs[j + k]?) :
    Agree old new (x + i) (y + j) n where
  old_le := by
    have := ha.le (List.ne_nil_of_length_pos (by omega))
    omega
  new_le := by
    have := hb.le (List.ne_nil_of_length_pos (by omega))
    omega
  rows k hk := by
    rw [Nat.add_assoc, Nat.add_assoc, ha.getElem? (by omega), hb.getElem? (by omega)]
    exact h k hk

/-- The rows of `as` without those in common with `bs` at either end stand after the first ones. -/
theorem core (ha : Part old x as) : Part old (x + commonPrefix as bs) (core as bs) :=
  (ha.drop _).take _

end Part

theorem length_core (as bs : List Row) :
    commonPrefix as bs + (core as bs).length + commonSuffix (as.drop (commonPrefix as bs))
      (bs.drop (commonPrefix as bs)) = as.length := by
  have hprefix := (commonPrefix_le as bs).1
  have hsuffix := (commonSuffix_le (as.drop (commonPrefix as bs)) (bs.drop (commonPrefix as bs))).1
  rw [List.length_drop] at hsuffix
  rw [core, List.length_take, List.length_drop]
  omega

section

variable {old new as bs : List Row} {x y n : Nat}

theorem script_kept (h : 0 < n → Agree old new x y n) :
    Script old new x y (kept x y n) (x + n) (y + n) := by
  unfold kept
  split
  · next hn =>
      rw [hn]
      exact .done
  · next hn =>
      have hpos := Nat.pos_of_ne_zero hn
      exact .same hpos (h hpos) .done

theorem script_removed (ha : Part old x as) (hne : as ≠ []) :
    Script old new x y [⟨.removed, x, y, as.length⟩] (x + as.length) y :=
  .removed (List.length_pos_iff.mpr hne) (ha.le hne) .done

theorem script_added (hb : Part new y bs) (hne : bs ≠ []) :
    Script old new x y [⟨.added, x, y, bs.length⟩] x (y + bs.length) :=
  .added (List.length_pos_iff.mpr hne) (hb.le hne) .done

theorem script_replaced (ha : Part old x as) (hb : Part new y bs) (has : as ≠ []) (hbs : bs ≠ []) :
    Script old new x y (replaced x y as bs) (x + as.length) (y + bs.length) :=
  (script_removed ha has).append (.added (List.length_pos_iff.mpr hbs) (hb.le hbs) .done)

/-- Edits for both parts of rows that are cut in two are edits for all of them. -/
theorem script_cut {edits more : List Edit} {i j : Nat} (hi : i ≤ as.length) (hj : j ≤ bs.length)
    (hfirst : Script old new x y edits (x + (as.take i).length) (y + (bs.take j).length))
    (hrest : Script old new (x + i) (y + j) more (x + i + (as.drop i).length)
      (y + j + (bs.drop j).length)) :
    Script old new x y (edits ++ more) (x + as.length) (y + bs.length) := by
  rw [List.length_take_of_le hi, List.length_take_of_le hj] at hfirst
  rw [List.length_drop, List.length_drop, show x + i + (as.length - i) = x + as.length by omega,
    show y + j + (bs.length - j) = y + bs.length by omega] at hrest
  exact hfirst.append hrest

/-- Edits between the rows that are not in common at either end, with these rows kept around them. -/
theorem script_between {edits : List Edit} (ha : Part old x as) (hb : Part new y bs)
    (h : Script old new (x + commonPrefix as bs) (y + commonPrefix as bs) edits
      (x + commonPrefix as bs + (core as bs).length)
      (y + commonPrefix as bs + (core bs as).length)) :
    Script old new x y (kept x y (commonPrefix as bs) ++ edits ++
      kept (x + commonPrefix as bs + (core as bs).length)
        (y + commonPrefix as bs + (core bs as).length)
        (commonSuffix (as.drop (commonPrefix as bs)) (bs.drop (commonPrefix as bs))))
      (x + as.length) (y + bs.length) := by
  have hlengths := length_core as bs
  have hlengths' := length_core bs as
  rw [commonPrefix_comm bs as, commonSuffix_comm (bs.drop _)] at hlengths'
  have hsuffix := fun k => @getElem?_of_commonSuffix (as.drop (commonPrefix as bs))
    (bs.drop (commonPrefix as bs)) k
  have hprefix := fun k => @getElem?_of_commonPrefix as bs k
  generalize commonPrefix as bs = front at h hlengths hlengths' hsuffix hprefix ⊢
  generalize commonSuffix (as.drop front) (bs.drop front) = back at hlengths hlengths' hsuffix ⊢
  have hfront : Script old new x y (kept x y front) (x + front) (y + front) :=
    script_kept fun hpos => ha.agree (i := 0) (j := 0) hb (by omega) (by omega) hpos fun k hk => by
      rw [Nat.zero_add]
      exact hprefix k hk
  have hback : Script old new (x + front + (core as bs).length) (y + front + (core bs as).length)
      (kept (x + front + (core as bs).length) (y + front + (core bs as).length) back)
      (x + as.length) (y + bs.length) := by
    rw [show x + as.length = x + front + (core as bs).length + back by omega,
      show y + bs.length = y + front + (core bs as).length + back by omega]
    refine script_kept fun hpos => ?_
    have hsame : ∀ k, k < back →
        as[front + (core as bs).length + k]? = bs[front + (core bs as).length + k]? := by
      intro k hk
      have hrows := hsuffix k hk
      rw [List.length_drop, List.length_drop, List.getElem?_drop, List.getElem?_drop] at hrows
      rw [show front + (core as bs).length = front + (as.length - front - back) by omega,
        show front + (core bs as).length = front + (bs.length - front - back) by omega,
        Nat.add_assoc, Nat.add_assoc]
      exact hrows
    have hagree := ha.agree hb (i := front + (core as bs).length)
      (j := front + (core bs as).length) (by omega) (by omega) hpos hsame
    rwa [← Nat.add_assoc, ← Nat.add_assoc] at hagree
  exact (hfront.append h).append hback

/-- The search finds edits that lead from the first rows to the last ones, however the rows are cut
in two on the way. -/
theorem script_search (ha : Part old x as) (hb : Part new y bs) :
    Script old new x y (search x y as bs) (x + as.length) (y + bs.length) := by
  fun_induction search x y as bs with
  | case1 x y as bs front back x' y' edits ih₂ ih₁ =>
      have hcore : Part old x' (core as bs) := ha.core
      have hcore' : Part new y' (core bs as) := by
        have hfront : Part new (y + commonPrefix bs as) (core bs as) := hb.core
        rwa [commonPrefix_comm bs as] at hfront
      refine script_between ha hb ?_
      show Script old new x' y' edits _ _
      simp only [edits, dite_eq_ite]
      split
      · next hnil =>
          rw [hnil.1, hnil.2]
          exact .done
      · next hsome =>
          split
          · next hnil =>
              rw [hnil]
              exact script_removed hcore fun has => hsome ⟨has, hnil⟩
          · next hbs =>
              split
              · next hnil =>
                  rw [hnil]
                  exact script_added hcore' hbs
              · next has =>
                  split
                  · exact script_replaced hcore hcore' has hbs
                  · next i j _ =>
                      split
                      · next hcut =>
                          exact script_cut hcut.2.1 hcut.2.2.1
                            (ih₂ i j hcut (hcore.take i) (hcore'.take j))
                            (ih₁ i j hcut (hcore.drop i) (hcore'.drop j))
                      · exact script_replaced hcore hcore' has hbs

end

end BlockSieve.Diff
