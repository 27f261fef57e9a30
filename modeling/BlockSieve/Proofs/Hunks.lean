import BlockSieve.Diff.Hunk
import BlockSieve.Proofs.Compaction

/-!
Hunks show all that changes. The pieces that fitting edits make lead from one
place to the next as the edits do; where a removal and an addition change
places without getting new ones, a piece can have a wrong place on the side of
which it covers no rows. Cutting pieces into hunks leaves out rows that are on
both sides, and nothing else.
-/

namespace BlockSieve.Diff

/-- The pieces lead from the places `x` and `y` to the places `x'` and `y'`. On a side of which a
change covers no rows, its place may be any. -/
inductive Cover (old new : List Row) : Nat → Nat → List Piece → Nat → Nat → Prop
  | done {x y} : Cover old new x y [] x y
  | stays {x y n ps x' y'} (agree : Agree old new x y n)
      (rest : Cover old new (x + n) (y + n) ps x' y') :
      Cover old new x y (⟨true, x, n, y, n⟩ :: ps) x' y'
  | change {x y a m b n ps x' y'} (some : 0 < m ∨ 0 < n)
      (old_le : x + m ≤ old.length) (new_le : y + n ≤ new.length)
      (old_at : 0 < m → a = x) (new_at : 0 < n → b = y)
      (rest : Cover old new (x + m) (y + n) ps x' y') :
      Cover old new x y (⟨false, a, m, b, n⟩ :: ps) x' y'

/-- What is pending covers the rows between the places `x` and `y` and the places `x'` and `y'`. -/
structure Pending.Spans (old new : List Row) (x y : Nat) (pending : Pending) (x' y' : Nat) :
    Prop where
  removed : pending.removed.elim (x' = x) fun r =>
    0 < r.length ∧ r.old = x ∧ x' = x + r.length
  added : pending.added.elim (y' = y) fun a =>
    0 < a.length ∧ a.new = y ∧ y' = y + a.length
  old_le : x' ≤ old.length
  new_le : y' ≤ new.length

/-- Where a hunk begins. One that begins with a change stands at the beginning of both texts, as
otherwise rows that stay come first. -/
def Hunk.start (hunk : Hunk) : Nat × Nat :=
  match hunk with
  | [] => (0, 0)
  | p :: _ => if p.stays then (p.old, p.new) else (0, 0)

/-- The hunks and what they leave out lead from the places `x` and `y` to the places `x'` and `y'`:
each begins where it says and covers rows, and the rows between them are the same on both sides. -/
inductive Shown (old new : List Row) : Nat → Nat → List Hunk → Nat → Nat → Prop
  | done {x y n} (gap : Agree old new x y n) : Shown old new x y [] (x + n) (y + n)
  | hunk {x y n h x' y' hs x'' y''} (ne_nil : h ≠ []) (gap : Agree old new x y n)
      (start : Hunk.start h = (x + n, y + n)) (cover : Cover old new (x + n) (y + n) h x' y')
      (rest : Shown old new x' y' hs x'' y'') : Shown old new x y (h :: hs) x'' y''

variable {old new : List Row} {x y x' y' x'' y'' m n : Nat} {ps qs : List Piece} {p : Piece}

namespace Cover

theorem append (h : Cover old new x y ps x' y') (h' : Cover old new x' y' qs x'' y'') :
    Cover old new x y (ps ++ qs) x'' y'' := by
  induction h with
  | done => exact h'
  | stays agree _ ih => exact .stays agree (ih h')
  | change some old_le new_le old_at new_at _ ih =>
      exact .change some old_le new_le old_at new_at (ih h')

theorem of_append (h : Cover old new x y (ps ++ qs) x'' y'') :
    ∃ x' y', Cover old new x y ps x' y' ∧ Cover old new x' y' qs x'' y'' := by
  induction ps generalizing x y with
  | nil => exact ⟨x, y, .done, h⟩
  | cons p ps ih =>
      cases h with
      | stays agree rest =>
          obtain ⟨x', y', hfirst, hrest⟩ := ih rest
          exact ⟨x', y', .stays agree hfirst, hrest⟩
      | change some old_le new_le old_at new_at rest =>
          obtain ⟨x', y', hfirst, hrest⟩ := ih rest
          exact ⟨x', y', .change some old_le new_le old_at new_at hfirst, hrest⟩

/-- A piece that stays begins where it says. -/
theorem of_stays (h : Cover old new x y (p :: ps) x' y') (hstays : p.stays = true) :
    p = ⟨true, x, p.oldLength, y, p.oldLength⟩ ∧ Agree old new x y p.oldLength ∧
      Cover old new (x + p.oldLength) (y + p.oldLength) ps x' y' := by
  cases h with
  | stays agree rest => exact ⟨rfl, agree, rest⟩
  | change => cases hstays

/-- Pieces of which none is a change are rows that are on both sides. -/
theorem agree (h : Cover old new x y ps x' y') (hstay : ps.any (fun p => !p.stays) = false)
    (hx : x ≤ old.length) (hy : y ≤ new.length) :
    ∃ n, Agree old new x y n ∧ x' = x + n ∧ y' = y + n := by
  induction h with
  | done => exact ⟨0, .nil hx hy, rfl, rfl⟩
  | stays agree _ ih =>
      obtain ⟨n, hrest, rfl, rfl⟩ := ih (by simpa using hstay) agree.old_le agree.new_le
      exact ⟨_, agree.append hrest, Nat.add_assoc .., Nat.add_assoc ..⟩
  | change => simp at hstay

end Cover

/-! ### The pieces of edits -/

namespace Pending

namespace Spans

variable {pending : Pending} {e : Edit}

theorem add_removed (h : pending.Spans old new x y x' y') (hkind : e.kind = .removed)
    (hold : e.old = x') (pos : 0 < e.length) (fits : x' + e.length ≤ old.length) :
    (pending.add e).Spans old new x y (x' + e.length) y' := by
  obtain ⟨removed, added, old_le, new_le⟩ := h
  obtain ⟨r, a⟩ := pending
  cases r with
  | none =>
      obtain rfl : x' = x := removed
      exact ⟨by simp [add, hkind, hold, pos], by simpa [add, hkind] using added, fits, new_le⟩
  | some r =>
      obtain ⟨hpos, hr, rfl⟩ := removed
      exact ⟨by simp [add, hkind, Edit.extend, hr]; omega, by simpa [add, hkind] using added, fits,
        new_le⟩

theorem add_added (h : pending.Spans old new x y x' y') (hkind : e.kind = .added)
    (hnew : e.new = y') (pos : 0 < e.length) (fits : y' + e.length ≤ new.length) :
    (pending.add e).Spans old new x y x' (y' + e.length) := by
  obtain ⟨removed, added, old_le, new_le⟩ := h
  obtain ⟨r, a⟩ := pending
  cases a with
  | none =>
      obtain rfl : y' = y := added
      exact ⟨by simpa [add, hkind] using removed, by simp [add, hkind, hnew, pos], old_le, fits⟩
  | some a =>
      obtain ⟨hpos, ha, rfl⟩ := added
      exact ⟨by simpa [add, hkind] using removed, by simp [add, hkind, Edit.extend, ha]; omega,
        old_le, fits⟩

/-- The piece that a pending change makes covers the rows that the change does. -/
theorem cover (h : pending.Spans old new x y x' y') :
    Cover old new x y pending.piece?.toList x' y' := by
  obtain ⟨removed, added, old_le, new_le⟩ := h
  obtain ⟨r, a⟩ := pending
  cases r with
  | none =>
      obtain rfl : x' = x := removed
      cases a with
      | none =>
          obtain rfl : y' = y := added
          exact .done
      | some a =>
          obtain ⟨hpos, ha, rfl⟩ := added
          exact .change (.inr hpos) old_le new_le (fun h => absurd h (Nat.lt_irrefl _))
            (fun _ => ha) .done
  | some r =>
      obtain ⟨hpos, hr, rfl⟩ := removed
      cases a with
      | none =>
          obtain rfl : y' = y := added
          exact .change (.inl hpos) old_le new_le (fun _ => hr)
            (fun h => absurd h (Nat.lt_irrefl _)) .done
      | some a =>
          obtain ⟨-, ha, rfl⟩ := added
          exact .change (.inl hpos) old_le new_le (fun _ => hr) (fun _ => ha) .done

end Spans

end Pending

/-- The pieces lead where the edits do. -/
theorem cover_piecesFrom {pending : Pending} {edits : List Edit}
    (hpending : pending.Spans old new x y x' y') (h : Script old new x' y' edits x'' y'') :
    Cover old new x y (piecesFrom pending edits) x'' y'' := by
  induction h generalizing pending x y with
  | done => exact hpending.cover
  | @same x' y' n edits _ _ pos agree _ ih =>
      have hnothing : Pending.Spans old new (x' + n) (y' + n) ⟨none, none⟩ (x' + n) (y' + n) :=
        ⟨rfl, rfl, agree.old_le, agree.new_le⟩
      have hmore := ih hnothing
      have hpiece := hpending.cover
      simp only [piecesFrom, if_true]
      refine hpiece.append ?_
      -- a run that goes on after the edit is joined with it
      split
      · next p ps hp =>
          rw [hp] at hmore
          split
          · next hstays =>
              obtain ⟨hp', hagree, hrest⟩ := hmore.of_stays hstays
              rw [hp']
              refine .stays (agree.append hagree) ?_
              rwa [← Nat.add_assoc, ← Nat.add_assoc]
          · rw [hp]
            exact .stays agree hmore
      · next hnil =>
          rw [hnil] at hmore
          exact .stays agree hmore
  | removed pos fits _ ih =>
      rw [piecesFrom, if_neg (by simp)]
      exact ih (hpending.add_removed rfl rfl pos fits)
  | added pos fits _ ih =>
      rw [piecesFrom, if_neg (by simp)]
      exact ih (hpending.add_added rfl rfl pos fits)

/-- The pieces between two lists of rows lead from the first rows to the last. -/
theorem cover_pieces (old new : List Row) :
    Cover old new 0 0 (pieces (edits old new)) old.length new.length :=
  cover_piecesFrom ⟨rfl, rfl, Nat.zero_le _, Nat.zero_le _⟩ (script_edits old new)

/-! ### The hunks of pieces -/

theorem Hunk.start_append_takeRows (begun : Hunk) (n : Nat) (p : Piece) (ps : List Piece) :
    Hunk.start (begun ++ [p.takeRows n]) = Hunk.start (begun ++ p :: ps) := by
  cases begun <;> rfl

theorem Cover.trimFirst (h : Cover old new 0 0 ps x' y') :
    ∃ n, Agree old new 0 0 n ∧ Cover old new n n (trimFirst ps) x' y' ∧
      Hunk.start (trimFirst ps) = (n, n) := by
  cases h with
  | done => exact ⟨0, .nil (Nat.zero_le _) (Nat.zero_le _), .done, rfl⟩
  | @stays _ _ n ps _ _ agree rest =>
      refine ⟨n - radius, agree.take (Nat.sub_le ..), ?_, by simp [Diff.trimFirst, Hunk.start,
        Piece.lastRows, Piece.dropRows]⟩
      have hlast := agree.drop (Nat.sub_le n radius)
      have hlength : n - radius + (n - (n - radius)) = n := by omega
      rw [Nat.zero_add] at hlast
      rw [Nat.zero_add] at rest
      have hcover := Cover.stays hlast (by rwa [hlength])
      simpa [Diff.trimFirst, Piece.lastRows, Piece.dropRows] using hcover
  | change some old_le new_le old_at new_at rest =>
      exact ⟨0, .nil (Nat.zero_le _) (Nat.zero_le _),
        .change some old_le new_le old_at new_at rest, rfl⟩

theorem Cover.trimLast (h : Cover old new x y ps x'' y'') (hx : x'' ≤ old.length)
    (hy : y'' ≤ new.length) :
    Hunk.start (trimLast ps) = Hunk.start ps ∧ ∃ x' y' n, Cover old new x y (trimLast ps) x' y' ∧
      Agree old new x' y' n ∧ x'' = x' + n ∧ y'' = y' + n := by
  rcases List.eq_nil_or_concat ps with rfl | ⟨init, p, rfl⟩
  · exact ⟨rfl, x'', y'', 0, h, .nil hx hy, rfl, rfl⟩
  · rw [List.concat_eq_append] at h ⊢
    by_cases hstays : p.stays = true
    · have htrim : Diff.trimLast (init ++ [p]) = init ++ [p.takeRows radius] := by
        simp [Diff.trimLast, hstays]
      rw [htrim]
      refine ⟨Hunk.start_append_takeRows init radius p [], ?_⟩
      obtain ⟨x', y', hinit, hp⟩ := h.of_append
      obtain ⟨hp', hagree, hdone⟩ := hp.of_stays hstays
      cases hdone
      generalize p.oldLength = n at hp' hagree hx hy ⊢
      have hle : min radius n ≤ n := Nat.min_le_right ..
      refine ⟨x' + min radius n, y' + min radius n, n - min radius n, hinit.append ?_,
        hagree.drop hle, by omega, by omega⟩
      rw [hp']
      exact .stays (hagree.take hle) .done
    · have htrim : Diff.trimLast (init ++ [p]) = init ++ [p] := by
        simp [Diff.trimLast, hstays]
      rw [htrim]
      exact ⟨rfl, x'', y'', 0, h, .nil hx hy, rfl, rfl⟩

/-- Cutting pieces where a long run stays leaves out the middle of that run. -/
theorem Cover.cutHunks {begun : Hunk} (hne : begun.reverse ++ ps ≠ [])
    (gap : Agree old new x y n)
    (hstart : Hunk.start (begun.reverse ++ ps) = (x + n, y + n))
    (hbegun : Cover old new (x + n) (y + n) begun.reverse x' y')
    (hps : Cover old new x' y' ps x'' y'') (hend : Agree old new x'' y'' m) :
    Shown old new x y (cutHunks begun ps) (x'' + m) (y'' + m) := by
  induction ps generalizing x y n begun x' y' with
  | nil =>
      cases hps
      rw [List.append_nil] at hne hstart
      exact .hunk hne gap hstart hbegun (.done hend)
  | cons p ps ih =>
      rw [Diff.cutHunks]
      split
      · next hlong =>
          obtain ⟨hp, hagree, hrest⟩ := hps.of_stays hlong.1
          generalize p.oldLength = k at hp hagree hrest hlong
          subst hp
          have hradius : 2 * radius < k := hlong.2
          have hfirst : min radius k = radius := by omega
          have htake : Cover old new x' y' [(⟨true, x', k, y', k⟩ : Piece).takeRows radius]
              (x' + radius) (y' + radius) := by
            simp only [Piece.takeRows, hfirst]
            exact .stays (hagree.take (by omega)) .done
          have hlast : Cover old new (x' + (k - radius)) (y' + (k - radius))
              [(⟨true, x', k, y', k⟩ : Piece).lastRows radius] (x' + k) (y' + k) := by
            have hdrop := Cover.stays (hagree.drop (m := k - radius) (by omega)) .done
            rwa [Nat.add_assoc, Nat.add_assoc, show k - radius + (k - (k - radius)) = k by omega]
              at hdrop
          have hmiddle : Agree old new (x' + radius) (y' + radius) (k - radius - radius) :=
            (hagree.drop (by omega)).take (by omega)
          have hx : x' + radius + (k - radius - radius) = x' + (k - radius) := by omega
          have hy : y' + radius + (k - radius - radius) = y' + (k - radius) := by omega
          rw [List.reverse_cons]
          have hbegins := (Hunk.start_append_takeRows begun.reverse radius _ ps).trans hstart
          refine .hunk (by simp) gap hbegins (hbegun.append htake)
            (ih (by simp) hmiddle ?_ ?_ hrest)
          · rw [hx, hy]
            rfl
          · rw [hx, hy]
            exact hlast
      · have hsplit : Cover old new x' y' ([p] ++ ps) x'' y'' := hps
        obtain ⟨u, v, hp, hrest⟩ := hsplit.of_append
        refine ih (by simp) gap ?_ ?_ hrest
        · rw [List.reverse_cons, List.append_assoc]
          exact hstart
        · rw [List.reverse_cons]
          exact hbegun.append hp

/-- A last hunk without a change is rows that are on both sides. -/
theorem Shown.without_last {hs : List Hunk} {h : Hunk}
    (hshown : Shown old new x y (hs ++ [h]) x' y')
    (hstay : h.any (fun p => !p.stays) = false) : Shown old new x y hs x' y' := by
  induction hs generalizing x y with
  | nil =>
      cases hshown with
      | hunk _ gap _ cover rest =>
          cases rest with
          | done gap' =>
              obtain ⟨n, hagree, rfl, rfl⟩ := cover.agree hstay gap.old_le gap.new_le
              have hall := (gap.append hagree).append (by rwa [← Nat.add_assoc, ← Nat.add_assoc])
              have hdone := Shown.done hall
              rwa [← Nat.add_assoc, ← Nat.add_assoc, ← Nat.add_assoc, ← Nat.add_assoc] at hdone
  | cons first hs ih =>
      cases hshown with
      | hunk ne_nil gap start cover rest => exact .hunk ne_nil gap start cover (ih rest)

/-- **The hunks show all that changes**: they lead from the first rows of both texts to the last. -/
theorem shown_hunks (old new : List Row) :
    Shown old new 0 0 (hunks (pieces (edits old new))) old.length new.length := by
  obtain ⟨n, hgap, hfirst, hstart⟩ := (cover_pieces old new).trimFirst
  obtain ⟨hsame, x', y', m, hlast, hend, hx, hy⟩ :=
    hfirst.trimLast (Nat.le_refl _) (Nat.le_refl _)
  unfold hunks
  generalize trimLast (trimFirst (pieces (edits old new))) = trimmed at hsame hlast ⊢
  by_cases hnil : trimmed = []
  · subst hnil
    cases hlast
    have hdone := Shown.done (hgap.append (by rwa [Nat.zero_add]))
    rw [Nat.zero_add] at hdone
    rw [hx, hy]
    exact hdone
  · have hcut : Shown old new 0 0 (cutHunks [] trimmed) old.length new.length := by
      rw [hx, hy]
      refine Cover.cutHunks hnil hgap ?_ ?_ hlast hend
      · rw [Nat.zero_add, ← hstart, ← hsame]
        rfl
      · rw [Nat.zero_add]
        exact .done
    dsimp only
    rcases List.eq_nil_or_concat (cutHunks [] trimmed) with hempty | ⟨init, h, hconcat⟩
    · rw [hempty] at hcut ⊢
      exact hcut
    · rw [hconcat, List.concat_eq_append] at hcut ⊢
      by_cases hchange : h.any (fun p => !p.stays) = true
      · simpa [hchange] using hcut
      · simpa [hchange] using hcut.without_last (Bool.eq_false_iff.mpr hchange)

end BlockSieve.Diff
