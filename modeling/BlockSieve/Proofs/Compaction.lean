import BlockSieve.Diff.Compaction
import BlockSieve.Proofs.EditScript

/-!
Compaction keeps edits fitting. An edit that is moved past rows that are kept
covers as many rows as before; an addition gives the rows at one end of it to
those kept and takes as many equal ones at its other end. A removal and an
addition that change their order fit in the new order as well, although
neither gets a new place on the side that it does not cover.
-/

namespace BlockSieve.Diff

namespace Edit

variable {old new : List Row} {e : Edit} {i : Nat}

theorem length_oldRows (h : e.old + e.oldLength ≤ old.length) :
    (e.oldRows old).length = e.oldLength := by
  rw [oldRows, List.length_take, List.length_drop]
  omega

theorem length_newRows (h : e.new + e.newLength ≤ new.length) :
    (e.newRows new).length = e.newLength := by
  rw [newRows, List.length_take, List.length_drop]
  omega

theorem getElem?_oldRows (h : i < e.oldLength) : (e.oldRows old)[i]? = old[e.old + i]? := by
  rw [oldRows, List.getElem?_take_of_lt h, List.getElem?_drop]

theorem getElem?_newRows (h : i < e.newLength) : (e.newRows new)[i]? = new[e.new + i]? := by
  rw [newRows, List.getElem?_take_of_lt h, List.getElem?_drop]

end Edit

namespace Focus

/-- The edits among which a focus is singled out. -/
def edits (f : Focus) : List Edit := f.before.reverse ++ f.here :: f.after

end Focus

section

variable {old new : List Row} {x y x' y' n : Nat} {previous here next : Edit}
  {before after : List Edit}

theorem Script.takeUp (pos : 0 < n) (agree : Agree old new x y n)
    (h : Script old new (x + n) (y + n) after x' y')
    (hx : previous.old + previous.oldLength - n = x) (hy : here.new + here.newLength - n = y) :
    Script old new x y (Focus.takeUp n previous here after) x' y' := by
  unfold Focus.takeUp
  rw [hx, hy]
  cases h with
  | done => exact .same pos agree .done
  | @same _ _ m _ _ _ _ agree' rest =>
      have hrest := Script.same (by omega) (agree.append agree')
        (by rwa [← Nat.add_assoc, ← Nat.add_assoc])
      simpa [Edit.raise, Edit.extend, Nat.add_comm] using hrest
  | removed pos' fits rest => exact .same pos agree (.removed pos' fits rest)
  | added pos' fits rest => exact .same pos agree (.added pos' fits rest)

/-- Edits of one kind side by side are one edit. -/
theorem Script.join (h : Script old new x y (previous :: here :: after) x' y')
    (hkind : previous.kind = here.kind) :
    Script old new x y (previous.extend here.length :: after) x' y' := by
  cases h with
  | same pos agree rest =>
      cases rest with
      | same pos' agree' rest =>
          rw [Nat.add_assoc, Nat.add_assoc] at rest
          exact .same (Nat.add_pos_left pos _) (agree.append agree') rest
      | removed => cases hkind
      | added => cases hkind
  | removed pos fits rest =>
      cases rest with
      | same => cases hkind
      | removed pos' fits' rest =>
          rw [Nat.add_assoc] at fits' rest
          exact .removed (Nat.add_pos_left pos _) fits' rest
      | added => cases hkind
  | added pos fits rest =>
      cases rest with
      | same => cases hkind
      | removed => cases hkind
      | added pos' fits' rest =>
          rw [Nat.add_assoc] at fits' rest
          exact .added (Nat.add_pos_left pos _) fits' rest

/-- A removal and an addition side by side can change their order. -/
theorem Script.swap (h : Script old new x y (previous :: here :: after) x' y')
    (hkind : previous.kind ≠ here.kind) (hprevious : previous.kind ≠ .same)
    (hhere : here.kind ≠ .same) : Script old new x y (here :: previous :: after) x' y' := by
  cases h with
  | same => exact absurd rfl hprevious
  | removed pos fits rest =>
      cases rest with
      | same => exact absurd rfl hhere
      | removed => exact absurd rfl hkind
      | added pos' fits' rest => exact .added pos' fits' (.removed pos fits rest)
  | added pos fits rest =>
      cases rest with
      | same => exact absurd rfl hhere
      | removed pos' fits' rest => exact .removed pos' fits' (.added pos fits rest)
      | added => exact absurd rfl hkind

/-- Rows that are kept, before an edit that covers none of their old side: the numbers of rows that
they end with in common with the new rows of the edit, and what these rows are. -/
theorem agree_commonSuffix {k m a : Nat} (agree : Agree old new x y k)
    (fits : y + k + m ≤ new.length)
    (hn : commonSuffix ((⟨.same, x, y, k⟩ : Edit).oldRows old)
      ((⟨.added, a, y + k, m⟩ : Edit).newRows new) = n) :
    n ≤ k ∧ n ≤ m ∧ Agree old new (x + (k - n)) (y + (k - n) + m) n := by
  have hold : ((⟨.same, x, y, k⟩ : Edit).oldRows old).length = k :=
    Edit.length_oldRows agree.old_le
  have hnew : ((⟨.added, a, y + k, m⟩ : Edit).newRows new).length = m :=
    Edit.length_newRows fits
  obtain ⟨hk, hm⟩ := commonSuffix_le ((⟨.same, x, y, k⟩ : Edit).oldRows old)
    ((⟨.added, a, y + k, m⟩ : Edit).newRows new)
  rw [hn, hold] at hk
  rw [hn, hnew] at hm
  have hrows := fun i => @getElem?_of_commonSuffix ((⟨.same, x, y, k⟩ : Edit).oldRows old)
    ((⟨.added, a, y + k, m⟩ : Edit).newRows new) i
  rw [hn, hold, hnew] at hrows
  refine ⟨hk, hm, ?_, ?_, fun i hi => ?_⟩
  · have := agree.old_le
    omega
  · omega
  · have hsame := hrows i hi
    rw [Edit.getElem?_oldRows (by simp [Edit.oldLength]; omega),
      Edit.getElem?_newRows (by simp [Edit.newLength]; omega)] at hsame
    dsimp only at hsame
    rw [show x + (k - n) + i = x + (k - n + i) by omega,
      show y + (k - n) + m + i = y + k + (m - n + i) by omega]
    exact hsame

/-- An edit that is not the same on both sides moves up past the rows that equal its last new
ones. -/
theorem Script.raise (h : Script old new x y (previous :: here :: after) x' y')
    (hsame : previous.kind = .same) (hother : here.kind ≠ .same)
    (hn : commonSuffix (previous.oldRows old) (here.newRows new) = n) (pos : 0 < n) :
    n ≤ previous.length ∧
      (n < previous.length → Script old new x y
        (previous.shorten n :: here.raise n :: Focus.takeUp n previous here after) x' y') ∧
      (n = previous.length → Script old new x y
        (here.raise n :: Focus.takeUp n previous here after) x' y') := by
  cases h with
  | removed => cases hsame
  | added => cases hsame
  | @same _ _ k _ _ _ _ agree rest =>
      cases rest with
      | same => exact absurd rfl hother
      -- a removal has no new rows
      | @removed _ _ m b _ _ _ _ fits rest =>
          have hnil := (commonSuffix_le ((⟨.same, x, y, k⟩ : Edit).oldRows old)
            ((⟨.removed, x + k, b, m⟩ : Edit).newRows new)).2
          rw [hn] at hnil
          simp [Edit.newRows, Edit.newLength] at hnil
          omega
      | @added _ _ m a _ _ _ pos' fits rest =>
          obtain ⟨hk, hm, hagree⟩ := agree_commonSuffix agree fits hn
          have hraised : Script old new (x + (k - n)) (y + (k - n))
              (⟨.added, a - n, y + (k - n), m⟩ ::
                Focus.takeUp n ⟨.same, x, y, k⟩ ⟨.added, a, y + k, m⟩ after) x' y' := by
            refine .added pos' (by omega) (.takeUp pos hagree ?_ ?_ ?_)
            · rwa [show x + (k - n) + n = x + k by omega,
                show y + (k - n) + m + n = y + k + m by omega]
            · simp [Edit.oldLength]
              omega
            · simp [Edit.newLength]
              omega
          have hraise : (⟨.added, a, y + k, m⟩ : Edit).raise n =
              ⟨.added, a - n, y + (k - n), m⟩ := by
            simp [Edit.raise]
            omega
          rw [← hraise] at hraised
          refine ⟨hk, fun hlt => ?_, fun hall => ?_⟩
          · exact .same (Nat.sub_pos_of_lt hlt) (agree.take (Nat.sub_le ..)) hraised
          · have hall : k - n = 0 := Nat.sub_eq_zero_of_le (Nat.le_of_eq hall.symm)
            rwa [hall] at hraised

theorem Script.length_pos (h : Script old new x y (here :: after) x' y') : 0 < here.length := by
  cases h with
  | same pos => exact pos
  | removed pos => exact pos
  | added pos => exact pos

/-- The focus moves up among edits that lead where they led, and stays of its kind. -/
theorem edits_up {a b c d : Nat} (hkind : here.kind ≠ .same)
    (h : Script old new a b (before.reverse ++ here :: after) c d) :
    Script old new a b (Focus.up old new before here after).edits c d ∧
      (Focus.up old new before here after).here.kind = here.kind := by
  fun_induction Focus.up old new before here after with
  | case1 here after => exact ⟨h, rfl⟩
  | case2 here after previous rest hsame ih =>
      rw [List.reverse_cons, List.append_assoc] at h
      have := ih (hsame ▸ hkind) (h.exchange fun _ _ h => h.join hsame)
      exact ⟨this.1, this.2.trans hsame⟩
  | case3 here after previous rest hne hsame n hle ih =>
      rw [List.reverse_cons, List.append_assoc] at h
      refine ih hkind (h.exchange fun _ _ h => ?_)
      have hpos : 0 < n := Nat.lt_of_lt_of_le h.length_pos hle
      obtain ⟨hge, -, hraised⟩ := h.raise hsame hkind rfl hpos
      rw [dif_neg (Nat.ne_of_gt hpos)]
      exact hraised (Nat.le_antisymm hge hle)
  | case4 => exact ⟨h, rfl⟩
  | case5 here after previous rest hne hsame n hlt hpos ih =>
      rw [List.reverse_cons, List.append_assoc] at h ih
      refine ih hkind (h.exchange fun _ _ h => ?_)
      exact (h.raise hsame hkind rfl (Nat.pos_of_ne_zero hpos)).2.1 (by omega)
  | case6 here after previous rest hne hother ih =>
      rw [List.reverse_cons, List.append_assoc] at h
      exact ih hkind (h.exchange fun _ _ h => h.swap hne hother hkind)

theorem Script.takeDown {a b : Nat} (pos : 0 < n) (h : Script old new a b before.reverse x y)
    (agree : Agree old new x y n) (hx : next.old = x) (hy : here.new = y) :
    Script old new a b (Focus.takeDown n next here before).reverse (x + n) (y + n) := by
  have hplain : Script old new a b (before.reverse ++ [⟨.same, x, y, n⟩]) (x + n) (y + n) :=
    h.append (.same pos agree .done)
  unfold Focus.takeDown
  rw [hx, hy]
  cases before with
  | nil => exact hplain
  | cons previous before =>
      dsimp only
      split
      · next hsame =>
          rw [List.reverse_cons] at hplain ⊢
          rw [List.append_assoc] at hplain
          exact hplain.exchange fun _ _ h => h.join hsame
      · rw [List.reverse_cons]
        exact hplain

theorem agree_commonPrefix {k m a : Nat} (agree : Agree old new x (y + m) k)
    (hn : commonPrefix ((⟨.same, x, y + m, k⟩ : Edit).oldRows old)
      ((⟨.added, a, y, m⟩ : Edit).newRows new) = n) :
    n ≤ k ∧ n ≤ m ∧ Agree old new x y n := by
  have hold : ((⟨.same, x, y + m, k⟩ : Edit).oldRows old).length = k :=
    Edit.length_oldRows agree.old_le
  have hfits := agree.new_le
  have hnew : ((⟨.added, a, y, m⟩ : Edit).newRows new).length = m :=
    Edit.length_newRows (by simp [Edit.newLength]; omega)
  obtain ⟨hk, hm⟩ := commonPrefix_le ((⟨.same, x, y + m, k⟩ : Edit).oldRows old)
    ((⟨.added, a, y, m⟩ : Edit).newRows new)
  rw [hn, hold] at hk
  rw [hn, hnew] at hm
  refine ⟨hk, hm, ?_, by omega, fun i hi => ?_⟩
  · have := agree.old_le
    omega
  · have hsame := getElem?_of_commonPrefix (hn.symm ▸ hi)
    rwa [Edit.getElem?_oldRows (by simp [Edit.oldLength]; omega),
      Edit.getElem?_newRows (by simp [Edit.newLength]; omega)] at hsame

/-- An edit that is not the same on both sides moves down past the rows that equal its first new
ones. -/
theorem Script.lower {a b c d : Nat}
    (h : Script old new a b (before.reverse ++ here :: next :: after) c d)
    (hsame : next.kind = .same) (hother : here.kind ≠ .same)
    (hn : commonPrefix (next.oldRows old) (here.newRows new) = n) (pos : 0 < n) :
    n ≤ next.length ∧
      (n < next.length → Script old new a b ((Focus.takeDown n next here before).reverse ++
        here.lower n :: (next.lower n).shorten n :: after) c d) ∧
      (n = next.length → Script old new a b ((Focus.takeDown n next here before).reverse ++
        here.lower n :: after) c d) := by
  obtain ⟨x, y, hbefore, hfocus⟩ := h.of_append
  cases hfocus with
  | same => exact absurd rfl hother
  -- a removal has no new rows
  | @removed _ _ m b _ _ _ pos' fits rest =>
      have hnil := (commonPrefix_le (next.oldRows old)
        ((⟨.removed, x, b, m⟩ : Edit).newRows new)).2
      rw [hn] at hnil
      simp [Edit.newRows, Edit.newLength] at hnil
      omega
  | @added _ _ m a' _ _ _ pos' fits rest =>
      cases rest with
      | removed => cases hsame
      | added => cases hsame
      | @same _ _ k _ _ _ _ agree rest =>
          obtain ⟨hk, hm, hagree⟩ := agree_commonPrefix agree hn
          have hfront : Script old new a b (Focus.takeDown n ⟨.same, x, y + m, k⟩
              ⟨.added, a', y, m⟩ before).reverse (x + n) (y + n) :=
            .takeDown pos hbefore hagree rfl rfl
          have hfits : y + n + m ≤ new.length := by
            have := agree.new_le
            omega
          have hback : Script old new (x + k) (y + n + m + (k - n)) after c d := by
            rwa [show y + n + m + (k - n) = y + m + k by omega]
          refine ⟨hk, fun hlt => hfront.append (.added pos' hfits ?_), fun hall => ?_⟩
          · have hlowered : ((⟨.same, x, y + m, k⟩ : Edit).lower n).shorten n =
                ⟨.same, x + n, y + n + m, k - n⟩ := by
              simp [Edit.lower, Edit.shorten]
              omega
            have hdrop := agree.drop hk
            rw [show y + m + n = y + n + m by omega] at hdrop
            rw [show x + k = x + n + (k - n) by omega] at hback
            rw [hlowered]
            exact .same (Nat.sub_pos_of_lt hlt) hdrop hback
          · have hall : k = n := hall.symm
            rw [hall, Nat.sub_self, Nat.add_zero] at hback
            exact hfront.append (.added pos' hfits hback)

/-- The focus moves down among edits that lead where they led. -/
theorem edits_down {a b c d : Nat} (hkind : here.kind ≠ .same)
    (h : Script old new a b (before.reverse ++ here :: after) c d) :
    Script old new a b (Focus.down old new before here after).edits c d := by
  fun_induction Focus.down old new before here after with
  | case1 before here => exact h
  | case2 before here next rest hsame ih =>
      exact ih hkind (h.exchange fun _ _ h => h.join hsame.symm)
  | case3 before here next rest hne hsame n hle ih =>
      have hnext : 0 < next.length := by
        rw [List.append_cons] at h
        obtain ⟨_, _, -, hrest⟩ := h.of_append
        exact hrest.length_pos
      have hpos : 0 < n := Nat.lt_of_lt_of_le hnext hle
      obtain ⟨hge, -, hlowered⟩ := h.lower hsame hkind rfl hpos
      rw [dif_neg (Nat.ne_of_gt hpos)] at ih
      rw [if_neg (Nat.ne_of_gt hpos)]
      exact ih hkind (hlowered (Nat.le_antisymm hge hle))
  | case4 => exact h
  | case5 before here next rest hne hsame n hlt hpos ih =>
      exact ih hkind ((h.lower hsame hkind rfl (Nat.pos_of_ne_zero hpos)).2.1 (by omega))
  | case6 before here next rest hne hother ih =>
      rw [List.reverse_cons, List.append_assoc] at ih
      exact ih hkind (h.exchange fun _ _ h => h.swap (Ne.symm hne) hkind hother)

/-- A focus settles among edits that lead where they led. -/
theorem edits_settle {a b c d : Nat} {f : Focus} (hkind : f.here.kind ≠ .same)
    (h : Script old new a b f.edits c d) : Script old new a b (f.settle old new).edits c d := by
  obtain ⟨hup, hsame⟩ := edits_up hkind h
  exact edits_down (hsame ▸ hkind) hup

/-- All edits of a kind settle among edits that lead where they led. -/
theorem script_settleAll {a b c d : Nat} {kind : Kind} (hkind : kind ≠ .same)
    (h : Script old new a b (before.reverse ++ after) c d) :
    Script old new a b (settleAll old new kind before after) c d := by
  fun_induction settleAll old new kind before after with
  | case1 before => rwa [List.append_nil] at h
  | case2 before here rest hhere passed settled next hsettle _ ih =>
      have hsettled := edits_settle (f := ⟨before, here, rest⟩) (hhere ▸ hkind) h
      rw [hsettle] at hsettled
      refine ih ?_
      rw [List.reverse_cons, List.append_assoc]
      exact hsettled
  | case3 => exact h
  | case4 before here rest hhere ih =>
      exact ih (by simpa using h)

/-- Whatever two lists of rows are, the edits between them lead from the first rows to the last. -/
theorem script_edits (old new : List Row) :
    Script old new 0 0 (edits old new) old.length new.length := by
  have hsearch : Script old new 0 0 (search 0 0 old new) (0 + old.length) (0 + new.length) :=
    script_search (List.prefix_refl old) (List.prefix_refl new)
  rw [Nat.zero_add, Nat.zero_add] at hsearch
  exact script_settleAll (by simp) (script_settleAll (by simp) hsearch)

end

end BlockSieve.Diff
