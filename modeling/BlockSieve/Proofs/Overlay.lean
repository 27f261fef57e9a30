import BlockSieve.Proofs.Replacement

/-!
A tree in which an entry was moved over a file that stood beside it. Where the
entry was a file, every path to the old file leads to the new one. Where it
was a link, such a path goes on along the link. It arrives where the link led
before, unless that was the file itself: then the link leads to itself, and
no number of links is enough. Links are counted on the way, since a path that
was short enough before may be too long with the link at its end.
-/

namespace BlockSieve

namespace Tree

/-! ### Opening a file for writing -/

/-- Over so many links at most, a path leads to a file at a place, or to a free name where one can
be put. -/
def Opens (t : Tree) (links : Nat) (here : Place) (names : List Text) (place : Place) : Prop :=
  ∃ landing, t.Leads true links here names landing ∧ landing.filePlace? = some place

/-- A file stands at a place, or nothing does. -/
def Fillable (t : Tree) (place : Place) : Prop :=
  t.get? place = none ∨ ∃ bytes mode, t.get? place = some (.file bytes mode)

section

variable {t t' : Tree} {links more : Nat} {here place p : Place} {names : List Text} {name : Text}
  {bytes : Bytes} {mode : Nat}

theorem Fillable.ne {e : Entry} (h : t.Fillable place) (he : t.get? p = some e)
    (hfile : ∀ b m, e ≠ .file b m) : place ≠ p := by
  rintro rfl
  rcases h with hnone | ⟨_, _, hfound⟩
  · rw [hnone] at he
    cases he
  · rw [hfound] at he
    exact hfile _ _ (Option.some.inj he).symm

theorem Fillable.opens (h : t.Fillable (here ++ [name])) (proper : Proper name) :
    t.Opens links here [name] (here ++ [name]) := by
  rcases h with hnone | ⟨_, _, hfile⟩
  · exact ⟨_, .vacant proper hnone, rfl⟩
  · exact ⟨_, .file proper hfile, rfl⟩

/-- Trees that differ in a file, or in whether one is there, have the same files opened along a
path. -/
theorem Opens.of_fillable (h : t.Opens links here names p) (hbefore : t.Fillable place)
    (hafter : t'.Fillable place) (hsame : ∀ q, place ≠ q → t'.get? q = t.get? q) :
    t'.Opens links here names p := by
  have hfillable : ∀ q, t.Fillable q → t'.Fillable q := by
    intro q hq
    by_cases hplace : place = q
    · rwa [← hplace]
    · rwa [Fillable, hsame q hplace]
  obtain ⟨landing, hleads, hplace⟩ := h
  induction hleads with
  | done => cases hplace
  | stay _ ih =>
      obtain ⟨landing, hleads, hplace⟩ := ih hplace
      exact ⟨landing, .stay hleads, hplace⟩
  | up _ ih =>
      obtain ⟨landing, hleads, hplace⟩ := ih hplace
      exact ⟨landing, .up hleads, hplace⟩
  | enter proper found _ ih =>
      obtain ⟨landing, hleads, hplace⟩ := ih hplace
      have hfound := (hsame _ (hbefore.ne found (by simp))).trans found
      exact ⟨landing, .enter proper hfound hleads, hplace⟩
  | vacant proper found =>
      obtain rfl := Option.some.inj hplace
      exact (hfillable _ (.inl found)).opens proper
  | file proper found =>
      obtain rfl := Option.some.inj hplace
      exact (hfillable _ (.inr ⟨_, _, found⟩)).opens proper
  | link => cases hplace
  | through proper found onward named _ ih =>
      obtain ⟨landing, hleads, hplace⟩ := ih hplace
      have hfound := (hsame _ (hbefore.ne found (by simp))).trans found
      exact ⟨landing, .through proper hfound onward named hleads, hplace⟩

/-- A file that is there is the one that is opened. -/
theorem Opens.leads (h : t.Opens links here names place)
    (hfile : t.Leads true more here names (.there p (.file bytes mode))) :
    place = p ∧ t.Leads true links here names (.there p (.file bytes mode)) := by
  obtain ⟨landing, hleads, hplace⟩ := h
  obtain rfl := hleads.agree hfile
  exact ⟨(Option.some.inj hplace).symm, hleads⟩

/-- Along a link a path leads where the link leads, over one link more. -/
theorem opens_link_iff {target : Text} (proper : Proper name)
    (hfound : t.get? (here ++ [name]) = some (.link target)) (named : target ≠ []) :
    t.Opens links here [name] place ↔ ∃ left, links = left + 1 ∧
      t.Opens left (if fromRoot target then [] else here) (route target) place := by
  constructor
  · rintro ⟨landing, hleads, hplace⟩
    cases hleads with
    | stay => exact absurd rfl proper.ne_dot
    | up => exact absurd rfl proper.ne_dots
    | enter _ found => simp [hfound] at found
    | vacant _ found => simp [hfound] at found
    | file _ found => simp [hfound] at found
    | link _ _ stop => cases stop
    | through _ found _ _ tail =>
        rw [hfound] at found
        obtain rfl := Entry.link.inj (Option.some.inj found)
        rw [List.append_nil] at tail
        exact ⟨_, rfl, landing, tail, hplace⟩
  · rintro ⟨left, rfl, landing, hleads, hplace⟩
    rw [← List.append_nil (route target)] at hleads
    exact ⟨landing, .through proper hfound (by simp) named hleads, hplace⟩

end

/-- Over so many links at most, a link that stands in a directory leads there. -/
def LinkLeads (t : Tree) (links : Nat) (dir : Place) (target : Text) (landing : Landing) : Prop :=
  t.Leads true links (if fromRoot target then [] else dir) (route target) landing

/-! ### An entry that was moved -/

variable {t t' : Tree} {dir : Place} {name hidden : Text}

/-- The entry that stood under the hidden name of a directory was moved over a file there, and all
else is as before. -/
structure Overlaid (t : Tree) (dir : Place) (name hidden : Text) (entry : Entry) (t' : Tree) :
    Prop where
  moved : t.get? (dir ++ [hidden]) = some entry
  covered : ∃ bytes mode, t.get? (dir ++ [name]) = some (.file bytes mode)
  get? : ∀ q, t'.get? q =
    if dir ++ [name] = q then some entry
    else if dir ++ [hidden] = q then none else t.get? q

namespace Overlaid

variable {follow : Bool} {links : Nat} {here : Place} {names : List Text} {bytes old : Bytes}
  {mode kept : Nat} {target : Text}

theorem get?_over {entry : Entry} (h : t.Overlaid dir name hidden entry t') :
    t'.get? (dir ++ [name]) = some entry := by
  rw [h.get?, if_pos rfl]

theorem ne_over {entry e : Entry} {q : Place} (h : t.Overlaid dir name hidden entry t')
    (he : t'.get? q = some e) (hne : e ≠ entry) : dir ++ [name] ≠ q := by
  rintro rfl
  rw [h.get?_over] at he
  exact hne (Option.some.inj he).symm

/-- What is there afterwards, but at the place of the file, was there before. -/
theorem before {entry e : Entry} {q : Place} (h : t.Overlaid dir name hidden entry t')
    (hq : dir ++ [name] ≠ q) (he : t'.get? q = some e) : t.get? q = some e := by
  rw [h.get?, if_neg hq] at he
  split at he
  · cases he
  · exact he

/-- What is not at the place of the file, and was not moved there, stays. -/
theorem after {entry e : Entry} {q : Place} (h : t.Overlaid dir name hidden entry t')
    (hname : dir ++ [name] ≠ q) (hhidden : dir ++ [hidden] ≠ q) (he : t.get? q = some e) :
    t'.get? q = some e := by
  rw [h.get?, if_neg hname, if_neg hhidden, he]

/-- No directory and no link is covered. -/
theorem over_ne {entry e : Entry} {q : Place} (h : t.Overlaid dir name hidden entry t')
    (he : t.get? q = some e) (hfile : ∀ b m, e ≠ .file b m) : dir ++ [name] ≠ q :=
  Fillable.ne (.inr h.covered) he hfile

theorem hidden_ne {entry e : Entry} {q : Place} (h : t.Overlaid dir name hidden entry t')
    (he : t.get? q = some e) (hne : e ≠ entry) : dir ++ [hidden] ≠ q := by
  rintro rfl
  rw [h.moved] at he
  exact hne (Option.some.inj he).symm

theorem directory {entry : Entry} {q : Place} (h : t.Overlaid dir name hidden entry t')
    (hentry : .directory ≠ entry) (he : t.get? q = some .directory) :
    t'.get? q = some .directory :=
  h.after (h.over_ne he (by simp)) (h.hidden_ne he hentry) he

/-- A path that led to the file leads to the one that was moved over it. -/
theorem leads (h : t.Overlaid dir name hidden (.file bytes mode) t')
    (hleads : t.Leads follow links here names (.there (dir ++ [name]) (.file old kept))) :
    t'.Leads follow links here names (.there (dir ++ [name]) (.file bytes mode)) :=
  hleads.along
    (fun _ hp => h.directory (by simp) hp)
    (fun _ _ hp => h.after (h.over_ne hp (by simp)) (h.hidden_ne hp (by simp)) hp)
    (.there (.file ..) h.get?_over)

section

variable {more left : Nat} {p q place : Place} {content : Bytes} {mode' mode'' : Nat}

/-- A link at the place of the one that was moved is that link. -/
theorem eq_of_moved {name' target' : Text} (h : t.Overlaid dir name hidden (.link target) t')
    (hmoved : dir ++ [hidden] = here ++ [name'])
    (found : t.get? (here ++ [name']) = some (.link target')) : dir = here ∧ target' = target := by
  rw [← hmoved, h.moved] at found
  exact ⟨(List.append_inj' hmoved rfl).1, (Entry.link.inj (Option.some.inj found)).symm⟩

/-- Where a link was moved, a path that leads to a file either led there before or led to the old
file and now goes on along the link. -/
theorem split_at_link (h : t.Overlaid dir name hidden (.link target) t')
    (hafter : t'.Leads true links here names (.there q (.file content mode'')))
    (hbefore : t.Leads true more here names (.there p (.file old mode'))) :
    (p ≠ dir ++ [name] ∧ Landing.there q (.file content mode'') = .there p (.file old mode') ∧
        t.Leads true links here names (.there p (.file old mode'))) ∨
      (p = dir ++ [name] ∧ ∃ m k, m + k < links ∧
        t.Leads true m here names (.there p (.file old mode')) ∧
        t'.LinkLeads k dir target (.there q (.file content mode''))) := by
  generalize hl : Landing.there q (.file content mode'') = landing at hafter ⊢
  induction hafter generalizing more with
  | done => cases hl
  | stay _ ih =>
      rcases ih hbefore.stayed hl with ⟨hp, hsame, hgone⟩ | ⟨hp, m, k, hle, hgone, honward⟩
      · exact .inl ⟨hp, hsame, .stay hgone⟩
      · exact .inr ⟨hp, m, k, hle, .stay hgone, honward⟩
  | up _ ih =>
      rcases ih hbefore.went_up hl with ⟨hp, hsame, hgone⟩ | ⟨hp, m, k, hle, hgone, honward⟩
      · exact .inl ⟨hp, hsame, .up hgone⟩
      · exact .inr ⟨hp, m, k, hle, .up hgone, honward⟩
  | enter proper found _ ih =>
      have hfound := h.before (h.ne_over found (by simp)) found
      rcases ih (hbefore.entered proper hfound) hl with
        ⟨hp, hsame, hgone⟩ | ⟨hp, m, k, hle, hgone, honward⟩
      · exact .inl ⟨hp, hsame, .enter proper hfound hgone⟩
      · exact .inr ⟨hp, m, k, hle, .enter proper hfound hgone, honward⟩
  | vacant => cases hl
  | @file links here name' bytes mode proper found =>
      have hne := h.ne_over found (by simp)
      have hgone : t.Leads true links here [name'] (.there (here ++ [name']) (.file bytes mode)) :=
        .file proper (h.before hne found)
      have hsame := hgone.agree hbefore
      obtain ⟨rfl, -⟩ := Landing.there.inj hsame
      exact .inl ⟨Ne.symm hne, hsame, hsame ▸ hgone⟩
  | link _ _ stop => cases stop
  | @through links here name' rest target' _ proper found onward named tail ih =>
      by_cases hover : dir ++ [name] = here ++ [name']
      -- the link that was moved: from here on the path goes along it
      · obtain ⟨rfl, hname⟩ := List.append_inj' hover rfl
        obtain rfl := List.singleton_inj.mp hname
        rw [h.get?_over] at found
        obtain rfl := Entry.link.inj (Option.some.inj found)
        obtain ⟨_, _, hfile⟩ := h.covered
        obtain rfl := hbefore.ended proper hfile
        have hgone : t.Leads true 0 dir [name] (.there (dir ++ [name]) (.file _ _)) :=
          .file proper hfile
        have hsame := hgone.agree hbefore
        rw [List.append_nil] at tail
        exact .inr ⟨(Landing.there.inj hsame).1.symm, 0, links, by omega, hsame ▸ hgone, tail⟩
      · have hfound := h.before hover found
        obtain ⟨_, hrest⟩ := hbefore.passed proper hfound
        rcases ih hrest hl with ⟨hp, hsame, hgone⟩ | ⟨hp, m, k, hle, hgone, honward⟩
        · exact .inl ⟨hp, hsame, .through proper hfound onward named hgone⟩
        · exact .inr ⟨hp, m + 1, k, by omega, .through proper hfound onward named hgone, honward⟩

/-- If the link that was moved still leads to a file, it leads where it led, and that is not the
place where it stands now. -/
theorem leads_off (h : t.Overlaid dir name hidden (.link target) t')
    (hlink : t.LinkLeads left dir target (.there place (.file bytes mode)))
    (hafter : t'.LinkLeads links dir target (.there q (.file content mode''))) :
    place ≠ dir ++ [name] ∧ Landing.there q (.file content mode'') = .there place (.file bytes mode) ∧
      t.LinkLeads links dir target (.there place (.file bytes mode)) := by
  induction links using Nat.strongRecOn with
  | ind links ih =>
      rcases h.split_at_link hafter hlink with hoff | ⟨hplace, m, k, hlt, -, honward⟩
      · exact hoff
      -- it came back to itself, so from there it would have to get on with fewer links
      · exact absurd hplace (ih k (by omega) honward).1

/-- A path that leads to another file is as before, or it led through the link that was moved. -/
theorem spared_or_through (h : t.Overlaid dir name hidden (.link target) t')
    (hleads : t.Leads true links here names (.there p (.file old mode')))
    (hp : p ≠ dir ++ [name]) :
    t'.Leads true links here names (.there p (.file old mode')) ∨
      ∃ k rest, k < links ∧ t.Leads true k (if fromRoot target then [] else dir)
        (route target ++ rest) (.there p (.file old mode')) := by
  generalize hl : Landing.there p (.file old mode') = landing at hleads ⊢
  induction hleads with
  | done => cases hl
  | stay _ ih => exact (ih hl).imp_left .stay
  | up _ ih => exact (ih hl).imp_left .up
  | enter proper found _ ih =>
      exact (ih hl).imp_left (.enter proper (h.directory (by simp) found))
  | vacant => cases hl
  | file proper found =>
      obtain ⟨rfl, -⟩ := Landing.there.inj hl
      exact .inl (.file proper (h.after (Ne.symm hp) (h.hidden_ne found (by simp)) found))
  | link _ _ stop => cases stop
  | @through links here name' rest target' _ proper found onward named tail ih =>
      by_cases hmoved : dir ++ [hidden] = here ++ [name']
      · obtain ⟨rfl, rfl⟩ := h.eq_of_moved hmoved found
        exact .inr ⟨links, rest, Nat.lt_succ_self links, tail⟩
      · have hfound := h.after (h.over_ne found (by simp)) hmoved found
        rcases ih hl with hspared | ⟨k, rest', hlt, hthrough⟩
        · exact .inl (.through proper hfound onward named hspared)
        · exact .inr ⟨k, rest', Nat.lt_succ_of_lt hlt, hthrough⟩

/-- A link that led to another file than the one that it was moved over leads there still. -/
theorem leads_on (h : t.Overlaid dir name hidden (.link target) t')
    (hlink : t.LinkLeads links dir target (.there place (.file bytes mode)))
    (hplace : place ≠ dir ++ [name]) :
    t'.LinkLeads links dir target (.there place (.file bytes mode)) := by
  induction links using Nat.strongRecOn with
  | ind links ih =>
      rcases h.spared_or_through hlink hplace with hspared | ⟨k, rest, hlt, hthrough⟩
      · exact hspared
      -- it led through the place where it stood; the rest of that way is shorter
      · obtain rfl := hlink.ends_at_file hthrough
        rw [List.append_nil] at hthrough
        exact (ih k hlt hthrough).mono (Nat.le_of_lt hlt)

/-- A path that led to the file goes on along the link that was moved over it, over as many links
as there are on both ways and that one. -/
theorem leads_along (h : t.Overlaid dir name hidden (.link target) t') {m k : Nat}
    (hlink : t.LinkLeads left dir target (.there place (.file bytes mode)))
    (hplace : place ≠ dir ++ [name])
    (honward : t'.LinkLeads k dir target (.there place (.file bytes mode)))
    (hleads : t.Leads true m here names (.there (dir ++ [name]) (.file old mode'))) :
    t'.Leads true (m + k + 1) here names (.there place (.file bytes mode)) := by
  have hnamed : target ≠ [] := by
    rintro rfl
    cases hlink
  generalize hl : Landing.there (dir ++ [name]) (.file old mode') = landing at hleads
  induction hleads with
  | done => cases hl
  | stay _ ih => exact .stay (ih hl)
  | up _ ih => exact .up (ih hl)
  | enter proper found _ ih =>
      exact .enter proper (h.directory (by simp) found) (ih hl)
  | vacant => cases hl
  | @file links here name' _ _ proper found =>
      obtain ⟨hover, -⟩ := Landing.there.inj hl
      have hfound : t'.get? (here ++ [name']) = some (.link target) := by
        rw [← hover]
        exact h.get?_over
      obtain ⟨rfl, -⟩ := List.append_inj' hover rfl
      refine .through proper hfound (by simp) hnamed ?_
      rw [List.append_nil]
      exact honward.mono (Nat.le_add_left ..)
  | link _ _ stop => cases stop
  | @through links here name' rest target' _ proper found onward named tail ih =>
      have hmoved : dir ++ [hidden] ≠ here ++ [name'] := by
        intro hmoved
        obtain ⟨rfl, rfl⟩ := h.eq_of_moved hmoved found
        obtain rfl := hlink.ends_at_file tail
        rw [List.append_nil] at tail
        subst hl
        exact hplace (Landing.there.inj (hlink.agree tail)).1
      have hfound := h.after (h.over_ne found (by simp)) hmoved found
      rw [Nat.add_right_comm links 1 k]
      exact .through proper hfound onward named (ih hl)

/-- **A path to the old file arrives if the link does**, and if there are few enough links on the
way. -/
theorem leads_iff (h : t.Overlaid dir name hidden (.link target) t')
    (hlink : t.LinkLeads left dir target (.there place (.file bytes mode)))
    (hbefore : t.Leads true more here names (.there (dir ++ [name]) (.file old mode'))) :
    t'.Leads true links here names (.there place (.file bytes mode)) ↔
      place ≠ dir ++ [name] ∧ ∃ m k, m + k < links ∧
        t.Leads true m here names (.there (dir ++ [name]) (.file old mode')) ∧
        t.LinkLeads k dir target (.there place (.file bytes mode)) := by
  constructor
  · intro hafter
    rcases h.split_at_link hafter hbefore with ⟨hne, -⟩ | ⟨-, m, k, hlt, hgone, honward⟩
    · exact absurd rfl hne
    · obtain ⟨hplace, -, hon⟩ := h.leads_off hlink honward
      exact ⟨hplace, m, k, hlt, hgone, hon⟩
  · rintro ⟨hplace, m, k, hlt, hgone, hon⟩
    exact (h.leads_along hlink hplace (h.leads_on hon hplace) hgone).mono hlt

/-- A path to the old file that leads to a file leads to the one to which the link leads. -/
theorem eq_of_leads (h : t.Overlaid dir name hidden (.link target) t')
    (hlink : t.LinkLeads left dir target (.there place (.file bytes mode)))
    (hbefore : t.Leads true more here names (.there (dir ++ [name]) (.file old mode')))
    (hafter : t'.Leads true links here names (.there q (.file content mode''))) :
    Landing.there q (.file content mode'') = .there place (.file bytes mode) := by
  rcases h.split_at_link hafter hbefore with ⟨hne, -⟩ | ⟨-, m, k, -, -, honward⟩
  · exact absurd rfl hne
  · exact (h.leads_off hlink honward).2.1

end

end Overlaid

end Tree

end BlockSieve
