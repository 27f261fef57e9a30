import BlockSieve.Disk.Replace
import BlockSieve.Proofs.PathName

/-!
Making directories along a path that does not go up. All that is made stands
below one place that was free, in a directory that was there before, and the
names that lead there are names of the path. So what is made hides nothing and
reveals nothing: a path along the same names that ends at a file or a link
ended there before.
-/

namespace BlockSieve

namespace Tree

/-- Whatever stands in the tree stands in a directory. -/
def Rooted (t : Tree) : Prop :=
  ∀ dir name e, t.get? (dir ++ [name]) = some e → t.get? dir = some .directory

theorem mem_of_entryAt {p : Place} {e : Entry} {l : List (Place × Entry)}
    (h : entryAt p l = some e) : (p, e) ∈ l := by
  induction l with
  | nil => cases h
  | cons x rest ih =>
      obtain ⟨q, f⟩ := x
      unfold entryAt at h
      split at h
      · next hq =>
          obtain rfl := Option.some.inj h
          exact hq ▸ List.mem_cons_self ..
      · exact List.mem_cons_of_mem _ (ih h)

theorem rooted_of_entries {t : Tree}
    (h : ∀ x ∈ t.entries, t.get? x.1.dropLast = some .directory) : t.Rooted := by
  intro dir name e he
  rw [Tree.get?, if_neg (by simp)] at he
  have hdir := h _ (mem_of_entryAt he)
  rwa [List.dropLast_concat] at hdir

theorem Rooted.above {t : Tree} (h : t.Rooted) {root rest : Place} {e : Entry}
    (he : t.get? (root ++ rest) = some e) (hrest : rest ≠ []) :
    t.get? root = some .directory := by
  induction rest generalizing root with
  | nil => exact absurd rfl hrest
  | cons name rest ih =>
      rw [List.append_cons] at he
      by_cases hnil : rest = []
      · rw [hnil, List.append_nil] at he
        exact h _ _ _ he
      · exact h _ _ _ (ih he hnil)

theorem Rooted.nothing_below {t : Tree} (h : t.Rooted) {root : Place} (hfree : t.get? root = none)
    (rest : Place) : t.get? (root ++ rest) = none := by
  apply Decidable.byContradiction
  intro hfound
  obtain ⟨e, he⟩ := Option.ne_none_iff_exists'.mp hfound
  by_cases hrest : rest = []
  · rw [hrest, List.append_nil] at hfound
    exact hfound hfree
  · have habove := h.above he hrest
    rw [hfree] at habove
    cases habove

section

variable {t : Tree} {follow : Bool} {links : Nat} {here : Place} {names : List Text}
  {landing : Landing}

/-- Where nothing but directories is, a path that does not go up stays and finds no file. -/
theorem Leads.stays_below {root : Place} (h : t.Leads follow links here names landing)
    (hroot : ∀ q e, root <+: q → t.get? q = some e → e = .directory) (hhere : root <+: here)
    (hup : ['.', '.'] ∉ names) :
    ∃ p, root <+: p ∧ (landing = .there p .directory ∨ ∃ name, landing = .vacant p name) := by
  induction h with
  | done => exact ⟨_, hhere, .inl rfl⟩
  | stay _ ih => exact ih hhere (List.not_mem_of_not_mem_cons hup)
  | up => exact absurd (List.mem_cons_self ..) hup
  | enter _ _ _ ih =>
      exact ih (hhere.trans (List.prefix_append ..)) (List.not_mem_of_not_mem_cons hup)
  | vacant => exact ⟨_, hhere, .inr ⟨_, rfl⟩⟩
  | file _ found => cases hroot _ _ (hhere.trans (List.prefix_append ..)) found
  | link _ found => cases hroot _ _ (hhere.trans (List.prefix_append ..)) found
  | through _ found => cases hroot _ _ (hhere.trans (List.prefix_append ..)) found

end

end Tree

namespace Disk

variable {d d' : Disk} {path : Text} {here : Place} {names above init : List Text}

/-! ### What is made -/

theorem makeDirectory_eq_ok (h : d.makeDirectory path = .ok d') :
    ∃ dir name, d.Names path dir name ∧ d.tree.get? (dir ++ [name]) = none ∧
      d' = d.put (dir ++ [name]) .directory := by
  unfold makeDirectory at h
  split at h
  · cases h
  · cases h
  · next dir name hholder =>
      split at h
      · cases h
      · next hfree =>
          exact ⟨dir, name, (names_of_holder hholder).1, hfree, (Except.ok.inj h).symm⟩

theorem changed_of_makeDirectory (h : d.makeDirectory path = .ok d') : d.Changed [] d' := by
  obtain ⟨dir, name, -, hfree, rfl⟩ := makeDirectory_eq_ok h
  refine ⟨rfl, rfl, fun q _ => ?_⟩
  rw [put, Tree.get?_put_of_ne_nil _ (by simp)]
  split
  · next hq => exact .inr ⟨hq ▸ hfree, rfl⟩
  · exact .inl rfl

/-- What it comes to to make the first of the given directories: it is made, or it is made after the
rest of the list, or nothing more is made, with or without the rest. -/
theorem makeInnermost_cons (d : Disk) (path : Text) (above : List Text) :
    (d.makeInnermost (path :: above)).2 = d ∨
      (d.makeInnermost (path :: above)).2 = (d.makeInnermost above).2 ∨
      d.makeDirectory path = .ok (d.makeInnermost (path :: above)).2 ∨
      (d.makeInnermost above).2.makeDirectory path =
        .ok (d.makeInnermost (path :: above)).2 := by
  obtain ⟨result, after, hrest⟩ : ∃ r a, d.makeInnermost above = (r, a) := ⟨_, _, rfl⟩
  rw [makeInnermost, hrest]
  split
  · exact .inl rfl
  · split
    · next hmade => exact .inr (.inr (.inl hmade))
    · cases result with
      | error cause => exact .inr (.inl rfl)
      | ok _ =>
          dsimp only
          split
          · next hmade => exact .inr (.inr (.inr hmade))
          · split
            · exact .inr (.inl rfl)
            · exact .inr (.inl rfl)
    · split
      · exact .inl rfl
      · exact .inl rfl

/-- Directories made before a failure stay, and nothing else changes. -/
theorem changed_makeInnermost (paths : List Text) : d.Changed [] (d.makeInnermost paths).2 := by
  induction paths with
  | nil => exact .refl d
  | cons path above ih =>
      rcases d.makeInnermost_cons path above with hsame | hrest | hmade | hmade
      · rw [hsame]
        exact .refl d
      · rw [hrest]
        exact ih
      · exact changed_of_makeDirectory hmade
      · exact ih.trans (changed_of_makeDirectory hmade)

/-- To make the directory that holds a path is to make nothing or the one that the path names. -/
theorem makeParent_disk (d : Disk) (path : Path) :
    (d.makeParent path).2 = d ∨
      ∃ parent, path.parent? = some parent ∧
        (d.makeParent path).2 = (d.makeDirectories parent.text).2 := by
  unfold makeParent
  split
  · exact .inl rfl
  · next parent hparent =>
      refine .inr ⟨parent, hparent, ?_⟩
      split
      · next hmade => rw [hmade]
      · next hmade => rw [hmade]

theorem changed_makeParent (path : Path) : d.Changed [] (d.makeParent path).2 := by
  rcases d.makeParent_disk path with hsame | ⟨parent, -, hmade⟩
  · rw [hsame]
    exact .refl d
  · rw [hmade]
    exact changed_makeInnermost _

/-! ### Where it is made -/

/-- Directories were made at a place that was free, and below it: the first of them under `name` in
a directory that was there, to which the names `init` lead. -/
structure Grown (d : Disk) (here : Place) (init : List Text) (name : Text) (dir : Place)
    (d' : Disk) : Prop where
  proper : Tree.Proper name
  leads : d.tree.Leads true Tree.linkLimit here (init ++ [['.']]) (.there dir .directory)
  free : d.tree.get? (dir ++ [name]) = none
  made : d'.tree.get? (dir ++ [name]) = some .directory
  inside : ∀ q, d'.tree.get? q ≠ d.tree.get? q → dir ++ [name] <+: q
  changed : d.Changed [] d'

/-- What making directories along names can come to. -/
inductive Extended (d : Disk) (here : Place) (names : List Text) : Disk → Prop
  | same : Extended d here names d
  | grown {init name dir d'} (along : init ++ [name] <+: names)
      (growth : d.Grown here init name dir d') : Extended d here names d'

theorem Extended.changed (h : d.Extended here names d') : d.Changed [] d' := by
  cases h with
  | same => exact .refl d
  | grown _ growth => exact growth.changed

theorem Extended.mono (h : d.Extended here above d') (habove : above <+: names) :
    d.Extended here names d' := by
  cases h with
  | same => exact .same
  | grown along growth => exact .grown (along.trans habove) growth

/-- Below what was made there is nothing but what was made. -/
theorem Grown.directory_of_inside {name : Text} {dir q : Place} {e : Entry}
    (h : d.Grown here init name dir d') (hrooted : d.tree.Rooted) (hq : dir ++ [name] <+: q)
    (he : d'.tree.get? q = some e) : e = .directory := by
  apply Decidable.byContradiction
  intro hdir
  have hbefore := h.changed.before (by simp) he hdir
  obtain ⟨rest, rfl⟩ := hq
  rw [hrooted.nothing_below h.free] at hbefore
  cases hbefore

/-- A path through the first directory that was made, if it does not go up, stays below it. -/
theorem Grown.stays_inside {name : Text} {dir : Place} {rest : List Text} {follow : Bool}
    {landing : Tree.Landing} (h : d.Grown here init name dir d') (hrooted : d.tree.Rooted)
    (hleads : d'.tree.Leads follow Tree.linkLimit here (init ++ name :: rest) landing)
    (hup : ['.', '.'] ∉ rest) :
    ∃ p, dir ++ [name] <+: p ∧
      (landing = .there p .directory ∨ ∃ n, landing = .vacant p n) := by
  have hkeeps : d.Keeps d' := h.changed.keeps (by simp)
  obtain ⟨left, hgo⟩ := (h.leads.kept hkeeps.tree .directory).goes_on
  have hlast := (hgo follow (name :: rest) landing (by simp)).mp hleads
  refine (hlast.entered h.proper h.made).stays_below ?_ (List.prefix_refl _) hup
  exact fun q e => h.directory_of_inside hrooted

/-- One more directory is made below those that were made before it. -/
theorem Extended.makeDirectory {after : Disk} (h : d.Extended (d.start path) above after)
    (hrooted : d.tree.Rooted) (hup : ['.', '.'] ∉ Tree.namesOf path)
    (habove : above <+: (Tree.namesOf path).dropLast) (hmade : after.makeDirectory path = .ok d') :
    d.Extended (d.start path) (Tree.namesOf path) d' := by
  have hchanged' := changed_of_makeDirectory hmade
  obtain ⟨dir, name, ⟨proper, init, hinit, hleads⟩, hfree, rfl⟩ := makeDirectory_eq_ok hmade
  have hput : ∀ q, (after.put (dir ++ [name]) .directory).tree.get? q =
      if dir ++ [name] = q then some .directory else after.tree.get? q :=
    fun q => Tree.get?_put_of_ne_nil _ (by simp) q _
  cases h with
  | same =>
      refine .grown (hinit ▸ List.prefix_refl _)
        ⟨proper, hleads, hfree, by rw [hput, if_pos rfl], fun q hq => ?_, hchanged'⟩
      rw [hput] at hq
      split at hq
      · next hsame => exact hsame ▸ List.prefix_refl _
      · exact absurd rfl hq
  | @grown init₀ name₀ dir₀ _ along growth =>
      rw [hinit, List.dropLast_concat] at habove
      obtain ⟨rest, rfl⟩ := along.trans habove
      -- the new directory is below the first one that was made, since the path leads through that
      have hbelow : dir₀ ++ [name₀] <+: dir := by
        have hkeeps : d.Keeps after := growth.changed.keeps (by simp)
        have hup' : ['.', '.'] ∉ rest ++ [['.']] := by
          rw [hinit] at hup
          simp only [List.mem_append, not_or] at hup ⊢
          exact ⟨hup.1.2, by decide⟩
        rw [hkeeps.start, List.append_assoc, List.append_assoc] at hleads
        obtain ⟨p, hp, hthere | ⟨_, hvacant⟩⟩ := growth.stays_inside hrooted hleads hup'
        · obtain ⟨rfl, -⟩ := Tree.Landing.there.inj hthere
          exact hp
        · cases hvacant
      refine .grown ?_ ⟨growth.proper, growth.leads, growth.free, ?_, fun q hq => ?_,
        growth.changed.trans hchanged'⟩
      · rw [hinit, List.append_assoc]
        exact List.prefix_append ..
      · rw [hput]
        split
        · rfl
        · exact growth.made
      · rw [hput] at hq
        split at hq
        · next hsame => exact hsame ▸ hbelow.trans (List.prefix_append ..)
        · exact growth.inside q hq

theorem extended_makeInnermost_cons (paths : List Text) (hrooted : d.tree.Rooted)
    (hup : ['.', '.'] ∉ Tree.namesOf path)
    (h : d.Extended (d.start path) above (d.makeInnermost paths).2)
    (habove : above <+: (Tree.namesOf path).dropLast) :
    d.Extended (d.start path) (Tree.namesOf path) (d.makeInnermost (path :: paths)).2 := by
  rcases d.makeInnermost_cons path paths with hsame | hrest | hmade | hmade
  · rw [hsame]
    exact .same
  · rw [hrest]
    exact h.mono (habove.trans (List.dropLast_prefix _))
  · exact Extended.same.makeDirectory hrooted hup List.nil_prefix hmade
  · exact h.makeDirectory hrooted hup habove hmade

theorem extended_makeDirectories (hrooted : d.tree.Rooted) (hup : ['.', '.'] ∉ Tree.namesOf path) :
    d.Extended (d.start path) (Tree.namesOf path) (d.makeDirectories path).2 := by
  unfold makeDirectories
  fun_induction Component.upwards path with
  | case1 path hnone =>
      exact extended_makeInnermost_cons [] hrooted hup .same List.nil_prefix
  | case2 path directory hdirectory hlength ih =>
      have habove : Tree.namesOf directory <+: (Tree.namesOf path).dropLast :=
        (Component.above_directory? hdirectory).prefix_dropLast
      have hstart : d.start directory = d.start path := by
        unfold Disk.start
        rw [Component.fromRoot_directory? hdirectory]
      have hmade := ih fun hmem => hup ((habove.trans (List.dropLast_prefix _)).mem hmem)
      rw [hstart] at hmade
      exact extended_makeInnermost_cons _ hrooted hup hmade habove
  | case3 path directory hdirectory hlength =>
      exact extended_makeInnermost_cons [] hrooted hup .same List.nil_prefix

theorem extended_makeParent {path : Path} (hrooted : d.tree.Rooted)
    (hup : ['.', '.'] ∉ Tree.namesOf path.text) :
    d.Extended (d.start path.text) (Tree.namesOf path.text).dropLast (d.makeParent path).2 := by
  rcases d.makeParent_disk path with hsame | ⟨parent, hparent, hmade⟩
  · rw [hsame]
    exact .same
  · obtain ⟨hroot, hnames⟩ := Path.names_of_parent? hparent
    have hstart : d.start parent.text = d.start path.text := by
      unfold Disk.start
      rw [hroot]
    have hup' : ['.', '.'] ∉ Tree.namesOf parent.text := by
      rw [hnames]
      exact fun hmem => hup ((List.dropLast_prefix _).mem hmem)
    rw [hmade, ← hstart, ← hnames]
    exact extended_makeDirectories hrooted hup'

/-- A directory that was there before holds no file and no link that it did not hold before. -/
theorem Changed.reveals_nothing {dir : Place} {name : Text} {p : Place} {e : Entry}
    (h : d.Changed [] d')
    (hdir : d.tree.Leads true Tree.linkLimit here (init ++ [['.']]) (.there dir .directory))
    (hleads : d'.tree.Leads false Tree.linkLimit here (init ++ [name]) (.there p e))
    (he : e ≠ .directory) :
    d.tree.Leads false Tree.linkLimit here (init ++ [name]) (.there p e) := by
  have hkeeps : d.Keeps d' := h.keeps (by simp)
  obtain ⟨left, hgo⟩ := (hdir.kept hkeeps.tree .directory).goes_on
  have hlast := (hgo false [name] (.there p e) (by simp)).mp hleads
  cases hlast with
  | stay tail =>
      cases tail
      exact absurd rfl he
  | up tail =>
      cases tail
      exact absurd rfl he
  | enter _ _ tail =>
      cases tail
      exact absurd rfl he
  | file proper found =>
      have hbefore := h.before (by simp) found he
      exact hdir.to_last fun _ => .file proper hbefore
  | link proper found =>
      have hbefore := h.before (by simp) found he
      exact hdir.to_last fun _ => .link proper hbefore rfl
  | through _ _ onward => exact absurd ⟨rfl, rfl⟩ onward

/-- Making directories along a path reveals no file and no link: what the path, or another name in
one of the directories above it, leads to afterwards, it led to before. -/
theorem Extended.reveals_nothing {name : Text} {p : Place} {e : Entry}
    (h : d.Extended here names d') (hrooted : d.tree.Rooted)
    (hinit : init <+: names ∨ ∀ n ∈ init, n = ['.']) (hup : ['.', '.'] ∉ init ++ [name])
    (hleads : d'.tree.Leads false Tree.linkLimit here (init ++ [name]) (.there p e))
    (he : e ≠ .directory) :
    d.tree.Leads false Tree.linkLimit here (init ++ [name]) (.there p e) := by
  rcases hinit with hinit | hdots
  · cases h with
    | same => exact hleads
    | @grown init₀ name₀ dir₀ _ along growth =>
        have hbelow : init₀ ++ [name₀] <+: init → e = .directory := by
          rintro ⟨rest, rfl⟩
          have hup' : ['.', '.'] ∉ rest ++ [name] := by
            simp only [List.mem_append, not_or] at hup ⊢
            exact ⟨hup.1.2, hup.2⟩
          rw [List.append_assoc, List.append_assoc] at hleads
          obtain ⟨p', -, hthere | ⟨_, hvacant⟩⟩ := growth.stays_inside hrooted hleads hup'
          · exact (Tree.Landing.there.inj hthere).2
          · cases hvacant
        -- both are beginnings of the path, so one of them is a beginning of the other
        rcases List.prefix_or_prefix_of_prefix along hinit with hlong | hshort
        · exact absurd (hbelow hlong) he
        · rcases List.prefix_concat_iff.mp hshort with rfl | ⟨rest, rfl⟩
          · exact absurd (hbelow (List.prefix_refl _)) he
          · obtain ⟨dir, hdir⟩ := growth.leads.init
            exact growth.changed.reveals_nothing hdir hleads he
  · exact h.changed.reveals_nothing (Tree.leads_dots hdots) hleads he

end Disk

end BlockSieve
