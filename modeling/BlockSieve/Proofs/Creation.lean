import BlockSieve.Proofs.Growth
import Mathlib.Data.List.Basic
import Mathlib.Data.List.Induction

/-!
Directories can be made along any names that could stand in a tree, as long as
the first of them is free: where it is, all are, and they are made one after
the other from the outermost on. What is asked of the path is only that the
disk accepts it.
-/

namespace BlockSieve

namespace Disk

variable {d d' after : Disk} {path : Text} {here dir : Place} {name : Text}
  {front more : List Text}

theorem refusal?_of_initial {whole : Text} (h : refusal? whole = none) (hinitial : path <+: whole)
    (hne : path ≠ []) : refusal? path = none := by
  obtain ⟨rest, rfl⟩ := hinitial
  unfold refusal? at h ⊢
  split at h
  · cases h
  · next hnul =>
      split at h
      · cases h
      · split at h
        · cases h
        · next hlong =>
            have hlength : (Utf8.encode path).length ≤ (Utf8.encode (path ++ rest)).length := by
              unfold Utf8.encode
              rw [List.flatMap_append, List.length_append]
              exact Nat.le_add_right ..
            rw [if_neg fun hmem => hnul (List.mem_append_left _ hmem), if_neg hne, if_neg]
            omega

/-! ### One directory -/

theorem makeDirectory_free {init : List Text} (haccepted : refusal? path = none)
    (hinit : Tree.namesOf path = init ++ [name])
    (hdir : d.tree.Leads true Tree.linkLimit (d.start path) (init ++ [['.']])
      (.there dir .directory)) (proper : Tree.Proper name)
    (hfree : d.tree.get? (dir ++ [name]) = none) :
    d.makeDirectory path = .ok (d.put (dir ++ [name]) .directory) := by
  have hnames : d.Names path dir name := ⟨proper, init, hinit, hdir⟩
  rw [makeDirectory, hnames.holder haccepted]
  simp only [hfree]

/-- A directory cannot be made where the one above it is missing. -/
theorem makeDirectory_missing {first : Text} {rest : List Text} (haccepted : refusal? path = none)
    (hnames : Tree.namesOf path = front ++ first :: rest ++ [name])
    (hdir : d.tree.Leads true Tree.linkLimit (d.start path) (front ++ [['.']])
      (.there dir .directory)) (proper : Tree.Proper first)
    (hfree : d.tree.get? (dir ++ [first]) = none) :
    d.makeDirectory path = .error .notFound := by
  obtain ⟨left, hwalk⟩ := hdir.walk_append
  have hmissing : d.tree.walk true Tree.linkLimit (d.start path)
      (front ++ first :: rest ++ [['.']]) = .error .notFound := by
    rw [List.append_assoc, hwalk _ _ (by simp), List.cons_append, Tree.walk]
    simp [proper.ne_dot, proper.ne_dots, proper.short, hfree]
  rw [makeDirectory, holder]
  simp only [haccepted, hnames, List.dropLast_concat, hmissing]

theorem makeDirectory_dots (haccepted : refusal? path = none)
    (hdots : ∀ n ∈ (Tree.namesOf path).getLast?, n = ['.'] ∨ n = ['.', '.'])
    (hdir : d.tree.Leads true Tree.linkLimit (d.start path)
      ((Tree.namesOf path).dropLast ++ [['.']]) (.there dir .directory)) :
    d.makeDirectory path = .error .occupied := by
  rw [makeDirectory, holder]
  simp only [haccepted, hdir.walk_eq]
  cases hlast : (Tree.namesOf path).getLast? with
  | none => rfl
  | some name => simp only [if_pos (hdots name hlast)]

/-- A directory cannot be made again. -/
theorem makeDirectory_occupied (haccepted : refusal? path = none)
    (hdir : d.tree.Leads true Tree.linkLimit (d.start path) (Tree.namesOf path ++ [['.']])
      (.there dir .directory)) :
    d.makeDirectory path = .error .occupied := by
  rcases (Tree.namesOf path).eq_nil_or_concat' with hnil | ⟨init, name, hinit⟩
  · have hstart : d.tree.Leads true Tree.linkLimit (d.start path)
        ((Tree.namesOf path).dropLast ++ [['.']]) (.there (d.start path) .directory) := by
      rw [hnil]
      exact .stay .done
    exact makeDirectory_dots haccepted (by simp [hnil]) hstart
  · by_cases hdots : name = ['.'] ∨ name = ['.', '.']
    · rw [hinit] at hdir
      obtain ⟨above, habove⟩ := hdir.init
      have hfront : init = (Tree.namesOf path).dropLast := by rw [hinit, List.dropLast_concat]
      rw [hfront] at habove
      exact makeDirectory_dots haccepted (by simpa [hinit] using hdots) habove
    · rw [not_or] at hdots
      have hend := hdir.undotted
      rw [hinit] at hend
      obtain ⟨above, proper, habove, hlast⟩ := hend.last hdots.1 hdots.2
      have hnames : d.Names path above name := ⟨proper, init, hinit, habove⟩
      rw [makeDirectory, hnames.holder haccepted]
      rcases hlast with ⟨-, hvacant⟩ | ⟨e, hfound, -⟩ | ⟨target, hfound, -⟩
      · cases hvacant
      · simp only [hfound]
      · simp only [hfound]

theorem isDirectory_of_leads (haccepted : refusal? path = none)
    (hdir : d.tree.Leads true Tree.linkLimit (d.start path) (Tree.namesOf path ++ [['.']])
      (.there dir .directory)) :
    d.isDirectory path = true := by
  have hlocate : d.locate true path = .ok (.there dir .directory) := by
    refine locate_eq_ok_iff.mpr ⟨haccepted, ?_⟩
    unfold Tree.route
    split
    · exact hdir
    · exact hdir.undotted
  rw [isDirectory, hlocate]

/-! ### One after the other -/

/-- The names `more` now lead on from a directory that was there, and below the last of them nothing
is new. -/
structure Made (d : Disk) (here : Place) (front more : List Text) (dir : Place) (d' : Disk) :
    Prop where
  changed : d.Changed [] d'
  leads : d'.tree.Leads true Tree.linkLimit here (front ++ more ++ [['.']])
    (.there (dir ++ more) .directory)
  below : ∀ q, q ≠ [] → d'.tree.get? (dir ++ more ++ q) = d.tree.get? (dir ++ more ++ q)

theorem Made.refl (hdir : d.tree.Leads true Tree.linkLimit here (front ++ [['.']])
    (.there dir .directory)) : d.Made here front [] dir d := by
  refine ⟨.refl d, ?_, fun _ _ => rfl⟩
  rw [List.append_nil, List.append_nil]
  exact hdir

/-- One more directory is made in the last of those that were made before it. -/
theorem Made.makeDirectory (h : d.Made (d.start path) front more dir after)
    (haccepted : refusal? path = none) (hnames : Tree.namesOf path = front ++ more ++ [name])
    (proper : Tree.Proper name) (hfree : d.tree.get? (dir ++ more ++ [name]) = none) :
    ∃ d', after.makeDirectory path = .ok d' ∧
      d.Made (d.start path) front (more ++ [name]) dir d' := by
  have hstart : after.start path = d.start path := (h.changed.keeps (by simp)).start path
  have hdir := h.leads
  rw [← hstart] at hdir
  have hfree' : after.tree.get? (dir ++ more ++ [name]) = none := by
    rw [h.below _ (by simp), hfree]
  have hmade := makeDirectory_free haccepted hnames hdir proper hfree'
  have hchanged := changed_of_makeDirectory hmade
  have hput : ∀ q, (after.put (dir ++ more ++ [name]) .directory).tree.get? q =
      if dir ++ more ++ [name] = q then some .directory else after.tree.get? q :=
    fun q => Tree.get?_put_of_ne_nil _ (by simp) q _
  refine ⟨_, hmade, h.changed.trans hchanged, ?_, fun q hq => ?_⟩
  · have hkept := h.leads.kept (hchanged.keeps (by simp)).tree .directory
    rw [← List.append_assoc, ← List.append_assoc]
    exact hkept.enter_last proper (by rw [hput, if_pos rfl])
  · rw [hput, ← List.append_assoc, if_neg, List.append_assoc _ [name], h.below _ (by simp)]
    intro hsame
    exact hq (List.append_right_eq_self.mp hsame.symm)

theorem ne_nil_of_accepted (h : refusal? path = none) : path ≠ [] := by
  rintro rfl
  cases h

theorem makeInnermost_there (haccepted : refusal? path = none)
    (hdir : d.tree.Leads true Tree.linkLimit (d.start path) (Tree.namesOf path ++ [['.']])
      (.there dir .directory)) (above : List Text) :
    d.makeInnermost (path :: above) = (.ok (), d) := by
  unfold makeInnermost
  simp only [makeDirectory_occupied haccepted hdir, isDirectory_of_leads haccepted hdir]
  exact ite_self _

theorem makeInnermost_made (haccepted : refusal? path = none)
    (hmade : d.makeDirectory path = .ok d') (above : List Text) :
    d.makeInnermost (path :: above) = (.ok (), d') := by
  rw [makeInnermost, if_neg (ne_nil_of_accepted haccepted), hmade]

theorem makeInnermost_after {above : List Text} (haccepted : refusal? path = none)
    (hmissing : d.makeDirectory path = .error .notFound)
    (habove : d.makeInnermost above = (.ok (), after)) (hmade : after.makeDirectory path = .ok d') :
    d.makeInnermost (path :: above) = (.ok (), d') := by
  rw [makeInnermost, if_neg (ne_nil_of_accepted haccepted), hmissing]
  simp only [habove, hmade]

theorem upwards_cons (path : Text) :
    ∃ above, Component.upwards path = path :: above ∧
      ∀ directory, Component.directory? path = some directory →
        above = Component.upwards directory := by
  rw [Component.upwards]
  split
  · next hnone => exact ⟨[], rfl, fun _ h => by simp [hnone] at h⟩
  · next directory hdirectory =>
      rw [if_pos (Component.directory?_initial hdirectory).2]
      refine ⟨_, rfl, fun directory' h => ?_⟩
      rw [Option.some.inj (hdirectory.symm.trans h)]

/-- Where the first name is free, all are. -/
theorem free_along (hrooted : d.tree.Rooted)
    (hfree : ∀ first ∈ more.head?, d.tree.get? (dir ++ [first]) = none) (hmore : more ≠ []) :
    d.tree.get? (dir ++ more) = none := by
  obtain ⟨first, rest, rfl⟩ := List.exists_cons_of_ne_nil hmore
  rw [List.append_cons]
  exact hrooted.nothing_below (hfree first rfl) rest

/-- The directory above the last name is named by the other names, if no dot ends these. -/
theorem exists_directory (hnames : Tree.namesOf path = front ++ more ++ [name])
    (hname : name ≠ ['.']) (hmore : more ≠ []) (hdots : ['.'] ∉ more) :
    ∃ directory, Component.directory? path = some directory ∧
      Tree.namesOf directory = front ++ more := by
  cases hdirectory : Component.directory? path with
  | none =>
      have hall := Component.dots_of_directory? hdirectory name
      rw [hnames] at hall
      exact absurd (hall (by simp)) hname
  | some directory =>
      have habove := Component.above_directory? hdirectory
      rw [hnames] at habove
      obtain ⟨j, hj⟩ := habove.eq_of_concat hname
      cases j with
      | zero => exact ⟨directory, rfl, by rw [hj, List.replicate_zero, List.append_nil]⟩
      | succ j =>
          have hlast := congrArg List.getLast? hj
          rw [List.getLast?_append_of_ne_nil _ hmore, List.replicate_succ', ← List.append_assoc,
            List.getLast?_concat] at hlast
          exact absurd (List.mem_of_getLast? hlast) hdots

/-- Directories can be made along names of which the first is free. -/
theorem makeDirectories_ok (hrooted : d.tree.Rooted) (haccepted : refusal? path = none)
    (hnames : Tree.namesOf path = front ++ more)
    (hdir : d.tree.Leads true Tree.linkLimit (d.start path) (front ++ [['.']])
      (.there dir .directory)) (proper : ∀ n ∈ more, Tree.Proper n)
    (hfree : ∀ first ∈ more.head?, d.tree.get? (dir ++ [first]) = none) :
    ∃ d', d.makeDirectories path = (.ok (), d') ∧ d.Made (d.start path) front more dir d' := by
  unfold makeDirectories
  induction more using List.reverseRecOn generalizing path with
  | nil =>
      obtain ⟨above, hupwards, -⟩ := upwards_cons path
      rw [List.append_nil] at hnames
      rw [← hnames] at hdir
      refine ⟨d, ?_, ?_⟩
      · rw [hupwards]
        exact makeInnermost_there haccepted hdir above
      · exact hnames ▸ .refl hdir
  | append_singleton more name ih =>
      obtain ⟨above, hupwards, habove⟩ := upwards_cons path
      rw [← List.append_assoc] at hnames
      have hname : Tree.Proper name := proper name (by simp)
      have hnone : d.tree.get? (dir ++ more ++ [name]) = none := by
        rw [List.append_assoc]
        exact free_along hrooted hfree (by simp)
      cases more with
      | nil =>
          rw [List.append_nil] at hnames hnone
          obtain ⟨d', hmade, hd'⟩ :=
            (Made.refl hdir).makeDirectory haccepted (by rw [hnames, List.append_nil]) hname
              (by rw [List.append_nil, hnone])
          rw [hupwards]
          exact ⟨d', makeInnermost_made haccepted hmade above, hd'⟩
      | cons first rest =>
          have hfirst : Tree.Proper first := proper first (by simp)
          have hmissing := makeDirectory_missing haccepted hnames hdir hfirst (hfree first rfl)
          obtain ⟨directory, hdirectory, hnames'⟩ :=
            exists_directory hnames hname.ne_dot (by simp) fun hdot =>
              (proper _ (List.mem_append_left _ hdot)).ne_dot rfl
          have hstart : d.start directory = d.start path := by
            unfold Disk.start
            rw [Component.fromRoot_directory? hdirectory]
          have haccepted' : refusal? directory = none := by
            refine refusal?_of_initial haccepted (Component.directory?_initial hdirectory).1 ?_
            rintro rfl
            simp [Tree.namesOf, Text.cutAt] at hnames'
          obtain ⟨after, hafter, hmade⟩ := ih haccepted' hnames' (hstart ▸ hdir)
            (fun n hn => proper n (List.mem_append_left _ hn)) hfree
          rw [hstart] at hmade
          obtain ⟨d', hmade', hd'⟩ := hmade.makeDirectory haccepted hnames hname hnone
          rw [hupwards, habove directory hdirectory]
          exact ⟨d', makeInnermost_after haccepted hmissing hafter hmade', hd'⟩

/-- The directory that holds a path can be made along names of which the first is free. -/
theorem makeParent_ok {path : Path} (hrooted : d.tree.Rooted) (haccepted : refusal? path.text = none)
    (hnames : (Tree.namesOf path.text).dropLast = front ++ more)
    (hdir : d.tree.Leads true Tree.linkLimit (d.start path.text) (front ++ [['.']])
      (.there dir .directory)) (proper : ∀ n ∈ more, Tree.Proper n)
    (hfree : ∀ first ∈ more.head?, d.tree.get? (dir ++ [first]) = none) :
    ∃ d', d.makeParent path = (.ok (), d') ∧ d.Made (d.start path.text) front more dir d' := by
  cases hparent : path.parent? with
  | none =>
      rw [Path.namesOf_of_parent? hparent] at hnames
      obtain ⟨rfl, rfl⟩ := List.append_eq_nil_iff.mp hnames.symm
      exact ⟨d, by rw [makeParent, hparent], .refl hdir⟩
  | some parent =>
      obtain ⟨hroot, hnames'⟩ := Path.names_of_parent? hparent
      obtain ⟨hinitial, hne⟩ := Path.parent?_initial hparent
      have hstart : d.start parent.text = d.start path.text := by
        unfold Disk.start
        rw [hroot]
      rw [← hstart] at hdir ⊢
      obtain ⟨d', hd', hmade⟩ := makeDirectories_ok hrooted
        (refusal?_of_initial haccepted hinitial hne) (hnames'.trans hnames) hdir proper hfree
      exact ⟨d', by simp only [makeParent, hparent, hd'], hmade⟩

end Disk

end BlockSieve
