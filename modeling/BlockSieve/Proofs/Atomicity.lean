import BlockSieve.Proofs.Creation
import BlockSieve.Proofs.Encoding
import BlockSieve.Proofs.Replacement

/-!
Replacing a file is all or nothing. If it succeeds, the path leads to a file
with the new bytes: the one it led to before, with the permission bits it had,
or a new one, in directories that were made for it. If it fails, all that was
there is as it was, and what is new are directories. Either way the temporary
file is gone. It succeeds wherever the names that are missing can be made.
-/

namespace BlockSieve

namespace Disk

variable {d d' after : Disk} {path target : Text} {bytes : Bytes} {dir : Place} {name : Text}

/-- Where the temporary file stands while the file at a resolved path is replaced. -/
def temporaryPath (d : Disk) (target : Text) : Text :=
  Component.beside target (d.temporaryName (Path.ofText target))

theorem getLast?_temporaryPath (d : Disk) (target : Text) :
    (d.temporaryPath target).getLast? ≠ some '/' := by
  obtain ⟨directory, hbeside⟩ := Component.beside_eq_within target
    (d.temporaryName (Path.ofText target))
  rw [temporaryPath, hbeside, Component.getLast?_within directory (plain_temporaryName d _)]
  exact (ne_of_ending (suffix_temporaryName d _)).2.2

theorem start_temporaryPath (hup : ['.', '.'] ∉ Tree.namesOf target) :
    d.start (d.temporaryPath target) = d.start target := by
  obtain ⟨hroot, -⟩ := Component.names_beside (plain_temporaryName d (Path.ofText target)) hup
  rw [Disk.start, temporaryPath, hroot, Disk.start]

/-- The temporary file of a path that does not go up is in a directory above the last name of the
path, or in the one where the path starts. -/
theorem exists_route_temporaryPath (d : Disk) (hup : ['.', '.'] ∉ Tree.namesOf target) :
    ∃ init, Tree.namesOf (d.temporaryPath target) =
        init ++ [d.temporaryName (Path.ofText target)] ∧
      Tree.route (d.temporaryPath target) = init ++ [d.temporaryName (Path.ofText target)] ∧
      (Tree.Above init (Tree.namesOf target) ∨
        init = Tree.namesOf target ∧ ∀ n ∈ init, n = ['.']) ∧
      ['.', '.'] ∉ init ++ [d.temporaryName (Path.ofText target)] := by
  obtain ⟨-, hdots, -⟩ := ne_of_ending (suffix_temporaryName d (Path.ofText target))
  obtain ⟨-, init, hnames, hinit⟩ :=
    Component.names_beside (plain_temporaryName d (Path.ofText target)) hup
  refine ⟨init, hnames, ?_, hinit, ?_⟩
  · rw [Tree.route, if_neg (getLast?_temporaryPath d target)]
    exact hnames
  · intro hmem
    rcases List.mem_append.mp hmem with hmem | hmem
    · rcases hinit with habove | ⟨-, hdots⟩
      · exact hup ((habove.prefix_dropLast.trans (List.dropLast_prefix _)).mem hmem)
      · exact absurd (hdots _ hmem) (by simp)
    · exact hdots (List.mem_singleton.mp hmem).symm

theorem temporaryName_ne {p : Path} (h : (Tree.namesOf p.text).getLast? = some name) :
    d.temporaryName p ≠ name := by
  intro hname
  have hlength := congrArg List.length hname
  rw [temporaryName, Path.fileName?_eq, h] at hlength
  simp at hlength
  omega

theorem Clear.kept (h : d.Clear path) (hstart : after.start path = d.start path)
    (hreveals : ∀ p e, e ≠ .directory →
      after.tree.Leads false Tree.linkLimit (d.start path) (Tree.route path) (.there p e) →
      d.tree.Leads false Tree.linkLimit (d.start path) (Tree.route path) (.there p e)) :
    after.Clear path := by
  intro p e hlocate
  apply Decidable.byContradiction
  intro he
  obtain ⟨haccepted, hleads⟩ := locate_eq_ok_iff.mp hlocate
  rw [hstart] at hleads
  exact he (h p e (locate_eq_ok_iff.mpr ⟨haccepted, hreveals p e he hleads⟩))

theorem Extended.clear_temporaryPath (hrooted : d.tree.Rooted)
    (h : d.Extended (d.start target) (Tree.namesOf target).dropLast after)
    (hup : ['.', '.'] ∉ Tree.namesOf target) (hclear : d.Clear (d.temporaryPath target)) :
    after.Clear (d.temporaryPath target) := by
  have hkeeps : d.Keeps after := h.changed.keeps (by simp)
  obtain ⟨init, -, hroute, hinit, hup'⟩ := exists_route_temporaryPath d hup
  refine hclear.kept (hkeeps.start _) fun p e he hleads => ?_
  rw [hroute, start_temporaryPath hup] at hleads ⊢
  exact h.reveals_nothing hrooted (hinit.imp Tree.Above.prefix_dropLast And.right) hup' hleads he

theorem standing_start (hhome : d.tree.Standing d.home) (path : Text) :
    d.tree.Standing (d.start path) := by
  unfold Disk.start
  split
  · exact .root
  · exact hhome

theorem stands_of_locate {follow : Bool} {landing : Tree.Landing}
    (hhome : d.tree.Standing d.home) (h : d.locate follow path = .ok landing) :
    landing.Stands d.tree :=
  (locate_eq_ok_iff.mp h).2.stands (standing_start hhome path) fun _ => Tree.plain_of_mem_route

theorem namesOf_spell_of_stands {place : Place} {e : Entry}
    (h : (Tree.Landing.there place e).Stands d.tree) :
    Tree.namesOf (spell place) = place ∧ ['.', '.'] ∉ Tree.namesOf (spell place) := by
  obtain ⟨-, hnameable⟩ := h.nameable
  have hspelled : Tree.namesOf (spell place) = place :=
    namesOf_spell fun name hname => (hnameable name hname).2
  refine ⟨hspelled, fun hup => ?_⟩
  rw [hspelled] at hup
  exact (hnameable _ hup).1.ne_dots rfl

/-- Where a place is spelled out, directories made anywhere leave the path of the temporary file
clear, since the directory for it was there. -/
theorem Changed.clear_temporaryPath {place : Place} {e : Entry} (h : d.Changed [] after)
    (hstands : (Tree.Landing.there place e).Stands d.tree)
    (hclear : d.Clear (d.temporaryPath (spell place))) :
    after.Clear (d.temporaryPath (spell place)) := by
  have hkeeps : d.Keeps after := h.keeps (by simp)
  obtain ⟨hspelled, hup⟩ := namesOf_spell_of_stands hstands
  obtain ⟨init, -, hroute, hinit, -⟩ := exists_route_temporaryPath d hup
  refine hclear.kept (hkeeps.start _) fun p e he hleads => ?_
  rw [hroute, start_temporaryPath hup] at hleads ⊢
  rw [hspelled] at hinit
  obtain ⟨front, hfront⟩ : ∃ front, d.tree.Leads true Tree.linkLimit (d.start (spell place))
      (init ++ [['.']]) (.there front .directory) := by
    rcases hinit with habove | ⟨-, hdots⟩
    · obtain ⟨rest, hrest⟩ := habove.prefix_dropLast
      have hfront : d.tree.Leads true Tree.linkLimit [] (place.dropLast ++ [['.']])
          (.there place.dropLast .directory) := hstands.nameable.1.leads (.stay .done)
      rw [← hrest] at hfront
      exact hfront.init
    · exact ⟨_, Tree.leads_dots hdots⟩
  exact h.reveals_nothing hfront hleads he

theorem resolve_eq_ok {path : Path} (h : d.resolve path = .ok target) :
    (d.isLink path.text = false ∧ target = path.text) ∨
      ∃ place e, d.locate true path.text = .ok (.there place e) ∧ target = spell place := by
  unfold resolve at h
  split at h
  · unfold canonical at h
    split at h
    · next hcanonical =>
        split at hcanonical
        · cases hcanonical
        · next place e hlocate =>
            obtain rfl := Except.ok.inj h
            exact .inr ⟨place, e, hlocate, (Except.ok.inj hcanonical).symm⟩
        · cases hcanonical
    · cases h
  · next hlink => exact .inl ⟨by simpa using hlink, (Except.ok.inj h).symm⟩

/-- What a path that does not go up is resolved to does not go up either, and making the directory
that holds it leaves the path of the temporary file clear. -/
theorem clear_makeParent {t : Text} (hrooted : d.tree.Rooted) (hhome : d.tree.Standing d.home)
    (hup : ['.', '.'] ∉ Tree.namesOf (Path.ofText t).text)
    (hresolve : d.resolve (Path.ofText t) = .ok target)
    (hclear : d.Clear (d.temporaryPath target)) :
    ['.', '.'] ∉ Tree.namesOf target ∧
      (d.makeParent (Path.ofText target)).2.Clear (d.temporaryPath target) := by
  rcases resolve_eq_ok hresolve with ⟨-, rfl⟩ | ⟨place, e, hlocate, rfl⟩
  · rw [Path.ofText_ofText]
    exact ⟨hup, (extended_makeParent hrooted hup).clear_temporaryPath hrooted hup hclear⟩
  · have hstands := stands_of_locate hhome hlocate
    exact ⟨(namesOf_spell_of_stands hstands).2,
      (changed_makeParent _).clear_temporaryPath hstands hclear⟩

/-! ### What was in the place of the file -/

theorem Installed.standing (h : after.Installed target dir name bytes d')
    (hhome : after.tree.Standing after.home) : after.tree.Standing dir := by
  obtain ⟨-, init, hinit, hleads⟩ := h.names
  have hplain : ∀ n ∈ init ++ [['.']], Tree.Plain n := by
    intro n hn
    rcases List.mem_append.mp hn with hn | hn
    · have hmem : n ∈ Tree.namesOf target := by
        rw [hinit]
        exact List.mem_append_left _ hn
      exact Tree.plain_of_mem_namesOf hmem
    · rw [List.mem_singleton.mp hn]
      exact ⟨by simp, by decide⟩
  have hstands := hleads.stands (standing_start hhome target) hplain
  cases hstands with
  | directory standing => exact standing
  | inside _ _ _ inner => exact absurd rfl inner

/-- What is at the place where a file is installed: the file that the path led to, or, if the path
does not end at a link, nothing. A new file does not take the name of the temporary file. -/
inductive Preceded (d : Disk) (path target : Text) (after : Disk) (dir : Place) (name : Text) : Prop
  | file {old mode} (was : d.locate true path = .ok (.there (dir ++ [name]) (.file old mode)))
      (kept : after.mode? target = some mode) : Preceded d path target after dir name
  | free (no_link : d.isLink path = false) (same : target = path)
      (hidden : d.temporaryName (Path.ofText target) ≠ name)
      (vacant : after.tree.get? (dir ++ [name]) = none) (kept : after.mode? target = none) :
      Preceded d path target after dir name

/-- A place that is spelled out and can be replaced is that of a file. -/
theorem Installed.over_spelled {place : Place} {e : Entry}
    (h : after.Installed (spell place) dir name bytes d') (hchanged : d.Changed [] after)
    (hlocate : d.locate true path = .ok (.there place e))
    (hstands : (Tree.Landing.there place e).Stands d.tree) :
    d.Preceded path (spell place) after dir name := by
  have hkeeps : d.Keeps after := hchanged.keeps (by simp)
  have hspelled : ∀ {dir₀ name₀}, d.tree.Standing dir₀ → Tree.Proper name₀ → Tree.Plain name₀ →
      place = dir₀ ++ [name₀] → dir₀ = dir ∧ name₀ = name := by
    rintro dir₀ name₀ hdir proper plain rfl
    have hnames := names_spell (hdir.kept hkeeps.tree) proper plain
    obtain ⟨hdir, hname⟩ := hnames.of_holder (h.names.holder h.accepted)
    exact ⟨hdir.symm, hname.symm⟩
  cases e with
  | directory =>
      cases hstands with
      | directory standing =>
          cases standing with
          | root =>
              obtain ⟨-, init, hinit, -⟩ := h.names
              exact absurd hinit.symm (List.append_ne_nil_of_right_ne_nil _ (by simp))
          | inner above proper plain found =>
              obtain ⟨rfl, rfl⟩ := hspelled above proper plain rfl
              exact absurd (hchanged.after (by simp) found) h.not_directory
      | inside _ _ _ inner => exact absurd rfl inner
  | file old mode =>
      have found := hchanged.after (by simp) (found_of_locate hlocate (by simp))
      cases hstands with
      | inside standing proper plain =>
          obtain ⟨rfl, rfl⟩ := hspelled standing proper plain rfl
          refine .file hlocate ?_
          rw [mode?, h.names.locate h.accepted h.no_slash found]
  | link => exact absurd (locate_eq_ok_iff.mp hlocate).2 Tree.Leads.not_link

/-- A path that ends at no link and can be replaced is that of a file, or of nothing yet. -/
theorem Installed.over_named {t : Text} (hrooted : d.tree.Rooted)
    (h : after.Installed (Path.ofText t).text dir name bytes d')
    (hextended : d.Extended (d.start (Path.ofText t).text)
      (Tree.namesOf (Path.ofText t).text).dropLast after)
    (hup : ['.', '.'] ∉ Tree.namesOf (Path.ofText t).text)
    (hlink : d.isLink (Path.ofText t).text = false) :
    d.Preceded (Path.ofText t).text (Path.ofText t).text after dir name := by
  have hname : d.temporaryName (Path.ofText (Path.ofText t).text) ≠ name := by
    obtain ⟨-, init, hinit, -⟩ := h.names
    apply temporaryName_ne
    rw [Path.ofText_ofText, hinit, List.getLast?_concat]
  generalize (Path.ofText t).text = path at *
  have hkeeps : d.Keeps after := hextended.changed.keeps (by simp)
  obtain ⟨proper, init, hinit, hdir⟩ := h.names
  have hroute : Tree.route path = init ++ [name] := by
    rw [Tree.route, if_neg h.no_slash, hinit]
  -- what the path leads to now, other than a directory, it led to before
  have hreveals : ∀ e, e ≠ .directory →
      after.tree.Leads false Tree.linkLimit (d.start path) (init ++ [name])
        (.there (dir ++ [name]) e) →
      d.locate false path = .ok (.there (dir ++ [name]) e) := by
    intro e he hleads
    rw [hinit, List.dropLast_concat] at hextended
    rw [hinit] at hup
    rw [locate_eq_ok_iff, hroute]
    exact ⟨h.accepted,
      hextended.reveals_nothing hrooted (.inl (List.prefix_refl _)) hup hleads he⟩
  rw [hkeeps.start] at hdir
  cases found : after.tree.get? (dir ++ [name]) with
  | none =>
      refine .free hlink rfl hname found ?_
      rw [mode?, h.names.locate_vacant h.accepted h.no_slash found]
  | some e =>
      cases e with
      | directory => exact absurd found h.not_directory
      | file old mode =>
          have hbefore := hreveals _ (by simp) (hdir.to_last fun _ => .file proper found)
          obtain ⟨haccepted, hleads⟩ := locate_eq_ok_iff.mp hbefore
          refine .file (locate_eq_ok_iff.mpr ⟨haccepted, hleads.followed⟩) ?_
          rw [mode?, h.names.locate h.accepted h.no_slash found]
      | link link =>
          have hbefore := hreveals _ (by simp) (hdir.to_last fun _ => .link proper found rfl)
          simp [isLink, hbefore] at hlink

theorem Installed.preceded {t : Text} (hrooted : d.tree.Rooted) (hhome : d.tree.Standing d.home)
    (hup : ['.', '.'] ∉ Tree.namesOf (Path.ofText t).text)
    (hresolve : d.resolve (Path.ofText t) = .ok target)
    (h : (d.makeParent (Path.ofText target)).2.Installed target dir name bytes d') :
    d.Preceded (Path.ofText t).text target (d.makeParent (Path.ofText target)).2 dir name := by
  rcases resolve_eq_ok hresolve with ⟨hlink, rfl⟩ | ⟨place, e, hlocate, rfl⟩
  · rw [Path.ofText_ofText] at h ⊢
    exact h.over_named hrooted (extended_makeParent hrooted hup) hup hlink
  · exact h.over_spelled (changed_makeParent _) hlocate (stands_of_locate hhome hlocate)

namespace Preceded

variable {path target : Text} {front : Place}

theorem file_of_found {e : Entry} (h : d.Preceded path target after dir name)
    (hchanged : d.Changed [] after) (he : after.tree.get? (dir ++ [name]) = some e) :
    ∃ old mode, e = .file old mode := by
  cases h with
  | @file old mode was =>
      rw [hchanged.after (by simp) (found_of_locate was (by simp))] at he
      exact ⟨old, mode, (Option.some.inj he).symm⟩
  | free _ _ _ vacant =>
      rw [vacant] at he
      cases he

/-- The temporary file was put where nothing was, under a name of its own. -/
theorem place_ne (h : d.Preceded path target after dir name) (hchanged : d.Changed [] after)
    (hfree : after.tree.get? (front ++ [d.temporaryName (Path.ofText target)]) = none) :
    dir ++ [name] ≠ front ++ [d.temporaryName (Path.ofText target)] := by
  intro hsame
  cases h with
  | file was =>
      rw [← hsame, hchanged.after (by simp) (found_of_locate was (by simp))] at hfree
      cases hfree
  | free _ _ hidden =>
      obtain ⟨-, hlast⟩ := List.append_inj' hsame rfl
      exact hidden (List.singleton_inj.mp hlast).symm

theorem before (h : d.Preceded path target after dir name) (hchanged : d.Changed [] after) :
    (∃ old, d.locate true path =
        .ok (.there (dir ++ [name]) (.file old ((after.mode? target).getD newFileMode)))) ∨
      (d.isLink path = false ∧ d.tree.get? (dir ++ [name]) = none ∧
        (after.mode? target).getD newFileMode = newFileMode) := by
  cases h with
  | @file old mode was kept =>
      rw [kept]
      exact .inl ⟨old, was⟩
  | free no_link _ _ vacant kept =>
      rw [kept]
      exact .inr ⟨no_link, hchanged.free (by simp) vacant, rfl⟩

end Preceded

/-! ### All or nothing -/

/-- What was done by a replacement that succeeded. The path leads to a file with the new bytes, at a
place where the file was that it led to before, with the same permission bits, or, if it did not end
at a link, nothing; a link that it ended at is the same link; the directories above the file are
there; and nothing stands at the path of the temporary file, whose name was not too long. -/
structure Replaced (d : Disk) (path : Path) (bytes : Bytes) (place : Place) (mode : Nat)
    (d' : Disk) : Prop where
  locate : d'.locate true path.text = .ok (.there place (.file bytes mode))
  changed : d.Changed [place] d'
  before : (∃ old, d.locate true path.text = .ok (.there place (.file old mode))) ∨
    (d.isLink path.text = false ∧ d.tree.get? place = none ∧ mode = newFileMode)
  link : ∀ p next, d.locate false path.text = .ok (.there p (.link next)) →
    d'.locate false path.text = .ok (.there p (.link next))
  standing : ∃ dir name, place = dir ++ [name] ∧ d'.tree.Standing dir
  cleared : ∀ resolved, d.resolve path = .ok resolved →
    Tree.tooLong (d.temporaryName (Path.ofText resolved)) = false ∧
      ∀ p e, d'.locate false (d.temporaryPath resolved) ≠ .ok (.there p e)

/-- What stands in the way of replacing a file: a link that leads to nothing or in a circle, a file
where a directory would have to be, a directory at the end of the path, a slash there, or a name
that is too long for the temporary file. -/
inductive Obstructed (d : Disk) (path : Path) : Prop
  | link (linked : d.isLink path.text = true)
      (broken : ∀ p e, d.locate true path.text ≠ .ok (.there p e))
  | parent {front rest p bytes mode} (names : Tree.namesOf path.text = front ++ rest)
      (onward : rest ≠ [])
      (leads : d.tree.Leads true Tree.linkLimit (d.start path.text) front
        (.there p (.file bytes mode)))
  | directory (h : d.isDirectory path.text = true)
  | slash (h : path.text.getLast? = some '/')
  | temporary {resolved} (h : d.resolve path = .ok resolved)
      (long : Tree.tooLong (d.temporaryName (Path.ofText resolved)) = true)

theorem Installed.keeps (h : d.Installed path dir name bytes d')
    (hentry : ∀ e, d.tree.get? (dir ++ [name]) = some e → ∃ old mode, e = .file old mode) :
    d.Keeps d' := by
  refine h.changed.keeps fun q hq e he => ?_
  obtain rfl := List.mem_singleton.mp hq
  obtain ⟨old, mode, rfl⟩ := hentry e he
  refine ⟨_, ?_, .file old mode bytes ((d.mode? path).getD newFileMode)⟩
  rw [h.get?, if_pos rfl]

namespace Replaced

variable {path : Path} {place : Place} {mode : Nat}

theorem get? (h : d.Replaced path bytes place mode d') :
    d'.tree.get? place = some (.file bytes mode) :=
  found_of_locate h.locate (by simp)

theorem keeps (h : d.Replaced path bytes place mode d') : d.Keeps d' := by
  refine h.changed.keeps fun q hq e he => ?_
  obtain rfl := List.mem_singleton.mp hq
  rcases h.before with ⟨old, hbefore⟩ | ⟨-, hfree, -⟩
  · rw [found_of_locate hbefore (by simp)] at he
    obtain rfl := Option.some.inj he
    exact ⟨_, h.get?, .file ..⟩
  · rw [hfree] at he
    cases he

theorem was {p : Place} {e : Entry} (h : d.Replaced path bytes place mode d')
    (hlocate : d.locate true path.text = .ok (.there p e)) :
    p = place ∧ ∃ old, e = .file old mode := by
  cases e with
  | directory =>
      have hafter := h.keeps.locate hlocate .directory
      rw [h.locate] at hafter
      cases hafter
  | file old mode' =>
      have hfound := found_of_locate hlocate (by simp)
      obtain ⟨bytes', mode'', hfound'⟩ := h.keeps.tree.file hfound
      have hafter := h.keeps.locate hlocate (.there (.file ..) hfound')
      rw [h.locate] at hafter
      obtain ⟨rfl, -⟩ := Tree.Landing.there.inj (Except.ok.inj hafter)
      rcases h.before with ⟨old', hbefore⟩ | ⟨-, hfree, -⟩
      · rw [hlocate] at hbefore
        obtain ⟨-, hfile⟩ := Tree.Landing.there.inj (Except.ok.inj hbefore)
        exact ⟨rfl, old', hfile⟩
      · rw [hfound] at hfree
        cases hfree
  | link => exact absurd (locate_eq_ok_iff.mp hlocate).2 Tree.Leads.not_link

theorem not_obstructed (h : d.Replaced path bytes place mode d') : ¬ d.Obstructed path := by
  intro hobstructed
  cases hobstructed with
  | link linked broken =>
      rcases h.before with ⟨old, hbefore⟩ | ⟨hlink, -⟩
      · exact broken _ _ hbefore
      · rw [linked] at hlink
        cases hlink
  | @parent front rest p old mode' names onward leads =>
      have hfound := leads.found (by simp)
      obtain ⟨old', mode'', hfound'⟩ := h.keeps.tree.file hfound
      have hfront := leads.kept h.keeps.tree (.there (.file ..) hfound')
      obtain ⟨-, hleads⟩ := locate_eq_ok_iff.mp h.locate
      obtain ⟨beyond, hbeyond, hroute⟩ :
          ∃ beyond, beyond ≠ [] ∧ Tree.route path.text = front ++ beyond := by
        unfold Tree.route
        split
        · exact ⟨rest ++ [['.']], by simp, by rw [names, List.append_assoc]⟩
        · exact ⟨rest, onward, names⟩
      rw [h.keeps.start, hroute] at hleads
      have hrefused := hfront.beyond_file hbeyond
      rw [hleads.walk_eq] at hrefused
      cases hrefused
  | directory hdirectory =>
      unfold isDirectory at hdirectory
      split at hdirectory
      · next hlocate =>
          obtain ⟨-, _, hfile⟩ := h.was hlocate
          cases hfile
      · cases hdirectory
  | slash hslash =>
      obtain ⟨-, hleads⟩ := locate_eq_ok_iff.mp h.locate
      rw [Tree.route, if_pos hslash] at hleads
      cases hleads.dotted
  | temporary hresolve long =>
      rw [(h.cleared _ hresolve).1] at long
      cases long

end Replaced

theorem Installed.locate (h : after.Installed target dir name bytes d')
    (hchanged : d.Changed [] after) (hbefore : d.Preceded path target after dir name) :
    d'.locate true path =
      .ok (.there (dir ++ [name]) (.file bytes ((after.mode? target).getD newFileMode))) := by
  have hkeeps : after.Keeps d' := h.keeps fun e => hbefore.file_of_found hchanged
  have hnew := h.get? (dir ++ [name])
  rw [if_pos rfl] at hnew
  cases hbefore with
  | file was =>
      have hfound := hchanged.after (by simp) (found_of_locate was (by simp))
      have hafter := (hchanged.keeps (by simp)).locate was (.there (.file ..) hfound)
      exact hkeeps.locate hafter (.there (.file ..) hnew)
  | free _ same =>
      subst same
      exact (h.names.kept hkeeps).locate h.accepted h.no_slash hnew

/-- Nothing is where the temporary file was, unless the file was installed there. -/
theorem Installed.cleared {temporary hidden : Text} {front : Place}
    (h : after.Installed target dir name bytes d') (hkeeps : after.Keeps d')
    (htemporary : after.Names temporary front hidden) (hslash : temporary.getLast? ≠ some '/')
    (hfree : after.tree.get? (front ++ [hidden]) = none)
    (hplace : dir ++ [name] ≠ front ++ [hidden]) (p : Place) (e : Entry) :
    d'.locate false temporary ≠ .ok (.there p e) := by
  intro hlocate
  obtain ⟨-, hleads⟩ := locate_eq_ok_iff.mp hlocate
  obtain ⟨proper, init, hinit, hfront⟩ := htemporary.kept hkeeps
  rw [Tree.route, if_neg hslash, hinit] at hleads
  have hnone : d'.tree.get? (front ++ [hidden]) = none := by
    rw [h.get?, if_neg hplace, hfree]
  cases hleads.unique (hfront.to_last fun _ => .vacant proper hnone)

theorem Installed.replaced {path : Path} {front : Place}
    (h : after.Installed target dir name bytes d') (hchanged : d.Changed [] after)
    (hhome : d.tree.Standing d.home) (hresolve : d.resolve path = .ok target)
    (htemporary : after.Names (d.temporaryPath target) front
      (d.temporaryName (Path.ofText target)))
    (hfree : after.tree.get? (front ++ [d.temporaryName (Path.ofText target)]) = none)
    (hbefore : d.Preceded path.text target after dir name) :
    d.Replaced path bytes (dir ++ [name]) ((after.mode? target).getD newFileMode) d' := by
  have hkeeps : d.Keeps after := hchanged.keeps (by simp)
  have hkeeps' : after.Keeps d' := h.keeps fun e => hbefore.file_of_found hchanged
  refine ⟨h.locate hchanged hbefore, hchanged.trans h.changed, hbefore.before hchanged, ?_,
    ⟨dir, name, rfl, ?_⟩, ?_⟩
  · intro p next hlink
    have hlinked := hkeeps.tree.link (found_of_locate hlink (by simp))
    have hafter := hkeeps.locate hlink (.there (.link next) hlinked)
    exact hkeeps'.locate hafter (.there (.link next) (hkeeps'.tree.link hlinked))
  · have hhome' : after.tree.Standing after.home := by
      rw [hkeeps.home]
      exact hhome.kept hkeeps.tree
    exact (h.standing hhome').kept hkeeps'.tree
  · intro resolved hresolved
    obtain rfl : target = resolved := Except.ok.inj (hresolve.symm.trans hresolved)
    exact ⟨htemporary.proper.short, h.cleared hkeeps' htemporary (getLast?_temporaryPath d target)
      hfree (hbefore.place_ne hchanged hfree)⟩

/-- What was done by a replacement that failed: no more than that directories were made. Nothing but
a directory stands at the path of the temporary file. -/
structure Abandoned (d : Disk) (path : Path) (d' : Disk) : Prop where
  changed : d.Changed [] d'
  cleared : ∀ resolved, d.resolve path = .ok resolved → d'.Clear (d.temporaryPath resolved)

theorem Same.clear (h : d.Same d') (hclear : d.Clear path) : d'.Clear path := by
  have hback : d'.Keeps d := ⟨h.home.symm, fun q e he => ⟨e, (h.get? q).symm.trans he, .refl e⟩⟩
  intro p e hlocate
  apply Decidable.byContradiction
  intro he
  have hfound : d.tree.get? p = some e := (h.get? p).symm.trans (found_of_locate hlocate he)
  exact he (hclear p e (hback.locate hlocate (.there (.refl e) hfound)))

theorem replaced_or_abandoned {t : Text} {result : Except Fault Unit} (hrooted : d.tree.Rooted)
    (hhome : d.tree.Standing d.home) (hup : ['.', '.'] ∉ Tree.namesOf (Path.ofText t).text)
    (hclear : ∀ resolved, d.resolve (Path.ofText t) = .ok resolved →
      d.Clear (d.temporaryPath resolved))
    (h : d.replace (Path.ofText t) bytes = (result, d')) :
    (result = .ok () ∧ ∃ place mode, d.Replaced (Path.ofText t) bytes place mode d') ∨
      ((∃ fault, result = .error fault) ∧ d.Abandoned (Path.ofText t) d') := by
  unfold replace at h
  split at h
  · obtain ⟨rfl, rfl⟩ := Prod.mk.inj h
    exact .inr ⟨⟨_, rfl⟩, .refl d, hclear⟩
  · next target hresolve =>
      have abandoned : ∀ {after}, d.Changed [] after → after.Clear (d.temporaryPath target) →
          d.Abandoned (Path.ofText t) after := by
        refine fun hchanged hcleared => ⟨hchanged, fun resolved hresolved => ?_⟩
        obtain rfl : target = resolved := Except.ok.inj (hresolve.symm.trans hresolved)
        exact hcleared
      have hchanged := changed_makeParent (d := d) (Path.ofText target)
      obtain ⟨hup', hcleared⟩ :=
        clear_makeParent hrooted hhome hup hresolve (hclear target hresolve)
      dsimp only at h
      split at h
      · next hmade =>
          rw [hmade] at hchanged hcleared
          obtain ⟨rfl, rfl⟩ := Prod.mk.inj h
          exact .inr ⟨⟨_, rfl⟩, abandoned hchanged hcleared⟩
      · next after hmade =>
          obtain rfl : (d.makeParent (Path.ofText target)).2 = after := by rw [hmade]
          obtain ⟨init, hinit, -⟩ := exists_route_temporaryPath d hup'
          obtain ⟨hdot, hdots, -⟩ := ne_of_ending (suffix_temporaryName d (Path.ofText target))
          rcases install_cases hcleared (getLast?_temporaryPath d target) ⟨init, hinit⟩ hdot hdots h
            with ⟨hfault, hsame⟩ | ⟨hdone, dir, name, front, hinstalled, htemporary, hfree⟩
          · exact .inr ⟨hfault, abandoned (hchanged.trans hsame.changed) (hsame.clear hcleared)⟩
          · have hbefore := hinstalled.preceded hrooted hhome hup hresolve
            exact .inl ⟨hdone, _, _,
              hinstalled.replaced hchanged hhome hresolve htemporary hfree hbefore⟩

/-! ### Where a file can be put -/

/-- A path at which a file can be put. It is resolved to names that lead to a directory, followed by
names of which the first is free, or by the last name alone, where there is no directory. There is
room for the temporary file. -/
structure Writable (d : Disk) (path : Path) (target : Text) (front more : List Text) (dir : Place)
    (name : Text) : Prop where
  resolves : d.resolve path = .ok target
  shown : (Path.ofText target).text = target
  names : Tree.namesOf target = front ++ more ++ [name]
  leads : d.tree.Leads true Tree.linkLimit (d.start target) (front ++ [['.']])
    (.there dir .directory)
  proper : ∀ n ∈ more ++ [name], Tree.Proper n
  free : ∀ first ∈ more.head?, d.tree.get? (dir ++ [first]) = none
  not_directory : d.tree.get? (dir ++ more ++ [name]) ≠ some .directory
  no_slash : target.getLast? ≠ some '/'
  accepted : refusal? target = none ∧ refusal? (d.temporaryPath target) = none
  short : Tree.tooLong (d.temporaryName (Path.ofText target)) = false
  vacant : ∀ p e, d.locate false (d.temporaryPath target) ≠ .ok (.there p e)

namespace Writable

variable {path : Path} {front more : List Text}

theorem exists_temporary (h : d.Writable path target front more dir name)
    (hup : ['.', '.'] ∉ Tree.namesOf target) :
    ∃ init j, front ++ more = init ++ List.replicate j ['.'] ∧
      Tree.namesOf (d.temporaryPath target) =
        init ++ [d.temporaryName (Path.ofText target)] := by
  have hdot : name ≠ ['.'] := (h.proper name (by simp)).ne_dot
  obtain ⟨init, hinit, -, habove | ⟨hsame, hdots⟩, -⟩ := exists_route_temporaryPath d hup
  · rw [h.names] at habove
    obtain ⟨j, hj⟩ := habove.eq_of_concat hdot
    exact ⟨init, j, hj, hinit⟩
  · rw [hsame, h.names] at hdots
    exact absurd (hdots name (by simp)) hdot

/-- Once the directory that holds the file is there, it holds the temporary file as well. -/
theorem names_temporary (h : d.Writable path target front more dir name)
    (hup : ['.', '.'] ∉ Tree.namesOf target)
    (hmade : d.Made (d.start target) front more dir after) :
    after.Names (d.temporaryPath target) (dir ++ more) (d.temporaryName (Path.ofText target)) := by
  have hkeeps : d.Keeps after := hmade.changed.keeps (by simp)
  obtain ⟨hdot, hdots, -⟩ := ne_of_ending (suffix_temporaryName d (Path.ofText target))
  obtain ⟨init, j, hj, hinit⟩ := h.exists_temporary hup
  refine ⟨⟨hdot, hdots, h.short⟩, init, hinit, ?_⟩
  have hdir := hmade.leads
  rw [hj] at hdir
  rw [hkeeps.start, start_temporaryPath hup]
  exact hdir.without_dots

theorem vacant_temporary (h : d.Writable path target front more dir name)
    (hrooted : d.tree.Rooted) (hup : ['.', '.'] ∉ Tree.namesOf target) :
    d.tree.get? (dir ++ more ++ [d.temporaryName (Path.ofText target)]) = none := by
  by_cases hmore : more = []
  · subst hmore
    have hnames := h.names_temporary hup (.refl h.leads)
    cases hfound : d.tree.get? (dir ++ [] ++ [d.temporaryName (Path.ofText target)]) with
    | none => rfl
    | some e =>
        exact absurd (hnames.locate_there h.accepted.2 (getLast?_temporaryPath d target) hfound)
          (h.vacant _ _)
  · exact hrooted.nothing_below (free_along hrooted h.free hmore) _

/-- Where a file can be put, one is put. -/
theorem replace_ok (h : d.Writable path target front more dir name) (hrooted : d.tree.Rooted)
    (hup : ['.', '.'] ∉ Tree.namesOf target) (bytes : Bytes) :
    ∃ d', d.replace path bytes = (.ok (), d') := by
  have hnames : (Tree.namesOf (Path.ofText target).text).dropLast = front ++ more := by
    rw [h.shown, h.names, List.dropLast_concat]
  obtain ⟨after, hafter, hmade⟩ := makeParent_ok hrooted (by rw [h.shown]; exact h.accepted.1) hnames
    (by rw [h.shown]; exact h.leads) (fun n hn => h.proper n (List.mem_append_left _ hn)) h.free
  rw [h.shown] at hmade
  have hkeeps : d.Keeps after := hmade.changed.keeps (by simp)
  have htarget : after.Names target (dir ++ more) name := by
    refine ⟨h.proper name (by simp), front ++ more, h.names, ?_⟩
    rw [hkeeps.start]
    exact hmade.leads
  have hvacant : after.tree.get? (dir ++ more ++ [d.temporaryName (Path.ofText target)]) = none := by
    rw [hmade.below _ (by simp)]
    exact h.vacant_temporary hrooted hup
  have hdirectory : after.tree.get? (dir ++ more ++ [name]) ≠ some .directory := by
    rw [hmade.below _ (by simp)]
    exact h.not_directory
  obtain ⟨d', hinstall⟩ := install_ok (h.names_temporary hup hmade) h.accepted.2
    (getLast?_temporaryPath d target) hvacant htarget h.accepted.1 h.no_slash hdirectory bytes
  refine ⟨d', ?_⟩
  simp only [replace, h.resolves, hafter]
  exact hinstall

end Writable

/-- **Replacing a file is all or nothing**, on a disk where all that is there stands in directories,
and for a path that does not go up and whose temporary file is in no other file's place. It succeeds
and has replaced the file, or fails and has changed nothing but for directories that it made. It
succeeds where a file can be put, and fails where something stands in its way. A text that was
written is the text that is read. -/
theorem replace_all_or_nothing {t : Text} {result : Except Fault Unit} (hrooted : d.tree.Rooted)
    (hhome : d.tree.Standing d.home) (hup : ['.', '.'] ∉ Tree.namesOf (Path.ofText t).text)
    (hclear : ∀ resolved, d.resolve (Path.ofText t) = .ok resolved →
      d.Clear (d.temporaryPath resolved))
    (h : d.replace (Path.ofText t) bytes = (result, d')) :
    ((result = .ok () ∧ d'.read (Path.ofText t).text = .ok bytes ∧
        ∃ place mode, d.Replaced (Path.ofText t) bytes place mode d') ∨
      ((∃ fault, result = .error fault) ∧ d.Abandoned (Path.ofText t) d')) ∧
    (∀ target front more dir name, d.Writable (Path.ofText t) target front more dir name →
      result = .ok ()) ∧
    (d.Obstructed (Path.ofText t) → ∃ fault, result = .error fault) ∧
    ∀ s, (d.writeText (Path.ofText t) s).1 = .ok () →
      (d.writeText (Path.ofText t) s).2.readText (Path.ofText t) = .ok s := by
  have houtcome := replaced_or_abandoned hrooted hhome hup hclear h
  refine ⟨?_, fun target front more dir name hwritable => ?_, fun hobstructed => ?_,
    fun s hwritten => ?_⟩
  · rcases houtcome with ⟨hdone, place, mode, hreplaced⟩ | hfailed
    · exact .inl ⟨hdone, read_of_locate hreplaced.locate, place, mode, hreplaced⟩
    · exact .inr hfailed
  · have hup' := (clear_makeParent hrooted hhome hup hwritable.resolves
      (hclear _ hwritable.resolves)).1
    obtain ⟨d'', hdone⟩ := hwritable.replace_ok hrooted hup' bytes
    rw [h] at hdone
    exact (Prod.mk.inj hdone).1
  · rcases houtcome with ⟨-, place, mode, hreplaced⟩ | ⟨hfault, -⟩
    · exact absurd hobstructed hreplaced.not_obstructed
    · exact hfault
  · have hwrite : d.replace (Path.ofText t) (Utf8.encode s) =
        ((d.writeText (Path.ofText t) s).1, (d.writeText (Path.ofText t) s).2) := rfl
    rcases replaced_or_abandoned hrooted hhome hup hclear hwrite with
      ⟨-, place, mode, hreplaced⟩ | ⟨⟨fault, hfault⟩, -⟩
    · simp only [readText, read_of_locate hreplaced.locate, Utf8.decode_encode]
    · rw [hwritten] at hfault
      cases hfault

def linked : Disk :=
  ⟨⟨[(["a.ts".toList], .file [120] 0o755), (["l".toList], .link "a.ts".toList)]⟩, [], 1⟩

def relinked : Disk :=
  ⟨⟨[(["a.ts".toList], .file [121] 0o755), (["l".toList], .link "a.ts".toList)]⟩, [], 1⟩

theorem linked_vacant :
    linked.locate false (linked.temporaryPath "/a.ts".toList) =
      .ok (.vacant [] ".a.ts.1.tmp".toList) := by
  cbv

theorem linked_resolve : linked.resolve (Path.ofText ['l']) = .ok "/a.ts".toList := by cbv

theorem linked_writable :
    linked.Writable (Path.ofText ['l']) "/a.ts".toList [] [] [] "a.ts".toList where
  resolves := linked_resolve
  shown := rfl
  names := rfl
  leads := .stay .done
  proper := by
    intro n hn
    rw [List.mem_singleton.mp hn]
    exact ⟨by decide, by decide, by cbv⟩
  free := by simp
  not_directory := by decide
  no_slash := by decide
  accepted := ⟨by cbv, by cbv⟩
  short := by cbv
  vacant := by
    intro p e hlocate
    rw [linked_vacant] at hlocate
    cases hlocate

theorem replace_linked :
    linked.Writable (Path.ofText ['l']) "/a.ts".toList [] [] [] "a.ts".toList ∧
      linked.replace (Path.ofText ['l']) [121] = (.ok (), relinked) ∧
      ∃ place mode, linked.Replaced (Path.ofText ['l']) [121] place mode relinked := by
  have hreplace : linked.replace (Path.ofText ['l']) [121] = (.ok (), relinked) := by cbv
  have hrooted : linked.tree.Rooted := by
    apply Tree.rooted_of_entries
    intro x hx
    rcases List.mem_pair.mp hx with rfl | rfl
    · rfl
    · rfl
  have hclear : ∀ resolved, linked.resolve (Path.ofText ['l']) = .ok resolved →
      linked.Clear (linked.temporaryPath resolved) := by
    intro resolved hresolved p e hlocate
    rw [linked_resolve] at hresolved
    rw [← Except.ok.inj hresolved, linked_vacant] at hlocate
    cases hlocate
  have hup : ['.', '.'] ∉ Tree.namesOf (Path.ofText ['l']).text := by decide
  rcases (replace_all_or_nothing hrooted .root hup hclear hreplace).1 with
    ⟨-, -, hreplaced⟩ | ⟨⟨fault, hfault⟩, -⟩
  · exact ⟨linked_writable, hreplace, hreplaced⟩
  · cases hfault

end Disk

end BlockSieve
