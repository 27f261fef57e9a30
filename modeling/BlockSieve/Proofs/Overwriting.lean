import BlockSieve.Proofs.Atomicity
import BlockSieve.Proofs.Overlay
import BlockSieve.Proofs.PathParts

/-!
Replacing a file, whatever stands at the name of the temporary file. An old
file there is overwritten and moved. A link there is followed when the new
bytes are written, and then it is the link that is moved over the file: the
path now leads through it to the new bytes, or it leads nowhere. So once a
file was replaced, the path to it never leads to other bytes than the new
ones, and it leads to them unless the link leads back to the file, or there
are too many links on the way.
-/

namespace BlockSieve

namespace Disk

variable {d d' written : Disk} {target : Text} {dir : Place} {name hidden : Text}
  {bytes old : Bytes} {mode : Nat}

/-- A name beside the last name of a path is in the same directory, by whatever ways up and down the
path leads there. -/
theorem Names.beside (h : d.Names target dir name) (plain : Tree.Plain hidden)
    (proper : Tree.Proper hidden) : d.Names (Component.beside target hidden) dir hidden := by
  obtain ⟨proper', init, hnames, hleads⟩ := h
  have hlast : Component.last? target = some name :=
    Component.last?_of_concat hnames proper'.ne_dot proper'.ne_dots
  obtain ⟨directory, hdirectory⟩ := Option.ne_none_iff_exists'.mp
    (mt Component.last?_of_directory? (by rw [hlast]; simp))
  have hbeside : Component.beside target hidden = Component.within directory hidden := by
    simp only [Component.beside, hlast, hdirectory, Option.getD_some]
  have hstart : d.start (Component.within directory hidden) = d.start target := by
    rw [Disk.start, Component.fromRoot_within directory plain,
      Component.fromRoot_directory? hdirectory, Disk.start]
  have habove := Component.above_directory? hdirectory
  rw [hnames] at habove
  obtain ⟨j, rfl⟩ := habove.eq_of_concat proper'.ne_dot
  refine ⟨proper, Tree.namesOf directory, ?_, ?_⟩
  · rw [hbeside, Component.namesOf_within directory plain]
  · rw [hbeside, hstart]
    exact hleads.without_dots

/-- The temporary file for a path has another name than the file. The name is taken from the path
with its backslashes turned into slashes; a file with a backslash in its name has a longer one. -/
theorem temporaryName_ne_last {t : Text} (h : (Tree.namesOf t).getLast? = some name) :
    d.temporaryName (Path.ofText t) ≠ name := by
  intro hname
  have hshown : '\\' ∉ (Path.ofText t).fileName?.getD [] := by
    intro hmem
    cases hfile : (Path.ofText t).fileName? with
    | none => simp [hfile] at hmem
    | some last =>
        rw [hfile, Option.getD_some] at hmem
        exact Path.backslash_not_mem_ofText t (Path.mem_of_mem_fileName? hfile hmem)
  have hfree : '\\' ∉ name := by
    rw [← hname]
    exact d.not_mem_temporaryName hshown rfl (by decide)
  refine temporaryName_ne ?_ hname
  rw [← Path.fileName?_eq, Path.fileName?_ofText h hfree]

/-- A file was written, in a place where none stood or another did. -/
structure Written (d written : Disk) : Prop where
  keeps : d.Keeps written
  opens_iff : ∀ links here names place,
    written.tree.Opens links here names place ↔ d.tree.Opens links here names place

theorem written_of_filePlace {landing : Tree.Landing} {path : Text} {place : Place}
    (home : written.home = d.home) (hlocate : d.locate true path = .ok landing)
    (hplace : landing.filePlace? = some place)
    (get? : ∀ q, written.tree.get? q =
      if place = q then some (.file bytes mode) else d.tree.get? q) : d.Written written := by
  have hbefore : d.tree.Fillable place := (filePlace_of_locate hlocate hplace).2
  have hafter : written.tree.Fillable place := .inr ⟨bytes, mode, by rw [get?, if_pos rfl]⟩
  have hsame : ∀ q, place ≠ q → written.tree.get? q = d.tree.get? q := fun q hq => by
    rw [get?, if_neg hq]
  exact ⟨keeps_of_filePlace home hlocate hplace get?, fun links here names p =>
    ⟨fun h => h.of_fillable hafter hbefore fun q hq => (hsame q hq).symm,
      fun h => h.of_fillable hbefore hafter hsame⟩⟩

/-- A file with the given bytes was written where the path of the temporary file leads, and then
what stands at that path was moved over the old file: the file itself or the link to it. -/
inductive Swapped (d : Disk) (dir : Place) (name hidden : Text) (bytes : Bytes) (mode : Nat)
    (written d' : Disk) : Prop
  | file (moved : written.tree.Overlaid dir name hidden (.file bytes mode) d'.tree)
  | link {target left place} (stood : d.tree.get? (dir ++ [hidden]) = some (.link target))
      (leads : written.tree.LinkLeads left dir target (.there place (.file bytes mode)))
      (moved : written.tree.Overlaid dir name hidden (.link target) d'.tree)

/-- Where a path leads, it leads from the directory of its last name. -/
theorem Names.leads_last {landing : Tree.Landing} {path : Text} (h : d.Names path dir name)
    (hslash : path.getLast? ≠ some '/') (hlocate : d.locate true path = .ok landing) :
    ∃ left, d.tree.Leads true left dir [name] landing := by
  obtain ⟨-, init, hnames, hleads⟩ := h
  obtain ⟨left, hgo⟩ := hleads.goes_on
  have hlanding := (locate_eq_ok_iff.mp hlocate).2
  rw [Tree.route, if_neg hslash, hnames] at hlanding
  exact ⟨left, (hgo true [name] landing (by simp)).mp hlanding⟩

/-- Moving an entry from a hidden name to the name of a file beside it. -/
theorem overlaid_of_move {temporary : Text} {entry : Entry}
    (htarget : d.Names target dir name) (htemporary : d.Names temporary dir hidden)
    (haccepted : refusal? temporary = none)
    (hfile : d.tree.get? (dir ++ [name]) = some (.file old mode))
    (hentry : d.tree.get? (dir ++ [hidden]) = some entry)
    (h : d.move temporary target = .ok d') :
    refusal? target = none ∧ target.getLast? ≠ some '/' ∧ d'.home = d.home ∧
      d.tree.Overlaid dir name hidden entry d'.tree := by
  obtain ⟨dir', name', hnames, haccepted', hslash, -, rfl⟩ :=
    move_eq_ok (htemporary.holder haccepted) hentry h
  obtain ⟨rfl, rfl⟩ := htarget.of_holder (hnames.holder haccepted')
  refine ⟨haccepted', hslash, rfl, hentry, ⟨_, _, hfile⟩, fun q => ?_⟩
  rw [Tree.get?_put_of_ne_nil _ (by simp), Tree.get?_erase_of_ne_nil _ (by simp)]

/-- What installing a file comes to if it succeeds: a file is put where the path of the temporary
file leads, and what stands at that path is moved. -/
theorem install_eq_ok {temporary : Text} (h : d.install temporary target bytes = (.ok (), d')) :
    ∃ landing place fallback, ∃ written : Disk, d.locate true temporary = .ok landing ∧
      landing.filePlace? = some place ∧ written.home = d.home ∧
      (∀ q, written.tree.get? q =
        if place = q then some (.file bytes ((d.mode? target).getD fallback))
        else d.tree.get? q) ∧
      written.move temporary target = .ok d' := by
  cases hopen : d.openEmpty temporary newFileMode with
  | error cause => simp [install, hopen] at h
  | ok opening =>
      obtain ⟨place, opened⟩ := opening
      obtain ⟨landing, kept, hlocate, hplace, rfl⟩ := openEmpty_eq_ok hopen
      obtain ⟨hne, -⟩ := filePlace_of_locate hlocate hplace
      simp only [install, hopen] at h
      split at h
      · cases h
      · next hmove =>
          obtain rfl := (Prod.mk.inj h).2
          refine ⟨landing, place, ((d.put place (.file [] kept)).mode? temporary).getD newFileMode,
            _, hlocate, hplace, ?_, fun q => ?_, hmove⟩
          · rfl
          · simp only [put, Tree.get?_put_of_ne_nil _ hne]
            split <;> rfl

/-- Installing a file in the place of another, whatever stands at the name of the temporary file. -/
theorem install_swapped (hnames : d.Names target dir name)
    (hfile : d.tree.get? (dir ++ [name]) = some (.file old mode))
    (plain : Tree.Plain hidden) (hending : ".tmp".toList <:+ hidden)
    (h : d.install (Component.beside target hidden) target bytes = (.ok (), d')) :
    ∃ written, Tree.Proper hidden ∧ d.Written written ∧ d'.home = written.home ∧
      d.Swapped dir name hidden bytes mode written d' := by
  obtain ⟨hdot, hdots, hslash⟩ := ne_of_ending hending
  obtain ⟨directory, hbeside⟩ := Component.beside_eq_within target hidden
  have hinit := Component.namesOf_within directory plain
  have hlast := Component.getLast?_within directory plain
  rw [← hbeside] at hinit hlast
  rw [← hlast] at hslash
  obtain ⟨landing, place, fallback, written, hlocate, hplace, hhome, hget, hmove⟩ :=
    install_eq_ok h
  obtain ⟨haccepted, hleads⟩ := locate_eq_ok_iff.mp hlocate
  rw [Tree.route, if_neg hslash, hinit] at hleads
  obtain ⟨_, proper, -⟩ := hleads.last hdot hdots
  have hwritten : d.Written written := written_of_filePlace hhome hlocate hplace hget
  have hkeeps := hwritten.keeps
  have hnew := hget place
  rw [if_pos rfl] at hnew
  have hthere := hkeeps.locate hlocate (Tree.Landing.becomes_of_filePlace hplace hnew)
  have htarget := hnames.kept hkeeps
  have htemporary := (hnames.beside plain proper).kept hkeeps
  obtain ⟨_, _, hover⟩ := hkeeps.tree.file hfile
  have hmoved : ∀ entry, written.tree.get? (dir ++ [hidden]) = some entry →
      (d.mode? target).getD fallback = mode ∧ d'.home = written.home ∧
        written.tree.Overlaid dir name hidden entry d'.tree := by
    intro entry hentry
    obtain ⟨haccepted', hends, hhome', hoverlaid⟩ :=
      overlaid_of_move htarget htemporary haccepted hover hentry hmove
    have hmode : d.mode? target = some mode := by
      rw [mode?, hnames.locate haccepted' hends hfile]
    exact ⟨by rw [hmode, Option.getD_some], hhome', hoverlaid⟩
  obtain ⟨left, hhidden⟩ := htemporary.leads_last hslash hthere
  rcases hhidden.file_or_link proper with hfound | ⟨link, left', hfound, honward⟩
  · obtain ⟨hmode, hhome', hoverlaid⟩ := hmoved _ hfound
    rw [hmode] at hoverlaid
    exact ⟨written, proper, hwritten, hhome', .file hoverlaid⟩
  · obtain ⟨hmode, hhome', hoverlaid⟩ := hmoved _ hfound
    rw [hmode] at honward
    refine ⟨written, proper, hwritten, hhome', .link ?_ honward hoverlaid⟩
    rw [hget] at hfound
    split at hfound
    · cases hfound
    · exact hfound

section

variable {path : Text} {place : Place} {kept : Nat}

/-- A path to the old file leads to the new one where a file was moved over it. -/
theorem locate_of_overlaid (home : d'.home = d.home)
    (h : d.tree.Overlaid dir name hidden (.file bytes mode) d'.tree)
    (hlocate : d.locate true path = .ok (.there (dir ++ [name]) (.file old kept))) :
    d'.locate true path = .ok (.there (dir ++ [name]) (.file bytes mode)) := by
  obtain ⟨haccepted, hleads⟩ := locate_eq_ok_iff.mp hlocate
  refine locate_eq_ok_iff.mpr ⟨haccepted, ?_⟩
  rw [start_of_home home]
  exact h.leads hleads

/-- Where a link was moved, what is read along the path to the old file are the bytes to which the
link leads. They are read if it leads to another file than the old one, and if there are few enough
links on the way. -/
theorem read_of_overlaid {link : Text} {left : Nat} (home : d'.home = d.home)
    (h : d.tree.Overlaid dir name hidden (.link link) d'.tree) (proper : Tree.Proper hidden)
    (hlink : d.tree.LinkLeads left dir link (.there place (.file bytes mode)))
    (hlocate : d.locate true path = .ok (.there (dir ++ [name]) (.file old kept))) :
    (∀ found, d'.read path = .ok found → found = bytes) ∧
      (d'.read path = .ok bytes ↔ ∃ m n other, m + n ≤ Tree.linkLimit ∧
        d.tree.Opens m (d.start path) (Tree.route path) (dir ++ [name]) ∧
        d.tree.Opens n dir [hidden] other ∧ other ≠ dir ++ [name]) := by
  obtain ⟨haccepted, hbefore⟩ := locate_eq_ok_iff.mp hlocate
  have hnamed : link ≠ [] := by
    rintro rfl
    cases hlink
  have hlanding : ∀ found, d'.read path = .ok found → ∃ q mode',
      d'.tree.Leads true Tree.linkLimit (d.start path) (Tree.route path)
          (.there q (.file found mode')) ∧
        Tree.Landing.there q (.file found mode') = .there place (.file bytes mode) := by
    intro found hread
    obtain ⟨q, mode', hafter⟩ := exists_locate_of_read hread
    obtain ⟨-, hafter⟩ := locate_eq_ok_iff.mp hafter
    rw [start_of_home home] at hafter
    exact ⟨q, mode', hafter, h.eq_of_leads hlink hbefore hafter⟩
  refine ⟨fun found hread => ?_, fun hread => ?_, ?_⟩
  · obtain ⟨q, mode', -, hsame⟩ := hlanding found hread
    exact (Entry.file.inj (Tree.Landing.there.inj hsame).2).1
  · obtain ⟨q, mode', hafter, hsame⟩ := hlanding bytes hread
    rw [hsame] at hafter
    obtain ⟨hplace, m, k, hlt, hgone, hon⟩ := (h.leads_iff hlink hbefore).mp hafter
    refine ⟨m, k + 1, place, hlt, ⟨_, hgone, rfl⟩, ?_, hplace⟩
    exact (Tree.opens_link_iff proper h.moved hnamed).mpr ⟨k, rfl, _, hon, rfl⟩
  · rintro ⟨m, n, other, hle, hgone, hopens, hother⟩
    obtain ⟨k, rfl, hon⟩ := (Tree.opens_link_iff proper h.moved hnamed).mp hopens
    obtain ⟨rfl, hon⟩ := hon.leads hlink
    obtain ⟨-, hgone⟩ := hgone.leads hbefore
    have hafter := (h.leads_iff hlink hbefore).mpr ⟨hother, m, k, hle, hgone, hon⟩
    rw [← start_of_home home] at hafter
    exact read_of_locate (locate_eq_ok_iff.mpr ⟨haccepted, hafter⟩)

end

/-- A link stands beside the file at `place` under the name of the temporary file for `path`. -/
def Diverted (d : Disk) (path : Path) (place : Place) : Prop :=
  ∃ target link, d.resolve path = .ok target ∧
    d.tree.get? (place.dropLast ++ [d.temporaryName (Path.ofText target)]) = some (.link link)

/-- What is opened under the name of the temporary file, beside the file that `path` leads to, is
not that file; and there are few enough links on the way to both, one after the other. -/
def Aside (d : Disk) (path : Path) : Prop :=
  ∃ target place links more other, d.resolve path = .ok target ∧
    links + more ≤ Tree.linkLimit ∧
    d.tree.Opens links (d.start path.text) (Tree.route path.text) place ∧
    d.tree.Opens more place.dropLast [d.temporaryName (Path.ofText target)] other ∧ other ≠ place

/-- The disk on which a replacement opens the temporary file. The directories are there that the
path asks for. -/
def readied (d : Disk) (path : Path) : Disk :=
  match d.resolve path with
  | .error _ => d
  | .ok target => (d.makeParent (Path.ofText target)).2

theorem aside_iff {path : Path} (hresolve : d.resolve path = .ok target)
    (hlocate : d.locate true path.text = .ok (.there (dir ++ [name]) (.file old mode))) :
    d.Aside path ↔ ∃ m n other, m + n ≤ Tree.linkLimit ∧
      d.tree.Opens m (d.start path.text) (Tree.route path.text) (dir ++ [name]) ∧
      d.tree.Opens n dir [d.temporaryName (Path.ofText target)] other ∧ other ≠ dir ++ [name] := by
  have hleads := (locate_eq_ok_iff.mp hlocate).2
  constructor
  · rintro ⟨target', place, m, n, other, htarget, hle, hgone, hopens, hother⟩
    obtain rfl := Except.ok.inj (hresolve.symm.trans htarget)
    obtain ⟨rfl, -⟩ := hgone.leads hleads
    rw [List.dropLast_concat] at hopens
    exact ⟨m, n, other, hle, hgone, hopens, hother⟩
  · rintro ⟨m, n, other, hle, hgone, hopens, hother⟩
    exact ⟨target, _, m, n, other, hresolve, hle, hgone, by rwa [List.dropLast_concat], hother⟩

/-- **Once a file was replaced, the path to it leads to the new bytes or nowhere.** It leads to the
same place as before, and the file there has the new bytes and the old permission bits, unless a
link stood at the name of the temporary file. It leads to the new bytes if and only if they were
written aside from it. -/
theorem replace_leaves {path : Path} {place : Place}
    (hstart : d.tree.Standing (d.start path.text))
    (hlocate : d.locate true path.text = .ok (.there place (.file old mode)))
    (h : d.replace path bytes = (.ok (), d')) :
    (∀ found, d'.read path.text = .ok found → found = bytes) ∧
      (d'.locate true path.text = .ok (.there place (.file bytes mode)) ∨
        d.Diverted path place) ∧
      (d'.read path.text = .ok bytes ↔ (d.readied path).Aside path) := by
  unfold replace at h
  split at h
  · cases h
  · next target hresolve =>
      obtain ⟨dir, name, rfl, hnames⟩ := names_of_resolve hstart hlocate hresolve
      have hparent := changed_makeParent (d := d) (Path.ofText target)
      dsimp only at h
      split at h
      · cases h
      · next after hmade =>
          rw [hmade] at hparent
          have hkeeps : d.Keeps after := hparent.keeps (by simp)
          have hfile := hparent.after (by simp) (found_of_locate hlocate (by simp))
          have hready : d.readied path = after := by
            simp only [readied, hresolve, hmade]
          have hname : after.temporaryName (Path.ofText target) =
              d.temporaryName (Path.ofText target) := by
            unfold temporaryName
            rw [hparent.process]
          have hne : d.temporaryName (Path.ofText target) ≠ name := by
            obtain ⟨-, init, hinit, -⟩ := hnames
            exact temporaryName_ne_last (by rw [hinit, List.getLast?_concat])
          obtain ⟨written, proper, hwritten, hhome, hswapped⟩ :=
            install_swapped (hnames.kept hkeeps) hfile (plain_temporaryName d _)
              (suffix_temporaryName d _) h
          obtain ⟨old', kept, hold⟩ := hwritten.keeps.tree.file hfile
          have hfound := hkeeps.locate hlocate (.there (.file ..) hfile)
          have hthere := hwritten.keeps.locate hfound (.there (.file ..) hold)
          have haside := aside_iff ((hkeeps.resolve hlocate).trans hresolve) hfound
          simp only [hname, ← hwritten.opens_iff, ← hwritten.keeps.start path.text] at haside
          rw [hready, haside]
          cases hswapped with
          | file moved =>
              have hnew := locate_of_overlaid hhome moved hthere
              have hread := read_of_locate hnew
              have hopens : written.tree.Opens 0 dir [d.temporaryName (Path.ofText target)] _ :=
                Tree.Fillable.opens (.inr ⟨_, _, moved.moved⟩) proper
              refine ⟨fun found hfound => ?_, .inl hnew, fun _ => ?_, fun _ => hread⟩
              · exact Except.ok.inj (hfound.symm.trans hread)
              · refine ⟨Tree.linkLimit, 0, _, Nat.le_refl _, ?_, hopens, ?_⟩
                · exact ⟨_, (locate_eq_ok_iff.mp hthere).2, rfl⟩
                · intro hsame
                  exact hne (List.singleton_inj.mp (List.append_inj' hsame rfl).2)
          | @link link _ _ stood leads moved =>
              obtain ⟨hreads, hiff⟩ := read_of_overlaid hhome moved proper leads hthere
              refine ⟨hreads, .inr ⟨target, link, hresolve, ?_⟩, hiff⟩
              rw [List.dropLast_concat]
              exact hparent.before (by simp) stood (by simp)

end Disk

end BlockSieve
