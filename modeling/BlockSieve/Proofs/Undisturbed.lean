import BlockSieve.Proofs.Atomicity
import BlockSieve.Proofs.Overwriting

/-!
What replacing a file does around it. The temporary file is beside the file
that is replaced, wherever links led to it, and is gone afterwards. The
directory that is made if it is missing is another matter: it is taken from
the path as it is shown, with slashes for backslashes, and behind a link that
can name a directory that is not the one of the file.
-/

namespace BlockSieve

namespace Tree

/-- Names that lead to a directory lead there with a dot after them. -/
theorem Leads.with_dot {t : Tree} {follow : Bool} {links : Nat} {here dir : Place}
    {names : List Text} (h : t.Leads follow links here names (.there dir .directory)) :
    t.Leads follow links here (names ++ [['.']]) (.there dir .directory) := by
  generalize hl : Landing.there dir .directory = landing at h
  induction h with
  | done =>
      cases hl
      exact .stay .done
  | stay _ ih => exact .stay (ih hl)
  | up _ ih => exact .up (ih hl)
  | enter proper found _ ih => exact .enter proper found (ih hl)
  | vacant => cases hl
  | file => cases hl
  | link => cases hl
  | through proper found _ named _ ih =>
      have hgoes := ih hl
      rw [List.append_assoc] at hgoes
      exact .through proper found (by simp) named hgoes

end Tree

namespace Disk

variable {d d' after : Disk} {path target hidden : Text} {bytes old : Bytes} {place dir : Place}
  {name : Text} {mode : Nat}

theorem isDirectory_iff : d.isDirectory path = true ↔ refusal? path = none ∧ ∃ dir,
    d.tree.Leads true Tree.linkLimit (d.start path) (Tree.namesOf path ++ [['.']])
      (.there dir .directory) := by
  constructor
  · intro h
    unfold isDirectory at h
    split at h
    · next dir hlocate =>
        obtain ⟨haccepted, hleads⟩ := locate_eq_ok_iff.mp hlocate
        refine ⟨haccepted, dir, ?_⟩
        unfold Tree.route at hleads
        split at hleads
        · exact hleads
        · exact hleads.with_dot
    · cases h
  · rintro ⟨haccepted, _, hleads⟩
    exact isDirectory_of_leads haccepted hleads

theorem Keeps.isDirectory (h : d.Keeps d') (hdir : d.isDirectory path = true) :
    d'.isDirectory path = true := by
  obtain ⟨haccepted, dir, hleads⟩ := isDirectory_iff.mp hdir
  refine isDirectory_iff.mpr ⟨haccepted, dir, ?_⟩
  rw [h.start]
  exact hleads.kept h.tree .directory

theorem isDirectory_of_makeDirectory (h : d.makeDirectory path = .ok d') :
    d'.isDirectory path = true := by
  have hkeeps : d.Keeps d' := (changed_of_makeDirectory h).keeps (by simp)
  have haccepted : refusal? path = none := by
    unfold makeDirectory at h
    split at h
    · cases h
    · cases h
    · next hholder => exact accepted_of_holder hholder
  obtain ⟨dir, name, hnames, -, rfl⟩ := makeDirectory_eq_ok h
  obtain ⟨proper, init, hinit, hleads⟩ := hnames.kept hkeeps
  refine isDirectory_iff.mpr ⟨haccepted, dir ++ [name], ?_⟩
  rw [hinit]
  refine hleads.enter_last proper ?_
  rw [put, Tree.get?_put_of_ne_nil _ (by simp), if_pos rfl]

/-- Once the first of the given directories is made, it is there. -/
theorem isDirectory_of_makeInnermost {above : List Text} (hne : path ≠ [])
    (h : d.makeInnermost (path :: above) = (.ok (), d')) : d'.isDirectory path = true := by
  obtain ⟨result, rest, hrest⟩ : ∃ r a, d.makeInnermost above = (r, a) := ⟨_, _, rfl⟩
  rw [makeInnermost, if_neg hne, hrest] at h
  split at h
  · next hmade =>
      obtain rfl := (Prod.mk.inj h).2
      exact isDirectory_of_makeDirectory hmade
  · cases result with
    | error cause => cases h
    | ok _ =>
        dsimp only at h
        split at h
        · next hmade =>
            obtain rfl := (Prod.mk.inj h).2
            exact isDirectory_of_makeDirectory hmade
        · split at h
          · next hthere =>
              obtain rfl := (Prod.mk.inj h).2
              exact hthere
          · cases h
  · split at h
    · next hthere =>
        obtain rfl := (Prod.mk.inj h).2
        exact hthere
    · cases h

/-- The directory that a path names above its last name, if it names one, is there. -/
def HasParent (d : Disk) (p : Path) : Prop :=
  ∀ parent, p.parent? = some parent → d.isDirectory parent.text = true

/-- Where it is there, no directory is made. -/
theorem HasParent.makeParent {p : Path} (h : d.HasParent p) : d.makeParent p = (.ok (), d) := by
  unfold Disk.makeParent
  cases hparent : p.parent? with
  | none => rfl
  | some parent =>
      obtain ⟨haccepted, dir, hleads⟩ := isDirectory_iff.mp (h parent hparent)
      obtain ⟨above, hupwards, -⟩ := upwards_cons parent.text
      have hmade : d.makeDirectories parent.text = (.ok (), d) := by
        rw [makeDirectories, hupwards]
        exact makeInnermost_there haccepted hleads above
      simp only [hmade]

/-- Once the directory was made, it is there. -/
theorem hasParent_of_makeParent {p : Path} (h : d.makeParent p = (.ok (), after)) :
    after.HasParent p := by
  intro parent hparent
  simp only [Disk.makeParent, hparent] at h
  split at h
  · next hmade =>
      obtain rfl := (Prod.mk.inj h).2
      obtain ⟨above, hupwards, -⟩ := upwards_cons parent.text
      rw [makeDirectories, hupwards] at hmade
      exact isDirectory_of_makeInnermost (Path.parent?_initial hparent).2 hmade
  · cases h

theorem HasParent.kept {p : Path} (h : d.HasParent p) (hkeeps : d.Keeps d') : d'.HasParent p :=
  fun parent hparent => hkeeps.isDirectory (h parent hparent)

/-- A path whose last name is in a directory names that directory. -/
theorem Names.hasParent {p : Path} (h : d.Names p.text dir name)
    (haccepted : refusal? p.text = none) : d.HasParent p := by
  intro parent hparent
  obtain ⟨-, init, hinit, hleads⟩ := h
  obtain ⟨hroot, hnames⟩ := Path.names_of_parent? hparent
  obtain ⟨hinitial, hne⟩ := Path.parent?_initial hparent
  refine isDirectory_iff.mpr ⟨refusal?_of_initial haccepted hinitial hne, dir, ?_⟩
  rw [hinit, List.dropLast_concat] at hnames
  rwa [hnames, Disk.start, hroot, ← Disk.start]

/-- Nothing but a directory stands at a path beside the last name of another, if nothing else has the
name in that directory. -/
theorem Names.clear_beside (h : d.Names target dir name) (plain : Tree.Plain hidden)
    (hending : ".tmp".toList <:+ hidden)
    (hfree : ∀ e, d.tree.get? (dir ++ [hidden]) = some e → e = .directory) :
    d.Clear (Component.beside target hidden) := by
  obtain ⟨hdot, hdots, hslash⟩ := ne_of_ending hending
  obtain ⟨directory, hbeside⟩ := Component.beside_eq_within target hidden
  have hlast := Component.getLast?_within directory plain
  rw [← hbeside] at hlast
  rw [← hlast] at hslash
  intro p e hlocate
  obtain ⟨haccepted, hleads⟩ := locate_eq_ok_iff.mp hlocate
  rw [Tree.route, if_neg hslash, hbeside, Component.namesOf_within directory plain] at hleads
  obtain ⟨_, proper, -⟩ := hleads.last hdot hdots
  have hnames := h.beside plain proper
  cases hthere : d.tree.get? (dir ++ [hidden]) with
  | none =>
      rw [hnames.locate_vacant haccepted hslash hthere] at hlocate
      cases hlocate
  | some found =>
      rw [hnames.locate_there haccepted hslash hthere] at hlocate
      obtain ⟨-, rfl⟩ := Tree.Landing.there.inj (Except.ok.inj hlocate)
      exact hfree found hthere

/-- What replacing a file comes to if it succeeds: the directory that the path names was made, or was
there, and then the file was put in the place of the old one. -/
theorem replace_eq_ok {path : Path} (hstart : d.tree.Standing (d.start path.text))
    (hlocate : d.locate true path.text = .ok (.there place (.file old mode)))
    (hfree : ∀ target, d.resolve path = .ok target →
      d.tree.get? (place.dropLast ++ [d.temporaryName (Path.ofText target)]) = none)
    (h : d.replace path bytes = (.ok (), d')) :
    ∃ target dir name after, place = dir ++ [name] ∧ d.resolve path = .ok target ∧
      d.Names target dir name ∧ d.makeParent (Path.ofText target) = (.ok (), after) ∧
      after.Installed target dir name bytes d' ∧ after.mode? target = some mode := by
  unfold replace at h
  split at h
  · cases h
  · next target hresolve =>
      obtain ⟨dir, name, rfl, hnames⟩ := names_of_resolve hstart hlocate hresolve
      have hparent := changed_makeParent (d := d) (Path.ofText target)
      dsimp only at h
      split at h
      · cases h
      · next after hmade =>
          rw [hmade] at hparent
          have hkeeps : d.Keeps after := hparent.keeps (by simp)
          have hfile := hparent.after (by simp) (found_of_locate hlocate (by simp))
          have hfree := hfree target hresolve
          rw [List.dropLast_concat] at hfree
          have hnames' := hnames.kept hkeeps
          have hplain := plain_temporaryName d (Path.ofText target)
          have hending := suffix_temporaryName d (Path.ofText target)
          have hclear := hnames'.clear_beside hplain hending fun e he => by
            by_contra hdir
            rw [hparent.before (by simp) he hdir] at hfree
            cases hfree
          obtain ⟨hdot, hdots, -⟩ := ne_of_ending hending
          obtain ⟨directory, hbeside⟩ := Component.beside_eq_within target
            (d.temporaryName (Path.ofText target))
          have hinit := Component.namesOf_within directory hplain
          rw [← hbeside] at hinit
          rcases install_cases hclear (getLast?_temporaryPath d target) ⟨_, hinit⟩ hdot hdots h with
            ⟨⟨fault, hfault⟩, -⟩ | ⟨-, dir', name', -, hinstalled, -, -⟩
          · cases hfault
          · obtain ⟨rfl, rfl⟩ := hnames'.of_holder (hinstalled.names.holder hinstalled.accepted)
            refine ⟨target, dir', name', after, rfl, hresolve, hnames, hmade, hinstalled, ?_⟩
            rw [mode?, hnames'.locate hinstalled.accepted hinstalled.no_slash hfile]

/-- **Replacing a file disturbs nothing else if and only if the directory that its path names is
there.** The file has the new bytes and its old permission bits, and nothing else is new but
directories, if any. The path that is asked for the directory is the one that links lead to, with its
backslashes turned into slashes: without a backslash in it, it names the directory of the file, and
none is made. This is so for names and targets of links that are texts; of bytes that are no text
the path would be spelled anew with replacement characters, and would name another directory. -/
theorem replace_undisturbed_iff {t : Text}
    (hstart : d.tree.Standing (d.start (Path.ofText t).text))
    (hlocate : d.locate true (Path.ofText t).text = .ok (.there place (.file old mode)))
    (hfree : ∀ target, d.resolve (Path.ofText t) = .ok target →
      d.tree.get? (place.dropLast ++ [d.temporaryName (Path.ofText target)]) = none)
    (h : d.replace (Path.ofText t) bytes = (.ok (), d')) :
    d.Changed [place] d' ∧ d'.tree.get? place = some (.file bytes mode) ∧
      ∃ target, d.resolve (Path.ofText t) = .ok target ∧
        ((∀ q, q ≠ place → d'.tree.get? q = d.tree.get? q) ↔ d.HasParent (Path.ofText target)) ∧
        ('\\' ∉ target → d.HasParent (Path.ofText target)) ∧
        (d.isLink (Path.ofText t).text = false → '\\' ∉ target) := by
  obtain ⟨target, dir, name, after, rfl, hresolve, hnames, hmade, hinstalled, hmode⟩ :=
    replace_eq_ok hstart hlocate hfree h
  have hparent := changed_makeParent (d := d) (Path.ofText target)
  rw [hmade] at hparent
  have hget := hinstalled.get?
  rw [hmode, Option.getD_some] at hget
  have helsewhere : ∀ q, q ≠ dir ++ [name] → d'.tree.get? q = after.tree.get? q :=
    fun q hq => by rw [hget, if_neg hq.symm]
  refine ⟨hparent.trans hinstalled.changed, by rw [hget, if_pos rfl], target, hresolve,
    ⟨fun hsame => ?_, fun hthere q hq => ?_⟩, fun hplain => ?_, fun hlink => ?_⟩
  -- nothing was made, so what is there now was there before
  · have hfile := found_of_locate hlocate (by simp)
    have hback : after.Keeps d := by
      refine ⟨hparent.home.symm, fun q e he => ⟨e, ?_, .refl e⟩⟩
      by_cases hq : q = dir ++ [name]
      · rw [hq, hparent.after (by simp) hfile] at he
        rw [hq, hfile, he]
      · rw [← hsame q hq, helsewhere q hq, he]
    exact (hasParent_of_makeParent hmade).kept hback
  · rw [hthere.makeParent] at hmade
    obtain rfl := (Prod.mk.inj hmade).2
    exact helsewhere q hq
  · have hshown := Path.ofText_of_not_mem hplain
    exact Names.hasParent (by rwa [hshown]) (by rw [hshown, hinstalled.accepted])
  · rw [resolve_of_locate hlocate, hlink] at hresolve
    obtain rfl := Except.ok.inj hresolve
    exact Path.backslash_not_mem_ofText t

theorem replace_undisturbed_linked :
    linked.tree.Standing (linked.start (Path.ofText ['l']).text) ∧
      linked.locate true (Path.ofText ['l']).text =
        .ok (.there ["a.ts".toList] (.file [120] 0o755)) ∧
      linked.resolve (Path.ofText ['l']) = .ok "/a.ts".toList ∧
      linked.tree.get? [".a.ts.1.tmp".toList] = none ∧
      linked.replace (Path.ofText ['l']) [121] = (.ok (), relinked) ∧
      ∀ q, q ≠ ["a.ts".toList] → relinked.tree.get? q = linked.tree.get? q := by
  have hlocate : linked.locate true (Path.ofText ['l']).text =
      .ok (.there ["a.ts".toList] (.file [120] 0o755)) := by cbv
  have hreplace : linked.replace (Path.ofText ['l']) [121] = (.ok (), relinked) := by cbv
  have hvacant : linked.tree.get? [".a.ts.1.tmp".toList] = none := by decide
  have hfree : ∀ target, linked.resolve (Path.ofText ['l']) = .ok target →
      linked.tree.get? (["a.ts".toList].dropLast ++ [linked.temporaryName (Path.ofText target)]) = none := by
    intro target htarget
    rw [linked_resolve] at htarget
    obtain rfl := Except.ok.inj htarget
    exact hvacant
  obtain ⟨-, -, target, htarget, hiff, hplain, -⟩ :=
    replace_undisturbed_iff .root hlocate hfree hreplace
  rw [linked_resolve] at htarget
  obtain rfl := Except.ok.inj htarget
  exact ⟨.root, hlocate, linked_resolve, hvacant, hreplace, hiff.mpr (hplain (by decide))⟩

/-- A file with a backslash in its name, and a link to it. -/
def backslashed : Disk :=
  ⟨⟨[(["a\\b".toList], .file [120] 0o644), ([['l']], .link "a\\b".toList)]⟩, [], 1⟩

/-- The same disk once the file was replaced. -/
def backslashedAfter : Disk :=
  ⟨⟨[(["a\\b".toList], .file [121] 0o644), ([['l']], .link "a\\b".toList), ([['a']], .directory)]⟩,
    [], 1⟩

/-- The backslash is taken for a slash, and what stands before it for a directory that is missing. -/
theorem replace_disturbs_backslashed :
    backslashed.tree.Standing (backslashed.start (Path.ofText ['l']).text) ∧
      backslashed.locate true (Path.ofText ['l']).text =
        .ok (.there ["a\\b".toList] (.file [120] 0o644)) ∧
      backslashed.resolve (Path.ofText ['l']) = .ok "/a\\b".toList ∧
      backslashed.tree.get? [".b.1.tmp".toList] = none ∧
      backslashed.replace (Path.ofText ['l']) [121] = (.ok (), backslashedAfter) ∧
      backslashed.tree.get? [['a']] = none ∧
      backslashedAfter.tree.get? [['a']] = some .directory :=
  ⟨.root, by cbv, by cbv, by decide, by cbv, by decide, by decide⟩

end Disk

end BlockSieve
