import BlockSieve.Disk.Backup
import BlockSieve.Proofs.Location
import Mathlib.Data.List.Basic

/-!
What a backup is worth. A copy puts what it read, and the permission bits it
read, where the copy's path leads, and touches nothing else. Afterwards both
paths read the same, so a backup is reported good whenever the copy was made;
but when both paths lead to one file, that file was emptied before it was
read.
-/

namespace BlockSieve

namespace Tree

/-- The place where a file is put that is opened for writing at the end of a path. -/
def Landing.filePlace? : Landing → Option Place
  | .there place (.file _ _) => some place
  | .there _ .directory => none
  | .there _ (.link _) => none
  | .vacant directory name => some (directory ++ [name])

theorem Landing.becomes_of_filePlace {t' : Tree} {landing : Landing} {place : Place}
    {bytes : Bytes} {mode : Nat} (h : landing.filePlace? = some place)
    (found : t'.get? place = some (.file bytes mode)) :
    landing.Becomes t' (.there place (.file bytes mode)) := by
  unfold filePlace? at h
  split at h
  · obtain rfl := Option.some.inj h
    exact .there (.file ..) found
  · cases h
  · cases h
  · obtain rfl := Option.some.inj h
    exact .filled found

end Tree

namespace Disk

variable {d d' : Disk} {path source target : Text} {place copyPlace : Place} {bytes : Bytes}
  {mode : Nat}

/-- Where a file is put, there was a file or nothing. -/
theorem filePlace_of_locate {follow : Bool} {landing : Tree.Landing}
    (h : d.locate follow path = .ok landing) (hplace : landing.filePlace? = some place) :
    place ≠ [] ∧
      (d.tree.get? place = none ∨ ∃ old mode, d.tree.get? place = some (.file old mode)) := by
  have hleads := (locate_eq_ok_iff.mp h).2
  have hplace' : d.tree.get? place = none ∨
      ∃ old mode, d.tree.get? place = some (.file old mode) := by
    unfold Tree.Landing.filePlace? at hplace
    split at hplace
    · obtain rfl := Option.some.inj hplace
      exact .inr ⟨_, _, hleads.found (by simp)⟩
    · cases hplace
    · cases hplace
    · obtain rfl := Option.some.inj hplace
      exact .inl hleads.free.2.1
  refine ⟨?_, hplace'⟩
  rintro rfl
  simp [Tree.get?] at hplace'

/-- A file that is put where a path leads keeps what is on the disk, as a file or nothing was
there. -/
theorem keeps_of_filePlace {follow : Bool} {landing : Tree.Landing} (home : d'.home = d.home)
    (hlocate : d.locate follow path = .ok landing) (hplace : landing.filePlace? = some place)
    (get? : ∀ q, d'.tree.get? q = if place = q then some (.file bytes mode) else d.tree.get? q) :
    d.Keeps d' := by
  refine ⟨home, fun q e he => ?_⟩
  by_cases hq : place = q
  · subst hq
    refine ⟨_, by rw [get?, if_pos rfl], ?_⟩
    rcases (filePlace_of_locate hlocate hplace).2 with hnone | ⟨old, kept, hfile⟩
    · rw [hnone] at he
      cases he
    · rw [hfile] at he
      obtain rfl := Option.some.inj he
      exact .file ..
  · exact ⟨e, by rw [get?, if_neg hq, he], .refl e⟩

/-- Opening a file for writing leaves an empty file at the end of the path. -/
theorem openEmpty_eq_ok (h : d.openEmpty path mode = .ok (place, d')) :
    ∃ landing kept, d.locate true path = .ok landing ∧ landing.filePlace? = some place ∧
      d' = d.put place (.file [] kept) := by
  unfold openEmpty at h
  split at h
  · cases h
  · next hlocate =>
      obtain ⟨rfl, rfl⟩ := Prod.mk.inj (Except.ok.inj h)
      exact ⟨_, _, hlocate, rfl, rfl⟩
  · cases h
  · cases h
  · next hlocate =>
      obtain ⟨rfl, rfl⟩ := Prod.mk.inj (Except.ok.inj h)
      exact ⟨_, _, hlocate, rfl, rfl⟩

/-- What a copy does: the file at `place` was read, and what was read is now at `copyPlace`. A file
that is copied over itself is empty before it is read. -/
structure Copied (d : Disk) (source target : Text) (place copyPlace : Place) (bytes : Bytes)
    (mode : Nat) (d' : Disk) : Prop where
  source_at : d.locate true source = .ok (.there place (.file bytes mode))
  target_at : ∃ landing, d.locate true target = .ok landing ∧
    landing.filePlace? = some copyPlace
  home : d'.home = d.home
  process : d'.process = d.process
  get? : ∀ q, d'.tree.get? q =
    if copyPlace = q then some (.file (if place = copyPlace then [] else bytes) mode)
    else d.tree.get? q

/-- A copy that succeeds does what a copy does. -/
theorem copied_of_copy (h : d.copy source target = .ok d') :
    ∃ place copyPlace bytes mode, d.Copied source target place copyPlace bytes mode d' := by
  unfold copy at h
  split at h
  · cases h
  · next place bytes mode hsource =>
      split at h
      · cases h
      · next copyPlace opened hopen =>
          obtain ⟨landing, kept, hlocate, hplace, rfl⟩ := openEmpty_eq_ok hopen
          obtain ⟨hne, -⟩ := filePlace_of_locate hlocate hplace
          have hfound : d.tree.get? place = some (.file bytes mode) :=
            found_of_locate hsource (by simp)
          have hopened : ∃ kept', (d.put copyPlace (.file [] kept)).tree.get? place =
              some (.file (if place = copyPlace then [] else bytes) kept') := by
            rw [put, Tree.get?_put_of_ne_nil _ hne]
            by_cases hsame : place = copyPlace
            · exact ⟨kept, by rw [if_pos hsame.symm, if_pos hsame]⟩
            · exact ⟨mode, by rw [if_neg (Ne.symm hsame), if_neg hsame, hfound]⟩
          obtain ⟨kept', hopened⟩ := hopened
          rw [hopened] at h
          obtain rfl := Except.ok.inj h
          refine ⟨place, copyPlace, bytes, mode, hsource, ⟨landing, hlocate, hplace⟩, rfl, rfl,
            fun q => ?_⟩
          simp only [put, Tree.get?_put_of_ne_nil _ hne]
          split <;> rfl
  · cases h
  · cases h

namespace Copied

theorem changed (h : d.Copied source target place copyPlace bytes mode d') :
    d.Changed [copyPlace] d' := by
  refine ⟨h.home, h.process, fun q hq => .inl ?_⟩
  rw [h.get?, if_neg (fun hsame => hq (List.mem_singleton.mpr hsame.symm))]

theorem get?_copy (h : d.Copied source target place copyPlace bytes mode d') :
    d'.tree.get? copyPlace = some (.file (if place = copyPlace then [] else bytes) mode) := by
  rw [h.get?, if_pos rfl]

theorem get?_source (h : d.Copied source target place copyPlace bytes mode d') :
    d'.tree.get? place = some (.file (if place = copyPlace then [] else bytes) mode) := by
  rw [h.get?]
  by_cases hsame : place = copyPlace
  · rw [if_pos hsame.symm]
  · rw [if_neg (Ne.symm hsame), if_neg hsame]
    exact found_of_locate h.source_at (by simp)

/-- A copy keeps what is on the disk. -/
theorem keeps (h : d.Copied source target place copyPlace bytes mode d') : d.Keeps d' := by
  obtain ⟨landing, hlocate, hplace⟩ := h.target_at
  exact keeps_of_filePlace h.home hlocate hplace h.get?

theorem locate_source (h : d.Copied source target place copyPlace bytes mode d') :
    d'.locate true source =
      .ok (.there place (.file (if place = copyPlace then [] else bytes) mode)) :=
  h.keeps.locate h.source_at (.there (.file ..) h.get?_source)

theorem locate_target (h : d.Copied source target place copyPlace bytes mode d') :
    d'.locate true target =
      .ok (.there copyPlace (.file (if place = copyPlace then [] else bytes) mode)) := by
  obtain ⟨landing, hlocate, hplace⟩ := h.target_at
  exact h.keeps.locate hlocate (Tree.Landing.becomes_of_filePlace hplace h.get?_copy)

end Copied

theorem read_of_locate (h : d.locate true path = .ok (.there place (.file bytes mode))) :
    d.read path = .ok bytes := by
  rw [read, h]

theorem exists_locate_of_read (h : d.read path = .ok bytes) :
    ∃ place mode, d.locate true path = .ok (.there place (.file bytes mode)) := by
  unfold read at h
  split at h
  · cases h
  · next hlocate =>
      obtain rfl := Except.ok.inj h
      exact ⟨_, _, hlocate⟩
  · cases h
  · cases h

theorem checksum_of_locate (h : d.locate true path = .ok (.there place (.file bytes mode))) :
    d.checksum path = .ok (Digest.checksum bytes) := by
  rw [checksum, read_of_locate h]

/-- A backup is reported good if and only if the copy was made. -/
theorem backUp_eq_ok_iff {source backup : Path} :
    d.backUp source = (.ok backup, d') ↔
      backup = source.backup ∧ d.copy source.text source.backup.text = .ok d' := by
  cases hcopy : d.copy source.text source.backup.text with
  | error cause => simp [backUp, hcopy]
  | ok copied =>
      obtain ⟨place, copyPlace, bytes, mode, h⟩ := copied_of_copy hcopy
      have hsource := checksum_of_locate h.locate_source
      have htarget := checksum_of_locate h.locate_target
      simp only [backUp, hcopy, hsource, htarget, if_true, Prod.mk.injEq, Except.ok.injEq]
      exact and_congr_left' eq_comm

/-- A backup that is not reported good has left the disk alone. -/
theorem eq_of_backUp_error {source : Path} {fault : Fault}
    (h : d.backUp source = (.error fault, d')) : d' = d := by
  cases hcopy : d.copy source.text source.backup.text with
  | error cause =>
      simp only [backUp, hcopy, Prod.mk.injEq] at h
      exact h.2.symm
  | ok copied =>
      rw [backUp_eq_ok_iff.mpr ⟨rfl, hcopy⟩] at h
      cases h

/-- Both paths lead to one file. -/
def SameFile (d : Disk) (path other : Text) : Prop :=
  ∃ place e e', d.locate true path = .ok (.there place e) ∧
    d.locate true other = .ok (.there place e')

theorem Copied.sameFile_iff (h : d.Copied source target place copyPlace bytes mode d') :
    d.SameFile source target ↔ place = copyPlace := by
  obtain ⟨landing, hlocate, hplace⟩ := h.target_at
  constructor
  · rintro ⟨p, e, e', hsource, htarget⟩
    rw [h.source_at] at hsource
    rw [hlocate] at htarget
    simp only [Except.ok.injEq, Tree.Landing.there.injEq] at hsource htarget
    obtain ⟨rfl, -⟩ := hsource
    subst htarget
    unfold Tree.Landing.filePlace? at hplace
    split at hplace <;> simp_all
  · rintro rfl
    unfold Tree.Landing.filePlace? at hplace
    split at hplace
    · obtain rfl := Option.some.inj hplace
      exact ⟨_, _, _, h.source_at, hlocate⟩
    · cases hplace
    · cases hplace
    · -- nothing is where the copy would be made, and the source is somewhere
      obtain rfl := Option.some.inj hplace
      have hnone := (locate_eq_ok_iff.mp hlocate).2.free.2.1
      have hfound := found_of_locate h.source_at (by simp)
      rw [hnone] at hfound
      cases hfound

/-- **A backup that is reported good is good, unless it was made over its source.** If source and
backup lead to different files, the backup holds the bytes that the source held, and the source is
as it was. If they lead to one file, that file is empty now, which is as it should be only if it
was empty before. -/
theorem backUp_restores_iff {source backup : Path} (h : d.backUp source = (.ok backup, d')) :
    ∃ place bytes mode, d.locate true source.text = .ok (.there place (.file bytes mode)) ∧
      backup = source.backup ∧
      ((d'.read backup.text = .ok bytes ∧
          d'.locate true source.text = .ok (.there place (.file bytes mode))) ↔
        ¬ d.SameFile source.text backup.text ∨ bytes = []) ∧
      (d.SameFile source.text backup.text →
        d'.read backup.text = .ok [] ∧
          d'.locate true source.text = .ok (.there place (.file [] mode))) := by
  obtain ⟨rfl, hcopy⟩ := backUp_eq_ok_iff.mp h
  obtain ⟨place, copyPlace, bytes, mode, hcopied⟩ := copied_of_copy hcopy
  have hread := read_of_locate hcopied.locate_target
  have hsource := hcopied.locate_source
  refine ⟨place, bytes, mode, hcopied.source_at, rfl, ?_, ?_⟩
  · rw [hcopied.sameFile_iff, hread, hsource]
    by_cases hsame : place = copyPlace
    · simp [hsame, eq_comm]
    · simp [hsame]
  · intro hsame
    rw [hcopied.sameFile_iff] at hsame
    rw [if_pos hsame] at hread hsource
    exact ⟨hread, hsource⟩

/-- A disk with one file. -/
def loneFile : Disk := ⟨⟨[(["a.ts".toList], .file [120] 0o644)]⟩, [], 1⟩

/-- The same disk once the file was backed up. -/
def backedUp : Disk :=
  ⟨⟨[(["a.ts".toList], .file [120] 0o644), (["a.ts.backup".toList], .file [120] 0o644)]⟩, [], 1⟩

theorem loneFile_distinct : ¬ loneFile.SameFile "a.ts".toList "a.ts.backup".toList := by
  have hvacant : loneFile.locate true "a.ts.backup".toList =
      .ok (.vacant [] "a.ts.backup".toList) := by cbv
  rintro ⟨p, e, e', -, hthere⟩
  rw [hvacant] at hthere
  cases hthere

theorem loneFile_backedUp :
    loneFile.backUp ⟨"a.ts".toList⟩ = (.ok ⟨"a.ts.backup".toList⟩, backedUp) :=
  backUp_eq_ok_iff.mpr ⟨by decide, by cbv⟩

theorem backUp_restores_loneFile :
    backedUp.read "a.ts.backup".toList = .ok [120] ∧
      backedUp.locate true "a.ts".toList = .ok (.there ["a.ts".toList] (.file [120] 0o644)) := by
  obtain ⟨place, bytes, mode, hsource, -, hgood, -⟩ := backUp_restores_iff loneFile_backedUp
  have hhere : loneFile.locate true "a.ts".toList =
      .ok (.there ["a.ts".toList] (.file [120] 0o644)) := by cbv
  rw [hhere] at hsource
  obtain ⟨rfl, rfl, rfl⟩ : ["a.ts".toList] = place ∧ [120] = bytes ∧ 0o644 = mode := by
    simpa using hsource
  exact hgood.mpr (.inl loneFile_distinct)

/-- A disk with one file, and a link to it where its backup goes. -/
def linkedBackup : Disk :=
  ⟨⟨[(["a.ts".toList], .file [120] 0o644), (["a.ts.backup".toList], .link "a.ts".toList)]⟩, [], 1⟩

/-- The checksums agree although both files lost what they held. -/
theorem backUp_empties_linkedBackup :
    ∃ d', linkedBackup.backUp ⟨"a.ts".toList⟩ = (.ok ⟨"a.ts.backup".toList⟩, d') ∧
      linkedBackup.read "a.ts".toList = .ok [120] ∧
      d'.read "a.ts.backup".toList = .ok [] ∧ d'.read "a.ts".toList = .ok [] := by
  refine ⟨⟨⟨[(["a.ts".toList], .file [] 0o644), (["a.ts.backup".toList], .link "a.ts".toList)]⟩,
    [], 1⟩, backUp_eq_ok_iff.mpr ⟨?_, ?_⟩, ?_, ?_, ?_⟩
  · decide
  · cbv
  · cbv
  · cbv
  · cbv

end Disk

end BlockSieve
