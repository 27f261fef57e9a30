import BlockSieve.Proofs.Replacement
import BlockSieve.Run
import Mathlib

/-!
A run is a transaction. It ends in one of four ways, and from how it ends one
can tell what is on the disk: until the source was read and sieved nothing is
written; a backup that fails leaves nothing behind; a replacement that fails
leaves the source as it was beside a good backup; and a run that succeeds has
changed the source and its backup and no other file.
-/

namespace BlockSieve

namespace Disk

/-- A backup does not get the name of a temporary file, unless a link gives it that name. -/
theorem backup_getLast?_ne {d : Disk} {source : Path} {landing : Tree.Landing} {place : Place}
    {hidden : Text} (hlocate : d.locate true source.backup.text = .ok landing)
    (hplace : landing.filePlace? = some place) (hunused : d.tree.Unused hidden)
    (hending : ".tmp".toList <:+ hidden) : place.getLast? ≠ some hidden := by
  have hleads := (locate_eq_ok_iff.mp hlocate).2
  unfold Tree.Landing.filePlace? at hplace
  split at hplace
  · obtain rfl := Option.some.inj hplace
    exact (hunused.get? (hleads.found (by simp))).1
  · cases hplace
  · cases hplace
  · next dir name =>
      obtain rfl := Option.some.inj hplace
      rw [List.getLast?_concat]
      intro hname
      obtain rfl := Option.some.inj hname
      rcases hleads.free.2.2 with hroute | ⟨p, target, hlink, hroute⟩
      · obtain ⟨init, front, hnames⟩ := Tree.exists_namesOf_append (Path.dropSlashes source.text)
          (show Tree.Plain ".backup".toList from ⟨by decide, by decide⟩)
        have hslash : source.backup.text.getLast? ≠ some '/' := by
          show (Path.dropSlashes source.text ++ ".backup".toList).getLast? ≠ some '/'
          rw [List.getLast?_append, show ".backup".toList.getLast? = some 'p' from rfl]
          simp
        rw [Tree.route, if_neg hslash, show source.backup.text =
          Path.dropSlashes source.text ++ ".backup".toList from rfl, hnames,
          List.getLast?_concat] at hroute
        obtain rfl := Option.some.inj hroute
        have hends : ".tmp".toList <:+ ".backup".toList :=
          List.suffix_of_suffix_length_le hending (List.suffix_append ..) (by decide)
        exact absurd hends (by decide)
      · exact (hunused.get? hlink).2 target rfl hroute

end Disk

/-- How a run can end. -/
inductive Ending where
  | untouched
  | notBackedUp
  | notReplaced
  | replaced

/-- The state of a disk on which the source was backed up: the backup has the bytes and the
permission bits that the source had, nothing but the backup and what stands at the touched places
has changed, except that directories may have been made, and no file has the name of a temporary
file. -/
structure Secured (source : Path) (d : Disk) (place : Place) (bytes : Bytes) (mode : Nat)
    (touched : List Place) (after : Disk) : Prop where
  source_at : d.locate true source.text = .ok (.there place (.file bytes mode))
  backup : ∃ backupPlace, backupPlace ≠ place ∧
    after.locate true source.backup.text = .ok (.there backupPlace (.file bytes mode)) ∧
    d.Changed (backupPlace :: touched) after
  cleared : ∀ target, d.resolve source = .ok target → ∀ p content kept,
    after.tree.get? p = some (.file content kept) →
      p.getLast? ≠ some (d.temporaryName (Path.ofText target))

namespace Options

/-- The faults that keep a run from writing anything: the allow-list or the source cannot be had, or
a block is left open where that is not allowed. -/
inductive Refuses (o : Options) (d : Disk) : Fault → Prop
  | allowList {fault} (h : o.allowed d = .error fault) : Refuses o d fault
  | source {fault} (h : d.readText o.sourcePath = .error fault) : Refuses o d fault
  | unclosed {allowed content u} (strict : o.strict = true) (loaded : o.allowed d = .ok allowed)
      (read : d.readText o.sourcePath = .ok content)
      (h : (o.sieve allowed).sieveText content = .error u) :
      Refuses o d (.unclosedBlock u.name u.startLine)

/-- What each way to end says about the answer of a run and about the disk it leaves. -/
def EndsAs (o : Options) (d : Disk) : Ending → Prop
  | .untouched =>
    (o.run d).disk = d ∧
      ((∃ fault, (o.prepare d).1 = .error fault ∧ o.Refuses d fault ∧
          (o.run d).result = .error fault) ∨
        ∃ p, (o.prepare d).1 = .ok p ∧ o.dryRun = true ∧
          (o.run d).result = .ok (o.report p none))
  | .notBackedUp =>
    (o.run d).disk = d ∧ o.dryRun = false ∧ ∃ p fault, (o.prepare d).1 = .ok p ∧
      (d.backUp o.sourcePath).1 = .error fault ∧ (o.run d).result = .error fault
  | .notReplaced =>
    o.dryRun = false ∧ ∃ p fault place bytes mode, (o.prepare d).1 = .ok p ∧
      (d.backUp o.sourcePath).1 = .ok o.sourcePath.backup ∧
      (o.run d).result = .error fault ∧
      Secured o.sourcePath d place bytes mode [] (o.run d).disk ∧
      (o.run d).disk.locate true o.sourcePath.text = .ok (.there place (.file bytes mode))
  | .replaced =>
    o.dryRun = false ∧ ∃ p place bytes mode, (o.prepare d).1 = .ok p ∧
      (d.backUp o.sourcePath).1 = .ok o.sourcePath.backup ∧
      (o.run d).result = .ok (o.report p (some o.sourcePath.backup)) ∧
      Secured o.sourcePath d place bytes mode [place] (o.run d).disk ∧
      (o.run d).disk.locate true o.sourcePath.text =
        .ok (.there place (.file (Utf8.encode p.outcome.content) mode))

variable {o : Options} {d : Disk}

/-- Only a strict sieve fails. -/
theorem strict_of_sieveText {allowed : AllowList} {content : Text} {u : Unclosed}
    (h : (o.sieve allowed).sieveText content = .error u) : o.strict = true := by
  cases hstrict : o.strict with
  | true => rfl
  | false => simp [sieve, Sieve.sieveText, Sieve.sieveLines, hstrict] at h

theorem refuses_of_prepare {fault : Fault} (h : (o.prepare d).1 = .error fault) :
    o.Refuses d fault := by
  unfold prepare at h
  split at h
  · next hallowed =>
      obtain rfl := Except.error.inj h
      exact .allowList hallowed
  · next allowed hallowed =>
      split at h
      · next hread =>
          obtain rfl := Except.error.inj h
          exact .source hread
      · next content hread =>
          split at h
          · next u hsieve =>
              obtain rfl := Except.error.inj h
              exact .unclosed (strict_of_sieveText hsieve) hallowed hread hsieve
          · cases h

/-- How a run ends, told from the first step that fails. -/
def ending (o : Options) (d : Disk) : Ending :=
  match (o.prepare d).1, o.dryRun with
  | .error _, _ => .untouched
  | .ok _, true => .untouched
  | .ok _, false =>
    match (d.backUp o.sourcePath).1, (o.run d).result with
    | .error _, _ => .notBackedUp
    | .ok _, .error _ => .notReplaced
    | .ok _, .ok _ => .replaced

/-- No run ends in another way than the one that its steps tell. -/
theorem EndsAs.eq_ending {e : Ending} (h : o.EndsAs d e) : e = o.ending d := by
  unfold ending
  cases e with
  | untouched =>
      obtain ⟨-, ⟨fault, hprepare, -⟩ | ⟨p, hprepare, hdry, -⟩⟩ := h
      · rw [hprepare]
      · rw [hprepare, hdry]
  | notBackedUp =>
      obtain ⟨-, hdry, p, fault, hprepare, hbackup, -⟩ := h
      rw [hprepare, hdry, hbackup]
  | notReplaced =>
      obtain ⟨hdry, p, fault, _, _, _, hprepare, hbackup, hresult, -⟩ := h
      rw [hprepare, hdry, hbackup, hresult]
  | replaced =>
      obtain ⟨hdry, p, _, _, _, hprepare, hbackup, hresult, -⟩ := h
      rw [hprepare, hdry, hbackup, hresult]

/-- What writing to a backed-up source leaves: all is secured, and the source is as before or
replaced as a whole. -/
theorem secured_of_replace {source : Path} {copied after : Disk} {bytes content : Bytes}
    {mode : Nat} {place copyPlace : Place} {result : Except Fault Unit}
    (hstart : d.tree.Standing (d.start source.text))
    (hunused : ∀ target, d.resolve source = .ok target →
      d.tree.Unused (d.temporaryName (Path.ofText target)))
    (hcopied : d.Copied source.text source.backup.text place copyPlace bytes mode copied)
    (hdistinct : place ≠ copyPlace) (h : copied.replace source content = (result, after)) :
    ((∃ fault, result = .error fault) ∧ Secured source d place bytes mode [] after ∧
        after.locate true source.text = .ok (.there place (.file bytes mode))) ∨
      (result = .ok () ∧ Secured source d place bytes mode [place] after ∧
        after.locate true source.text = .ok (.there place (.file content mode))) := by
  have hkeeps := hcopied.keeps
  have hsource := hcopied.locate_source
  have hbackup := hcopied.locate_target
  rw [if_neg hdistinct] at hsource hbackup
  have hplace : copied.tree.get? place = some (.file bytes mode) :=
    Disk.found_of_locate hsource (by simp)
  have hcopy : copied.tree.get? copyPlace = some (.file bytes mode) :=
    Disk.found_of_locate hbackup (by simp)
  have hname : ∀ target, copied.temporaryName (Path.ofText target) =
      d.temporaryName (Path.ofText target) := by
    intro target
    unfold Disk.temporaryName
    rw [hcopied.process]
  -- after the copy the name of the temporary file is as unused as it was before
  have hfree : ∀ target, d.resolve source = .ok target → ∀ p e, copied.tree.get? p = some e →
      p.getLast? ≠ some (d.temporaryName (Path.ofText target)) := by
    intro target htarget p e he
    rw [hcopied.get?] at he
    split at he
    · next hp =>
        obtain ⟨landing, hlocate, hlanding⟩ := hcopied.target_at
        rw [← hp]
        exact Disk.backup_getLast?_ne hlocate hlanding (hunused target htarget)
          (d.suffix_temporaryName _)
    · exact ((hunused target htarget).get? he).1
  have hstart' : copied.tree.Standing (copied.start source.text) := by
    rw [hkeeps.start]
    exact hstart.kept hkeeps.tree
  rcases Disk.replace_file hstart' hsource (fun target htarget p e he hp => by
      rw [hkeeps.resolve hcopied.source_at] at htarget
      rw [hname] at hp
      exact absurd hp (hfree target htarget p e he)) h with
    ⟨hfault, hchanged⟩ | ⟨hdone, hchanged, hnew⟩
  · have hafter : copied.Keeps after := hchanged.keeps (by simp)
    refine .inl ⟨hfault, ⟨hcopied.source_at, ⟨copyPlace, Ne.symm hdistinct, ?_, ?_⟩, ?_⟩, ?_⟩
    · exact hafter.locate hbackup (.there (.file ..) (hchanged.after (by simp) hcopy))
    · exact hcopied.changed.trans hchanged
    · intro target htarget p old kept he
      exact hfree target htarget p _ (hchanged.before (by simp) he (by simp))
    · exact hafter.locate hsource (.there (.file ..) (hchanged.after (by simp) hplace))
  · have hafter : copied.Keeps after := hchanged.keeps_file hplace hnew
    refine .inr ⟨hdone, ⟨hcopied.source_at, ⟨copyPlace, Ne.symm hdistinct, ?_, ?_⟩, ?_⟩, ?_⟩
    · have hcopy' := hchanged.after (by simpa using Ne.symm hdistinct) hcopy
      exact hafter.locate hbackup (.there (.file ..) hcopy')
    · exact hcopied.changed.trans hchanged
    · intro target htarget p old kept he
      by_cases hp : p = place
      · rw [hp]
        exact hfree target htarget place _ hplace
      · exact hfree target htarget p _ (hchanged.before (by simpa using hp) he (by simp))
    · exact hafter.locate hsource (.there (.file ..) hnew)

section

variable {p : Prepared} {said : List Message}

theorem endsAs_of_error {fault : Fault} (hprepare : o.prepare d = (.error fault, said)) :
    o.EndsAs d .untouched := by
  have hrun : o.run d = ⟨.error fault, said, d⟩ := by
    simp only [run, hprepare]
  have hfault : (o.prepare d).1 = .error fault := by rw [hprepare]
  refine ⟨?_, .inl ⟨fault, hfault, refuses_of_prepare hfault, ?_⟩⟩
  · rw [hrun]
  · rw [hrun]

theorem endsAs_of_dryRun (hprepare : o.prepare d = (.ok p, said)) (hdry : o.dryRun = true) :
    o.EndsAs d .untouched := by
  refine ⟨?_, .inr ⟨p, ?_, hdry, ?_⟩⟩
  · simp only [run, settle, hprepare, hdry, if_true]
  · rw [hprepare]
  · simp only [run, settle, hprepare, hdry, if_true]

theorem endsAs_of_backUp_error {fault : Fault} {after : Disk}
    (hprepare : o.prepare d = (.ok p, said)) (hdry : o.dryRun = false)
    (hbackup : d.backUp o.sourcePath = (.error fault, after)) : o.EndsAs d .notBackedUp := by
  obtain rfl : after = d := Disk.eq_of_backUp_error hbackup
  refine ⟨?_, hdry, p, fault, ?_, ?_, ?_⟩
  · simp [run, settle, hprepare, hdry, commit, hbackup]
  · rw [hprepare]
  · rw [hbackup]
  · simp [run, settle, hprepare, hdry, commit, hbackup]

/-- Once the backup is made, it is for the replacement to say how the run ends. -/
theorem run_of_backUp {backup : Path} {copied after : Disk} {result : Except Fault Unit}
    (hprepare : o.prepare d = (.ok p, said)) (hdry : o.dryRun = false)
    (hbackup : d.backUp o.sourcePath = (.ok backup, copied))
    (hwrite : copied.writeText o.sourcePath p.outcome.content = (result, after)) :
    (o.run d).disk = after ∧
      (o.run d).result = result.map fun _ => o.report p (some backup) := by
  cases result with
  | error fault => simp [run, settle, hprepare, hdry, commit, hbackup, hwrite, Except.map]
  | ok _ => simp [run, settle, hprepare, hdry, commit, hbackup, hwrite, Except.map]

theorem exists_endsAs_of_backUp {backup : Path} {copied : Disk}
    (hstart : d.tree.Standing (d.start o.sourcePath.text))
    (hdistinct : ¬ d.SameFile o.sourcePath.text o.sourcePath.backup.text)
    (hunused : ∀ target, d.resolve o.sourcePath = .ok target →
      d.tree.Unused (d.temporaryName (Path.ofText target)))
    (hprepare : o.prepare d = (.ok p, said)) (hdry : o.dryRun = false)
    (hbackup : d.backUp o.sourcePath = (.ok backup, copied)) : ∃ e, o.EndsAs d e := by
  obtain ⟨rfl, hcopy⟩ := Disk.backUp_eq_ok_iff.mp hbackup
  obtain ⟨place, copyPlace, bytes, mode, hcopied⟩ := Disk.copied_of_copy hcopy
  have hplaces : place ≠ copyPlace := mt hcopied.sameFile_iff.mpr hdistinct
  obtain ⟨result, after, hwrite⟩ :
      ∃ r a, copied.writeText o.sourcePath p.outcome.content = (r, a) := ⟨_, _, rfl⟩
  obtain ⟨hdisk, hresult⟩ := run_of_backUp hprepare hdry hbackup hwrite
  have hprepared : (o.prepare d).1 = .ok p := by rw [hprepare]
  have hmade : (d.backUp o.sourcePath).1 = .ok o.sourcePath.backup := by rw [hbackup]
  rcases secured_of_replace hstart hunused hcopied hplaces hwrite with
    ⟨⟨fault, rfl⟩, hsecured, hsource⟩ | ⟨rfl, hsecured, hsource⟩
  · rw [← hdisk] at hsecured hsource
    exact ⟨.notReplaced, hdry, p, fault, place, bytes, mode, hprepared, hmade, hresult, hsecured,
      hsource⟩
  · rw [← hdisk] at hsecured hsource
    exact ⟨.replaced, hdry, p, place, bytes, mode, hprepared, hmade, hresult, hsecured, hsource⟩

/-- Every run ends in one of the ways. -/
theorem exists_endsAs (hstart : d.tree.Standing (d.start o.sourcePath.text))
    (hdistinct : ¬ d.SameFile o.sourcePath.text o.sourcePath.backup.text)
    (hunused : ∀ target, d.resolve o.sourcePath = .ok target →
      d.tree.Unused (d.temporaryName (Path.ofText target))) :
    ∃ e, o.EndsAs d e := by
  obtain ⟨prepared, said, hprepare⟩ : ∃ r m, o.prepare d = (r, m) := ⟨_, _, rfl⟩
  cases prepared with
  | error fault => exact ⟨_, endsAs_of_error hprepare⟩
  | ok p =>
      cases hdry : o.dryRun with
      | true => exact ⟨_, endsAs_of_dryRun hprepare hdry⟩
      | false =>
          obtain ⟨backup, copied, hbackup⟩ : ∃ r c, d.backUp o.sourcePath = (r, c) :=
            ⟨_, _, rfl⟩
          cases backup with
          | error fault => exact ⟨_, endsAs_of_backUp_error hprepare hdry hbackup⟩
          | ok backup =>
              exact exists_endsAs_of_backUp hstart hdistinct hunused hprepare hdry hbackup

end

/-- **A run is a transaction.** Where source and backup are different files and nothing uses the
name of the temporary file, it ends in exactly one of four ways: untouched, not backed up, not
replaced, or replaced. The directory that the source's path starts from is there, as the root and
the working directory of a process are. -/
theorem run_ends_once (o : Options) (d : Disk)
    (hstart : d.tree.Standing (d.start o.sourcePath.text))
    (hdistinct : ¬ d.SameFile o.sourcePath.text o.sourcePath.backup.text)
    (hunused : ∀ target, d.resolve o.sourcePath = .ok target →
      d.tree.Unused (d.temporaryName (Path.ofText target))) :
    ∃! e, o.EndsAs d e := by
  obtain ⟨e, he⟩ := exists_endsAs hstart hdistinct hunused
  exact ⟨e, he, fun e' he' => he'.eq_ending.trans he.eq_ending.symm⟩

/-- A run on one file with the built-in list. -/
def onLoneFile : Options := ⟨"a.ts".toList, none, false, false, false⟩

theorem run_onLoneFile :
    (∃! e, onLoneFile.EndsAs Disk.loneFile e) ∧ onLoneFile.EndsAs Disk.loneFile .replaced := by
  have hunused : ∀ target, Disk.loneFile.resolve onLoneFile.sourcePath = .ok target →
      Disk.loneFile.tree.Unused (Disk.loneFile.temporaryName (Path.ofText target)) := by
    have hresolve : Disk.loneFile.resolve onLoneFile.sourcePath = .ok "a.ts".toList := by cbv
    intro target htarget
    rw [hresolve] at htarget
    obtain rfl := Except.ok.inj htarget
    intro x hx
    obtain rfl := List.mem_singleton.mp hx
    exact ⟨by decide +kernel, fun target htarget => by cases htarget⟩
  have hends := run_ends_once onLoneFile Disk.loneFile .root Disk.loneFile_distinct hunused
  refine ⟨hends, ?_⟩
  obtain ⟨e, he, -⟩ := hends
  have hallowed : onLoneFile.allowed Disk.loneFile = .ok AllowList.builtin := rfl
  have hread : Disk.loneFile.readText onLoneFile.sourcePath = .ok ['x'] := by cbv
  have hsieve : (onLoneFile.sieve AllowList.builtin).sieveText ['x'] =
      .ok ⟨[['x']], [], ⟨0, 0⟩, none⟩ := by
    generalize AllowList.builtin = allowed
    cbv
  have hcontent : (⟨[['x']], [], ⟨0, 0⟩, none⟩ : Outcome).content = ['x'] := by decide
  have hdry : onLoneFile.dryRun = false := rfl
  have hbackup : Disk.loneFile.backUp onLoneFile.sourcePath =
      (.ok ⟨"a.ts.backup".toList⟩, Disk.backedUp) := Disk.loneFile_backedUp
  have hwrite : Disk.backedUp.writeText onLoneFile.sourcePath ['x'] =
      (.ok (), Disk.backedUp) := by cbv
  have hreplaced : onLoneFile.ending Disk.loneFile = .replaced := by
    simp only [ending, run, settle, prepare, commit, hallowed, hread, hsieve, hdry, hbackup,
      hcontent, hwrite, Bool.false_eq_true, if_false]
  rw [he.eq_ending, hreplaced] at he
  exact he

end Options

end BlockSieve
