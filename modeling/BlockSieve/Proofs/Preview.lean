import BlockSieve.Proofs.Encoding
import BlockSieve.Proofs.Overwriting
import BlockSieve.Proofs.ReportDocument
import BlockSieve.Proofs.Transaction

/-!
A dry run and a real run from the same disk. Both read and sieve the source in
the same way and say so in the same words. Where the dry run fails, so does
the real one, with the same fault, before anything was written. Where both
succeed, the reports differ in the backup alone. What the dry run shows as the
new text is then what can be read from the source after the real run, if
anything can; a link at the name of the temporary file that leads back to the
source leaves nothing to read there.
-/

namespace BlockSieve

namespace Disk

variable {d d' : Disk} {source : Path} {target : Text} {place place' copyPlace : Place}
  {bytes : Bytes} {mode : Nat}

/-- A copy puts no link anywhere. -/
theorem Copied.diverted (h : d.Copied source.text target place copyPlace bytes mode d')
    (hdiverted : d'.Diverted source place') : d.Diverted source place' := by
  obtain ⟨resolved, link, hresolve, hlink⟩ := hdiverted
  rw [h.keeps.resolve h.source_at] at hresolve
  have hname : d'.temporaryName (Path.ofText resolved) =
      d.temporaryName (Path.ofText resolved) := by
    unfold temporaryName
    rw [h.process]
  rw [hname, h.get?] at hlink
  split at hlink
  · cases hlink
  · exact ⟨resolved, link, hresolve, hlink⟩

/-- What is left of a source that was backed up and then replaced. -/
theorem replace_leaves_of_backUp {backup : Path} {copied after : Disk}
    (hstart : d.tree.Standing (d.start source.text))
    (hbackup : d.backUp source = (.ok backup, copied))
    (hreplace : copied.replace source bytes = (.ok (), after)) :
    (∀ found, after.read source.text = .ok found → found = bytes) ∧
      (after.read source.text = .ok bytes ↔ (copied.readied source).Aside source) ∧
      ∃ place old mode, d.locate true source.text = .ok (.there place (.file old mode)) ∧
        (after.locate true source.text = .ok (.there place (.file bytes mode)) ∨
          d.Diverted source place) := by
  obtain ⟨-, hcopy⟩ := backUp_eq_ok_iff.mp hbackup
  obtain ⟨place, copyPlace, old, mode, hcopied⟩ := copied_of_copy hcopy
  have hstart' : copied.tree.Standing (copied.start source.text) := by
    rw [hcopied.keeps.start]
    exact hstart.kept hcopied.keeps.tree
  obtain ⟨hreads, hleaves, hiff⟩ := replace_leaves hstart' hcopied.locate_source hreplace
  exact ⟨hreads, hiff, place, old, mode, hcopied.source_at, hleaves.imp_right hcopied.diverted⟩

/-- A disk with one file that was replaced, and its backup. -/
def holdingBoth (bytes content : Bytes) : Disk :=
  ⟨⟨[(["a.ts".toList], .file content 0o644), (["a.ts.backup".toList], .file bytes 0o644)]⟩, [], 1⟩

theorem holding_backUp (bytes : Bytes) :
    (holding bytes).backUp ⟨"a.ts".toList⟩ =
      (.ok ⟨"a.ts.backup".toList⟩, holdingBoth bytes bytes) :=
  backUp_eq_ok_iff.mpr ⟨by decide, by cbv⟩

theorem holdingBoth_replace (bytes content : Bytes) :
    (holdingBoth bytes bytes).replace ⟨"a.ts".toList⟩ content =
      (.ok (), holdingBoth bytes content) := by cbv

/-- A file, and a link to it at the name of the temporary file for it. -/
def turnedBack : Disk :=
  ⟨⟨[(["a.ts".toList], .file [120] 0o644), ([".a.ts.1.tmp".toList], .link "a.ts".toList)]⟩, [], 1⟩

/-- The same disk with a backup of the file. -/
def turnedBackCopied : Disk :=
  turnedBack.put ["a.ts.backup".toList] (.file [120] 0o644)

/-- The same disk once the file was replaced: it is a link to itself. -/
def turnedBackAfter : Disk :=
  ⟨⟨[(["a.ts".toList], .link "a.ts".toList), (["a.ts.backup".toList], .file [120] 0o644)]⟩, [], 1⟩

theorem turnedBack_backUp :
    turnedBack.backUp ⟨"a.ts".toList⟩ = (.ok ⟨"a.ts.backup".toList⟩, turnedBackCopied) :=
  backUp_eq_ok_iff.mpr ⟨by decide, by cbv⟩

end Disk

namespace Options

variable {o : Options} {d : Disk} {p : Prepared} {said : List Message}

/-- The same run as a dry one. -/
def dry (o : Options) : Options := { o with dryRun := true }

/-- The same run as a real one. -/
def real (o : Options) : Options := { o with dryRun := false }

theorem prepare_dry (o : Options) (d : Disk) : o.dry.prepare d = o.prepare d := rfl

theorem prepare_real (o : Options) (d : Disk) : o.real.prepare d = o.prepare d := rfl

/-- What is said of a source that was sieved. -/
def progress (outcome : Outcome) : List Message :=
  .reading :: .sieving ::
    (outcome.decisions.map .decided ++ outcome.unclosed.toList.map .dropped)

theorem of_prepare (h : o.prepare d = (.ok p, said)) :
    d.readText o.sourcePath = .ok p.content ∧
      said = if o.json then [] else progress p.outcome := by
  unfold prepare at h
  split at h
  · cases h
  · split at h
    · cases h
    · next hread =>
        split at h
        · cases h
        · cases h
          refine ⟨hread, ?_⟩
          cases hjson : o.json <;>
            simp [Voice.say, voice, hjson, progress, List.map_eq_flatMap]

theorem run_of_error {fault : Fault} (h : o.prepare d = (.error fault, said)) :
    o.run d = ⟨.error fault, said, d⟩ := by
  simp only [run, h]

/-- A run succeeds only if the source could be sieved. -/
theorem prepared_of_ok {r : Report} (h : (o.run d).result = .ok r) :
    ∃ p said, o.prepare d = (.ok p, said) := by
  obtain ⟨prepared, said, hprepare⟩ : ∃ r m, o.prepare d = (r, m) := ⟨_, _, rfl⟩
  cases prepared with
  | error fault =>
      rw [run_of_error hprepare] at h
      cases h
  | ok p => exact ⟨p, said, hprepare⟩

theorem run_dry (h : o.prepare d = (.ok p, said)) :
    o.dry.run d = ⟨.ok (o.dry.report p none),
      said ++ o.voice.say (.preview o.sourcePath p.content p.outcome.content) ++
        o.conclusion (o.dry.report p none), d⟩ := by
  have hdry : o.dry.dryRun = true := rfl
  simp only [run, settle, o.prepare_dry, h, hdry, if_true]
  rfl

/-- A real run that succeeds has made a backup and then replaced the source. -/
theorem run_real {s : Report} (hprepare : o.prepare d = (.ok p, said))
    (h : (o.real.run d).result = .ok s) :
    s = o.real.report p (some o.sourcePath.backup) ∧ ∃ copied after,
      d.backUp o.sourcePath = (.ok o.sourcePath.backup, copied) ∧
        copied.writeText o.sourcePath p.outcome.content = (.ok (), after) ∧
        o.real.run d = ⟨.ok s,
          said ++ (o.voice.say .backingUp ++ o.voice.say .writing) ++ o.conclusion s, after⟩ := by
  have hreal : o.real.dryRun = false := rfl
  have hpath : o.real.sourcePath = o.sourcePath := rfl
  obtain ⟨backup, copied, hbackup⟩ : ∃ r c, d.backUp o.sourcePath = (r, c) := ⟨_, _, rfl⟩
  cases backup with
  | error fault =>
      simp only [run, settle, o.prepare_real, hprepare, hreal, Bool.false_eq_true, if_false, commit,
        hpath, hbackup] at h
      cases h
  | ok backup =>
      obtain ⟨rfl, -⟩ := Disk.backUp_eq_ok_iff.mp hbackup
      obtain ⟨written, after, hwrite⟩ :
          ∃ r a, copied.writeText o.sourcePath p.outcome.content = (r, a) := ⟨_, _, rfl⟩
      cases written with
      | error fault =>
          simp only [run, settle, o.prepare_real, hprepare, hreal, Bool.false_eq_true, if_false,
            commit, hpath, hbackup, hwrite] at h
          cases h
      | ok _ =>
          have hrun : o.real.run d = ⟨.ok (o.real.report p (some o.sourcePath.backup)),
              said ++ (o.voice.say .backingUp ++ o.voice.say .writing) ++
                o.conclusion (o.real.report p (some o.sourcePath.backup)), after⟩ := by
            simp only [run, settle, o.prepare_real, hprepare, hreal, Bool.false_eq_true, if_false,
              commit, hpath, hbackup, hwrite]
            rfl
          rw [hrun] at h
          obtain rfl := Except.ok.inj h
          exact ⟨rfl, copied, after, hbackup, hwrite, hrun⟩

/-- What a dry run with the report `r` and a real run with the report `s` have in common, where `p`
is what both make of the source. After the real run nothing but the new text can be read from the
source, and it can be read just if the temporary file was written aside; where it stands is known
unless a link was followed to it. -/
structure Foretold (o : Options) (d : Disk) (p : Prepared) (r s : Report) : Prop where
  prepared : (o.prepare d).1 = .ok p
  source : d.readText o.sourcePath = .ok p.content
  dry_report : r.backup = none ∧ r.dryRun = true
  real_report : s = { r with backup := some o.sourcePath.backup, dryRun := false }
  dry_messages : (o.dry.run d).messages =
    if o.json then [.document r]
    else progress p.outcome ++
      [.preview o.sourcePath p.content p.outcome.content, .summary r]
  real_messages : (o.real.run d).messages =
    if o.json then [.document s]
    else progress p.outcome ++ [.backingUp, .writing, .summary s]
  untouched : (o.dry.run d).disk = d
  reads : ∀ found, (o.real.run d).disk.read o.sourcePath.text = .ok found →
    found = Utf8.encode p.outcome.content
  reads_iff : (o.real.run d).disk.read o.sourcePath.text = .ok (Utf8.encode p.outcome.content) ↔
    ((d.backUp o.sourcePath).2.readied o.sourcePath).Aside o.sourcePath
  leaves : ∃ place old mode, d.locate true o.sourcePath.text = .ok (.there place (.file old mode)) ∧
    ((o.real.run d).disk.locate true o.sourcePath.text =
        .ok (.there place (.file (Utf8.encode p.outcome.content) mode)) ∨
      d.Diverted o.sourcePath place)

theorem exists_foretold {r s : Report} (hstart : d.tree.Standing (d.start o.sourcePath.text))
    (hr : (o.dry.run d).result = .ok r) (hs : (o.real.run d).result = .ok s) :
    ∃ p, o.Foretold d p r s := by
  obtain ⟨p, said, hprepare⟩ := prepared_of_ok hs
  rw [o.prepare_real] at hprepare
  obtain ⟨hread, hsaid⟩ := of_prepare hprepare
  have hdry := run_dry hprepare
  obtain ⟨rfl, copied, after, hbackup, hwrite, hreal⟩ := run_real hprepare hs
  rw [hdry] at hr
  obtain rfl := Except.ok.inj hr
  obtain ⟨hreads, hiff, hleaves⟩ := Disk.replace_leaves_of_backUp hstart hbackup hwrite
  refine ⟨p, congrArg Prod.fst hprepare, hread, ⟨rfl, rfl⟩, rfl, ?_, ?_, ?_, ?_, ?_, ?_⟩
  · rw [hdry, hsaid]
    cases hjson : o.json <;> simp [Voice.say, voice, conclusion, hjson]
  · rw [hreal, hsaid]
    cases hjson : o.json <;> simp [Voice.say, voice, conclusion, hjson]
  · rw [hdry]
  · rw [hreal]
    exact hreads
  · rw [hreal, hbackup]
    exact hiff
  · rw [hreal]
    exact hleaves

/-- **What a dry run foretells of the real one.** If the dry run fails, the real run from the same
disk fails with the same fault and the same words, and the disk is as before. If both succeed, they
have said the same until the source was sieved, and their reports differ only in the backup. The new
text that the dry run shows is then, byte for byte, what can be read from the source after the real
run, if and only if the temporary file was written aside from the source: what stands at its name
once the backup is made leads to another file, over few enough links. Otherwise nothing can be read
from it. Where no link stands at that name, the text is in the file where it was before. -/
theorem dry_foretells_real (o : Options) (d : Disk)
    (hstart : d.tree.Standing (d.start o.sourcePath.text)) :
    (∀ fault, (o.dry.run d).result = .error fault →
      o.real.run d = o.dry.run d ∧ (o.dry.run d).disk = d) ∧
    ∀ r s, (o.dry.run d).result = .ok r → (o.real.run d).result = .ok s →
      ∃ p, o.Foretold d p r s := by
  refine ⟨fun fault hfault => ?_, fun r s => exists_foretold hstart⟩
  obtain ⟨prepared, said, hprepare⟩ : ∃ r m, o.prepare d = (r, m) := ⟨_, _, rfl⟩
  cases prepared with
  | error cause =>
      have hdry : o.dry.run d = ⟨.error cause, said, d⟩ := run_of_error hprepare
      have hreal : o.real.run d = ⟨.error cause, said, d⟩ := run_of_error hprepare
      exact ⟨hreal.trans hdry.symm, by rw [hdry]⟩
  | ok p =>
      rw [run_dry hprepare] at hfault
      cases hfault

/-- On a disk with one file, dry run and real run succeed if the file can be sieved. -/
theorem succeeds_on_holding {bytes : Bytes}
    (h : onLoneFile.prepare (.holding bytes) = (.ok p, said)) :
    ∃ r s, (onLoneFile.dry.run (.holding bytes)).result = .ok r ∧
      (onLoneFile.real.run (.holding bytes)).result = .ok s ∧
      (onLoneFile.real.run (.holding bytes)).disk =
        .holdingBoth bytes (Utf8.encode p.outcome.content) := by
  have hbackup : (Disk.holding bytes).backUp onLoneFile.real.sourcePath =
    (.ok ⟨"a.ts.backup".toList⟩, .holdingBoth bytes bytes) := Disk.holding_backUp bytes
  obtain ⟨hdisk, hresult⟩ := run_of_backUp (o := onLoneFile.real) h rfl hbackup
    (Disk.holdingBoth_replace bytes (Utf8.encode p.outcome.content))
  refine ⟨onLoneFile.dry.report p none, _, ?_, hresult, hdisk⟩
  rw [run_dry h]

theorem dry_foretells_oddlyNamed :
    oddlyNamed.tree.Standing (oddlyNamed.start onLoneFile.sourcePath.text) ∧
      ∃ p r s, (onLoneFile.dry.run oddlyNamed).result = .ok r ∧
        (onLoneFile.real.run oddlyNamed).result = .ok s ∧
        onLoneFile.Foretold oddlyNamed p r s ∧ p.content = oddLine ∧ p.outcome.content = [] ∧
        ((oddlyNamed.backUp onLoneFile.sourcePath).2.readied onLoneFile.sourcePath).Aside
          onLoneFile.sourcePath := by
  obtain ⟨unmatched, said, hprepare⟩ := prepare_oddlyNamed (o := onLoneFile) rfl rfl rfl
  obtain ⟨r, s, hr, hs, hdisk⟩ := succeeds_on_holding hprepare
  obtain ⟨p, hforetold⟩ := (dry_foretells_real onLoneFile oddlyNamed .root).2 r s hr hs
  have hp := hforetold.prepared
  rw [hprepare] at hp
  obtain rfl := Except.ok.inj hp
  refine ⟨.root, _, r, s, hr, hs, hforetold, rfl, rfl, hforetold.reads_iff.mp ?_⟩
  rw [oddlyNamed, hdisk]
  cbv

/-- **A real run that was not foretold.** The bytes are written through the link to the file itself,
and then the link is moved over it. Both runs succeed, and the source is left a link to itself. -/
theorem dry_misses_turnedBack :
    ∃ p r s, onLoneFile.prepare .turnedBack = (.ok p, progress p.outcome) ∧
      p.outcome.content = ['x'] ∧ (onLoneFile.dry.run .turnedBack).result = .ok r ∧
      (onLoneFile.dry.run .turnedBack).messages = progress p.outcome ++
        [.preview onLoneFile.sourcePath p.content p.outcome.content, .summary r] ∧
      (onLoneFile.real.run .turnedBack).result = .ok s ∧
      (onLoneFile.real.run .turnedBack).disk.read onLoneFile.sourcePath.text =
        .error .tooManyLinks := by
  have hread : Disk.turnedBack.read onLoneFile.sourcePath.text = .ok [120] := by cbv
  have hsieve : (onLoneFile.sieve AllowList.builtin).sieveText ['x'] =
      .ok ⟨[['x']], [], ⟨0, 0⟩, none⟩ := by
    generalize AllowList.builtin = allowed
    cbv
  obtain ⟨unmatched, said, hprepare⟩ :=
    prepare_builtin (o := onLoneFile) rfl hread (by decide) hsieve
  obtain ⟨-, rfl⟩ := of_prepare hprepare
  have hbackup : Disk.turnedBack.backUp onLoneFile.real.sourcePath =
    (.ok ⟨"a.ts.backup".toList⟩, .turnedBackCopied) := Disk.turnedBack_backUp
  have hwrite : Disk.turnedBackCopied.writeText onLoneFile.real.sourcePath ['x'] =
    (.ok (), .turnedBackAfter) := by cbv
  obtain ⟨hdisk, hs⟩ := run_of_backUp (o := onLoneFile.real) hprepare rfl hbackup hwrite
  have hdry := run_dry hprepare
  refine ⟨_, onLoneFile.dry.report _ none, _, hprepare, rfl, by rw [hdry], ?_, hs, ?_⟩
  · rw [hdry]
    rfl
  · rw [hdisk]
    cbv

end Options

/-! ### No changes -/

namespace Message

/-- The line that says that there is nothing to change. -/
def noChanges (coloured : Bool) : Text :=
  Paint.boldGreen.apply coloured "OK" ++ " No changes.\n".toList

theorem head?_unified {oldName newName old new : Text} {c : Char}
    (h : (Diff.unified oldName newName old new).head? = some c) : c = '-' := by
  unfold Diff.unified at h
  split at h
  · cases h
  · exact (Option.some.inj h).symm

theorem head?_noChanges (coloured : Bool) :
    ∃ c, (noChanges coloured).head? = some c ∧ c ≠ '-' := by
  cases coloured <;> exact ⟨_, rfl, by decide⟩

/-- Only a preview of equal texts is printed as that line. -/
theorem eq_preview_of_print {m : Message} {coloured : Bool}
    (h : m.print coloured = noChanges coloured) : ∃ source t, m = .preview source t t := by
  -- all other lines differ from it in the first six characters: with colours, a warning begins like
  -- it up to the fifth
  have hstart := congrArg (List.take 6) h
  cases m with
  | reading => cases coloured <;> cases hstart
  | sieving => cases coloured <;> cases hstart
  | backingUp => cases coloured <;> cases hstart
  | writing => cases coloured <;> cases hstart
  | decided d =>
      obtain ⟨name, action, _, _⟩ := d
      cases action <;> cases coloured <;> cases hstart
  | dropped u => cases coloured <;> cases hstart
  | preview source old new =>
      by_cases hsame : old = new
      · exact ⟨source, old, by rw [hsame]⟩
      · have hunified : (preview source old new).print coloured =
            Diff.unified ("a/".toList ++ source.text) ("b/".toList ++ source.text) old new :=
          if_neg hsame
        obtain ⟨c, hc, hminus⟩ := head?_noChanges coloured
        rw [← h, hunified] at hc
        exact absurd (head?_unified hc) hminus
  | summary r => cases coloured <;> cases hstart
  | document r => cases coloured <;> cases hstart

end Message

namespace Options

variable {o : Options} {d : Disk} {p : Prepared} {said : List Message}

/-- The dry run prints the line that says that there is nothing to change. -/
def ShowsNoChange (o : Options) (d : Disk) : Prop :=
  ∃ coloured, ∃ m ∈ (o.dry.run d).messages, m.print coloured = Message.noChanges coloured

theorem preview_not_mem_progress (outcome : Outcome) (source : Path) (old new : Text) :
    .preview source old new ∉ progress outcome := by
  simp [progress]

/-- A dry run says that there is nothing to change if what it read is what it made of it. -/
theorem Foretold.content_eq {r s : Report} (h : o.Foretold d p r s) (hquiet : o.ShowsNoChange d) :
    p.outcome.content = p.content := by
  obtain ⟨coloured, m, hm, hprint⟩ := hquiet
  obtain ⟨source, t, rfl⟩ := Message.eq_preview_of_print hprint
  rw [h.dry_messages] at hm
  split at hm
  · simp at hm
  · rcases List.mem_append.mp hm with hm | hm
    · exact absurd hm (preview_not_mem_progress p.outcome _ _ _)
    · simp only [List.mem_cons, Message.preview.injEq, reduceCtorEq, List.not_mem_nil, or_false]
        at hm
      exact hm.2.2.symm.trans hm.2.1

/-- Where the real run succeeds, so does the dry one. -/
theorem exists_dry_of_real {s : Report} (hs : (o.real.run d).result = .ok s) :
    ∃ r, (o.dry.run d).result = .ok r := by
  obtain ⟨p, said, hprepare⟩ := prepared_of_ok hs
  rw [o.prepare_real] at hprepare
  exact ⟨_, by rw [run_dry hprepare]⟩

/-- **Where a dry run shows no change, a real run changes nothing but bytes that are no text.** What
it leaves in the source is the text that was read from it, written anew. That is what the source
held before if and only if that was the encoding of a text; if so, the source is as it was, unless a
link stood at the name of the temporary file. -/
theorem unchanged_iff_encoded (o : Options) (d : Disk) {s : Report}
    (hstart : d.tree.Standing (d.start o.sourcePath.text)) (hquiet : o.ShowsNoChange d)
    (hs : (o.real.run d).result = .ok s) :
    ∃ place before mode, d.locate true o.sourcePath.text = .ok (.there place (.file before mode)) ∧
      (∀ after, (o.real.run d).disk.read o.sourcePath.text = .ok after →
        after = Utf8.encode (Utf8.decode before) ∧
          (after = before ↔ ∃ t, before = Utf8.encode t)) ∧
      ((o.real.run d).disk.locate true o.sourcePath.text =
          .ok (.there place (.file (Utf8.encode (Utf8.decode before)) mode)) ∨
        d.Diverted o.sourcePath place) := by
  obtain ⟨r, hr⟩ := exists_dry_of_real hs
  obtain ⟨p, h⟩ := exists_foretold hstart hr hs
  obtain ⟨place, before, mode, hbefore, hleaves⟩ := h.leaves
  have hread : d.readText o.sourcePath = .ok (Utf8.decode before) := by
    rw [Disk.readText, Disk.read_of_locate hbefore]
  have hcontent : p.outcome.content = Utf8.decode before :=
    (h.content_eq hquiet).trans (Except.ok.inj (h.source.symm.trans hread))
  have hreads := h.reads
  rw [hcontent] at hreads hleaves
  refine ⟨place, before, mode, hbefore, fun after hafter => ?_, hleaves⟩
  obtain rfl := hreads after hafter
  refine ⟨rfl, fun hsame => ⟨_, hsame.symm⟩, ?_⟩
  rintro ⟨t, rfl⟩
  rw [Utf8.decode_encode]

/-- Runs on a disk with one file of one line, in which no block begins. -/
theorem shows_no_change_on_holding (bytes : Bytes) (line : Line)
    (hdecode : Utf8.decode bytes = line)
    (hsieve : ∀ allowed, (onLoneFile.sieve allowed).sieveText line = .ok ⟨[line], [], ⟨0, 0⟩, none⟩) :
    onLoneFile.ShowsNoChange (.holding bytes) ∧
      ∃ s, (onLoneFile.real.run (.holding bytes)).result = .ok s ∧
        (onLoneFile.real.run (.holding bytes)).disk = .holdingBoth bytes (Utf8.encode line) := by
  have hcontent : (⟨[line], [], ⟨0, 0⟩, none⟩ : Outcome).content = line := rfl
  obtain ⟨unmatched, said, hprepare⟩ :=
    prepare_holding (o := onLoneFile) rfl rfl hdecode (hsieve _)
  obtain ⟨r, s, hr, hs, hdisk⟩ := succeeds_on_holding hprepare
  have hdry := run_dry hprepare
  rw [hcontent] at hdry hdisk
  refine ⟨⟨false, .preview onLoneFile.sourcePath line line, ?_, if_pos rfl⟩, s, hs, hdisk⟩
  rw [hdry]
  exact List.mem_append_left _ (List.mem_append_right _ (List.mem_singleton.mpr rfl))

theorem unchanged_on_holding :
    (Disk.holding [120]).tree.Standing ((Disk.holding [120]).start onLoneFile.sourcePath.text) ∧
      onLoneFile.ShowsNoChange (.holding [120]) ∧
      ∃ s, (onLoneFile.real.run (.holding [120])).result = .ok s ∧
        (onLoneFile.real.run (.holding [120])).disk.read "a.ts".toList = .ok [120] ∧
        ∃ t, [120] = Utf8.encode t := by
  obtain ⟨hquiet, s, hs, hdisk⟩ :=
    shows_no_change_on_holding [120] ['x'] (by decide) (by intro allowed; cbv)
  have hread : (onLoneFile.real.run (.holding [120])).disk.read "a.ts".toList = .ok [120] := by
    rw [hdisk]
    cbv
  have hthere : (Disk.holding [120]).locate true onLoneFile.sourcePath.text =
      .ok (.there ["a.ts".toList] (.file [120] 0o644)) := by cbv
  obtain ⟨place, before, mode, hbefore, hreads, -⟩ :=
    unchanged_iff_encoded onLoneFile (.holding [120]) .root hquiet hs
  rw [hthere] at hbefore
  obtain ⟨-, hsame⟩ := Tree.Landing.there.inj (Except.ok.inj hbefore)
  obtain rfl := (Entry.file.inj hsame).1
  exact ⟨.root, hquiet, s, hs, hread, (hreads [120] hread).2.mp rfl⟩

/-- A byte that is no text is read as the replacement character, and the real run writes that. -/
theorem changed_on_holding_invalid :
    onLoneFile.ShowsNoChange (.holding [0xff]) ∧
      ∃ s, (onLoneFile.real.run (.holding [0xff])).result = .ok s ∧
        (Disk.holding [0xff]).read "a.ts".toList = .ok [0xff] ∧
        (onLoneFile.real.run (.holding [0xff])).disk.read "a.ts".toList =
          .ok [0xef, 0xbf, 0xbd] := by
  obtain ⟨hquiet, s, hs, hdisk⟩ :=
    shows_no_change_on_holding [0xff] ['\uFFFD'] (by decide) (by intro allowed; cbv)
  refine ⟨hquiet, s, hs, by cbv, ?_⟩
  rw [hdisk]
  cbv

end Options

end BlockSieve
