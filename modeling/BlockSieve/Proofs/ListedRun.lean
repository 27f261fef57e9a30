import BlockSieve.Proofs.Agreement
import BlockSieve.Proofs.ListingFile
import BlockSieve.Proofs.ReportDocument
import BlockSieve.Proofs.Transaction

/-!
Runs with an allow-list in a file. A run takes nothing but the names from that
file, so it does not matter in which format they are listed there, or which of
several such files is named: report, messages and disk are the same. It does
not matter either what stands in the other files, nor whether they are there.
Only where no names are listed does a run end at once, with the file that it
was told of.
-/

namespace BlockSieve

/-! ### Faults -/

namespace Disk

variable {d : Disk} {fault : Fault} {path : Path} {bytes : Bytes}

theorem disk_of_resolve (h : d.resolve path = .error fault) : ∃ p cause, fault = .disk p cause := by
  unfold resolve at h
  grind

theorem disk_of_makeParent (h : (d.makeParent path).1 = .error fault) :
    ∃ p cause, fault = .disk p cause := by
  unfold makeParent at h
  grind

theorem disk_of_install {temporary target : Text}
    (h : (d.install temporary target bytes).1 = .error fault) :
    ∃ p cause, fault = .disk p cause := by
  unfold install at h
  grind

/-- Writing fails by the disk only. -/
theorem disk_of_replace (h : (d.replace path bytes).1 = .error fault) :
    ∃ p cause, fault = .disk p cause := by
  unfold replace at h
  split at h
  · next hresolve =>
      obtain rfl := Except.error.inj h
      exact disk_of_resolve hresolve
  · next target hresolve =>
      dsimp only at h
      split at h
      · next hparent =>
          obtain rfl := Except.error.inj h
          exact disk_of_makeParent (congrArg Prod.fst hparent)
      · exact disk_of_install h

theorem ne_nothingAllowed_of_backUp (h : (d.backUp path).1 = .error fault) (p : Path) :
    fault ≠ .nothingAllowed p := by
  unfold backUp at h
  rintro rfl
  grind

end Disk

namespace Options

variable {hidden : Hidden} {o : Options} {d d' : Disk} {t u : Text} {names : List Text} {p : Path}

theorem ne_nothingAllowed_of_commit {prepared : Prepared} {fault : Fault}
    (h : (o.commit prepared d).1 = .error fault) (p : Path) : fault ≠ .nothingAllowed p := by
  unfold commit at h
  split at h
  · next hbackup =>
      obtain rfl := Except.error.inj h
      exact Disk.ne_nothingAllowed_of_backUp (congrArg Prod.fst hbackup) p
  · next backup copied _ =>
      split at h
      · next hwrite =>
          obtain rfl := Except.error.inj h
          obtain ⟨q, cause, rfl⟩ := Disk.disk_of_replace (congrArg Prod.fst hwrite)
          exact Fault.noConfusion
      · cases h

theorem ne_nothingAllowed_of_settle {prepared : Prepared} {fault : Fault}
    (h : (o.settle prepared d).1 = .error fault) (p : Path) : fault ≠ .nothingAllowed p := by
  unfold settle at h
  split at h
  · cases h
  · split at h
    · next hcommit =>
        obtain rfl := Except.error.inj h
        exact ne_nothingAllowed_of_commit (congrArg Prod.fst hcommit) p
    · cases h

/-- A run finds nothing allowed only where its allow-list says so. -/
theorem allowed_of_result (h : (o.run d).result = .error (.nothingAllowed p)) :
    o.allowed d = .error (.nothingAllowed p) := by
  unfold run at h
  split at h
  · next hprepare =>
      obtain rfl := Except.error.inj h
      cases refuses_of_prepare (congrArg Prod.fst hprepare) with
      | allowList hallowed => exact hallowed
      | source hread =>
          unfold Disk.readText at hread
          grind
  · split at h
    · next hsettle =>
        obtain rfl := Except.error.inj h
        exact absurd rfl (ne_nothingAllowed_of_settle (congrArg Prod.fst hsettle) p)
    · cases h

theorem run_of_nothingAllowed (h : o.allowed d = .error (.nothingAllowed p)) :
    o.run d = ⟨.error (.nothingAllowed p), [], d⟩ := by
  have hprepare : o.prepare d = (.error (.nothingAllowed p), []) := by simp only [prepare, h]
  simp only [run, hprepare]

/-! ### The file of an allow-list -/

/-- The same request with the allow-list in a file. -/
def listedIn (o : Options) (t : Text) : Options := { o with allowList := some t }

@[simp] theorem listedIn_sourcePath (o : Options) (t : Text) :
    (o.listedIn t).sourcePath = o.sourcePath := rfl

@[simp] theorem listedIn_voice (o : Options) (t : Text) : (o.listedIn t).voice = o.voice := rfl

@[simp] theorem listedIn_sieve (o : Options) (t : Text) : (o.listedIn t).sieve = o.sieve := rfl

@[simp] theorem listedIn_report (o : Options) (t : Text) : (o.listedIn t).report = o.report := rfl

@[simp] theorem listedIn_settle (o : Options) (t : Text) : (o.listedIn t).settle = o.settle := rfl

@[simp] theorem listedIn_conclusion (o : Options) (t : Text) :
    (o.listedIn t).conclusion = o.conclusion := rfl

theorem allowed_listedIn (h : d.loadNames (Path.ofText t) = .ok names) :
    (o.listedIn t).allowed d =
      if names = [] then .error (.nothingAllowed (Path.ofText t))
      else .ok (AllowList.ofList names) := by
  have hempty : (AllowList.ofList names).isEmpty = true ↔ names = [] := by
    simp only [AllowList.isEmpty, List.isEmpty_iff, List.eq_nil_iff_forall_not_mem,
      AllowList.mem_ofList]
  simp only [allowed, listedIn, h, hempty]

/-- A source is prepared alike wherever the same is allowed. -/
theorem prepare_listedIn (hallowed : (o.listedIn u).allowed d' = (o.listedIn t).allowed d)
    (hread : d'.readText o.sourcePath = d.readText o.sourcePath) :
    (o.listedIn u).prepare d' = (o.listedIn t).prepare d := by
  unfold prepare
  simp only [listedIn_sourcePath, listedIn_sieve, listedIn_voice, hallowed, hread]

/-- A run takes nothing from the file of its allow-list but the names. -/
theorem run_listedIn (hallowed : (o.listedIn u).allowed d = (o.listedIn t).allowed d) :
    (o.listedIn u).run d = (o.listedIn t).run d := by
  unfold run
  rw [prepare_listedIn hallowed rfl]
  rfl

end Options

/-! ### Disks that agree -/

/-- The names of files that are named for a format can be hidden. -/
def Hidden.ofNamed (names : List Text)
    (h : ∀ name ∈ names, ∃ p : Path, ∃ format, p.NamedFor format ∧ p.fileName? = some name) :
    Hidden where
  names := names
  dot hdot := by
    obtain ⟨p, format, hnamed, hname⟩ := h _ hdot
    exact (hnamed.not_suffix hname).1 rfl
  backup name hmem := by
    obtain ⟨p, format, hnamed, hname⟩ := h name hmem
    exact (hnamed.not_suffix hname).2 _ rfl
  temporary name hmem := by
    obtain ⟨p, format, hnamed, hname⟩ := h name hmem
    exact (hnamed.not_suffix hname).2 _ rfl

/-- Two runs with the same report and the same messages, and disks that agree. -/
structure SameRun (hidden : Hidden) (r r' : Run) : Prop where
  result : r'.result = r.result
  messages : r'.messages = r.messages
  disk : r.disk.Agrees hidden r'.disk

namespace Options

variable {hidden : Hidden} {o : Options} {d d' : Disk} {t u : Text} {names : List Text}

theorem commit_agrees (h : d.Agrees hidden d')
    (hsource : hidden.Spares (Tree.namesOf o.sourcePath.text)) (p : Prepared) :
    ∃ answer said after after', o.commit p d = (answer, said, after) ∧
      o.commit p d' = (answer, said, after') ∧ after.Agrees hidden after' := by
  obtain ⟨answer, copied, copied', hbackup, hbackup', hcopied⟩ :=
    (h.backUp hsource (Path.spares_backup hsource)).cases
  unfold commit
  rw [hbackup, hbackup']
  cases answer with
  | error fault => exact ⟨_, _, _, _, rfl, rfl, hcopied⟩
  | ok backup =>
      obtain ⟨answer, after, after', hwrite, hwrite', hafter⟩ :=
        (hcopied.replace hsource (Utf8.encode p.outcome.content)).cases
      simp only [Disk.writeText, hwrite, hwrite']
      cases answer with
      | error fault => exact ⟨_, _, _, _, rfl, rfl, hafter⟩
      | ok _ => exact ⟨_, _, _, _, rfl, rfl, hafter⟩

theorem settle_agrees (h : d.Agrees hidden d')
    (hsource : hidden.Spares (Tree.namesOf o.sourcePath.text)) (p : Prepared) :
    ∃ answer said after after', o.settle p d = (answer, said, after) ∧
      o.settle p d' = (answer, said, after') ∧ after.Agrees hidden after' := by
  obtain ⟨answer, said, after, after', hcommit, hcommit', hafter⟩ := commit_agrees h hsource p
  unfold settle
  rw [hcommit, hcommit']
  cases o.dryRun with
  | true => exact ⟨_, _, _, _, rfl, rfl, h⟩
  | false =>
      cases answer with
      | error fault => exact ⟨_, _, _, _, rfl, rfl, hafter⟩
      | ok backup => exact ⟨_, _, _, _, rfl, rfl, hafter⟩

/-- Where the same names are allowed, runs from disks that agree are the same, and leave disks that
agree. -/
theorem run_agrees (h : d.Agrees hidden d')
    (hsource : hidden.Spares (Tree.namesOf o.sourcePath.text))
    (hallowed : (o.listedIn u).allowed d' = (o.listedIn t).allowed d) :
    SameRun hidden ((o.listedIn t).run d) ((o.listedIn u).run d') := by
  unfold run
  rw [prepare_listedIn hallowed (h.readText hsource)]
  simp only [listedIn_settle, listedIn_report, listedIn_conclusion]
  split
  · exact ⟨rfl, rfl, h⟩
  · next p said _ =>
      obtain ⟨answer, more, after, after', hsettle, hsettle', hafter⟩ := settle_agrees h hsource p
      simp only [hsettle, hsettle']
      cases answer with
      | error fault => exact ⟨rfl, rfl, hafter⟩
      | ok backup => exact ⟨rfl, rfl, hafter⟩

/-- What a run makes of a file that lists names. -/
structure TakesNames (o : Options) (d : Disk) (t : Text) (names : List Text) : Prop where
  loaded : d.loadNames (Path.ofText t) = .ok names
  refused_iff : (∃ p, ((o.listedIn t).run d).result = .error (.nothingAllowed p)) ↔ names = []
  refused : names = [] →
    (o.listedIn t).run d = ⟨.error (.nothingAllowed (Path.ofText t)), [], d⟩
  same_beside : names ≠ [] → ∀ u, d.Lists u names →
    (o.listedIn u).run d = (o.listedIn t).run d
  same_instead : names ≠ [] → ∀ (hidden : Hidden) (d' : Disk) (u : Text), d'.Lists u names →
    d.Agrees hidden d' → hidden.Spares (Tree.namesOf o.sourcePath.text) →
    SameRun hidden ((o.listedIn t).run d) ((o.listedIn u).run d') ∧
      ((o.listedIn u).run d').disk.readText o.sourcePath =
        ((o.listedIn t).run d).disk.readText o.sourcePath

/-- **It does not matter in which format names are listed.** A file that lists printed names, in any
of the formats and named for it, is loaded as these names. A run with it finds nothing allowed if
and only if there are none, and then it says nothing and leaves the disk as it is. Otherwise it is
the run with any other file on the disk that lists the same names; and on a disk that agrees with
this one but for files that the source does not need, it comes to the same report and the same
messages, and leaves a disk that agrees again, with the same text in the source. -/
theorem listed_names_alone_count (o : Options) (hprinted : ∀ name ∈ names, name.Printed)
    (ht : d.Lists t names) : o.TakesNames d t names := by
  have hloaded := ht.loadNames hprinted
  have hallowed := allowed_listedIn (o := o) hloaded
  refine ⟨hloaded, ⟨?_, fun hnil => ?_⟩, fun hnil => ?_, fun hne u hu => ?_,
    fun hne hidden d' u hu hagrees hsource => ?_⟩
  · rintro ⟨p, hresult⟩
    rw [allowed_of_result hresult] at hallowed
    by_contra hne
    rw [if_neg hne] at hallowed
    cases hallowed
  · rw [if_pos hnil] at hallowed
    exact ⟨_, congrArg Run.result (run_of_nothingAllowed hallowed)⟩
  · rw [if_pos hnil] at hallowed
    exact run_of_nothingAllowed hallowed
  · rw [if_neg hne] at hallowed
    have hallowed' := allowed_listedIn (o := o) (hu.loadNames hprinted)
    rw [if_neg hne, ← hallowed] at hallowed'
    exact run_listedIn hallowed'
  · rw [if_neg hne] at hallowed
    have hallowed' := allowed_listedIn (o := o) (hu.loadNames hprinted)
    rw [if_neg hne, ← hallowed] at hallowed'
    have hrun := run_agrees hagrees hsource hallowed'
    exact ⟨hrun, hrun.disk.readText hsource⟩

/-- A name that would mean something else without quotation marks, and one with both marks that are
escaped. -/
def oddNames : List Text := [['t', 'r', 'u', 'e'], ['#', '"', '\\']]

/-- A disk with a source, and with a file of a given name that lists odd names. -/
def listing (name : Text) (format : Format) : Disk :=
  (Disk.holding (Utf8.encode "server.tool('true',\n)\n".toList)).put [name]
    (.file (Utf8.encode (format.listing ⟨1, true⟩ oddNames)) 0o644)

theorem namedFor_json : (Path.ofText "keep.Json".toList).NamedFor .json :=
  ⟨[], "keep".toList, "Json".toList, "json".toList, rfl, .inl rfl, by simp, by simp, by decide,
    by simp [Text.Cased]⟩

theorem namedFor_yml : (Path.ofText "keep.YML".toList).NamedFor .yaml :=
  ⟨[], "keep".toList, "YML".toList, "yml".toList, rfl, .inl rfl, by simp, by simp, by decide,
    by simp [Text.Cased]⟩

theorem lists_json : (listing "keep.Json".toList .json).Lists "keep.Json".toList oddNames := by
  have hread : ∀ source bytes : Bytes,
      ((Disk.holding source).put ["keep.Json".toList] (.file bytes 0o644)).read
        (Path.ofText "keep.Json".toList).text = .ok bytes := fun _ _ => by cbv
  exact ⟨.json, ⟨1, true⟩, namedFor_json, hread _ _⟩

theorem lists_yml : (listing "keep.YML".toList .yaml).Lists "keep.YML".toList oddNames := by
  have hread : ∀ source bytes : Bytes,
      ((Disk.holding source).put ["keep.YML".toList] (.file bytes 0o644)).read
        (Path.ofText "keep.YML".toList).text = .ok bytes := fun _ _ => by cbv
  exact ⟨.yaml, ⟨1, true⟩, namedFor_yml, hread _ _⟩

/-- The two files with odd names. -/
def keepFiles : Hidden :=
  .ofNamed ["keep.Json".toList, "keep.YML".toList] (by
    rintro name hname
    rcases List.mem_cons.mp hname with rfl | hname
    · exact ⟨_, _, namedFor_json, by decide⟩
    · obtain rfl := List.mem_singleton.mp hname
      exact ⟨_, _, namedFor_yml, by decide⟩)

theorem listing_agrees :
    (listing "keep.Json".toList .json).Agrees keepFiles (listing "keep.YML".toList .yaml) := by
  have hhome :
      keepFiles.Spares (Disk.holding (Utf8.encode "server.tool('true',\n)\n".toList)).home :=
    List.forall_mem_nil _
  have hhidden : ∀ name ∈ keepFiles.names, ¬ keepFiles.Spares [name] := fun name hname h =>
    (h name (List.mem_singleton.mpr rfl)).2 hname
  refine .of_hidden hhome ?_ (hhidden _ (List.mem_cons_self ..)) (hhidden _ (.tail _ (.head _))) _ _
  intro p link _ hlink
  unfold Tree.get? at hlink
  split at hlink
  · cases hlink
  · cases List.mem_singleton.mp (Tree.mem_of_entryAt hlink)

theorem listed_names_alone_count_oddNames :
    (∀ name ∈ oddNames, name.Printed) ∧
      (listing "keep.Json".toList .json).Lists "keep.Json".toList oddNames ∧
      onLoneFile.TakesNames (listing "keep.Json".toList .json) "keep.Json".toList oddNames ∧
      SameRun keepFiles
        ((onLoneFile.listedIn "keep.Json".toList).run (listing "keep.Json".toList .json))
        ((onLoneFile.listedIn "keep.YML".toList).run (listing "keep.YML".toList .yaml)) := by
  have hprinted : ∀ name ∈ oddNames, name.Printed := by
    simp [oddNames, Text.Printed]
  have hsource : keepFiles.Spares (Tree.namesOf onLoneFile.sourcePath.text) := by
    have hnames : Tree.namesOf onLoneFile.sourcePath.text = ["a.ts".toList] := by cbv
    rw [hnames]
    exact Hidden.spares_singleton ⟨by simp, by simp⟩ (by simp) (by simp [keepFiles, Hidden.ofNamed])
  have htakes := listed_names_alone_count onLoneFile hprinted lists_json
  exact ⟨hprinted, lists_json, htakes,
    (htakes.same_instead (by simp [oddNames]) _ _ _ lists_yml listing_agrees hsource).1⟩

end Options

end BlockSieve
