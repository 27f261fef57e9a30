import BlockSieve.AllowList.Builtin
import BlockSieve.AllowList.Document
import BlockSieve.Boundary.Call
import BlockSieve.Disk.Backup
import BlockSieve.Message

/-!
A run: the source is read and sieved in memory first, and only then is
anything written. In a dry run nothing is; otherwise a copy of the source is
made before the source is replaced.
-/

namespace BlockSieve

/-- What a run is asked to do. -/
structure Options where
  source : Text
  allowList : Option Text
  dryRun : Bool
  strict : Bool
  json : Bool
  deriving DecidableEq

/-- A source as it was read, and what is to become of it. -/
structure Prepared where
  content : Text
  outcome : Outcome
  unmatched : List Name

/-- What a run leaves: its report or the fault that ended it, what it said, and the disk. -/
structure Run where
  result : Except Fault Report
  messages : List Message
  disk : Disk

namespace Options

/-- The path of the source. -/
def sourcePath (o : Options) : Path := Path.ofText o.source

/-- The allow-list: the one in the file that is named, which must not be empty, or the built-in
one. -/
def allowed (o : Options) (d : Disk) : Except Fault AllowList :=
  match o.allowList with
  | none => .ok AllowList.builtin
  | some t =>
    match d.loadNames (Path.ofText t) with
    | .error fault => .error fault
    | .ok names =>
      let allowed := AllowList.ofList names
      if allowed.isEmpty then .error (.nothingAllowed (Path.ofText t)) else .ok allowed

/-- The sieve for an allow-list. -/
def sieve (o : Options) (allowed : AllowList) : Sieve :=
  ⟨allowed, Call.serverTool.boundary, if o.strict then .fail else .drop⟩

/-- The voice of a run. It is off where a JSON document is asked for. -/
def voice (o : Options) : Voice := ⟨!o.json⟩

/-- Reads and sieves the source. Nothing is written. -/
def prepare (o : Options) (d : Disk) : Except Fault Prepared × List Message :=
  match o.allowed d with
  | .error fault => (.error fault, [])
  | .ok allowed =>
    match d.readText o.sourcePath with
    | .error fault => (.error fault, o.voice.say .reading)
    | .ok content =>
      match (o.sieve allowed).sieveText content with
      | .error u =>
        (.error (.unclosedBlock u.name u.startLine), o.voice.say .reading ++ o.voice.say .sieving)
      | .ok outcome =>
        (.ok ⟨content, outcome, (o.sieve allowed).unmatched outcome⟩,
          o.voice.say .reading ++ o.voice.say .sieving ++
            outcome.decisions.flatMap (fun x => o.voice.say (.decided x)) ++
            outcome.unclosed.toList.flatMap (fun u => o.voice.say (.dropped u)))

/-- The report on a source of which the copy, if there is one, is kept at `backup`. -/
def report (o : Options) (p : Prepared) (backup : Option Path) : Report where
  source := o.sourcePath
  backup := backup
  dryRun := o.dryRun
  kept := p.outcome.summary.kept
  filtered := p.outcome.summary.filtered
  total := p.outcome.summary.total
  decisions := p.outcome.decisions
  unclosed := p.outcome.unclosed
  unmatched := p.unmatched

/-- Copies the source to its backup and then replaces it. -/
def commit (o : Options) (p : Prepared) (d : Disk) : Except Fault Path × List Message × Disk :=
  match d.backUp o.sourcePath with
  | (.error fault, d) => (.error fault, o.voice.say .backingUp, d)
  | (.ok backup, d) =>
    match d.writeText o.sourcePath p.outcome.content with
    | (.error fault, d) => (.error fault, o.voice.say .backingUp ++ o.voice.say .writing, d)
    | (.ok (), d) => (.ok backup, o.voice.say .backingUp ++ o.voice.say .writing, d)

/-- Shows what would change, in a dry run, and otherwise writes it. The answer is the path of the
backup, if one was made. -/
def settle (o : Options) (p : Prepared) (d : Disk) :
    Except Fault (Option Path) × List Message × Disk :=
  if o.dryRun then
    (.ok none, o.voice.say (.preview o.sourcePath p.content p.outcome.content), d)
  else
    match o.commit p d with
    | (.error fault, said, d) => (.error fault, said, d)
    | (.ok backup, said, d) => (.ok (some backup), said, d)

/-- What a run that succeeds says at its end: the document, where that is asked for, or a summary. -/
def conclusion (o : Options) (r : Report) : List Message :=
  if o.json then [.document r] else o.voice.say (.summary r)

/-- A run. -/
def run (o : Options) (d : Disk) : Run :=
  match o.prepare d with
  | (.error fault, said) => ⟨.error fault, said, d⟩
  | (.ok p, said) =>
    match o.settle p d with
    | (.error fault, more, d) => ⟨.error fault, said ++ more, d⟩
    | (.ok backup, more, d) =>
      let r := o.report p backup
      ⟨.ok r, said ++ more ++ o.conclusion r, d⟩

end Options

/-- All that a run prints. -/
def Run.printed (coloured : Bool) (r : Run) : Text := r.messages.flatMap (Message.print coloured)

end BlockSieve
