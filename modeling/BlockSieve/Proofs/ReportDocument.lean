import BlockSieve.Proofs.Encoding
import BlockSieve.Proofs.JsonRoundTrip
import BlockSieve.Run

/-!
Reading a report from its document. The document holds every field of the
report under its own key, so the report can be read back from what is printed,
and reports that differ are printed differently. A run that was asked for a
document prints that and a new line, or, if it fails, nothing.
-/

namespace BlockSieve

namespace Json.Value

/-- The value of the first member with the given key. -/
def member? (key : String) : Value → Option Value
  | .object members => (members.find? fun m => m.1 = some key.toList).map (·.2)
  | _ => none

def text? : Value → Option Text
  | .string s => s
  | _ => none

def nat? : Value → Option Nat
  | .number digits =>
    if digits.all Char.isDigit then some (Nat.ofDigitChars 10 digits 0) else none
  | _ => none

def flag? : Value → Option Bool
  | .bool b => some b
  | _ => none

/-- What the items of an array are read as, if each of them can be read. -/
def items? {α : Type} (f : Value → Option α) : Value → Option (List α)
  | .array items => items.mapM f
  | _ => none

/-- What a value that may be null is read as. -/
def nullable? {α : Type} (f : Value → Option α) : Value → Option (Option α)
  | .null => some none
  | v => (f v).map some

@[simp] theorem text?_text (t : Text) : (text t).text? = some t := rfl

@[simp] theorem flag?_bool (b : Bool) : (bool b).flag? = some b := rfl

@[simp] theorem nat?_nat (n : Nat) : (nat n).nat? = some n := by
  have hdigits : (Nat.toDigits 10 n).all Char.isDigit = true := by
    rw [List.all_eq_true]
    exact fun c hc => Nat.isDigit_of_mem_toDigits (by decide) (by decide) hc
  rw [nat, nat?, Nat.toString_eq_repr, Nat.toList_repr, if_pos hdigits,
    Nat.ofDigitChars_ten_toDigits]

theorem member?_member (key : String) (value : Value) (members : List (Written × Value)) :
    (object (member key value :: members)).member? key = some value := by
  simp [member?, member]

theorem member?_of_ne {key key' : String} (h : key ≠ key') (value : Value)
    (members : List (Written × Value)) :
    (object (member key' value :: members)).member? key = (object members).member? key := by
  have htexts : ¬ key'.toList = key.toList := fun htexts => h (String.toList_inj.mp htexts).symm
  simp [member?, member, htexts]

theorem items?_map {α : Type} {f : α → Value} {g : Value → Option α} (h : ∀ a, g (f a) = some a)
    (as : List α) : (array (as.map f)).items? g = some as := by
  induction as with
  | nil => rfl
  | cons a as ih =>
      have hrest : (as.map f).mapM g = some as := ih
      simp [items?, h, hrest]

end Json.Value

open Json (Value)

theorem nullable?_nullable {α : Type} {f : α → Value} {g : Value → Option α}
    (h : ∀ a, g (f a) = some a) (hnull : ∀ a, f a ≠ .null) (a? : Option α) :
    (nullable f a?).nullable? g = some a? := by
  cases a? with
  | none => rfl
  | some a =>
      unfold nullable Value.nullable?
      split
      · next hvalue => exact absurd hvalue (hnull a)
      · rw [h, Option.map_some]

/-- The action that a word names. -/
def Action.ofWord? (word : Text) : Option Action :=
  if word = Action.keep.word.toList then some .keep
  else if word = Action.filter.word.toList then some .filter
  else none

theorem Action.ofWord?_word (a : Action) : Action.ofWord? a.word.toList = some a := by
  cases a <;> decide

/-- The decision that a value holds. -/
def Decision.ofJson? (v : Value) : Option Decision := do
  let name ← (← v.member? "name").text?
  let action ← Action.ofWord? (← (← v.member? "action").text?)
  let startLine ← (← v.member? "start_line").nat?
  let endLine ← (← v.member? "end_line").nat?
  some { name, action, startLine, endLine }

/-- The block that never closes, as a value holds it. -/
def Unclosed.ofJson? (v : Value) : Option Unclosed := do
  let name ← (← v.member? "name").text?
  let startLine ← (← v.member? "start_line").nat?
  let lineCount ← (← v.member? "line_count").nat?
  some { name, startLine, lineCount }

/-- The report that a value holds. -/
def Report.ofJson? (v : Value) : Option Report := do
  let source ← (← v.member? "source").text?
  let backup ← (← v.member? "backup").nullable? fun p => p.text?.map Path.mk
  let dryRun ← (← v.member? "dry_run").flag?
  let kept ← (← v.member? "kept").nat?
  let filtered ← (← v.member? "filtered").nat?
  let total ← (← v.member? "total").nat?
  let decisions ← (← v.member? "decisions").items? Decision.ofJson?
  let unclosed ← (← v.member? "unterminated").nullable? Unclosed.ofJson?
  let unmatched ← (← v.member? "unmatched").items? Value.text?
  some
    { source := ⟨source⟩, backup, dryRun, kept, filtered, total, decisions, unclosed, unmatched }

theorem Decision.ofJson?_toJson (d : Decision) : Decision.ofJson? d.toJson = some d := by
  simp [ofJson?, toJson, Value.member?_member, Value.member?_of_ne, Action.ofWord?_word]

theorem Unclosed.ofJson?_toJson (u : Unclosed) : Unclosed.ofJson? u.toJson = some u := by
  simp [ofJson?, toJson, Value.member?_member, Value.member?_of_ne]

theorem Report.ofJson?_toJson (r : Report) : Report.ofJson? r.toJson = some r := by
  have hbackup : (nullable (fun p : Path => Value.text p.text) r.backup).nullable?
      (fun p => p.text?.map Path.mk) = some r.backup :=
    nullable?_nullable (f := fun p : Path => Value.text p.text) (fun _ => rfl)
      (by simp [Value.text]) r.backup
  have hdecisions := Value.items?_map Decision.ofJson?_toJson r.decisions
  have hunclosed :=
    nullable?_nullable Unclosed.ofJson?_toJson (by simp [Unclosed.toJson]) r.unclosed
  have hunmatched := Value.items?_map Value.text?_text r.unmatched
  simp [ofJson?, toJson, Value.member?_member, Value.member?_of_ne, hbackup, hdecisions, hunclosed,
    hunmatched]

/-! ### The document -/

theorem plain_object {members : List (Json.Written × Value)}
    (h : ∀ m ∈ members, ∃ key v, m = member key v ∧ v.Plain) : (Value.object members).Plain := by
  refine .object (fun m hm => ?_) (fun m hm => ?_)
  · obtain ⟨key, v, rfl, -⟩ := h m hm
    exact ⟨_, rfl⟩
  · obtain ⟨key, v, rfl, hv⟩ := h m hm
    exact hv

theorem plain_nullable {α : Type} {f : α → Value} (h : ∀ a, (f a).Plain) (a? : Option α) :
    (nullable f a?).Plain := by
  cases a? with
  | none => exact .null
  | some a => exact h a

theorem plain_map {α : Type} {f : α → Value} (h : ∀ a, (f a).Plain) (as : List α) :
    (Value.array (as.map f)).Plain :=
  .array (List.forall_mem_map.mpr fun a _ => h a)

theorem Decision.plain_toJson (d : Decision) : d.toJson.Plain := by
  refine plain_object ?_
  simp only [List.forall_mem_cons]
  exact ⟨⟨_, _, rfl, .text _⟩, ⟨_, _, rfl, .text _⟩, ⟨_, _, rfl, .nat _⟩, ⟨_, _, rfl, .nat _⟩,
    by simp⟩

theorem Unclosed.plain_toJson (u : Unclosed) : u.toJson.Plain := by
  refine plain_object ?_
  simp only [List.forall_mem_cons]
  exact ⟨⟨_, _, rfl, .text _⟩, ⟨_, _, rfl, .nat _⟩, ⟨_, _, rfl, .nat _⟩, by simp⟩

namespace Report

theorem plain_toJson (r : Report) : r.toJson.Plain := by
  refine plain_object ?_
  simp only [List.forall_mem_cons]
  exact ⟨⟨_, _, rfl, .text _⟩, ⟨_, _, rfl, plain_nullable (fun _ => .text _) _⟩,
    ⟨_, _, rfl, .bool _⟩, ⟨_, _, rfl, .nat _⟩, ⟨_, _, rfl, .nat _⟩, ⟨_, _, rfl, .nat _⟩,
    ⟨_, _, rfl, plain_map Decision.plain_toJson _⟩,
    ⟨_, _, rfl, plain_nullable Unclosed.plain_toJson _⟩,
    ⟨_, _, rfl, plain_map (fun _ => .text _) _⟩, by simp⟩

theorem read?_document (r : Report) : Json.read? r.document = some r.toJson := by
  have hread := r.plain_toJson.read?_print Json.Token.ends_nil Json.Token.all?_nil
  rwa [List.append_nil] at hread

theorem read?_document_newline (r : Report) :
    Json.read? (r.document ++ ['\n']) = some r.toJson := by
  refine r.plain_toJson.read?_print (Json.Token.ends_newline []) ?_
  rw [Json.Token.all?_space rfl, Json.Token.all?_nil]

/-- Reports that differ have documents that differ. -/
theorem document_injective : Function.Injective document := by
  intro r r' h
  have hread := r.read?_document
  rw [h, read?_document] at hread
  have hjson := congrArg ofJson? (Option.some.inj hread)
  rw [ofJson?_toJson, ofJson?_toJson] at hjson
  exact (Option.some.inj hjson).symm

end Report

/-! ### Runs -/

/-- A disk with one file. -/
def Disk.holding (bytes : Bytes) : Disk := ⟨⟨[(["a.ts".toList], .file bytes 0o644)]⟩, [], 1⟩

namespace Options

theorem say_silent {o : Options} (hjson : o.json = true) (m : Message) : o.voice.say m = [] := by
  simp [Voice.say, voice, hjson]

/-- Nothing is said while the source is read and sieved. -/
theorem prepare_silent {o : Options} (hjson : o.json = true) (d : Disk) :
    (o.prepare d).2 = [] := by
  unfold prepare
  cases o.allowed d with
  | error fault => rfl
  | ok allowed =>
      cases d.readText o.sourcePath with
      | error fault => exact say_silent hjson _
      | ok content =>
          cases hsieve : (o.sieve allowed).sieveText content with
          | error u => simp only [hsieve, say_silent hjson, List.append_nil]
          | ok outcome =>
              simp [hsieve, say_silent hjson]

/-- Nothing is said while the source is copied and replaced. -/
theorem commit_silent {o : Options} (hjson : o.json = true) (p : Prepared) (d : Disk) :
    (o.commit p d).2.1 = [] := by
  unfold commit
  split
  · exact say_silent hjson _
  · split <;> simp only [say_silent hjson, List.append_nil]

/-- No difference is shown, and nothing is said of a write. -/
theorem settle_silent {o : Options} (hjson : o.json = true) (p : Prepared) (d : Disk) :
    (o.settle p d).2.1 = [] := by
  have hcommit := commit_silent hjson p d
  unfold settle
  split
  · exact say_silent hjson _
  · split <;> simp_all only

/-- A run says nothing but the document at its end. -/
theorem run_silent {o : Options} (hjson : o.json = true) (d : Disk) :
    (o.run d).messages =
      match (o.run d).result with
      | .ok r => [.document r]
      | .error _ => [] := by
  rcases hprepare : o.prepare d with ⟨prepared, said⟩
  obtain rfl : said = [] := by simpa only [hprepare] using prepare_silent hjson d
  cases prepared with
  | error fault => simp only [run, hprepare]
  | ok p =>
      rcases hsettle : o.settle p d with ⟨settled, more, d'⟩
      obtain rfl : more = [] := by simpa only [hsettle] using settle_silent hjson p d
      cases settled with
      | error fault => simp only [run, hprepare, hsettle, List.append_nil]
      | ok backup =>
          simp only [run, hprepare, hsettle, conclusion, hjson, if_true, List.nil_append]

theorem printed_run_json_ok {o : Options} (hjson : o.json = true) {d : Disk} {r : Report}
    (h : (o.run d).result = .ok r) (coloured : Bool) :
    (o.run d).printed coloured = r.document ++ ['\n'] := by
  rw [Run.printed, run_silent hjson, h]
  exact List.append_nil _

/-- **What a run that was asked for a document prints can be read by a machine.** If it succeeds, it
prints the document of its report and a new line and nothing else, with colours or without. The
document is JSON, and the report can be read from what was printed; so what two such runs print
is the same only if their reports are. If it fails, it prints nothing. -/
theorem run_json_printed (o : Options) (d : Disk) (hjson : o.json = true) (coloured : Bool) :
    (∀ r, (o.run d).result = .ok r →
      (o.run d).printed coloured = r.document ++ ['\n'] ∧
        Json.read? r.document = some r.toJson ∧
        (Json.read? ((o.run d).printed coloured)).bind Report.ofJson? = some r ∧
        ∀ (o' : Options) (d' : Disk) (r' : Report) (coloured' : Bool), o'.json = true →
          (o'.run d').result = .ok r' →
          (o'.run d').printed coloured' = (o.run d).printed coloured → r' = r) ∧
      ∀ fault, (o.run d).result = .error fault → (o.run d).printed coloured = [] := by
  refine ⟨fun r hr => ?_, fun fault hfault => ?_⟩
  · have hprinted := printed_run_json_ok hjson hr coloured
    refine ⟨hprinted, r.read?_document, ?_, fun o' d' r' coloured' hjson' hr' hsame => ?_⟩
    · rw [hprinted, r.read?_document_newline, Option.bind_some, r.ofJson?_toJson]
    · rw [hprinted, printed_run_json_ok hjson' hr' coloured'] at hsame
      exact Report.document_injective (List.append_cancel_right hsame)
  · rw [Run.printed, run_silent hjson, hfault]
    rfl

/-- What a run with the built-in list prepares. -/
theorem prepare_builtin {o : Options} {d : Disk} {bytes : Bytes} {t : Text} {outcome : Outcome}
    (hlist : o.allowList = none) (hbytes : d.read o.sourcePath.text = .ok bytes)
    (hdecode : Utf8.decode bytes = t)
    (hsieve : (o.sieve AllowList.builtin).sieveText t = .ok outcome) :
    ∃ unmatched said, o.prepare d = (.ok ⟨t, outcome, unmatched⟩, said) := by
  have hallowed : o.allowed d = .ok AllowList.builtin := by
    rw [allowed, hlist]
  have hread : d.readText o.sourcePath = .ok t := by
    rw [Disk.readText, hbytes, ← hdecode]
  simp only [prepare, hallowed, hread, hsieve]
  exact ⟨_, _, rfl⟩

theorem prepare_holding {o : Options} {bytes : Bytes} {t : Text} {outcome : Outcome}
    (hsource : o.source = "a.ts".toList) (hlist : o.allowList = none)
    (hdecode : Utf8.decode bytes = t)
    (hsieve : (o.sieve AllowList.builtin).sieveText t = .ok outcome) :
    ∃ unmatched said, o.prepare (.holding bytes) = (.ok ⟨t, outcome, unmatched⟩, said) := by
  have hbytes : (Disk.holding bytes).read (Path.ofText "a.ts".toList).text = .ok bytes := by cbv
  rw [← hsource] at hbytes
  exact prepare_builtin hlist hbytes hdecode hsieve

/-- The name of a block: a backslash and a line separator. -/
def oddName : Text := ['\\', '\u2028']

/-- A line that opens a block of that name, which never closes. -/
def oddLine : Text := "server.tool('".toList ++ oddName ++ ['\'']

/-- A disk with one file, which holds that line. -/
def oddlyNamed : Disk := .holding (Utf8.encode oddLine)

/-- A dry run on that file which is asked for a document. -/
def onOddlyNamed : Options := ⟨"a.ts".toList, none, true, false, true⟩

theorem prepare_oddlyNamed {o : Options} (hsource : o.source = "a.ts".toList)
    (hlist : o.allowList = none) (hstrict : o.strict = false) :
    ∃ unmatched said, o.prepare oddlyNamed =
      (.ok ⟨oddLine, ⟨[], [], ⟨0, 0⟩, some ⟨oddName, 1, 1⟩⟩, unmatched⟩, said) := by
  refine prepare_holding hsource hlist (Utf8.decode_encode oddLine) ?_
  rw [sieve, hstrict]
  decide +kernel

theorem run_onOddlyNamed :
    onOddlyNamed.json = true ∧
      ∃ r, (onOddlyNamed.run oddlyNamed).result = .ok r ∧ r.unclosed = some ⟨oddName, 1, 1⟩ ∧
        (onOddlyNamed.run oddlyNamed).printed true = r.document ++ ['\n'] ∧
        (Json.read? ((onOddlyNamed.run oddlyNamed).printed true)).bind Report.ofJson? = some r := by
  have hjson : onOddlyNamed.json = true := rfl
  have hdry : onOddlyNamed.dryRun = true := rfl
  obtain ⟨unmatched, said, hprepare⟩ := prepare_oddlyNamed (o := onOddlyNamed) rfl rfl rfl
  obtain ⟨r, hresult, hunclosed⟩ : ∃ r, (onOddlyNamed.run oddlyNamed).result = .ok r ∧
      r.unclosed = some ⟨oddName, 1, 1⟩ := by
    simp only [run, settle, hprepare, hdry, if_true]
    exact ⟨_, rfl, rfl⟩
  obtain ⟨hprinted, -, hdecoded, -⟩ :=
    (run_json_printed onOddlyNamed oddlyNamed hjson true).1 r hresult
  exact ⟨hjson, r, hresult, hunclosed, hprinted, hdecoded⟩

end Options

end BlockSieve
