import BlockSieve.Json.Printer
import BlockSieve.Path
import BlockSieve.Sieve

/-!
Reports: what a run did, and the JSON document that says so.
-/

namespace BlockSieve

/-- What a run did: to which file, where its copy is kept if anything was written, how many blocks
were kept and filtered, what was decided block by block, the block that never closes, and the allowed
names that no block carries. -/
structure Report where
  source : Path
  backup : Option Path
  dryRun : Bool
  kept : Nat
  filtered : Nat
  total : Nat
  decisions : List Decision
  unclosed : Option Unclosed
  unmatched : List Name
  deriving DecidableEq

open Json (Value)

/-- The word for an action. -/
def Action.word : Action → String
  | .keep => "keep"
  | .filter => "filter"

/-- A member of an object. -/
def member (key : String) (value : Value) : Json.Written × Value := (some key.toList, value)

/-- A value that may be missing, which is then null. -/
def nullable {α : Type} (f : α → Value) : Option α → Value
  | none => .null
  | some a => f a

/-- A decision as a JSON value. -/
def Decision.toJson (d : Decision) : Value :=
  .object
    [member "name" (.text d.name), member "action" (.text d.action.word.toList),
      member "start_line" (.nat d.startLine), member "end_line" (.nat d.endLine)]

/-- A block that never closes as a JSON value. -/
def Unclosed.toJson (u : Unclosed) : Value :=
  .object
    [member "name" (.text u.name), member "start_line" (.nat u.startLine),
      member "line_count" (.nat u.lineCount)]

namespace Report

/-- A report as a JSON value. -/
def toJson (r : Report) : Value :=
  .object
    [member "source" (.text r.source.text),
      member "backup" (nullable (fun p => .text p.text) r.backup),
      member "dry_run" (.bool r.dryRun), member "kept" (.nat r.kept),
      member "filtered" (.nat r.filtered), member "total" (.nat r.total),
      member "decisions" (.array (r.decisions.map Decision.toJson)),
      member "unterminated" (nullable Unclosed.toJson r.unclosed),
      member "unmatched" (.array (r.unmatched.map Value.text))]

/-- A report as a JSON document. -/
def document (r : Report) : Text := Json.print r.toJson

end Report

end BlockSieve
