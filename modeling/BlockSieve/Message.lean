import BlockSieve.Diff.Printer
import BlockSieve.Report

/-!
What a run says while it goes on, message by message, and how each message is
printed. With colours, a few words are wrapped in the sequences that switch a
terminal's colour on and off; without, the text is the same but for those.
-/

namespace BlockSieve

/-- How a terminal shows a word. -/
inductive Paint where
  | green
  | red
  | bold
  | boldYellow
  | boldGreen
  | boldRed
  deriving DecidableEq

/-- The number by which a terminal knows a way to show words. -/
def Paint.code : Paint → String
  | .green => "32"
  | .red => "31"
  | .bold => "1"
  | .boldYellow => "1;33"
  | .boldGreen => "1;32"
  | .boldRed => "1;31"

/-- A word as a terminal shows it, if there are colours. -/
def Paint.apply (p : Paint) (coloured : Bool) (word : String) : Text :=
  if coloured then s!"\x1b[{p.code}m{word}\x1b[0m".toList else word.toList

/-- What a run says. -/
inductive Message where
  | reading
  | sieving
  | decided (d : Decision)
  | dropped (u : Unclosed)
  | preview (source : Path) (old new : Text)
  | backingUp
  | writing
  | summary (r : Report)
  | document (r : Report)
  deriving DecidableEq

namespace Message

/-- The line that shows a decision. -/
def printDecision (coloured : Bool) (d : Decision) : Text :=
  match d.action with
  | .keep => Paint.green.apply coloured "✓" ++ " Keeping: ".toList ++ d.name
  | .filter => Paint.red.apply coloured "✗" ++ " Filtering: ".toList ++ d.name

/-- The line that shows a block that is dropped. -/
def printDropped (coloured : Bool) (u : Unclosed) : Text :=
  Paint.boldYellow.apply coloured "!" ++ " Block '".toList ++ u.name ++
    s!"' opened at line {u.startLine} is never closed; {u.lineCount} line(s) dropped".toList

/-- What would change: the difference between both texts, or a line that says there is none. -/
def printPreview (coloured : Bool) (source : Path) (old new : Text) : Text :=
  if old = new then Paint.boldGreen.apply coloured "OK" ++ " No changes.\n".toList
  else Diff.unified ("a/".toList ++ source.text) ("b/".toList ++ source.text) old new

/-- The lines that a run ends with. -/
def printSummary (coloured : Bool) (r : Report) : List Line :=
  [[], Paint.bold.apply coloured "=== SUMMARY ===", s!"Tools kept: {r.kept}".toList,
    s!"Tools filtered: {r.filtered}".toList, s!"Total tools: {r.total}".toList,
    match r.backup with
    | some backup => "Backup saved to: ".toList ++ backup.text
    | none => "Dry run: no files written".toList,
    Paint.green.apply coloured "Done!"]

/-- A message as it is printed. -/
def print (coloured : Bool) : Message → Text
  | .reading => "Reading source file...\n".toList
  | .sieving => "Filtering tools...\n".toList
  | .decided d => printDecision coloured d ++ ['\n']
  | .dropped u => printDropped coloured u ++ ['\n']
  | .preview source old new => printPreview coloured source old new
  | .backingUp => "Creating backup...\n".toList
  | .writing => "\nWriting filtered file...\n".toList
  | .summary r => (printSummary coloured r).flatMap (· ++ ['\n'])
  | .document r => r.document ++ ['\n']

end Message

/-- The voice in which a run tells how it goes on, which may be off. -/
structure Voice where
  enabled : Bool
  deriving DecidableEq

/-- Says a message, unless the voice is off. -/
def Voice.say (v : Voice) (m : Message) : List Message := if v.enabled then [m] else []

end BlockSieve
