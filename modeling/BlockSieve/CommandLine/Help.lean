import BlockSieve.CommandLine.Arguments

/-!
The help: what the program does, how it is called, and its switches. The short
help has a line for each switch; the long one gives the texts lines of their
own. Headings and literal words can be set off by a terminal.
-/

namespace BlockSieve.CommandLine

/-- The name of the program. -/
def programName : String := "toolprune"

/-- The version of the program. -/
def programVersion : String := "0.1.0"

/-- The variable of the environment that may name the source. -/
def sourceVariable : String := "TOOLPRUNE_SOURCE"

/-- What the program does, in a line. -/
def summary : String := "Comment out MCP tool registrations that are not on the allow-list"

/-- What the program does, in more words. -/
def description : String :=
  "Scans the source for \x60server.tool(...)\x60 blocks, keeps those whose name is allowed, and " ++
    "comments out the rest in place. The original file is saved next to it with a " ++
    "\x60.backup\x60 suffix before it is rewritten."

/-- What the help says of a switch: its letter and name, the word for its value, a text, and notes
on where its value comes from. -/
structure Topic where
  letter : Option Char
  name : String
  value : Option String
  about : String
  notes : List Text

/-- The switches in their order. The value that the environment gives is shown. -/
def topics (environment : Option Text) (long : Bool) : List Topic :=
  [⟨some 's', "source", some "SOURCE", "Source file to filter in place",
      ["[env: ".toList ++ sourceVariable.toList ++ '=' :: environment.getD [] ++ [']'],
        "[default: ".toList ++ defaultSource ++ [']']]⟩,
    ⟨some 'a', "allow-list", some "FILE",
      "TOML, JSON or YAML file with a \x60keep\x60 array replacing the built-in allow-list", []⟩,
    ⟨none, "dry-run", none, "Show the resulting diff without writing anything", []⟩,
    ⟨none, "strict", none, "Fail instead of dropping a block that is never closed", []⟩,
    ⟨none, "json", none, "Print the summary as JSON", []⟩,
    ⟨some 'v', "verbose", none, "Enable verbose output", []⟩,
    ⟨some 'h', "help", none,
      if long then "Print help (see a summary with '-h')"
      else "Print help (see more with '--help')", []⟩,
    ⟨some 'V', "version", none, "Print version", []⟩]

/-- A heading. -/
def heading (coloured : Bool) (t : String) : Text :=
  if coloured then s!"\x1b[1m\x1b[4m{t}\x1b[0m".toList else t.toList

namespace Topic

/-- A switch as it is typed, with the word for its value. -/
def usage (coloured : Bool) (p : Topic) : Text :=
  let letter := match p.letter with
    | some c => Paint.bold.apply coloured (String.ofList ['-', c]) ++ ", ".toList
    | none => "    ".toList
  let value := match p.value with
    | some word => " <".toList ++ word.toList ++ ['>']
    | none => []
  letter ++ Paint.bold.apply coloured ("--" ++ p.name) ++ value

/-- The column of a text whose lines begin deeper: every line but the first gets that many blanks. -/
def indented (n : Nat) (t : Text) : Text :=
  t.flatMap fun c => if c = '\n' then '\n' :: List.replicate n ' ' else [c]

/-- The text of a switch and its notes, with `gap` before the notes and `sep` between them. -/
def words (gap sep : Text) (p : Topic) : Text :=
  match p.notes with
  | [] => p.about.toList
  | note :: notes => p.about.toList ++ gap ++ note ++ notes.flatMap (sep ++ ·)

/-- The column in which the texts of the short help begin. -/
def textColumn : Nat := 27

/-- A switch in the short help. -/
def short (coloured : Bool) (p : Topic) : Text :=
  let pad := List.replicate (textColumn - 2 - (p.usage false).length) ' '
  "  ".toList ++ p.usage coloured ++ pad ++ indented textColumn (p.words [' '] [' ']) ++ ['\n']

/-- A switch in the long help. -/
def long (coloured : Bool) (p : Topic) : Text :=
  "  ".toList ++ p.usage coloured ++
    indented 10 ('\n' :: p.words ['\n', '\n'] ['\n']) ++ ['\n']

end Topic

/-- What both helps have above the switches. -/
def usageLines (coloured : Bool) : Text :=
  heading coloured "Usage:" ++ ' ' :: Paint.bold.apply coloured programName ++
    " [OPTIONS]\n\n".toList ++ heading coloured "Options:" ++ ['\n']

/-- The help. -/
def help (coloured : Bool) (environment : Option Text) (long : Bool) : Text :=
  let found := topics environment long
  if long then
    summary.toList ++ "\n\n".toList ++ description.toList ++ "\n\n".toList ++ usageLines coloured ++
      List.intercalate ['\n'] (found.map (Topic.long coloured))
  else
    summary.toList ++ "\n\n".toList ++ usageLines coloured ++
      found.flatMap (Topic.short coloured)

/-- The line that names the version. -/
def versionLine : Text := s!"{programName} {programVersion}\n".toList

end BlockSieve.CommandLine
