import BlockSieve.CommandLine.Help

/-!
A call of the program: from its arguments and its environment to what it
prints, the number it exits with, and the disk it leaves.
-/

namespace BlockSieve.CommandLine

/-- A call of the program: its arguments, the source that the environment names, and whether what it
prints is coloured. -/
structure Invocation where
  arguments : List Text
  environment : Option Text
  coloured : Bool

/-- What a call leaves: the number it exits with, what it printed, the fault that ended it, and the
disk. -/
structure Reply where
  exit : Nat
  printed : Text
  fault : Option Fault
  disk : Disk

/-- The line on which an error is told. -/
def errorLine (coloured : Bool) (message : Text) : Text :=
  Paint.boldRed.apply coloured "error" ++ ": ".toList ++ message ++ ['\n']

/-- What a call does. It exits with 1 when the run ends in a fault, and with 2 when the arguments are
refused. -/
def Invocation.answer (i : Invocation) (d : Disk) : Reply :=
  match request i.environment i.arguments with
  | .error (.help long) => ⟨0, help i.coloured i.environment long, none, d⟩
  | .error .version => ⟨0, versionLine, none, d⟩
  | .error (.refused _) => ⟨2, [], none, d⟩
  | .ok wanted =>
    let r := wanted.options.run d
    match r.result with
    | .ok _ => ⟨0, r.printed i.coloured, none, r.disk⟩
    | .error fault => ⟨1, r.printed i.coloured, some fault, r.disk⟩

end BlockSieve.CommandLine
