import BlockSieve.Run

/-!
The arguments of a command line. An option takes a value: the rest of its own
argument, or the next argument unless that begins with a dash and more. Such
a value is looked at only when the next known option or flag comes, or at the
end; an argument that is not known is refused before that.
-/

namespace BlockSieve.CommandLine

/-- An option that takes a value. -/
inductive Setting where
  | source
  | allowList
  deriving DecidableEq

/-- A flag that is given or not. -/
inductive Flag where
  | dryRun
  | strict
  | json
  | verbose
  deriving DecidableEq

/-- What an argument with dashes can ask for. -/
inductive Switch where
  | setting (s : Setting)
  | flag (f : Flag)
  | help
  | version
  deriving DecidableEq

/-- The switch with a name after two dashes. -/
def Switch.ofName? (name : Text) : Option Switch :=
  if name = "source".toList then some (.setting .source)
  else if name = "allow-list".toList then some (.setting .allowList)
  else if name = "dry-run".toList then some (.flag .dryRun)
  else if name = "strict".toList then some (.flag .strict)
  else if name = "json".toList then some (.flag .json)
  else if name = "verbose".toList then some (.flag .verbose)
  else if name = "help".toList then some .help
  else if name = "version".toList then some .version
  else none

/-- The switch with a letter after one dash. -/
def Switch.ofLetter? : Char → Option Switch
  | 's' => some (.setting .source)
  | 'a' => some (.setting .allowList)
  | 'v' => some (.flag .verbose)
  | 'h' => some .help
  | 'V' => some .version
  | _ => none

/-- Why arguments are refused: one is not known, a value is missing or empty, a switch is given
twice, or a flag is given a value. -/
inductive Refusal where
  | unknown
  | noValue
  | repeated
  | valueOnFlag
  deriving DecidableEq

/-- Why arguments ask for no run: they want the long or the short help or the version, or they are
refused. -/
inductive Stop where
  | help (long : Bool)
  | version
  | refused (r : Refusal)
  deriving DecidableEq

/-- What the arguments say so far. -/
structure Given where
  source : Option Text
  allowList : Option Text
  flags : List Flag
  deriving DecidableEq

namespace Given

/-- Nothing said yet. -/
def none : Given := ⟨.none, .none, []⟩

/-- The value of an option. -/
def value? (g : Given) : Setting → Option Text
  | .source => g.source
  | .allowList => g.allowList

/-- Gives an option its value. -/
def assign (g : Given) (s : Setting) (t : Text) : Except Stop Given :=
  if (g.value? s).isSome then .error (.refused .repeated)
  else if t = [] then .error (.refused .noValue)
  else
    match s with
    | .source => .ok { g with source := some t }
    | .allowList => .ok { g with allowList := some t }

/-- Sets a flag. -/
def raise (g : Given) (f : Flag) : Except Stop Given :=
  if f ∈ g.flags then .error (.refused .repeated) else .ok { g with flags := f :: g.flags }

end Given

/-- Arguments that are read up to a point: what they say, and the option whose value is not looked
at yet, with that value if it is there. -/
structure Scan where
  given : Given
  pending : Option (Setting × Option Text)

namespace Scan

/-- Looks at the value that is pending. -/
def settle (s : Scan) : Except Stop Given :=
  match s.pending with
  | none => .ok s.given
  | some (_, none) => .error (.refused .noValue)
  | some (setting, some t) => s.given.assign setting t

/-- A switch without a value of its own. -/
def turn (s : Scan) (long : Bool) (switch : Switch) : Except Stop Scan := do
  let given ← s.settle
  match switch with
  | .setting setting => .ok ⟨given, some (setting, none)⟩
  | .flag f => do .ok ⟨← given.raise f, none⟩
  | .help => .error (.help long)
  | .version => .error .version

/-- An option with its value in the same argument. -/
def turnTo (s : Scan) (setting : Setting) (t : Text) : Except Stop Scan := do
  let given ← s.settle
  .ok ⟨← given.assign setting t, none⟩

/-- The text before the first equals sign, and the text after it. -/
def cutEquals : Text → Text × Option Text
  | [] => ([], none)
  | c :: rest =>
    if c = '=' then ([], some rest) else ((c :: (cutEquals rest).1), (cutEquals rest).2)

/-- An argument after its two dashes. -/
def long (s : Scan) (body : Text) : Except Stop Scan :=
  let (name, value) := cutEquals body
  match Switch.ofName? name, value with
  | none, _ => .error (.refused .unknown)
  | some (.setting setting), some t => s.turnTo setting t
  | some _, some _ => .error (.refused .valueOnFlag)
  | some switch, none => s.turn true switch

/-- An argument after its dash, letter by letter. The rest after the letter of an option is its
value; an equals sign may stand between. -/
def letters (s : Scan) : Text → Except Stop Scan
  | [] => .ok s
  | c :: rest =>
    match Switch.ofLetter? c with
    | none => .error (.refused .unknown)
    | some (.setting setting) =>
      match rest with
      | [] => s.turn false (.setting setting)
      | '=' :: t => s.turnTo setting t
      | t => s.turnTo setting t
    | some switch => do (← s.turn false switch).letters rest

/-- An argument without a dash. It can only be the value of an option before it. -/
def word (s : Scan) (t : Text) : Except Stop Scan :=
  match s.pending with
  | some (setting, none) => .ok { s with pending := some (setting, some t) }
  | _ => .error (.refused .unknown)

/-- Reads the arguments to the end. Two dashes alone end the switches, and nothing may follow
them. -/
def all (s : Scan) : List Text → Except Stop Given
  | [] => s.settle
  | ['-', '-'] :: rest => if rest = [] then s.settle else .error (.refused .unknown)
  | ('-' :: '-' :: body) :: rest => do (← s.long body).all rest
  | ('-' :: c :: body) :: rest => do (← s.letters (c :: body)).all rest
  | t :: rest => do (← s.word t).all rest

end Scan

/-- What a command line asks for. -/
structure Request where
  options : Options
  verbose : Bool
  deriving DecidableEq

/-- The source where none is named. -/
def defaultSource : Text := "src/index.ts".toList

/-- What arguments ask for. Where they name no source, the environment may name one, which must not
be empty. -/
def request (environment : Option Text) (arguments : List Text) : Except Stop Request := do
  let given ← (Scan.mk .none none).all arguments
  let source ← match given.source, environment with
    | some t, _ => .ok t
    | none, none => .ok defaultSource
    | none, some [] => .error (.refused .noValue)
    | none, some t => .ok t
  .ok
    { options :=
        { source := source
          allowList := given.allowList
          dryRun := given.flags.contains .dryRun
          strict := given.flags.contains .strict
          json := given.flags.contains .json }
      verbose := given.flags.contains .verbose }

end BlockSieve.CommandLine
