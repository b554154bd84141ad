import SoftTier.Log
import SoftTier.Percent
import SoftTier.Service

/-!
# The command line

The simulator puts a service under traffic and reports what came of it. Its arguments are options,
each of which may be given once: `--name value` or `--name=value`, and for those with a letter also
`-l value`, `-lvalue` or `-l=value`. A value of its own does not begin with a hyphen, unless it is
one.

- `Flag`, `Arguments`: the options and what they set.
- `Invocation.ofArgs`: what a list of arguments asks for; the first thing wrong decides.
- `Conclusion`, `execute`: what a run prints and how it ends. Files come in as a function from paths
  to contents.
-/

namespace SoftTier.CommandLine

/-- The name under which the program shows itself. -/
def programName : String := "l2sim"

/-- The version of the program. -/
def version : String := "0.1.0"

/-! ## Options -/

/-- An option that takes a value. -/
inductive Flag where
  | config
  | sessions
  | keys
  | reads
  | rollbackEvery
  | pressureEvery
  | pinCapacity
  deriving DecidableEq

namespace Flag

/-- Every option. -/
def all : List Flag := [config, sessions, keys, reads, rollbackEvery, pressureEvery, pinCapacity]

/-- The long name. -/
def name : Flag → String
  | config => "config"
  | sessions => "sessions"
  | keys => "keys"
  | reads => "reads"
  | rollbackEvery => "rollback-every"
  | pressureEvery => "pressure-every"
  | pinCapacity => "pin-capacity"

/-- The letter, for those that have one. -/
def letter? : Flag → Option Char
  | config => some 'c'
  | sessions => some 's'
  | keys => some 'k'
  | reads => some 'r'
  | rollbackEvery | pressureEvery | pinCapacity => none

/-- The option with a long name. -/
def ofName? (name : String) : Option Flag := all.find? (·.name == name)

/-- The option with a letter. -/
def ofLetter? (c : Char) : Option Flag := all.find? (·.letter? == some c)

end Flag

/-- What the options set. -/
structure Arguments where
  config : Option String := none
  traffic : Traffic := {}
  pinCapacity : Option Nat := none

/-- The value of a run of decimal digits after `value`. -/
def digitsFrom (value : Nat) : List Char → Option Nat
  | [] => some value
  | c :: rest =>
    if c.isDigit then digitsFrom (value * 10 + (c.toNat - '0'.toNat)) rest else none

/-- The number below 2^64 that a text writes in decimal digits, after at most one plus. -/
def word? (text : String) : Option Nat :=
  let digits := match text.toList with
    | '+' :: digits => digits
    | digits => digits
  if digits.isEmpty then none else (digitsFrom 0 digits).filter (· < UInt64.size)

namespace Arguments

/-- Sets an option to a value, if the value is one it takes. -/
def set? (a : Arguments) (flag : Flag) (value : String) : Option Arguments :=
  match flag with
  | .config => if value.isEmpty then none else some { a with config := some value }
  | .sessions => do return { a with traffic.sessions := ← word? value }
  | .keys => do return { a with traffic.keys := ← word? value }
  | .reads => do return { a with traffic.reads := ← word? value }
  | .rollbackEvery => do return { a with traffic.rollbackEvery := ← word? value }
  | .pressureEvery => do return { a with traffic.pressureEvery := ← word? value }
  | .pinCapacity => do return { a with pinCapacity := some (← word? value) }

end Arguments

/-! ## Reading the arguments -/

/-- What a list of arguments asks for. -/
inductive Invocation where
  | run (arguments : Arguments)
  | showVersion
  | showHelp
  /-- The arguments are not in order. -/
  | misuse

/-- What an argument is by its form. -/
inductive Form where
  /-- The end of the options. -/
  | stop
  /-- A long name, and the value attached to it. -/
  | long (name : String) (attached : Option String)
  /-- A letter, and what follows it. -/
  | short (letter : Char) (rest : List Char)
  /-- Anything else. -/
  | plain (text : String)

namespace Form

/-- The form of an argument. -/
def ofArg (arg : String) : Form :=
  match arg.toList with
  | ['-', '-'] => stop
  | '-' :: '-' :: rest =>
    match rest.dropWhile (· != '=') with
    | '=' :: value => long (.ofList (rest.takeWhile (· != '='))) (some (.ofList value))
    | _ => long (.ofList rest) none
  | '-' :: letter :: rest => short letter rest
  | _ => plain arg

/-- The value attached to a letter: what follows it, without an equals sign in front. -/
def attached? : List Char → Option String
  | [] => none
  | '=' :: value => some (.ofList value)
  | value => some (.ofList value)

end Form

namespace Invocation

/-- Reads arguments on top of those read before, where the options in `given` may not come again. -/
def ofArgsFrom (given : List Flag) (a : Arguments) : List String → Invocation
  | [] => run a
  | arg :: rest =>
    match Form.ofArg arg with
    | .stop => if rest.isEmpty then run a else misuse
    | .plain _ => misuse
    | .long "version" none | .short 'V' _ => showVersion
    | .long "help" none | .short 'h' _ => showHelp
    | .long name value => ofFlag (Flag.ofName? name) value rest
    | .short letter after => ofFlag (Flag.ofLetter? letter) (Form.attached? after) rest
where
  /-- Reads the value of an option, attached to it or on its own, and goes on. -/
  ofFlag (flag? : Option Flag) (attached : Option String) (rest : List String) : Invocation :=
    match flag? with
    | none => misuse
    | some flag =>
      if flag ∈ given then misuse
      else
        match attached, rest with
        | some value, rest =>
          match a.set? flag value with
          | some a => ofArgsFrom (flag :: given) a rest
          | none => misuse
        | none, value :: rest =>
          match Form.ofArg value, a.set? flag value with
          | .plain _, some a => ofArgsFrom (flag :: given) a rest
          | _, _ => misuse
        | none, [] => misuse

/-- What a list of arguments asks for. -/
def ofArgs (args : List String) : Invocation := ofArgsFrom [] {} args

end Invocation

/-! ## Running -/

/-- What a run prints and how it ends. -/
structure Conclusion where
  /-- 0 after a run, 1 after an error, 2 if the arguments were not in order. -/
  exitCode : Nat
  log : List String := []
  /-- What goes to standard output after the log. -/
  output : String := ""
  /-- The first line of what goes to standard error. -/
  error : Option String := none

namespace Conclusion

/-- The end of a run that met an error. -/
def failed (log : List String) (message : String) : Conclusion where
  exitCode := 1
  log
  error := some ("Error: " ++ String.ofList (message.toList.takeWhile (· != '\n')))

end Conclusion

/-- The summary as it is printed. -/
def renderSummary (r : Summary) : String :=
  let ratio := match r.hitRatio with
    | some ratio => percentText ratio
    | none => "(logging disabled)"
  "\nSESSIONS:\n" ++
    "   Committed:    " ++ toString r.commits ++ "\n" ++
    "   Rolled back:  " ++ toString r.rollbacks ++ "\n" ++
    "   Loads:        " ++ toString r.loads ++ "\n" ++
    "\nCACHE:\n" ++
    "   Entries:      " ++ toString r.size ++ "\n" ++
    "   Pinned:       " ++ toString r.pinned ++ "\n" ++
    "   Reclaimed:    " ++ toString r.reclaimed ++ "\n" ++
    "   Hit ratio:    " ++ ratio ++ "\n"

/-- The lines logged before a run. -/
def openingLines (settings : ServiceSettings) : List String :=
  ["Starting " ++ programName ++ " v" ++ version,
    "Cache id: " ++ settings.id,
    "Pin capacity: " ++ toString settings.soft.pinCapacity,
    "Soft capacity: " ++ toString settings.soft.softCapacity].map
    fun message => Log.infoLine programName message []

/-- The line logged after a run. -/
def closingLine (r : Summary) : String :=
  Log.infoLine (programName ++ "::workload") "workload finished"
    [("commits", r.commits), ("rollbacks", r.rollbacks), ("loads", r.loads),
      ("reclaimed", r.reclaimed.toNat), ("size", r.size)]

/-- Puts a service with these settings under traffic. -/
def simulate (settings : ServiceSettings) (traffic : Traffic) : Conclusion :=
  let log := openingLines settings
  match Service.ofSettings settings with
  | .error fault => .failed log fault.message
  | .ok service =>
    match (Service.run traffic .alone service).result with
    | .error failure => .failed log failure.message
    | .ok summary =>
      { exitCode := 0, log := log ++ [closingLine summary], output := renderSummary summary }

/-- The settings to run with: those of the file named, or else the defaults, with the pins
overridden if asked. -/
def Arguments.settings (a : Arguments) (files : String → Option ByteArray) :
    Except LoadError ServiceSettings :=
  let loaded := match a.config with
    | some path => ServiceSettings.load path (files path)
    | none => .ok {}
  loaded.map fun settings =>
    match a.pinCapacity with
    | some n => { settings with soft.pinCapacity := n }
    | none => settings

/-- A short account of the options. -/
def usage : String :=
  "Usage: " ++ programName ++ " [OPTIONS]\n\nOptions:\n" ++
    String.join (Flag.all.map fun flag => "  --" ++ flag.name ++ " <VALUE>\n") ++
    "  --version\n  --help\n"

/-- Does what a list of arguments asks for. -/
def execute (files : String → Option ByteArray) (args : List String) : Conclusion :=
  match Invocation.ofArgs args with
  | .misuse => { exitCode := 2 }
  | .showHelp => { exitCode := 0, output := usage }
  | .showVersion => { exitCode := 0, output := programName ++ " " ++ version ++ "\n" }
  | .run a =>
    match a.settings files with
    | .error e => .failed [] e.message
    | .ok settings => simulate settings a.traffic

end SoftTier.CommandLine
