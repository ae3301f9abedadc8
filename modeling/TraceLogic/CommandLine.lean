import TraceLogic.Description.Resolve
import TraceLogic.Settings
import TraceLogic.Trace.Conditions

/-!
# The command line

`CommandLine.parse` reads the arguments, `CommandLine.run` does what they ask for: settings first,
then the program, then its conditions, which go to a file or to standard output. Nothing is written
unless all of that has worked.
-/

namespace TraceLogic

/-- Loads the program that a file describes. The text of the file comes with a fault in it. -/
def Program.loadFile {m : Type → Type} [Monad m] (files : FileAccess m) (path : Path) :
    m (Except (LoadFault × String) Program) := do
  match ← files.readText path with
  | .error fault => pure (.error (.unreadable path.text fault.describe, ""))
  | .ok source =>
    match Program.load source with
    | .ok p => pure (.ok p)
    | .error fault => pure (.error (fault, source))

namespace CommandLine

/-- The switches of the command line. -/
inductive Switch
  | twoTraces
  | timepoints
  | parallel
  | verbose
deriving DecidableEq

/-- The arguments read so far. -/
structure Arguments where
  program : Option Path := none
  output : Option Path := none
  config : Option Path := none
  switches : List Switch := []

/-- What the arguments ask for. -/
inductive Request
  | run (arguments : Arguments) (program : Path)
  | version
  | help
  | misuse

/-- The options that take a value. -/
inductive ValueOption
  | output
  | config
deriving DecidableEq

/-- What an option means. -/
inductive Meaning
  | switch (s : Switch)
  | value (o : ValueOption)
  | version
  | help

/-- The meaning of an option with a long name. -/
def long? : String → Option Meaning
  | "output" => some (.value .output)
  | "config" => some (.value .config)
  | "two-traces" => some (.switch .twoTraces)
  | "timepoints" => some (.switch .timepoints)
  | "parallel" => some (.switch .parallel)
  | "verbose" => some (.switch .verbose)
  | "version" => some .version
  | "help" => some .help
  | _ => none

/-- The meaning of an option with a short name. -/
def short? : Char → Option Meaning
  | 'o' => some (.value .output)
  | 'v' => some (.switch .verbose)
  | 'V' => some .version
  | 'h' => some .help
  | _ => none

namespace Arguments

/-- Turns a switch on, which may be done once. -/
def turnOn? (a : Arguments) (s : Switch) : Option Arguments :=
  if a.switches.contains s then none else some { a with switches := s :: a.switches }

/-- Gives an option its value, which may be done once. No value is empty. -/
def give? (a : Arguments) (o : ValueOption) (value : String) : Option Arguments :=
  if value = "" then none
  else
    match o with
    | .output => if a.output.isSome then none else some { a with output := some ⟨value⟩ }
    | .config => if a.config.isSome then none else some { a with config := some ⟨value⟩ }

/-- Gives the program, which may be done once. Its path is not empty. -/
def giveProgram? (a : Arguments) (value : String) : Option Arguments :=
  if value = "" || a.program.isSome then none else some { a with program := some ⟨value⟩ }

end Arguments

/-- Whether an argument looks like an option, so that it is not the value of one. -/
def isOption (arg : String) : Bool :=
  match arg.toList with
  | '-' :: _ :: _ => true
  | _ => false

/-- What an argument with short options says. -/
inductive Cluster
  | switches (a : Arguments)
  | awaiting (a : Arguments) (o : ValueOption)
  | done (r : Request)

/-- Reads short options that stand behind one dash. An option with a value takes the rest, or the
next argument if there is none. -/
def cluster (a : Arguments) : List Char → Cluster
  | [] => .switches a
  | c :: rest =>
    match short? c with
    | none => .done .misuse
    | some .version => .done .version
    | some .help => .done .help
    | some (.switch s) =>
      match a.turnOn? s with
      | some b => cluster b rest
      | none => .done .misuse
    | some (.value o) =>
      match rest with
      | [] => .awaiting a o
      | _ =>
        let value := if rest.head? = some '=' then rest.drop 1 else rest
        match a.give? o (String.ofList value) with
        | some b => .switches b
        | none => .done .misuse

/-- Divides a long option into its name and the value behind an equals sign. -/
def divideLong (cs : List Char) : String × Option String :=
  let name := String.ofList (cs.takeWhile (· ≠ '='))
  match cs.dropWhile (· ≠ '=') with
  | _ :: value => (name, some (String.ofList value))
  | [] => (name, none)

/-- Reads arguments after two dashes, all of which are programs. -/
def parsePrograms (a : Arguments) : List String → Request
  | [] =>
    match a.program with
    | some p => .run a p
    | none => .misuse
  | arg :: rest =>
    match a.giveProgram? arg with
    | some b => parsePrograms b rest
    | none => .misuse

/-- Reads arguments, of which the first is the value of an option if one awaits it. -/
def parseFrom (a : Arguments) (awaiting : Option ValueOption) : List String → Request
  | [] =>
    match awaiting, a.program with
    | none, some p => .run a p
    | _, _ => .misuse
  | arg :: rest =>
    match awaiting with
    | some o =>
      if isOption arg then .misuse
      else
        match a.give? o arg with
        | some b => parseFrom b none rest
        | none => .misuse
    | none =>
      match arg.toList with
      | '-' :: '-' :: [] => parsePrograms a rest
      | '-' :: '-' :: cs =>
        match divideLong cs with
        | (name, value) =>
          match long? name, value with
          | some (.value o), some v =>
            match a.give? o v with
            | some b => parseFrom b none rest
            | none => .misuse
          | some (.value o), none => parseFrom a (some o) rest
          | some (.switch s), none =>
            match a.turnOn? s with
            | some b => parseFrom b none rest
            | none => .misuse
          | some .version, none => .version
          | some .help, none => .help
          | _, _ => .misuse
      | '-' :: c :: cs =>
        match cluster a (c :: cs) with
        | .switches b => parseFrom b none rest
        | .awaiting b o => parseFrom b (some o) rest
        | .done r => r
      | _ =>
        match a.giveProgram? arg with
        | some b => parseFrom b none rest
        | none => .misuse

/-- Reads the arguments of the command line. -/
def parse (args : List String) : Request := parseFrom {} none args

/-- What a run of the program shows: its exit code, standard output and standard error. -/
structure Outcome where
  exit : Nat
  stdout : String := ""
  stderr : String := ""

/-- The text of a fault on standard error. -/
def report (code message : String) (help : Option String) : String :=
  let advice := match help with
    | some text => "  help: " ++ text ++ "\n"
    | none => ""
  code ++ "\n\n  × " ++ message ++ "\n" ++ advice

/-- The version of the program. -/
def versionText : String := "tlv 0.2.0\n"

/-- How the program is used. -/
def usage : String := "Usage: tlv [OPTIONS] <PROGRAM>\n"

/-- The options of the command line. -/
def helpText : String :=
  "Generates trace-logic verification conditions for while-programs\n\n" ++ usage ++
  "\nOptions:\n" ++
  "  -o, --output <OUTPUT>  Write the solver text here instead of stdout\n" ++
  "      --two-traces       Relate two executions of every function\n" ++
  "      --timepoints       List the time-points of every statement first\n" ++
  "      --parallel         Work on all functions at the same time\n" ++
  "      --config <CONFIG>  Settings file\n" ++
  "  -v, --verbose          Log more\n" ++
  "  -h, --help             Print help\n" ++
  "  -V, --version          Print version\n"

/-- Options that arguments and settings ask for together. -/
def options (a : Arguments) (s : ResolvedSettings) : Options where
  twoTraces := a.switches.contains .twoTraces || s.twoTraces
  timepoints := a.switches.contains .timepoints || s.timepoints
  parallel := a.switches.contains .parallel || s.parallel

variable {m : Type → Type} [Monad m]

/-- Writes a text to a file, whose directory is made if it is missing. -/
def deliver (files : FileAccess m) (path : Path) (text : String) : m Bool := do
  let ready ← match path.parent? with
    | some directory =>
      if directory.text = "" then pure true else files.makeDirectories directory
    | none => pure true
  if ready then files.writeText path text else pure false

/-- Generates the conditions of a program. -/
def generate (files : FileAccess m) (a : Arguments) (program : Path) (schedule : Schedule) :
    m Outcome := do
  match ← Settings.load files program a.config with
  | .error fault =>
    pure { exit := 1, stderr := report SettingsFault.code fault.message none }
  | .ok settings =>
    match ← Program.loadFile files program with
    | .error (fault, source) =>
      pure { exit := 1, stderr := report fault.code (fault.message source) fault.help }
    | .ok p =>
      match p.conditions (options a settings) schedule with
      | .error fault => pure { exit := 1, stderr := report fault.code fault.message fault.help }
      | .ok text =>
        match a.output.or settings.output with
        | none => pure { exit := 0, stdout := text }
        | some path =>
          if ← deliver files path text then pure { exit := 0 }
          else pure { exit := 1, stderr := "cannot write " ++ path.text ++ "\n" }

/-- Does what the arguments ask for. -/
def run (files : FileAccess m) (args : List String) (schedule : Schedule := {}) : m Outcome :=
  match parse args with
  | .run a program => generate files a program schedule
  | .version => pure { exit := 0, stdout := versionText }
  | .help => pure { exit := 0, stdout := helpText }
  | .misuse => pure { exit := 2, stderr := usage }

end CommandLine

end TraceLogic
