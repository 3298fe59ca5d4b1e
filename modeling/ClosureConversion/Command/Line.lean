import ClosureConversion.Command.Basic
import ClosureConversion.Command.Help

/-!
# The command line

Arguments are read at two levels: those before the command, and those behind it. The general options
are understood at both, the others only behind their command. At one level an option may be given
once, `-v` excepted; given at both levels, it counts as it stands behind the command. Help and
version are answered as soon as they are met, a mistake as soon as it is made.
-/

namespace ClosureConversion

/-- An option that takes a value. -/
inductive ValueOption where
  | format
  | config
  | output
deriving DecidableEq, Repr

/-- What an option name stands for. -/
inductive Switch where
  | verbose
  | quiet
  | noColor
  | noOptimize
  | noVerify
  | help
  | version
  | value (o : ValueOption)
deriving DecidableEq, Repr

/-- The option with a long name at the level of a topic. -/
def Switch.ofLong? (t : Topic) (name : String) : Option Switch :=
  match name, t with
  | "format", _ => some (.value .format)
  | "config", _ => some (.value .config)
  | "verbose", _ => some .verbose
  | "quiet", _ => some .quiet
  | "no-color", _ => some .noColor
  | "help", _ => some .help
  | "version", _ => some .version
  | "output", .convert => some (.value .output)
  | "no-kfo", .convert => some .noOptimize
  | "no-kfo", .check => some .noOptimize
  | "no-verify", .convert => some .noVerify
  | _, _ => none

/-- The option with a one-letter name at the level of a topic. -/
def Switch.ofShort? (t : Topic) (letter : Char) : Option Switch :=
  match letter, t with
  | 'v', _ => some .verbose
  | 'q', _ => some .quiet
  | 'h', _ => some .help
  | 'V', _ => some .version
  | 'o', .convert => some (.value .output)
  | _, _ => none

/-- What has been given at one level. -/
structure Options where
  format : Option OutputFormat
  config : Option String
  output : Option String
  verbosity : Nat
  quiet : Bool
  noColor : Bool
  noOptimize : Bool
  noVerify : Bool
  /-- The argument that is no option. -/
  operand : Option String

/-- Nothing given. -/
def Options.empty : Options := ⟨none, none, none, 0, false, false, false, false, none⟩

/-- Why reading a level stops early. -/
inductive Stop where
  | help
  | version
  | misuse

namespace Options

/-- The output format with a given name. -/
def formatNamed? (s : String) : Option OutputFormat :=
  if s = "text" then some .text else if s = "json" then some .json else none

/-- A path; the empty text is none. -/
def path? (s : String) : Option String := if s = "" then none else some s

/-- Give an option its value, which is a mistake if it has one already. -/
def setValue (g : Options) (o : ValueOption) (s : String) : Except Stop Options :=
  match o, g.format, g.config, g.output, formatNamed? s, path? s with
  | .format, none, _, _, some f, _ => .ok { g with format := some f }
  | .config, _, none, _, _, some p => .ok { g with config := some p }
  | .output, _, _, none, _, some p => .ok { g with output := some p }
  | _, _, _, _, _, _ => .error .misuse

/-- Turn a switch on, which is a mistake if it is on already. -/
def turnOn (g : Options) : Switch → Except Stop Options
  | .verbose => .ok { g with verbosity := g.verbosity + 1 }
  | .quiet => if g.quiet then .error .misuse else .ok { g with quiet := true }
  | .noColor => if g.noColor then .error .misuse else .ok { g with noColor := true }
  | .noOptimize => if g.noOptimize then .error .misuse else .ok { g with noOptimize := true }
  | .noVerify => if g.noVerify then .error .misuse else .ok { g with noVerify := true }
  | .help => .error .help
  | .version => .error .version
  | .value _ => .error .misuse

/-- Take an argument that is no option. Only one is wanted, and a path must not be empty. -/
def takeOperand (t : Topic) (g : Options) (s : String) : Except Stop Options :=
  if g.operand.isSome ∨ (s = "" ∧ t ≠ .explain) then .error .misuse
  else .ok { g with operand := some s }

end Options

/-- A cluster of one-letter options: what it gives, and the option that still waits for a value. -/
def readCluster (t : Topic) (g : Options) : List Char → Except Stop (Options × Option ValueOption)
  | [] => .ok (g, none)
  | letter :: rest =>
    match Switch.ofShort? t letter with
    | none => .error .misuse
    | some (.value o) =>
      match rest with
      | [] => .ok (g, some o)
      | '=' :: value => do return (← g.setValue o (String.ofList value), none)
      | value => do return (← g.setValue o (String.ofList value), none)
    | some s => do readCluster t (← g.turnOn s) rest

/-- A long option, split at the sign that introduces its value. -/
def readLong (t : Topic) (g : Options) (cs : List Char) :
    Except Stop (Options × Option ValueOption) :=
  let name := String.ofList (cs.takeWhile (· ≠ '='))
  match Switch.ofLong? t name, cs.dropWhile (· ≠ '=') with
  | none, _ => .error .misuse
  | some (.value o), _ :: value => do return (← g.setValue o (String.ofList value), none)
  | some (.value o), [] => .ok (g, some o)
  | some _, _ :: _ => .error .misuse
  | some s, [] => do return (← g.turnOn s, none)

/-- An argument as it looks. -/
inductive Argument where
  /-- The mark behind which nothing is an option. -/
  | endOfOptions
  | long (rest : List Char)
  | short (letters : List Char)
  | plain (s : String)

/-- How an argument looks. A dash alone is no option. -/
def Argument.of (s : String) : Argument :=
  match s.toList with
  | ['-', '-'] => .endOfOptions
  | '-' :: '-' :: rest => .long rest
  | '-' :: c :: rest => .short (c :: rest)
  | _ => .plain s

/-- Read the operands behind the end of the options. -/
def readOperands (t : Topic) (g : Options) (args : List String) : Except Stop Options :=
  args.foldlM (Options.takeOperand t) g

/-- Read the arguments behind a command; `waiting` is an option whose value comes next. -/
def readArguments (t : Topic) : Option ValueOption → Options → List String → Except Stop Options
  | none, g, [] => .ok g
  | some _, _, [] => .error .misuse
  | some o, g, s :: rest =>
    match Argument.of s with
    | .plain s => do readArguments t none (← g.setValue o s) rest
    | _ => .error .misuse
  | none, g, s :: rest =>
    match Argument.of s with
    | .endOfOptions => readOperands t g rest
    | .long cs => do
      let (g, waiting) ← readLong t g cs
      readArguments t waiting g rest
    | .short letters => do
      let (g, waiting) ← readCluster t g letters
      readArguments t waiting g rest
    | .plain s => do readArguments t none (← g.takeOperand t s) rest

/-- Read the arguments before the command. The result is what they give, and the command with the
arguments behind it. -/
def readGeneral : Option ValueOption → Options → List String →
    Except Stop (Options × Option (Topic × List String))
  | none, g, [] => .ok (g, none)
  | some _, _, [] => .error .misuse
  | some o, g, s :: rest =>
    match Argument.of s with
    | .plain s => do readGeneral none (← g.setValue o s) rest
    | _ => .error .misuse
  | none, g, s :: rest =>
    match Argument.of s with
    | .endOfOptions => if rest = [] then .ok (g, none) else .error .misuse
    | .long cs => do
      let (g, waiting) ← readLong .program g cs
      readGeneral waiting g rest
    | .short letters => do
      let (g, waiting) ← readCluster .program g letters
      readGeneral waiting g rest
    | .plain s =>
      match Topic.ofWord? s with
      | some t => .ok (g, some (t, rest))
      | none => .error .misuse

/-- What the arguments ask for. -/
inductive Request where
  /-- Run a command. -/
  | run (format : OutputFormat) (verbosity : Nat) (quiet noColor : Bool) (config : Option String)
    (command : Command)
  /-- Nothing in particular. -/
  | idle
  | help (t : Topic)
  | version (t : Topic)
  | misuse

/-- The request behind an early stop. -/
def Request.ofStop (t : Topic) : Stop → Request
  | .help => .help t
  | .version => .version t
  | .misuse => .misuse

/-- The command that is given behind its word. -/
def Options.command? (g : Options) : Topic → Option Command
  | .convert => do return .convert (← g.operand) g.output g.noOptimize g.noVerify
  | .check => do return .check (← g.operand) g.noOptimize
  | .explain => .explain <$> g.operand
  | .program | .help => none

/-- The request for help on the command that words lead to. No command has further ones inside. -/
def Request.ofHelp : List String → Request
  | [] => .help .program
  | [word] =>
    match Topic.ofWord? word with
    | some t => .help t
    | none => .misuse
  | _ => .misuse

/-- What the arguments ask for. -/
def Request.ofArguments (args : List String) : Request :=
  match readGeneral none .empty args with
  | .error stop => .ofStop .program stop
  | .ok (_, none) => .idle
  | .ok (_, some (.help, words)) => .ofHelp words
  | .ok (general, some (t, rest)) =>
    match readArguments t none .empty rest with
    | .error stop => .ofStop t stop
    | .ok own =>
      match own.command? t with
      | none => .misuse
      | some command =>
        .run ((own.format <|> general.format).getD .text)
          (if own.verbosity = 0 then general.verbosity else own.verbosity)
          (own.quiet || general.quiet) (own.noColor || general.noColor)
          (own.config <|> general.config) command

/-- How the program ends. -/
structure Exit where
  code : UInt32
  out : String
  err : String
  /-- The lines of the log, with their levels. -/
  events : List Event
  verbosity : Nat

/-- The exit after an outcome. -/
def Exit.ofOutcome (o : Outcome) (verbosity : Nat) : Exit :=
  match o.failure with
  | none => ⟨0, o.out, o.err, o.events, verbosity⟩
  | some f => ⟨1, o.out, o.err ++ "Error: " ++ f.message ++ "\n", o.events, verbosity⟩

/-- Run the program; `terminal` tells whether its output goes to one. -/
def runProgram {m : Type → Type} [Monad m] (files : Files m) (terminal : Bool)
    (args : List String) : m Exit := do
  match Request.ofArguments args with
  | .misuse => return ⟨2, "", "error: the arguments are not understood, try '--help'\n", [], 0⟩
  | .help t => return ⟨0, t.helpText, "", [], 0⟩
  | .version t => return ⟨0, t.versionLine, "", [], 0⟩
  | .idle => return ⟨0, Topic.program.helpText ++ "\n", "", [], 0⟩
  | .run format verbosity quiet noColor config command =>
    let p : Presentation := ⟨format, !noColor && !quiet && terminal, quiet⟩
    return .ofOutcome (← command.run files p config) (if quiet then 0 else verbosity)

end ClosureConversion
