import ClosureConversion.Command.Files
import ClosureConversion.Conversion
import ClosureConversion.Diagnostic.Explanation
import ClosureConversion.Diagnostic.Finding
import ClosureConversion.Ir.Lower
import ClosureConversion.Program.Codec
import ClosureConversion.Settings
import ClosureConversion.Verification

/-!
# Commands

Three commands: convert a program, check a program, explain a diagnostic code. A command reads its
files, and ends in an `Outcome`: what it prints, and the cause if it failed. Settings are read
before anything else, and nothing is written unless everything before has succeeded.
-/

namespace ClosureConversion

/-- The form of the output. -/
inductive OutputFormat where
  | text
  | json
deriving DecidableEq, Repr

/-- How to present output. -/
structure Presentation where
  format : OutputFormat
  colored : Bool
  quiet : Bool
deriving DecidableEq, Repr

/-- A command with its arguments. -/
inductive Command where
  /-- Convert a program, and print it or write it to a file. -/
  | convert (input : String) (output : Option String) (noOptimize noVerify : Bool)
  /-- Convert and verify a program, and report. -/
  | check (input : String) (noOptimize : Bool)
  /-- Explain a diagnostic code. -/
  | explain (code : String)
deriving DecidableEq, Repr

/-- Why a command failed. -/
inductive Failure where
  | settingsUnreadable (path : String)
  | settingsInvalid (path : String)
  | unreadable (path : String)
  | unparsable (path : String)
  | conversion (path : String)
  | verification (path : String)
  /-- The converted program breaks a rule. -/
  | violations
  | unwritable (path : String)
  /-- A check found errors. -/
  | checkFailed
  | unknownCode (code : String)
deriving DecidableEq, Repr

/-- The wording of a failure. -/
def Failure.message : Failure → String
  | .settingsUnreadable path => "Failed to read config file " ++ path
  | .settingsInvalid path => "Failed to load config file " ++ path
  | .unreadable path => "Failed to read " ++ path
  | .unparsable path => "Failed to parse " ++ path ++ " as a program tree"
  | .conversion path => "Closure conversion of " ++ path ++ " failed"
  | .verification path => "Verification of " ++ path ++ " failed"
  | .violations => "Converted program failed verification"
  | .unwritable path => "Failed to write " ++ path
  | .checkFailed => "Check failed with errors"
  | .unknownCode code => "Unknown error code: " ++ code

/-- What a command leaves behind, files apart. -/
structure Outcome where
  out : String
  err : String
  failure : Option Failure
  /-- The events of the classification, for a log. -/
  events : List Event

namespace Outcome

/-- A command that did its work. -/
def success (out err : String) (events : List Event) : Outcome := ⟨out, err, none, events⟩

/-- A command that failed before it printed anything. -/
def failed (f : Failure) : Outcome := ⟨"", "", some f, []⟩

end Outcome

/-- The file that settings are read from unless another is named. -/
def Settings.fileName : String := "ocelot.toml"

/-- The result of a fallible step, with the cause of failure given. -/
def orFailure {ε α : Type} (f : Failure) : Except ε α → Except Failure α
  | .ok a => .ok a
  | .error _ => .error f

/-- The result of a step that may have none, with the cause of failure given. -/
def someOrFailure {α : Type} (f : Failure) : Option α → Except Failure α
  | some a => .ok a
  | none => .error f

/-! ## Reading -/

section Reading

variable {m : Type → Type} [Monad m]

/-- Read the settings: from the named file, else from the usual one if it is there. -/
def Settings.load (files : Files m) (explicit : Option String) : m (Except Failure Settings) := do
  let named := explicit.isSome
  let path := explicit.getD Settings.fileName
  if !named && !(← files.isFile path) then return .ok .default
  match ← files.read path with
  | none => return .error (.settingsUnreadable path)
  | some text => return someOrFailure (.settingsInvalid path) (Settings.parse? text)

/-- Read a program into an arena. -/
def loadProgram (files : Files m) (path : String) : m (Except Failure Arena) := do
  match ← files.read path with
  | none => return .error (.unreadable path)
  | some text => return someOrFailure (.unparsable path) ((Block.parse? text).map Arena.ofBlock)

end Reading

/-! ## Converting -/

/-- A converted program as text. -/
def Program.render (p : Program) : OutputFormat → Except Fault String
  | .text => p.listing
  | .json => return (← p.toTree).toJson.pretty ++ "\n"

/-- Convert and, if asked to, verify an arena. The result is the text of the converted program, or
what the verification prints. -/
def convertArena (a : Arena) (settings : Settings) (p : Presentation) (file : String) :
    Except Failure (Except String String × List Event) := do
  let traced ← orFailure (.conversion file) (a.classifyTraced settings.optimize)
  let program ← orFailure (.conversion file) (traced.val.applyTo a)
  let violations ← if settings.verify then
      orFailure (.verification file) (verify a traced.val program)
    else pure []
  if violations.isEmpty then
    return (.ok (← orFailure (.conversion file) (program.render p.format)), traced.events)
  else
    let found : Diagnostics := violations.map (Diagnostic.ofViolation · file)
    return (.error (found.report p.colored ++ found.summary p.colored), traced.events)

/-! ## Checking -/

/-- What a check finds out about a program. -/
structure CheckReport where
  diagnostics : Diagnostics
  functions : Nat
  known : Nat
  closureRecords : Nat
  indirectCalls : Nat

/-- Check an arena. The numbers are those of as much of the work as was done. -/
def checkArena (a : Arena) (optimize : Bool) (file : String) : CheckReport :=
  match a.classify optimize with
  | .error f => ⟨[.ofFault f file], 0, 0, 0, 0⟩
  | .ok c =>
    let functions := c.decisions.size
    let known := c.knownCount
    let calls := c.closureCalls.size
    match c.applyTo a with
    | .error f => ⟨[.ofFault f file], functions, known, 0, calls⟩
    | .ok p =>
      match verify a c p with
      | .error f => ⟨[.ofFault f file], functions, known, p.closures.size, calls⟩
      | .ok vs => ⟨vs.map (Diagnostic.ofViolation · file), functions, known, p.closures.size, calls⟩

namespace CheckReport

/-- The line about a clean program. -/
def cleanLine (r : CheckReport) (colored : Bool) (file : String) : String :=
  (if colored then Text.paint true [.green, .bold] "✓" else "OK") ++ " " ++ file ++
    s!": {r.functions} function(s), {r.known} known, {r.closureRecords} closure record(s), " ++
    s!"{r.indirectCalls} indirect call(s)"

/-- The report for a terminal. -/
def listing (r : CheckReport) (colored : Bool) (file : String) : String :=
  r.diagnostics.report colored ++ r.diagnostics.summary colored ++
    (if r.diagnostics.hasErrors then "" else unlines [r.cleanLine colored file])

/-- The closing object of the JSON report. -/
def summaryJson (r : CheckReport) (file : String) : Json :=
  .object [("closure_records", .nat r.closureRecords),
    ("errors", .nat (r.diagnostics.count .error)), ("file", .text file),
    ("functions", .nat r.functions), ("indirect_calls", .nat r.indirectCalls),
    ("known", .nat r.known), ("success", .bool !r.diagnostics.hasErrors),
    ("type", .text "summary"), ("warnings", .nat (r.diagnostics.count .warning))]

/-- The report in a given form. -/
def render (r : CheckReport) (p : Presentation) (file : String) : String :=
  match p.format with
  | .text => r.listing p.colored file
  | .json => r.diagnostics.jsonReport ++ unlines [(r.summaryJson file).compact]

end CheckReport

/-! ## Running -/

/-- The explanation of a code as the outcome of a command. -/
def explainCode (p : Presentation) (code : String) : Outcome :=
  match Explanation.find? code with
  | none => .failed (.unknownCode (Text.upper code))
  | some e =>
    match p.format with
    | .text => .success (e.listing p.colored) "" []
    | .json => .success (e.toJson.pretty ++ "\n") "" []

namespace Command

variable {m : Type → Type} [Monad m]

/-- Write a converted program where it belongs. -/
def deliver (files : Files m) (p : Presentation) (text : String) (events : List Event) :
    Option String → m Outcome
  | none => return .success text "" events
  | some path => do
    if ← files.write path text then
      let line := Text.paint p.colored [.green] ("Wrote " ++ path) ++ "\n"
      return .success "" (if p.quiet then "" else line) events
    else return .failed (.unwritable path)

/-- Run a command. -/
def run (files : Files m) (p : Presentation) (config : Option String) : Command → m Outcome
  | .explain code => return explainCode p code
  | .check input noOptimize => do
    match ← Settings.load files config with
    | .error f => return .failed f
    | .ok settings =>
      match ← loadProgram files input with
      | .error f => return .failed f
      | .ok a =>
        let r := checkArena a (settings.disable noOptimize false).optimize input
        let failure := if r.diagnostics.hasErrors then some Failure.checkFailed else none
        return ⟨r.render p input, "", failure, []⟩
  | .convert input output noOptimize noVerify => do
    match ← Settings.load files config with
    | .error f => return .failed f
    | .ok settings =>
      match ← loadProgram files input with
      | .error f => return .failed f
      | .ok a =>
        match convertArena a (settings.disable noOptimize noVerify) p input with
        | .error f => return .failed f
        | .ok (.error report, events) => return ⟨"", report, some .violations, events⟩
        | .ok (.ok text, events) => deliver files p text events output

end Command

end ClosureConversion
