import ClosureConversion.Ir.Listing

/-!
# Help texts

What the program says about itself: its name and version, and the options of each command.
-/

namespace ClosureConversion

/-- A command that help can be about; the program itself is one. -/
inductive Topic where
  | program
  | convert
  | check
  | explain
  | help
deriving DecidableEq, Repr

namespace Topic

/-- The name of the program. -/
def programName : String := "ocelot"

/-- The word for a command, none for the program itself. -/
def word : Topic → Option String
  | .program => none
  | .convert => some "convert"
  | .check => some "check"
  | .explain => some "explain"
  | .help => some "help"

/-- The topic with a given word. -/
def ofWord? (s : String) : Option Topic :=
  [convert, check, explain, help].find? (·.word == some s)

/-- The line that tells the version. -/
def versionLine (t : Topic) : String :=
  "-".intercalate (programName :: t.word.toList) ++ " 0.1.0\n"

/-- The lines on the options that every command takes. -/
def generalLines : List String :=
  ["      --format <FORMAT>  Output format [default: text] [possible values: text, json]",
    "  -v, --verbose...       Increase verbosity (-v, -vv, -vvv)",
    "  -q, --quiet            Suppress non-error output",
    "      --no-color         Disable colored output",
    "      --config <CONFIG>  Configuration file (defaults to ./ocelot.toml when present)",
    "  -h, --help             Print help",
    "  -V, --version          Print version"]

/-- The line on the option that turns direct calls off. -/
def noOptimizeLine : String := "      --no-kfo           Compile every function as a closure"

/-- What a topic is about, in one line. -/
def about : Topic → String
  | .program => "Run closure conversion over lowered ML programs"
  | .convert => "Convert a program and print the result"
  | .check => "Convert and verify a program, reporting diagnostics"
  | .explain => "Explain a diagnostic code"
  | .help => "Print this message or the help of the given subcommand(s)"

/-- The usage line of a topic. -/
def usage : Topic → String
  | .program => "Usage: ocelot [OPTIONS] [COMMAND]"
  | .convert => "Usage: ocelot convert [OPTIONS] <INPUT>"
  | .check => "Usage: ocelot check [OPTIONS] <INPUT>"
  | .explain => "Usage: ocelot explain [OPTIONS] <CODE>"
  | .help => "Usage: ocelot help [COMMAND]..."

/-- The lines on the arguments of a topic under their heading. -/
def argumentLines : Topic → List String
  | .program => ["Commands:",
    "  convert  " ++ about .convert,
    "  check    " ++ about .check,
    "  explain  " ++ about .explain,
    "  help     " ++ about .help]
  | .convert => ["Arguments:", "  <INPUT>  Input program tree (JSON)"]
  | .check => ["Arguments:", "  <INPUT>  Input program tree (JSON)"]
  | .explain => ["Arguments:", "  <CODE>  Diagnostic code to explain (e.g., V001, I001)"]
  | .help => ["Arguments:", "  [COMMAND]...  Print help for the subcommand(s)"]

/-- The lines on the options of a topic: its own first. -/
def optionLines : Topic → List String
  | .program => generalLines
  | .convert =>
    ["  -o, --output <OUTPUT>  Write the converted program here instead of stdout", noOptimizeLine,
      "      --no-verify        Skip verification of the converted program"] ++ generalLines
  | .check => noOptimizeLine :: generalLines
  | .explain => generalLines
  | .help => []

/-- The help on a topic: what it is about, its usage, its arguments and its options. -/
def helpText (t : Topic) : String :=
  unlines ([t.about, "", t.usage, ""] ++ t.argumentLines ++
    if t.optionLines = [] then [] else "" :: "Options:" :: t.optionLines)

end Topic

end ClosureConversion
