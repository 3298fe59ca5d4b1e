import ClosureConversion.Diagnostic.Code
import ClosureConversion.Ir.Listing
import ClosureConversion.Json.Writer
import ClosureConversion.Text.Style

/-!
# Diagnostics and their reports

A diagnostic is a finding with what it is about and what helps. Reports come in two forms: lines for
a terminal, and one JSON object a line for other programs.
-/

namespace ClosureConversion

/-- A finding. -/
structure Diagnostic where
  code : DiagnosticCode
  severity : Severity
  message : String
  help : Option String
  /-- The name it is about. -/
  subject : Option String
  /-- The file it was found in. -/
  file : Option String
  notes : List String
deriving DecidableEq, Repr

namespace Diagnostic

/-- A finding of the given severity with nothing but its message. -/
def plain (code : DiagnosticCode) (severity : Severity) (message : String) : Diagnostic :=
  ⟨code, severity, message, none, none, none, []⟩

/-- The finding about a name. -/
def withSubject (d : Diagnostic) (s : String) : Diagnostic := { d with subject := some s }

/-- The finding in a file. -/
def withFile (d : Diagnostic) (s : String) : Diagnostic := { d with file := some s }

/-- The finding with one more note. -/
def withNote (d : Diagnostic) (s : String) : Diagnostic := { d with notes := d.notes ++ [s] }

/-- The finding with advice. -/
def withHelp (d : Diagnostic) (s : String) : Diagnostic := { d with help := some s }

/-! ## For a terminal -/

/-- The colour of a severity. -/
def severityMark : Severity → Text.Mark
  | .error => .red
  | .warning => .yellow
  | .hint => .blue

/-- Where a finding is: the file, the name in it, or both. -/
def location : Diagnostic → Option String
  | { file := some f, subject := some s, .. } => some (f ++ ": '" ++ s ++ "'")
  | { file := some f, subject := none, .. } => some f
  | { file := none, subject := some s, .. } => some ("'" ++ s ++ "'")
  | { file := none, subject := none, .. } => none

/-- A line with a label in colour. -/
def labelled (colored : Bool) (label text : String) : String :=
  "  " ++ Text.paint colored [.cyan] label ++ " " ++ text

/-- The lines of a finding for a terminal. -/
def lines (colored : Bool) (d : Diagnostic) : List String :=
  (Text.paint colored [.bold, severityMark d.severity]
      (d.severity.text ++ "[" ++ d.code.text ++ "]") ++ ": " ++ d.message) ::
    d.location.toList.map (labelled colored "-->") ++
    d.notes.map (labelled colored "= note:") ++
    d.help.toList.map (labelled colored "= help:") ++ [""]

/-- A finding as JSON. -/
def toJson (d : Diagnostic) : Json :=
  .object [("code", .text d.code.text), ("file", .optText d.file), ("help", .optText d.help),
    ("message", .text d.message), ("notes", .texts d.notes), ("severity", .text d.severity.text),
    ("subject", .optText d.subject)]

end Diagnostic

/-- A list of findings. -/
abbrev Diagnostics := List Diagnostic

namespace Diagnostics

/-- How many findings have a severity. -/
def count (ds : Diagnostics) (s : Severity) : Nat := (ds.filter (·.severity == s)).length

/-- Whether there is an error among the findings. -/
def hasErrors (ds : Diagnostics) : Bool := ds.any (·.severity == .error)

/-- All findings for a terminal. -/
def report (colored : Bool) (ds : Diagnostics) : String :=
  unlines (ds.flatMap (Diagnostic.lines colored))

/-- A number with a noun, in the plural unless it is one. -/
def quantity (n : Nat) (noun : String) : String :=
  toString n ++ " " ++ noun ++ (if n = 1 then "" else "s")

/-- The closing line for a terminal; none without errors and warnings. -/
def summary (colored : Bool) (ds : Diagnostics) : String :=
  let errors := ds.count .error
  let warnings := ds.count .warning
  let parts := (if errors = 0 then [] else [quantity errors "error"]) ++
    (if warnings = 0 then [] else [quantity warnings "warning"])
  let mark := Diagnostic.severityMark (if errors = 0 then .warning else .error)
  if parts = [] then ""
  else Text.paint colored [mark] (" and ".intercalate parts ++ " emitted") ++ "\n"

/-- All findings as JSON, one a line. -/
def jsonReport (ds : Diagnostics) : String := unlines (ds.map (·.toJson.compact))

/-- The closing line as JSON. -/
def jsonSummary (ds : Diagnostics) : String :=
  unlines [(Json.object [("errors", .nat (ds.count .error)), ("hints", .nat (ds.count .hint)),
    ("total", .nat ds.length), ("type", .text "summary"),
    ("warnings", .nat (ds.count .warning))]).compact]

end Diagnostics

end ClosureConversion
