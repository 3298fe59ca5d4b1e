import ClosureConversion.Diagnostic.Code
import ClosureConversion.Ir.Listing
import ClosureConversion.Json.Writer
import ClosureConversion.Text.Style
import ClosureConversion.Text.UpperCase

/-!
# Explanations of diagnostic codes

For each code a title, a description and, where they help, an example and a suggestion. An
explanation is looked up by the upper-case form of a text, by which Unicode letters outside ASCII
may turn into ASCII ones.
-/

namespace ClosureConversion

/-- What there is to say about a code. -/
structure Explanation where
  code : String
  title : String
  description : String
  sample : Option String
  suggestion : Option String
  related : List String

namespace Explanation

/-- All explanations in the order of their codes. -/
def all : List Explanation := [
  { code := "I001"
    title := "Internal Error"
    description :=
      "Closure conversion stopped on an IR invariant violation: a recorded decision points " ++
      "at an instruction that is not a function literal, a recorded closure call is not an " ++
      "application, a function body is entered while it is already being explored, or the " ++
      "free variable walk left a scope open. The input was not produced by a correct " ++
      "lowering, or the pass has a defect."
    sample := some "f = fun\n  g = fun        (body of g is the body of f)\n    ..."
    suggestion := some "Run with -vvv to trace the classification up to the failing instruction."
    related := [] },
  { code := "V001"
    title := "Known Function Captures"
    description :=
      "A function was compiled as a known function, which is called directly and has no " ++
      "environment, but its body still refers to names bound outside of it."
    sample := some "x = int 1\nf = fun y\n  r = binary add x y    (x is free in f)"
    suggestion := some "Such a function must be compiled as a closure capturing x."
    related := ["V002", "V003"] },
  { code := "V002"
    title := "Capture List Mismatch"
    description :=
      "The capture list of a closure differs from the free variables of its body. Every " ++
      "name read in the body and bound outside of it must be captured, except the closure's " ++
      "own name. Nothing else may be captured."
    sample := some "g = makecls (x, q) g\n  where g only reads x    (q is spurious)"
    suggestion := none
    related := ["V001"] },
  { code := "V003"
    title := "Indirect Flag Mismatch"
    description :=
      "A call is marked indirect although its callee is a known function, or direct " ++
      "although its callee is a closure. Calls are indirect exactly when the callee is not " ++
      "a known function."
    sample := some "r = app g x       (g is a closure, expected appcls)"
    suggestion := none
    related := ["V001"] },
  { code := "V004"
    title := "Function Literal Survived"
    description :=
      "A function literal is still present in the converted program. Every function literal " ++
      "is moved to the top-level table and its definition removed or replaced by closure " ++
      "construction."
    sample := none
    suggestion := none
    related := ["V005"] },
  { code := "V005"
    title := "Unknown Closure Target"
    description :=
      "A closure construction names a function that is missing from the top-level table."
    sample := some "c = makecls (x) h    (no top-level function h)"
    suggestion := none
    related := ["V004"] }]

/-- The explanation whose code is the upper-case form of a text. -/
def find? (s : String) : Option Explanation := all.find? (·.code == Text.upper s)

/-- A heading with a colon. -/
def heading (colored : Bool) (marks : List Text.Mark) (s : String) : String :=
  Text.paint colored marks s ++ ":"

/-- The lines of an explanation for a terminal. -/
def lines (colored : Bool) (e : Explanation) : List String :=
  ["", heading colored [.cyan, .bold] e.code ++ " " ++ Text.paint colored [.bold] e.title,
    String.ofList (List.replicate (e.code.utf8ByteSize + e.title.utf8ByteSize + 2) '='),
    "", e.description, ""] ++
  (match e.sample with
    | some sample => heading colored [.bold] "Example" ::
        (sample.splitOn "\n").map ("  " ++ ·) ++ [""]
    | none => []) ++
  (match e.suggestion with
    | some suggestion => [heading colored [.green, .bold] "Suggestion", "  " ++ suggestion, ""]
    | none => []) ++
  (if e.related = [] then []
    else [heading colored [.dim] "Related" ++ " " ++ commaList e.related])

/-- An explanation for a terminal. -/
def listing (colored : Bool) (e : Explanation) : String := unlines (e.lines colored)

/-- An explanation as JSON. -/
def toJson (e : Explanation) : Json :=
  .object [("code", .text e.code), ("description", .text e.description),
    ("example", .optText e.sample), ("related", .texts e.related),
    ("suggestion", .optText e.suggestion), ("title", .text e.title)]

end Explanation

end ClosureConversion
