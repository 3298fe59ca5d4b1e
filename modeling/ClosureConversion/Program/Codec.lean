import ClosureConversion.Ir.Codec
import ClosureConversion.Program

/-!
# Converted programs as JSON

The functions sorted by name, each with its parameters, its captured names if it has a closure
record, and its body; then the entry block.
-/

namespace ClosureConversion

/-- A function as JSON. -/
def FunctionTree.toJson (f : FunctionTree) : Json :=
  .object ([("params", .texts f.params)] ++
    f.captures.toList.map (fun captures => ("captures", .texts captures)) ++
    [("body", f.body.toJson)])

/-- A converted program as JSON. -/
def ProgramTree.toJson (p : ProgramTree) : Json :=
  .object [("functions", .object (p.functions.map fun f => (f.1, f.2.toJson))),
    ("entry", p.entry.toJson)]

end ClosureConversion
