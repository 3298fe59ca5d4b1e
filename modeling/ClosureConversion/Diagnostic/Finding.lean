import ClosureConversion.Diagnostic.Report
import ClosureConversion.Verification

/-!
# Diagnostics of violations and faults

Which code a violation or a fault is reported under, and what helps against it.
-/

namespace ClosureConversion

/-- The code of a violation. -/
def Violation.code : Violation → DiagnosticCode
  | .knownCaptures .. => .knownFunctionCaptures
  | .missingCapture .. => .captureMismatch
  | .spuriousCapture .. => .captureMismatch
  | .indirectMismatch .. => .indirectCallMismatch
  | .functionSurvived _ => .functionSurvived
  | .unknownTarget _ => .unknownClosureTarget

/-- The rule behind a code. -/
def DiagnosticCode.rule : DiagnosticCode → String
  | .internalError => "the input violates an IR invariant or the pass has a defect"
  | .knownFunctionCaptures => "known functions are called directly and have no environment"
  | .captureMismatch => "a closure captures exactly the free variables of its body"
  | .indirectCallMismatch => "calls are indirect exactly when the callee is not a known function"
  | .functionSurvived => "every function literal is moved to the top level"
  | .unknownClosureTarget => "closure construction must name a top-level function"

namespace Diagnostic

/-- A finding in a file, with its default severity and the rule of its code as advice. -/
def found (code : DiagnosticCode) (message file : String) : Diagnostic :=
  ((plain code code.defaultSeverity message).withFile file).withHelp code.rule

/-- A violation as a finding. -/
def ofViolation (v : Violation) (file : String) : Diagnostic :=
  (found v.code v.message file).withSubject v.subject

/-- A fault as a finding. -/
def ofFault (f : Fault) (file : String) : Diagnostic :=
  { found .internalError f.message file with subject := f.subject? }

end Diagnostic

end ClosureConversion
