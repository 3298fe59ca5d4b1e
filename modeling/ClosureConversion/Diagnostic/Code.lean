/-!
# Diagnostic codes and severities

Every finding has a code: `I001` for a fault of the pass itself, `V001` to `V005` for the rules of
the verification. Codes are looked up without regard to the case of ASCII letters.
-/

namespace ClosureConversion

/-- How serious a finding is, in increasing order. -/
inductive Severity where
  | hint
  | warning
  | error
deriving DecidableEq, Repr

namespace Severity

/-- The name of a severity in reports. -/
def text : Severity → String
  | .hint => "hint"
  | .warning => "warning"
  | .error => "error"

/-- The place of a severity in their order. -/
def rank : Severity → Nat
  | .hint => 0
  | .warning => 1
  | .error => 2

instance : Ord Severity := ⟨fun a b => compare a.rank b.rank⟩

/-- The more serious of two severities. -/
def max (a b : Severity) : Severity := if compare a b = .gt then a else b

end Severity

/-- What a finding is about. -/
inductive DiagnosticCode where
  /-- The pass stopped on a fault. -/
  | internalError
  /-- A known function has free names. -/
  | knownFunctionCaptures
  /-- A capture list differs from the free names of the body. -/
  | captureMismatch
  /-- A call is direct or indirect against the rule. -/
  | indirectCallMismatch
  /-- A function literal is left. -/
  | functionSurvived
  /-- A closure record is made for a function that does not exist. -/
  | unknownClosureTarget
deriving DecidableEq, Repr

namespace DiagnosticCode

/-- All codes in the order of their numbers. -/
def all : List DiagnosticCode :=
  [.internalError, .knownFunctionCaptures, .captureMismatch, .indirectCallMismatch,
    .functionSurvived, .unknownClosureTarget]

/-- A code as it is written. -/
def text : DiagnosticCode → String
  | .internalError => "I001"
  | .knownFunctionCaptures => "V001"
  | .captureMismatch => "V002"
  | .indirectCallMismatch => "V003"
  | .functionSurvived => "V004"
  | .unknownClosureTarget => "V005"

/-- A text with its ASCII letters in upper case and everything else as it is. -/
def asciiFold (s : String) : List Char := s.toList.map Char.toUpper

/-- The code that a text stands for, ASCII case apart. -/
def parse? (s : String) : Option DiagnosticCode :=
  all.find? fun c => asciiFold c.text == asciiFold s

/-- The severity of a finding unless it is given another. -/
def defaultSeverity : DiagnosticCode → Severity
  | _ => .error

end DiagnosticCode

end ClosureConversion
