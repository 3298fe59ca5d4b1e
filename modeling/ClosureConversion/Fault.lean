import ClosureConversion.Ir.Arena

/-!
# Faults

What can go wrong inside the pass. None of these is an error of a user: either an arena breaks a
promise (an id that leads nowhere, a body nested in itself), or decisions meet an arena that they
were not made for. A fault is a cause; `Fault.message` is its only wording.
-/

namespace ClosureConversion

/-- Why a pass over an arena stops. -/
inductive Fault where
  /-- An id that lies outside the arena. -/
  | dangling (id : Nat)
  /-- A block that conditionals lead back to without end. -/
  | endless (block : BlockId)
  /-- A decided function literal is something else now. -/
  | notFunction (id : RecordId) (ident : Name) (found : String)
  /-- A call through a closure is no call now. -/
  | notApplication (id : RecordId) (ident : Name) (found : String)
  /-- A function body is entered while it is being explored. -/
  | cyclicBody (ident : Name) (block : BlockId)
  /-- Explorations were begun and not ended. -/
  | unfinished (ident : Name) (count : Nat)
  /-- Binding frames were opened and not closed. -/
  | unbalanced (frames : Nat)
deriving DecidableEq, Repr

namespace Fault

/-- The wording of a fault. -/
def message : Fault → String
  | .dangling id => s!"id {id} lies outside the arena"
  | .endless block => s!"conditionals lead back to block {block} without end"
  | .notFunction id ident found =>
    s!"replaced function '{ident}' (insn {id}) is actually not a function: found {found}"
  | .notApplication id ident found =>
    s!"closure call '{ident}' (insn {id}) is actually not an application: found {found}"
  | .cyclicBody ident block =>
    s!"body of function '{ident}' (block {block}) is entered while it is being explored"
  | .unfinished ident count =>
    s!"{count} function body exploration(s) left open, innermost '{ident}'"
  | .unbalanced frames => s!"free variable walk left {frames} binding frame(s) open"

/-- The name a fault is about, if it is about one. -/
def subject? : Fault → Option Name
  | .notFunction _ ident _ => some ident
  | .notApplication _ ident _ => some ident
  | .cyclicBody ident _ => some ident
  | .unfinished ident _ => some ident
  | .dangling _ | .endless _ | .unbalanced _ => none

end Fault

namespace Arena

/-- Insist that a record exists. -/
def requireRecord (a : Arena) (id : RecordId) : Except Fault Record :=
  match a.record? id with
  | some r => .ok r
  | none => .error (.dangling id)

/-- Insist that a block exists. -/
def requireBlock (a : Arena) (blk : BlockId) : Except Fault Bounds :=
  match a.bounds? blk with
  | some b => .ok b
  | none => .error (.dangling blk)

end Arena

end ClosureConversion
