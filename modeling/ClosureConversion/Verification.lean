import ClosureConversion.Program

/-!
# Verification

Decisions are checked against the arena they were made for, and a converted program against the
decisions. Nothing is assumed about either: a violation is reported wherever a rule is broken.

* A known function has no free names.
* A closure captures exactly the free names of its body, its own name apart.
* No function literal is left in the program; closure records are made for functions of the table;
  a call is indirect exactly if its callee is not known.
-/

namespace ClosureConversion

/-- A broken rule. -/
inductive Violation where
  /-- A known function has free names. -/
  | knownCaptures (name : Name) (free : List Name)
  /-- A closure lacks a name that its body needs. -/
  | missingCapture (name : Name) (missing : List Name)
  /-- A closure captures a name that its body does not need. -/
  | spuriousCapture (name : Name) (spurious : List Name)
  /-- A call is direct and should be indirect, or the other way round. -/
  | indirectMismatch (id : RecordId) (callee : Name) (indirect : Bool)
  /-- A function literal is left. -/
  | functionSurvived (name : Name)
  /-- A closure record is made for a function that does not exist. -/
  | unknownTarget (name : Name)
deriving DecidableEq, Repr

namespace Violation

/-- The name a violation is about. -/
def subject : Violation → Name
  | .knownCaptures name _ => name
  | .missingCapture name _ => name
  | .spuriousCapture name _ => name
  | .indirectMismatch _ callee _ => callee
  | .functionSurvived name => name
  | .unknownTarget name => name

/-- The wording of a violation. -/
def message : Violation → String
  | .knownCaptures name free =>
    "known function '" ++ name ++ "' has free variables: " ++ commaList free
  | .missingCapture name missing =>
    "closure '" ++ name ++ "' does not capture " ++ commaList missing
  | .spuriousCapture name spurious =>
    "closure '" ++ name ++ "' captures " ++ commaList spurious ++ " which is not free in its body"
  | .indirectMismatch id callee indirect =>
    if indirect then s!"call of known function '{callee}' (insn {id}) is indirect"
    else s!"call of closure '{callee}' (insn {id}) is direct"
  | .functionSurvived name => s!"function literal '{name}' survived the rewrite"
  | .unknownTarget name => s!"closure construction of unknown function '{name}'"

end Violation

namespace Classification

/-- Check the decision on a closure, given the free names and the reads of its body. -/
def checkClosure (captures : List Name) (d : Decision) (free reads : NameSet) : List Violation :=
  let missing := free.toList.filter fun n => n ≠ d.name ∧ n ∉ captures
  let spurious := captures.filter fun n => n ∉ free ∨ n ∉ reads ∨ n ∈ d.params
  (if missing = [] then [] else [.missingCapture d.name missing]) ++
    (if spurious = [] then [] else [.spuriousCapture d.name spurious])

/-- Check one decision against the arena it was made for. -/
def checkDecision (c : Classification) (source : Arena) (d : Decision) :
    Except Fault (List Violation) := do
  let free ← source.functionFreeNames c.known d.params d.body
  match d.standing with
  | .known => return if free.isEmpty then [] else [.knownCaptures d.name free.toList]
  | .closure =>
    return checkClosure ((c.captures? d.name).getD []) d free (← source.reads d.body)

/-- Check all decisions against the arena they were made for. -/
def checkDecisions (c : Classification) (source : Arena) : Except Fault (List Violation) := do
  let checked ← c.decisions.values.mapM (c.checkDecision source)
  return checked.flatten

end Classification

/-- The instructions of a block and of the blocks that its conditionals lead to, nested ones behind
their conditional. Bodies of function literals are not entered. -/
def Arena.branchList (a : Arena) : Nat → BlockId → Except Fault (List (RecordId × Record))
  | 0, blk => .error (.endless blk)
  | fuel + 1, blk => do
    let _ ← a.requireBlock blk
    let reached ← (a.list blk).mapM fun (id, r) =>
      match r.rhs with
      | .branch _ yes no => do
        return (id, r) :: (← a.branchList fuel yes) ++ (← a.branchList fuel no)
      | _ => return [(id, r)]
    return reached.flatten

namespace Program

/-- Check one instruction of a converted program. -/
def checkRecord (p : Program) (known : NameSet) (id : RecordId) (r : Record) : List Violation :=
  match r.rhs with
  | .fn .. => [.functionSurvived r.ident]
  | .op (.makeClosure _ target) =>
    if p.functions.contains target then [] else [.unknownTarget target]
  | .op (.app callee _ indirect) =>
    if indirect = known.contains callee then [.indirectMismatch id callee indirect] else []
  | _ => []

/-- Check a block of a converted program. -/
def checkBlock (p : Program) (known : NameSet) (blk : BlockId) : Except Fault (List Violation) := do
  let reached ← p.arena.branchList (p.arena.numBlocks + 1) blk
  return reached.flatMap fun (id, r) => p.checkRecord known id r

end Program

/-- Check a classification against its source arena and a converted program against the
classification. -/
def verify (source : Arena) (c : Classification) (p : Program) : Except Fault (List Violation) := do
  let decisions ← c.checkDecisions source
  let entry ← p.checkBlock c.known Arena.entry
  let bodies ← p.functions.values.mapM fun f => p.checkBlock c.known f.body
  return decisions ++ entry ++ bodies.flatten

end ClosureConversion
