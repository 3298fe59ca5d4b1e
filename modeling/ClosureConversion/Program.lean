import ClosureConversion.Classification.Decision
import ClosureConversion.Ir.Listing

/-!
# Converted programs

A converted program has all its functions in one table and their captured names in another; what is
left of the arena holds no function literal. `Classification.applyTo` carries decisions out.
It works on any arena in which the decided records are what they should be, in particular on one it
has converted already.
-/

namespace ClosureConversion

/-- A function of the function table. -/
structure Function where
  params : List Name
  body : BlockId
deriving DecidableEq, Repr

/-- A converted program. -/
structure Program where
  /-- All functions, by name. -/
  functions : Table Name Function
  /-- The captured names of each function that has a closure record. -/
  closures : Table Name (List Name)
  /-- The blocks that the functions and the entry refer to. -/
  arena : Arena
deriving DecidableEq

namespace Classification

/-- Mark the calls that go through a closure record. -/
def markCalls : List RecordId → Arena → Except Fault Arena
  | [], a => .ok a
  | id :: rest, a => do
    let r ← a.requireRecord id
    match a.markIndirect? id with
    | some marked => markCalls rest marked
    | none => .error (.notApplication id r.ident r.rhs.kind)

/-- Whether a decision can be applied to a right-hand side: to a function literal, or to the closure
construction that the decision itself leaves. -/
def applies (d : Decision) : Rhs BlockId → Bool
  | .fn .. => true
  | .op (.makeClosure _ target) => target == d.name
  | _ => false

/-- Carry out a decision on its record. -/
def applyAction (a : Arena) (id : RecordId) (d : Decision) : Arena :=
  match d.action with
  | .remove => a.detach id
  | .makeClosure captures => a.setRhs id (.op (.makeClosure captures d.name))

/-- Carry out decisions in order and collect the functions. -/
def applyDecisions : List (RecordId × Decision) → Table Name Function → Arena →
    Except Fault (Table Name Function × Arena)
  | [], functions, a => .ok (functions, a)
  | (id, d) :: rest, functions, a => do
    let r ← a.requireRecord id
    if applies d r.rhs then
      applyDecisions rest (functions.insert d.name ⟨d.params, d.body⟩) (applyAction a id d)
    else .error (.notFunction id d.name r.rhs.kind)

/-- Apply a classification to an arena. -/
def applyTo (c : Classification) (a : Arena) : Except Fault Program := do
  let marked ← markCalls c.closureCalls.keys a
  let (functions, converted) ← applyDecisions c.decisions.entries ∅ marked
  return ⟨functions, c.closures, converted⟩

end Classification

namespace Program

/-- Whether a function has a closure record. -/
def isClosure (p : Program) (name : Name) : Bool := p.closures.contains name

/-- Whether two programs are the same, doubles compared by value. -/
def agrees (p q : Program) : Bool :=
  p.functions == q.functions && p.closures == q.closures && p.arena.agrees q.arena

/-- The functions with their bodies unfolded. -/
def bodies (p : Program) : Except Fault (List (Name × Function × Code)) :=
  p.functions.entries.mapM fun (name, f) => return (name, f, ← p.arena.code f.body)

/-- The lines of the listing of a program, given its unfolded bodies and entry. -/
def lines (p : Program) (bodies : List (Name × Function × Code)) (entry : Code) : List String :=
  "[closures]" :: p.closures.entries.map (fun (name, captures) =>
    name ++ " (" ++ commaList captures ++ ")") ++
  "" :: "[functions]" :: bodies.flatMap (fun (name, f, body) =>
    functionLine 0 name f.params :: body.lines 1) ++
  "" :: "[entry]" :: entry.lines 0

/-- The listing of a program: closures, functions and entry, each under its heading. -/
def listing (p : Program) : Except Fault String := do
  return unlines (p.lines (← p.bodies) (← p.arena.code Arena.entry))

end Program

/-- A function of a converted program in nested form; `captures` if it has a closure record. -/
structure FunctionTree where
  params : List Name
  captures : Option (List Name)
  body : Block
deriving DecidableEq

/-- A converted program in nested form. -/
structure ProgramTree where
  functions : List (Name × FunctionTree)
  entry : Block
deriving DecidableEq

/-- The nested form of a program. -/
def Program.toTree (p : Program) : Except Fault ProgramTree := do
  let bodies ← p.bodies
  let entry ← p.arena.code Arena.entry
  return ⟨bodies.map fun (name, f, body) =>
    (name, ⟨f.params, p.closures.get? name, body.erase⟩), entry.erase⟩

end ClosureConversion
