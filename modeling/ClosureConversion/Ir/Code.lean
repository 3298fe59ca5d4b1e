import ClosureConversion.Fault

/-!
# Code: blocks of an arena unfolded

`Code` is a block of an arena with everything nested in it, each instruction with the number of its
record and each nested block with its own. Analyses run on code by recursion over the type; only
`Arena.code` follows ids.

Unfolding enters blocks in the order of their instructions. A function literal whose body is
already being unfolded is a fault, reported for the first such literal in that order. Blocks that
lead back to themselves through conditionals alone have no finite unfolding and are a fault of
their own.
-/

namespace ClosureConversion

/-- A block of an arena, unfolded. -/
inductive Code where
  | done
  | op (id : RecordId) (ident : Name) (o : Operation) (rest : Code)
  | fn (id : RecordId) (ident : Name) (params : List Name) (blk : BlockId) (body rest : Code)
  | branch (id : RecordId) (ident cond : Name) (yesBlk noBlk : BlockId) (yes no rest : Code)
deriving DecidableEq, Repr

namespace Code

instance : Inhabited Code := ⟨done⟩

/-- The nested block that code was unfolded from, numbers forgotten. -/
def erase : Code → Block
  | .done => .done
  | .op _ ident o rest => .op ident o rest.erase
  | .fn _ ident params _ body rest => .fn ident params body.erase rest.erase
  | .branch _ ident cond _ _ yes no rest => .branch ident cond yes.erase no.erase rest.erase

/-- The names bound by the function literals that code begins with. -/
def runNames : Code → List Name
  | .fn _ ident _ _ _ rest => ident :: rest.runNames
  | _ => []

/-- Put the records of a chain together, with `body` and `branch` to unfold what they nest. -/
def assemble (body : Name → BlockId → Except Fault Code) (branch : BlockId → Except Fault Code) :
    List (RecordId × Record) → Except Fault Code
  | [] => .ok .done
  | (id, r) :: rest =>
    match r.rhs with
    | .op o => do
      let rest ← assemble body branch rest
      return .op id r.ident o rest
    | .fn params blk => do
      let inner ← body r.ident blk
      let rest ← assemble body branch rest
      return .fn id r.ident params blk inner rest
    | .branch cond yesBlk noBlk => do
      let yes ← branch yesBlk
      let no ← branch noBlk
      let rest ← assemble body branch rest
      return .branch id r.ident cond yesBlk noBlk yes no rest

end Code

/-- Enter the body of a function literal with `unfold`, unless it is one of the bodies around. -/
def Code.enterBody (unfold : List BlockId → BlockId → Except Fault Code) (active : List BlockId)
    (ident : Name) (blk : BlockId) : Except Fault Code :=
  if blk ∈ active then .error (.cyclicBody ident blk) else unfold (blk :: active) blk

namespace Arena

/-- Unfold a block, entering at most `fuel` blocks inside one another. `active` are the bodies of
the function literals around it. -/
def unfold (a : Arena) : Nat → List BlockId → BlockId → Except Fault Code
  | 0, _, blk => .error (.endless blk)
  | fuel + 1, active, blk => do
    let _ ← a.requireBlock blk
    Code.assemble (Code.enterBody (a.unfold fuel) active) (a.unfold fuel active) (a.list blk)

/-- How deep unfolding can get: along a path without faults no body is entered twice, and between
two bodies no block is. -/
def depthBound (a : Arena) : Nat := (a.numBlocks + 1) * (a.numBlocks + 1)

/-- A block with everything nested in it. -/
def code (a : Arena) (blk : BlockId) : Except Fault Code := a.unfold a.depthBound [] blk

/-- The instructions from a record to the end of its block, with everything nested in them. -/
def codeFrom (a : Arena) (id : RecordId) : Except Fault Code := do
  let _ ← a.requireRecord id
  Code.assemble (Code.enterBody (a.unfold a.depthBound) []) (a.unfold a.depthBound [])
    (a.listFrom id)

end Arena

end ClosureConversion
