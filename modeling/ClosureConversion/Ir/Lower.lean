import ClosureConversion.Ir.Arena

/-!
# Lowering into an arena

Two ways to bring a nested program into an arena, which differ in the numbers they give out.
`Arena.lower` fills the blocks of an instruction before it appends the instruction itself.
A `Script` appends the instruction as soon as its blocks exist and fills them afterwards; it may
also contain ready nested blocks, which are lowered in place.
-/

namespace ClosureConversion

namespace Arena

/-- Append a nested block to a block of the arena, inner blocks first. -/
def lower (a : Arena) (blk : BlockId) : Block → Arena
  | .done => a
  | .op ident o rest => (a.push blk ident (.op o)).lower blk rest
  | .fn ident params body rest =>
    let inner := a.numBlocks
    let filled := a.newBlock.lower inner body
    (filled.push blk ident (.fn params inner)).lower blk rest
  | .branch ident cond yes no rest =>
    let first := a.numBlocks
    let filled := a.newBlock.lower first yes
    let second := filled.numBlocks
    let filled := filled.newBlock.lower second no
    (filled.push blk ident (.branch cond first second)).lower blk rest

/-- The arena whose entry block holds a nested program. -/
def ofBlock (b : Block) : Arena := empty.lower entry b

end Arena

/-- A sequence of building steps. -/
inductive Script where
  | done
  /-- Append an instruction. -/
  | emit (ident : Name) (rhs : Rhs BlockId) (rest : Script)
  /-- Append a function literal, then fill its body. -/
  | fn (ident : Name) (params : List Name) (body rest : Script)
  /-- Append a conditional, then fill its two blocks. -/
  | branch (ident cond : Name) (yes no rest : Script)
  /-- Lower a nested block in place. -/
  | lower (b : Block) (rest : Script)

namespace Script

/-- Run the steps on a block of an arena. The numbers of the appended records are listed with those
of nested steps before that of their instruction. -/
def run (a : Arena) (blk : BlockId) : Script → Arena × List RecordId
  | .done => (a, [])
  | .emit ident rhs rest =>
    let id := a.records.size
    let (a, ids) := run (a.push blk ident rhs) blk rest
    (a, id :: ids)
  | .fn ident params body rest =>
    let inner := a.numBlocks
    let a := a.newBlock
    let id := a.records.size
    let (a, within) := run (a.push blk ident (.fn params inner)) inner body
    let (a, ids) := run a blk rest
    (a, within ++ id :: ids)
  | .branch ident cond yes no rest =>
    let first := a.numBlocks
    let a := a.newBlock.newBlock
    let id := a.records.size
    let (a, within) := run (a.push blk ident (.branch cond first (first + 1))) first yes
    let (a, within') := run a (first + 1) no
    let (a, ids) := run a blk rest
    (a, within ++ within' ++ id :: ids)
  | .lower b rest => run (a.lower blk b) blk rest

/-- The steps that issue a nested block instruction by instruction. -/
def ofBlock : Block → Script
  | .done => .done
  | .op ident o rest => .emit ident (.op o) (ofBlock rest)
  | .fn ident params body rest => .fn ident params (ofBlock body) (ofBlock rest)
  | .branch ident cond yes no rest =>
    .branch ident cond (ofBlock yes) (ofBlock no) (ofBlock rest)

end Script

end ClosureConversion
