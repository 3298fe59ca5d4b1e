import ClosureConversion.Ir.Block

/-!
# Arenas

A compiled unit lives in an arena: all instruction records of all blocks, numbered in order of
creation, and for each block its two sentinel records. A block is the chain of records from its
top sentinel to its bottom sentinel along the links `next`; block `0` is the entry. Records are
never freed: a detached one stays in the arena with both links cleared.

Every operation is total. On an id outside the arena it changes nothing; `record?` and `bounds?`
tell whether an id is inside.

Ids are natural numbers here. Where they are kept in 32 bits, as in a compiled program, this stands
for arenas of fewer than `2 ^ 32` records: in a larger one ids would be cut off and records would
share them.
-/

namespace ClosureConversion

/-- The number of a record; not bounded by a width. -/
abbrev RecordId := Nat

/-- The number of a block; not bounded by a width. -/
abbrev BlockId := Nat

/-- An instruction with its links to its neighbours. -/
structure Record where
  ident : Name
  rhs : Rhs BlockId
  prev : Option RecordId
  next : Option RecordId
deriving DecidableEq, Repr

/-- The two sentinels that delimit a block. -/
structure Bounds where
  top : RecordId
  bottom : RecordId
deriving DecidableEq, Repr

/-- All records and blocks of a compiled unit. -/
structure Arena where
  records : Array Record
  blocks : Array Bounds
deriving DecidableEq, Repr

namespace Arena

/-- The block a program starts with. -/
def entry : BlockId := 0

/-- The record with a given number. -/
def record? (a : Arena) (id : RecordId) : Option Record := a.records[id]?

/-- The sentinels of a block. -/
def bounds? (a : Arena) (blk : BlockId) : Option Bounds := a.blocks[blk]?

/-- Change one record. -/
def modify (a : Arena) (id : RecordId) (f : Record → Record) : Arena :=
  { a with records := a.records.modify id f }

/-- Add an empty block: its sentinels are the next two records, linked to each other. -/
def newBlock (a : Arena) : Arena :=
  let top := a.records.size
  { records := (a.records.push ⟨"", .op .nop, none, some (top + 1)⟩).push
      ⟨"", .op .nop, some top, none⟩
    blocks := a.blocks.push ⟨top, top + 1⟩ }

/-- The arena with nothing but an empty entry block. -/
def empty : Arena := newBlock ⟨#[], #[]⟩

instance : Inhabited Arena := ⟨empty⟩

/-- Append an instruction to a block: the new record, whose number is the number of records so far,
goes between the bottom sentinel and the record before it. -/
def push (a : Arena) (blk : BlockId) (ident : Name) (rhs : Rhs BlockId) : Arena :=
  match a.bounds? blk with
  | none => a
  | some b =>
    let id := a.records.size
    let last := (a.record? b.bottom).bind (·.prev)
    let grown : Arena := { a with records := a.records.push ⟨ident, rhs, last, some b.bottom⟩ }
    let linked := match last with
      | some l => grown.modify l ({ · with next := some id })
      | none => grown
    linked.modify b.bottom ({ · with prev := some id })

/-- Whether a record is linked to nothing. -/
def isDetached (a : Arena) (id : RecordId) : Bool :=
  match a.record? id with
  | some r => r.prev.isNone && r.next.isNone
  | none => false

/-- Take a record out of its chain: its neighbours are joined and its own links cleared. -/
def detach (a : Arena) (id : RecordId) : Arena :=
  match a.record? id with
  | none => a
  | some r =>
    let a := match r.prev with
      | some p => a.modify p ({ · with next := r.next })
      | none => a
    let a := match r.next with
      | some n => a.modify n ({ · with prev := r.prev })
      | none => a
    a.modify id ({ · with prev := none, next := none })

/-- Give a record another right-hand side; its name and place stay. -/
def setRhs (a : Arena) (id : RecordId) (rhs : Rhs BlockId) : Arena :=
  a.modify id ({ · with rhs := rhs })

/-- The arena with a record marked as an indirect call, if that record is a call. -/
def markIndirect? (a : Arena) (id : RecordId) : Option Arena :=
  ((a.record? id).bind (·.rhs.indirect?)).map (a.setRhs id)

/-- The first record behind the top sentinel of a block; the bottom sentinel if there is none. -/
def first? (a : Arena) (blk : BlockId) : Option RecordId := do
  let b ← a.bounds? blk
  return ((← a.record? b.top).next).getD b.bottom

/-- The records from `id` on that have a successor, at most `fuel` of them. -/
def chain (a : Arena) : Nat → RecordId → List (RecordId × Record)
  | 0, _ => []
  | fuel + 1, id =>
    match a.record? id with
    | none => []
    | some r =>
      match r.next with
      | none => []
      | some next => (id, r) :: a.chain fuel next

/-- The instructions from a record to the end of its block. No chain is longer than the arena. -/
def listFrom (a : Arena) (id : RecordId) : List (RecordId × Record) := a.chain a.records.size id

/-- The instructions of a block. -/
def list (a : Arena) (blk : BlockId) : List (RecordId × Record) :=
  match a.first? blk with
  | some id => a.listFrom id
  | none => []

/-- The run of consecutive function literals that starts at a record. -/
def runFrom (a : Arena) (id : RecordId) : List (RecordId × Record) :=
  (a.listFrom id).takeWhile (·.2.rhs.isFn)

/-- The number of blocks. -/
def numBlocks (a : Arena) : Nat := a.blocks.size

/-- Whether two arenas are the same record by record, doubles compared by value. -/
def agrees (a b : Arena) : Bool :=
  a.blocks == b.blocks && a.records.size == b.records.size &&
    (a.records.toList.zip b.records.toList).all fun (r, s) =>
      r.ident == s.ident && r.rhs.agrees s.rhs && r.prev == s.prev && r.next == s.next

end Arena

end ClosureConversion
