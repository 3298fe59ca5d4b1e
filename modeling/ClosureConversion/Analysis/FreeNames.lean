import ClosureConversion.Ir.Code

/-!
# Free names and reads

A name is free in a block if it is needed as a value at some point where nothing in the block has
bound it yet. An instruction binds its name for what follows it in its block and for everything
nested there; the parameters and the own name of a function literal are bound in its body; the
members of a run of consecutive literals are bound for the whole run. Calling a known function
directly needs no value. Free names come in the order in which they are first met.

They are found by a walk along the chains of records. A `Walk` carries a stack of binding frames,
one for each block it is inside of, and it is a fault to end it with a frame left open. The walk
itself guards against nothing: where a block leads back to itself it has no end.

The reads of a block are all names it reads anywhere, bound or not.
-/

namespace ClosureConversion

namespace NameSet

/-- Add the names of a list that are not bound. -/
def addFree (found : NameSet) (bound : List Name) (names : List Name) : NameSet :=
  found.insertAll (names.filter (· ∉ bound))

end NameSet

/-! ## Walks -/

/-- A walk in search of free names. -/
structure Walk where
  /-- The names bound in the blocks around, a frame for each block, the innermost first. -/
  scopes : List (List Name)
  /-- The free names met so far. -/
  found : NameSet

namespace Walk

/-- A walk of a block begins with one frame, its own. -/
def start : Walk := ⟨[[]], ∅⟩

/-- The names in scope. -/
def bound (w : Walk) : List Name := w.scopes.flatten

/-- Read names: those not in scope are free. -/
def read (w : Walk) (names : List Name) : Walk :=
  { w with found := w.found.addFree w.bound names }

/-- Bind names in the innermost frame. -/
def bind (w : Walk) (names : List Name) : Walk :=
  match w.scopes with
  | [] => w
  | frame :: outer => { w with scopes := (names ++ frame) :: outer }

/-- Walk something nested in a frame of its own. -/
def nest (w : Walk) (frame : List Name) (inner : Walk → Except Fault Walk) : Except Fault Walk := do
  let w ← inner { w with scopes := frame :: w.scopes }
  return { w with scopes := w.scopes.tail }

/-- The outcome of a walk that has come to its end: only the frame it began with may be open. -/
def finish (w : Walk) : Except Fault NameSet :=
  if w.scopes.length = 1 then .ok w.found else .error (.unbalanced (w.scopes.length - 1))

end Walk

/-- The names bound by the function literals that a chain begins with. -/
def leadingNames : List (RecordId × Record) → List Name
  | [] => []
  | (_, r) :: rest => if r.rhs.isFn then r.ident :: leadingNames rest else []

/-- Walk a chain of records, with `enter` to walk a nested block. `inRun` tells whether the walk is
inside a run of literals, whose names are bound already. -/
def walkChain (known : NameSet) (enter : BlockId → Walk → Except Fault Walk) (inRun : Bool) :
    List (RecordId × Record) → Walk → Except Fault Walk
  | [], w => .ok w
  | (_, r) :: rest, w =>
    match r.rhs with
    | .op o => walkChain known enter false rest ((w.read (o.needs known)).bind [r.ident])
    | .fn params body => do
      let w := if inRun then w else w.bind (r.ident :: leadingNames rest)
      let w ← w.nest (r.ident :: params) (enter body)
      walkChain known enter true rest (w.bind [r.ident])
    | .branch cond yes no => do
      let w ← (w.read [cond]).nest [] (enter yes)
      let w ← w.nest [] (enter no)
      walkChain known enter false rest (w.bind [r.ident])

namespace Arena

/-- Walk a block, entering at most `fuel` blocks inside one another. -/
def walkBlock (a : Arena) (known : NameSet) : Nat → BlockId → Walk → Except Fault Walk
  | 0, blk, _ => .error (.endless blk)
  | fuel + 1, blk, w => do
    let _ ← a.requireBlock blk
    walkChain known (a.walkBlock known fuel) false (a.list blk) w

/-- The free names of a chain of records. -/
def chainFreeNames (a : Arena) (known : NameSet) (l : List (RecordId × Record)) :
    Except Fault NameSet := do
  let w ← walkChain known (a.walkBlock known a.depthBound) false l .start
  w.finish

/-- The free names of what stands from a record to the end of its block. -/
def freeNamesFrom (a : Arena) (known : NameSet) (id : RecordId) : Except Fault NameSet := do
  let _ ← a.requireRecord id
  a.chainFreeNames known (a.listFrom id)

/-- The free names of a block. -/
def freeNames (a : Arena) (known : NameSet) (blk : BlockId) : Except Fault NameSet := do
  let w ← a.walkBlock known a.depthBound blk .start
  w.finish

/-- The free names of a function with the given parameters and body: its parameters are not free,
its own name may be. -/
def functionFreeNames (a : Arena) (known : NameSet) (params : List Name) (body : BlockId) :
    Except Fault NameSet :=
  return (← a.freeNames known body).eraseAll params

end Arena

/-! ## Reads -/

/-- Add everything that a chain reads to `found`; `enter` does so for a nested block. -/
def readChain (enter : BlockId → NameSet → Except Fault NameSet) :
    List (RecordId × Record) → NameSet → Except Fault NameSet
  | [], found => return found
  | (_, r) :: rest, found =>
    match r.rhs with
    | .op o => readChain enter rest (found.insertAll o.operands)
    | .fn _ body => do readChain enter rest (← enter body found)
    | .branch cond yes no => do
      let found ← enter yes (found.insert cond)
      let found ← enter no found
      readChain enter rest found

namespace Arena

/-- Add everything that a block reads to `found`, entering at most `fuel` blocks inside one another. -/
def readBlock (a : Arena) : Nat → BlockId → NameSet → Except Fault NameSet
  | 0, blk, _ => .error (.endless blk)
  | fuel + 1, blk, found => do
    let _ ← a.requireBlock blk
    readChain (a.readBlock fuel) (a.list blk) found

/-- Every name that a block reads, bound or not, in order of first reading. -/
def reads (a : Arena) (blk : BlockId) : Except Fault NameSet := a.readBlock a.depthBound blk ∅

end Arena

end ClosureConversion
