import ClosureConversion.Classification.Decision

/-!
# Exploration

Whether a function is known depends on its body, and its body on whether it is known: a call of a
known function needs no value, a call of a closure does. So a run of consecutive function literals
is settled as follows.

* Assume that all its members are known and explore their bodies under that assumption. The members
  that have free names then are dropped, and the rest is assumed anew from the state before the
  run, until an assumption holds for all its members (`Arena.settle`).
* The members left out are closures: their bodies are explored once more, and what is free in them,
  their own name apart, is captured (`Arena.closeOver`).

When the whole block is explored, each literal in it is decided (`Arena.decideAll`): it stays, as
the construction of a closure record, exactly if its name is needed as a value behind it or in an
earlier member of its run.

An `Explorer` keeps the stack of the bodies it is inside of. To enter one of them again is a fault,
and so is to end the exploration inside a body. Only bodies are guarded in this way: conditionals
that lead back to their own block are followed until the depth is used up.
-/

namespace ClosureConversion

/-- A function literal of an arena. -/
structure Arena.Literal where
  id : RecordId
  ident : Name
  params : List Name
  blk : BlockId

/-! ## Explorers -/

/-- What an exploration carries along. -/
structure Journey where
  /-- The bodies being explored, each with the name of its literal, the innermost first. -/
  active : List (Name × BlockId)
  /-- The events so far, the latest first. -/
  events : List Event

/-- An exploration in progress: it may fail, and it keeps a `Journey`. -/
abbrev Explorer := StateT Journey (Except Fault)

namespace Explorer

variable {α : Type}

/-- Take a step that enters no body. -/
def lift (t : Traced α) : Explorer α := do
  modify fun j => { j with events := t.events.reverse ++ j.events }
  return t.val

/-- Explore the body of a function literal, unless it is being explored already. -/
def within (ident : Name) (blk : BlockId) (inner : Explorer α) : Explorer α := do
  if blk ∈ (← get).active.map (·.2) then throw (.cyclicBody ident blk)
  modify fun j => { j with active := (ident, blk) :: j.active }
  let result ← inner
  modify fun j => { j with active := j.active.tail }
  return result

/-- Insist that no body is being explored any more. -/
def finish : Explorer Unit := do
  match (← get).active with
  | [] => return
  | (ident, _) :: outer => throw (.unfinished ident (outer.length + 1))

end Explorer

/-! ## Steps without failure -/

/-- A step of the exploration that enters no body. -/
abbrev Exploration := Classification → Traced Classification

namespace Classification

/-- Explore a flat instruction: a call of a function that is not known goes through a closure. -/
def visit (id : RecordId) (ident : Name) (o : Operation) : Exploration := fun c =>
  match o with
  | .app callee _ _ =>
    if callee ∈ c.known then pure c
    else do
      Traced.tell (.closureCall ident callee)
      return { c with closureCalls := c.closureCalls.insert id () }
  | _ => pure c

/-- Take functions to be known. -/
def supposing (c : Classification) (names : List Name) : Classification :=
  { c with known := c.known.insertAll names }

/-- Make a closure of a function. -/
def close (name : Name) (captures : List Name) : Exploration := fun c => do
  Traced.tell (.capture name captures)
  return { c with closures := c.closures.insert name captures }

/-- Decide a literal, given the names needed behind it. A function that is used as a value needs a
closure record even if it captures nothing. -/
def conclude (m : Arena.Literal) (suffix : NameSet) : Exploration := fun c => do
  let standing := if m.ident ∈ c.known then Standing.known else .closure
  let captures := (c.closures.get? m.ident).getD []
  let (action, closures) :=
    if m.ident ∈ suffix then (Action.makeClosure captures, c.closures.insert m.ident captures)
    else (.remove, c.closures)
  Traced.tell (.decide m.ident standing action)
  return { c with
    closures := closures
    suffixes := c.suffixes.insert m.ident suffix
    decisions := c.decisions.insert m.id ⟨m.ident, m.params, m.blk, standing, action⟩ }

end Classification

namespace Arena

/-- The run of literals that a chain begins with. -/
def leading : List (RecordId × Record) → List Literal
  | [] => []
  | (id, r) :: rest =>
    match r.rhs with
    | .fn params blk => ⟨id, r.ident, params, blk⟩ :: leading rest
    | _ => []

/-- The candidates whose names were not rejected. -/
def spared (candidates : List Literal) (rejected : List Name) : List Literal :=
  candidates.filter (·.ident ∉ rejected)

/-! ## Settling a run

`enter` explores a nested block. -/

section Runs

variable (a : Arena) (enter : BlockId → Classification → Explorer Classification)

/-- Explore the bodies of candidates one after the other and collect the names of those that turn
out to have free names. -/
def tryAll : List Literal → Classification → Explorer (Classification × List Name)
  | [], c => pure (c, [])
  | m :: rest, c => do
    Explorer.lift (Traced.tell (.assume m.ident))
    let c ← Explorer.within m.ident m.blk (enter m.blk c)
    let free ← a.functionFreeNames c.known m.params m.blk
    if free.isEmpty then tryAll rest c
    else do
      Explorer.lift (Traced.tell (.backtrack m.ident free.toList))
      let (c, rejected) ← tryAll rest c
      return (c, m.ident :: rejected)

/-- Assume candidates to be known; as long as some fail, drop those and start over. -/
def settle (candidates : List Literal) (c : Classification) : Explorer Classification := do
  let (explored, rejected) ←
    a.tryAll enter candidates (c.supposing (candidates.map (·.ident)))
  -- rejected names are names of candidates, so some are dropped unless none was rejected
  if (spared candidates rejected).length < candidates.length then
    settle (spared candidates rejected) c
  else return explored
termination_by candidates.length

/-- Make closures of the members that are not known. -/
def closeOver : List Literal → Classification → Explorer Classification
  | [], c => pure c
  | m :: rest, c => do
    if m.ident ∈ c.known then closeOver rest c
    else do
      let c ← Explorer.within m.ident m.blk (enter m.blk c)
      let free ← a.functionFreeNames c.known m.params m.blk
      closeOver rest (← Explorer.lift (c.close m.ident (free.erase m.ident).toList))

/-- Classify the members of a run. Without `optimize` none of them is tried as known. -/
def classifyRun (optimize : Bool) (run : List Literal) (c : Classification) :
    Explorer Classification := do
  a.closeOver enter run (← a.settle enter (if optimize then run else []) c)

end Runs

/-! ## Deciding the literals of a block -/

/-- The names needed behind a literal, with its own name added if an earlier member of the run needs
it; `behind` is what follows the literal in its block. -/
def suffixNames (a : Arena) (known : NameSet) (earlier : List Literal) (ident : Name)
    (behind : List (RecordId × Record)) : Except Fault NameSet := do
  let free ← a.chainFreeNames known behind
  earlier.foldlM (fun names e => do
    let needed ← a.functionFreeNames known e.params e.blk
    return if ident ∈ needed then names.insert ident else names) free

/-- Decide the literals of a chain; `earlier` are the members of the run so far. -/
def decideAll (a : Arena) (earlier : List Literal) :
    List (RecordId × Record) → Classification → Explorer Classification
  | [], c => pure c
  | (id, r) :: rest, c =>
    match r.rhs with
    | .fn params blk => do
      let m : Literal := ⟨id, r.ident, params, blk⟩
      let suffix ← a.suffixNames c.known earlier r.ident rest
      a.decideAll (earlier ++ [m]) rest (← Explorer.lift (c.conclude m suffix))
    | _ => a.decideAll [] rest c

/-! ## Exploring blocks -/

/-- Explore a chain of records. `inRun` tells whether the chain continues a run of literals, which is
classified already. -/
def exploreChain (a : Arena) (optimize : Bool)
    (enter : BlockId → Classification → Explorer Classification) (inRun : Bool) :
    List (RecordId × Record) → Classification → Explorer Classification
  | [], c => pure c
  | (id, r) :: rest, c =>
    match r.rhs with
    | .op o => do
      a.exploreChain optimize enter false rest (← Explorer.lift (c.visit id r.ident o))
    | .fn params blk => do
      let c ← if inRun then pure c
        else a.classifyRun enter optimize (⟨id, r.ident, params, blk⟩ :: leading rest) c
      a.exploreChain optimize enter true rest c
    | .branch _ yes no => do
      let c ← enter yes c
      let c ← enter no c
      a.exploreChain optimize enter false rest c

/-- Explore a block, entering at most `fuel` blocks inside one another, then decide its literals. -/
def exploreBlock (a : Arena) (optimize : Bool) :
    Nat → BlockId → Classification → Explorer Classification
  | 0, blk, _ => throw (.endless blk)
  | fuel + 1, blk, c => do
    let _ ← a.requireBlock blk
    let c ← a.exploreChain optimize (a.exploreBlock optimize fuel) false (a.list blk) c
    a.decideAll [] (a.list blk) c

/-- Explore an arena from its entry on. -/
def explore (a : Arena) (optimize : Bool) : Explorer Classification := do
  let c ← a.exploreBlock optimize a.depthBound entry .empty
  Explorer.finish
  Explorer.lift (Traced.tell
    (.summary c.decisions.size c.known.size c.closures.size c.closureCalls.size))
  return c

/-- Classify every function literal of an arena, with the events on the way. -/
def classifyTraced (a : Arena) (optimize : Bool) : Except Fault (Traced Classification) := do
  let (c, journey) ← (a.explore optimize).run ⟨[], []⟩
  return ⟨c, journey.events.reverse⟩

/-- Classify every function literal of an arena. -/
def classify (a : Arena) (optimize : Bool) : Except Fault Classification :=
  return (← a.classifyTraced optimize).val

end Arena

end ClosureConversion
