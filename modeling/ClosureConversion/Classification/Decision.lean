import ClosureConversion.Analysis.FreeNames
import ClosureConversion.Names.Table
import ClosureConversion.Text.Quoted

/-!
# Decisions

What is decided about each function literal of an arena, and the record of how it came about.

* `Standing`: a *known* function is called directly and has no environment; a *closure* carries the
  names it captures.
* `Action`: a literal is removed from its block, or replaced by the construction of a closure
  record.
* `Classification`: everything that is settled so far. It is also the state of the exploration.
* `Event`: one step of the exploration, worded for a log. `Traced` is a value with the events that
  led to it; events of abandoned assumptions stay.
-/

namespace ClosureConversion

/-- How a function is called. -/
inductive Standing where
  /-- Directly, without an environment. -/
  | known
  /-- Through a closure record. -/
  | closure
deriving DecidableEq, Repr

/-- What becomes of a function literal at the place of its definition. -/
inductive Action where
  /-- It goes: the function is not used as a value there. -/
  | remove
  /-- It is replaced by the construction of a closure record over these names. -/
  | makeClosure (captures : List Name)
deriving DecidableEq, Repr

/-- The fate of one function literal. -/
structure Decision where
  name : Name
  params : List Name
  body : BlockId
  standing : Standing
  action : Action
deriving DecidableEq, Repr

/-- Everything decided about an arena. -/
structure Classification where
  /-- The functions that can be called directly. -/
  known : NameSet
  /-- The calls that go through a closure record. -/
  closureCalls : Table RecordId Unit
  /-- The captured names of each function that needs a closure record. -/
  closures : Table Name (List Name)
  /-- For each function, the names needed from behind its definition to the end of the block. -/
  suffixes : Table Name NameSet
  /-- The decision on each literal, by its record. -/
  decisions : Table RecordId Decision
deriving DecidableEq

namespace Classification

/-- Nothing decided. -/
def empty : Classification := ⟨∅, ∅, ∅, ∅, ∅⟩

instance : Inhabited Classification := ⟨empty⟩

/-- The captured names of a function that needs a closure record. -/
def captures? (c : Classification) (name : Name) : Option (List Name) := c.closures.get? name

/-- The decision on a function; on the first literal if several bind its name. -/
def decision? (c : Classification) (name : Name) : Option Decision :=
  c.decisions.values.find? (·.name == name)

/-- How many functions were decided to be known. -/
def knownCount (c : Classification) : Nat :=
  (c.decisions.values.filter (·.standing == .known)).length

end Classification

/-- A step of the exploration. -/
inductive Event where
  /-- A call goes through a closure record. -/
  | closureCall (ident callee : Name)
  /-- A function is taken to be known for now. -/
  | assume (name : Name)
  /-- The assumption failed. -/
  | backtrack (name : Name) (free : List Name)
  /-- A function is a closure. -/
  | capture (name : Name) (captures : List Name)
  /-- A literal is decided. -/
  | decide (name : Name) (standing : Standing) (action : Action)
  /-- The whole arena is classified. -/
  | summary (functions known closures calls : Nat)
deriving DecidableEq, Repr

/-- How detailed a log is. -/
inductive LogLevel where
  | info
  | debug
  | trace
deriving DecidableEq, Repr

/-- The name of a level. -/
def LogLevel.name : LogLevel → String
  | .info => "info"
  | .debug => "debug"
  | .trace => "trace"

namespace Event

/-- The level at which an event is logged. -/
def level : Event → LogLevel
  | .closureCall .. => .trace
  | .summary .. => .info
  | _ => .debug

/-- The wording of a standing in the log. -/
def standingText : Standing → String
  | .known => "Known"
  | .closure => "Closure"

/-- The wording of an action in the log. -/
def actionText : Action → String
  | .remove => "Remove"
  | .makeClosure captures =>
    "MakeClosure([" ++ ", ".intercalate (captures.map Text.quoted) ++ "])"

/-- The wording of an event. -/
def message : Event → String
  | .closureCall ident callee => s!"'{ident}' calls closure '{callee}'"
  | .assume name => s!"assuming '{name}' is a known function"
  | .backtrack name free =>
    "'" ++ name ++ "' has free variables [" ++ ", ".intercalate free ++ "], backtracking"
  | .capture name captures =>
    "'" ++ name ++ "' is a closure capturing [" ++ ", ".intercalate captures ++ "]"
  | .decide name standing action =>
    "'" ++ name ++ "' is " ++ standingText standing ++ ", " ++ actionText action
  | .summary functions known closures calls =>
    s!"classified {functions} function(s): {known} known, {closures} closure record(s), " ++
      s!"{calls} closure call(s)"

/-- An event as a line of a log. -/
def line (e : Event) : String := e.level.name ++ " " ++ e.message

end Event

/-- A value and the events on the way to it. -/
structure Traced (α : Type) where
  val : α
  events : List Event

namespace Traced

instance : Monad Traced where
  pure a := ⟨a, []⟩
  bind x f :=
    let y := f x.val
    ⟨y.val, x.events ++ y.events⟩

/-- Note an event. -/
def tell (e : Event) : Traced Unit := ⟨(), [e]⟩

/-- A value on its own comes with no events. -/
@[simp] theorem val_pure {α : Type} (a : α) : (pure a : Traced α).val = a := rfl

/-- Only the values of two steps matter for the value of both. -/
@[simp] theorem val_bind {α β : Type} (x : Traced α) (f : α → Traced β) :
    (x >>= f).val = (f x.val).val := rfl

end Traced

end ClosureConversion
