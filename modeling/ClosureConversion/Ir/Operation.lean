import ClosureConversion.Names.NameSet
import ClosureConversion.Number.Binary64

/-!
# Operations and right-hand sides

An instruction binds a name to a right-hand side. Most right-hand sides are flat: an `Operation`
on names. Two hold nested blocks: a function literal and a conditional. `Rhs β` leaves open how a
nested block is given, so the same definitions serve nested programs and arenas.

Floating point constants are finite doubles. A program that is read has no others, but one that is
put together by calls may hold an infinity or a NaN; such programs are not represented.
-/

namespace ClosureConversion

/-- Operators on one value. -/
inductive UnaryOp where
  | neg
  | fneg
  | not
deriving DecidableEq, Repr

/-- Operators on two values. -/
inductive BinaryOp where
  | add
  | sub
  | mul
  | div
  | mod
  | fadd
  | fsub
  | fmul
  | fdiv
  | eq
  | neq
  | lt
  | lte
  | gt
  | gte
  | and
  | or
deriving DecidableEq, Repr

/-- A right-hand side without nested blocks. -/
inductive Operation where
  | nop
  | unit
  | bool (b : Bool)
  | int (i : Int64)
  /-- A floating point constant; it is finite. -/
  | float (x : Binary64)
  | str (s : String)
  | unary (op : UnaryOp) (child : Name)
  | binary (op : BinaryOp) (lhs rhs : Name)
  | ref (of : Name)
  /-- A call; `indirect` if it goes through a closure record. -/
  | app (callee : Name) (args : List Name) (indirect : Bool)
  | tuple (items : List Name)
  | tupleLoad (source : Name) (index : UInt64)
  | array (size item : Name)
  | arrayOf (items : List Name)
  | arrayLoad (source index : Name)
  | arrayStore (target index value : Name)
  | arrayLength (of : Name)
  | makeSome (of : Name)
  | makeNone
  | isSome (of : Name)
  | derefSome (of : Name)
  /-- An external symbol. -/
  | external (symbol : String)
  /-- A call of an external symbol. -/
  | externalCall (symbol : String) (args : List Name)
  /-- Construction of a closure record for a function of the function table. -/
  | makeClosure (captures : List Name) (target : Name)
deriving DecidableEq, Repr

/-- What an instruction binds its name to; `β` is a nested block. -/
inductive Rhs (β : Type) where
  | op (o : Operation)
  /-- A function literal. -/
  | fn (params : List Name) (body : β)
  /-- A conditional. -/
  | branch (cond : Name) (yes no : β)
deriving DecidableEq, Repr

/-- The name of a unary operator in a listing. -/
def UnaryOp.mnemonic : UnaryOp → String
  | .neg => "neg"
  | .fneg => "fneg"
  | .not => "not"

/-- The name of a binary operator in a listing. -/
def BinaryOp.mnemonic : BinaryOp → String
  | .add => "add"
  | .sub => "sub"
  | .mul => "mul"
  | .div => "div"
  | .mod => "mod"
  | .fadd => "fadd"
  | .fsub => "fsub"
  | .fmul => "fmul"
  | .fdiv => "fdiv"
  | .eq => "eq"
  | .neq => "neq"
  | .lt => "lt"
  | .lte => "lte"
  | .gt => "gt"
  | .gte => "gte"
  | .and => "and"
  | .or => "or"

namespace Operation

/-- The names an operation reads, in order. External symbols and the target of a closure
construction are not read. -/
def operands : Operation → List Name
  | .unary _ child => [child]
  | .binary _ lhs rhs => [lhs, rhs]
  | .ref of => [of]
  | .app callee args _ => callee :: args
  | .tuple items => items
  | .tupleLoad source _ => [source]
  | .array size item => [size, item]
  | .arrayOf items => items
  | .arrayLoad source index => [source, index]
  | .arrayStore target index value => [target, index, value]
  | .arrayLength of => [of]
  | .makeSome of => [of]
  | .isSome of => [of]
  | .derefSome of => [of]
  | .externalCall _ args => args
  | .makeClosure captures _ => captures
  | .nop | .unit | .bool _ | .int _ | .float _ | .str _ | .makeNone | .external _ => []

/-- The names an operation needs as values when `known` names can be called directly: all it
reads, but not the callee of a direct call. -/
def needs (known : NameSet) : Operation → List Name
  | .app callee args _ => if callee ∈ known then args else callee :: args
  | o => o.operands

/-- The kind of an operation in one word. -/
def kind : Operation → String
  | .nop => "nop"
  | .unit => "unit"
  | .bool _ => "bool"
  | .int _ => "int"
  | .float _ => "float"
  | .str _ => "string"
  | .unary .. => "unary"
  | .binary .. => "binary"
  | .ref _ => "ref"
  | .app .. => "app"
  | .tuple _ => "tuple"
  | .tupleLoad .. => "tplload"
  | .array .. => "array"
  | .arrayOf _ => "arrlit"
  | .arrayLoad .. => "arrload"
  | .arrayStore .. => "arrstore"
  | .arrayLength _ => "arrlen"
  | .makeSome _ => "some"
  | .makeNone => "none"
  | .isSome _ => "issome"
  | .derefSome _ => "derefsome"
  | .external _ => "xref"
  | .externalCall .. => "extcall"
  | .makeClosure .. => "makecls"

/-- Whether two operations are the same, doubles compared by value: the two zeros agree. -/
def agrees : Operation → Operation → Bool
  | .float x, .float y => x.sameValue y
  | a, b => decide (a = b)

end Operation

namespace Rhs

variable {β : Type}

/-- The kind of a right-hand side in one word. -/
def kind : Rhs β → String
  | .op o => o.kind
  | .fn .. => "fun"
  | .branch .. => "if"

/-- The names a right-hand side reads itself, nested blocks apart. -/
def operands : Rhs β → List Name
  | .op o => o.operands
  | .fn .. => []
  | .branch cond .. => [cond]

/-- Whether this is a function literal. -/
def isFn : Rhs β → Bool
  | .fn .. => true
  | _ => false

/-- The same right-hand side as an indirect call, if it is a call at all. -/
def indirect? : Rhs β → Option (Rhs β)
  | .op (.app callee args _) => some (.op (.app callee args true))
  | _ => none

/-- Whether two right-hand sides are the same, doubles compared by value. -/
def agrees [DecidableEq β] : Rhs β → Rhs β → Bool
  | .op a, .op b => a.agrees b
  | a, b => decide (a = b)

end Rhs

end ClosureConversion
