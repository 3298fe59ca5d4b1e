import ClosureConversion.Json.Reader
import ClosureConversion.Json.Writer
import ClosureConversion.Ir.Block

/-!
# Programs as JSON

A block is an array of instructions, an instruction an object with `ident` and `val`, and a
right-hand side either the bare name of a variant or an object whose one field is named for it.

Reading is liberal in form: an object with fixed fields may have them in any order, may have others,
which are skipped, and may be written as an array of its fields; a variant without contents may have
a null. It is strict in substance: a field given twice, a number out of range and arrays or objects
nested more than `nestingLimit` deep are refused. Skipped fields do not count towards the limit.
Writing uses one form only.
-/

namespace ClosureConversion

/-! ## Tags -/

/-- The name of a unary operator in JSON. -/
def UnaryOp.tag : UnaryOp → String
  | .neg => "neg"
  | .fneg => "f_neg"
  | .not => "not"

/-- The name of a binary operator in JSON. -/
def BinaryOp.tag : BinaryOp → String
  | .add => "add"
  | .sub => "sub"
  | .mul => "mul"
  | .div => "div"
  | .mod => "mod"
  | .fadd => "f_add"
  | .fsub => "f_sub"
  | .fmul => "f_mul"
  | .fdiv => "f_div"
  | .eq => "eq"
  | .neq => "not_eq"
  | .lt => "less"
  | .lte => "less_eq"
  | .gt => "greater"
  | .gte => "greater_eq"
  | .and => "and"
  | .or => "or"

/-- All unary operators. -/
def UnaryOp.all : List UnaryOp := [.neg, .fneg, .not]

/-- All binary operators. -/
def BinaryOp.all : List BinaryOp :=
  [.add, .sub, .mul, .div, .mod, .fadd, .fsub, .fmul, .fdiv, .eq, .neq, .lt, .lte, .gt, .gte, .and,
    .or]

/-- The unary operator with a given name. -/
def UnaryOp.ofTag? (s : String) : Option UnaryOp := UnaryOp.all.find? (·.tag == s)

/-- The binary operator with a given name. -/
def BinaryOp.ofTag? (s : String) : Option BinaryOp := BinaryOp.all.find? (·.tag == s)

/-! ## Writing -/

namespace Json

/-- A variant with contents. -/
def variant (tag : String) (contents : Json) : Json := object [(tag, contents)]

/-- A variant whose contents have fields. -/
def variantOf (tag : String) (fields : List (String × Json)) : Json := variant tag (object fields)

end Json

/-- An operation as JSON. -/
def Operation.toJson : Operation → Json
  | .nop => .text "nop"
  | .unit => .text "unit"
  | .bool b => .variant "bool" (.bool b)
  | .int i => .variant "int" (.num (.ofInt i.toInt))
  | .float x => .variant "float" (.num (.ofBinary64 x))
  | .str s => .variant "str" (.text s)
  | .unary op child => .variantOf "unary" [("op", .text op.tag), ("child", .text child)]
  | .binary op lhs rhs =>
    .variantOf "binary" [("op", .text op.tag), ("lhs", .text lhs), ("rhs", .text rhs)]
  | .ref of => .variant "ref" (.text of)
  | .app callee args indirect =>
    .variantOf "app" [("callee", .text callee), ("args", .texts args), ("indirect", .bool indirect)]
  | .tuple items => .variant "tuple" (.texts items)
  | .tupleLoad source index =>
    .variantOf "tpl_load" [("from", .text source), ("index", .nat index.toNat)]
  | .array size item => .variantOf "array" [("size", .text size), ("elem", .text item)]
  | .arrayOf items => .variant "arr_lit" (.texts items)
  | .arrayLoad source index =>
    .variantOf "arr_load" [("from", .text source), ("index", .text index)]
  | .arrayStore target index value =>
    .variantOf "arr_store" [("to", .text target), ("index", .text index), ("rhs", .text value)]
  | .arrayLength of => .variant "arr_len" (.text of)
  | .makeSome of => .variant "make_some" (.text of)
  | .makeNone => .text "make_none"
  | .isSome of => .variant "is_some" (.text of)
  | .derefSome of => .variant "deref_some" (.text of)
  | .external symbol => .variant "x_ref" (.text symbol)
  | .externalCall symbol args =>
    .variantOf "ext_call" [("callee", .text symbol), ("args", .texts args)]
  | .makeClosure captures target =>
    .variantOf "make_cls" [("captures", .texts captures), ("fun", .text target)]

/-- A right-hand side as JSON, nested blocks as `block` writes them. -/
def Rhs.toJson {β : Type} (block : β → Json) : Rhs β → Json
  | .op o => o.toJson
  | .fn params body => .variantOf "fun" [("params", .texts params), ("body", block body)]
  | .branch cond yes no =>
    .variantOf "if" [("cond", .text cond), ("then", block yes), ("otherwise", block no)]

/-- An instruction as JSON. -/
def Json.instruction (ident : Name) (rhs : Json) : Json :=
  object [("ident", text ident), ("val", rhs)]

/-- The instructions of a block as JSON. -/
def Block.items : Block → List Json
  | .done => []
  | .op ident o rest => .instruction ident o.toJson :: rest.items
  | .fn ident params body rest =>
    .instruction ident (Rhs.toJson id (.fn params (.arr body.items))) :: rest.items
  | .branch ident cond yes no rest =>
    .instruction ident (Rhs.toJson id (.branch cond (.arr yes.items) (.arr no.items))) :: rest.items

/-- A block as JSON. -/
def Block.toJson (b : Block) : Json := .arr b.items

/-! ## Reading -/

/-- How many arrays and objects may stand inside one another. -/
def nestingLimit : Nat := 127

namespace Json

/-- The text of a string. -/
def text? : Json → Option String
  | .str s => s
  | _ => none

/-- A truth value. -/
def bool? : Json → Option Bool
  | .bool b => some b
  | _ => none

/-- An integer of 64 bits. -/
def int64? : Json → Option Int64
  | .num n => do
    let i ← n.toInt?
    if -(Int.pow 2 63) ≤ i ∧ i < Int.pow 2 63 then some (Int64.ofInt i) else none
  | _ => none

/-- A natural number below a bound. -/
def natBelow? (bound : Nat) : Json → Option Nat
  | .num n => do
    let i ← n.toInt?
    if 0 ≤ i ∧ i < bound then some i.toNat else none
  | _ => none

/-- A finite double. -/
def binary64? : Json → Option Binary64
  | .num n => n.toBinary64?
  | _ => none

/-- A list of texts, one level of nesting deep. -/
def texts? : Nat → Json → Option (List String)
  | _ + 1, .arr items => items.mapM text?
  | _, _ => none

/-- The fields with the given names, in that order, `none` for one that is missing. They are taken
from an object, whose other fields are skipped, or one by one from an array. -/
def fields? (names : List String) : Nat → Json → Option (List (Option Json))
  | _ + 1, .arr items =>
    if items.length ≤ names.length then some (names.mapIdx fun i _ => items[i]?) else none
  | _ + 1, .obj fields =>
    if fields.all (·.1.isSome) then
      names.mapM fun name =>
        match fields.filter (·.1 == some name) with
        | [] => some none
        | [(_, value)] => some (some value)
        | _ => none
    else none
  | _, _ => none

/-- The name of a variant without contents: a bare string, or a field with a null. -/
def bareVariant? : Nat → Json → Option String
  | _, .str s => s
  | _ + 1, .obj [(key, .null)] => key
  | _, _ => none

end Json

/-- The operations without contents. -/
def Operation.ofBareTag? : String → Option Operation
  | "nop" => some .nop
  | "unit" => some .unit
  | "make_none" => some .makeNone
  | _ => none

/-- The operation with a given tag and contents; `depth` levels of nesting are left. -/
def Operation.ofVariant? (tag : String) (depth : Nat) (j : Json) : Option Operation :=
  match tag with
  | "bool" => .bool <$> j.bool?
  | "int" => .int <$> j.int64?
  | "float" => .float <$> j.binary64?
  | "str" => .str <$> j.text?
  | "unary" =>
    match j.fields? ["op", "child"] depth with
    | some [some op, some child] => do
      return .unary (← (op.bareVariant? (depth - 1)).bind UnaryOp.ofTag?) (← child.text?)
    | _ => none
  | "binary" =>
    match j.fields? ["op", "lhs", "rhs"] depth with
    | some [some op, some lhs, some rhs] => do
      return .binary (← (op.bareVariant? (depth - 1)).bind BinaryOp.ofTag?) (← lhs.text?)
        (← rhs.text?)
    | _ => none
  | "ref" => .ref <$> j.text?
  | "app" =>
    match j.fields? ["callee", "args", "indirect"] depth with
    | some [some callee, some args, indirect] => do
      let flag ← match indirect with
        | some flag => flag.bool?
        | none => some false
      return .app (← callee.text?) (← args.texts? (depth - 1)) flag
    | _ => none
  | "tuple" => .tuple <$> j.texts? depth
  | "tpl_load" =>
    match j.fields? ["from", "index"] depth with
    | some [some source, some index] => do
      return .tupleLoad (← source.text?) (UInt64.ofNat (← index.natBelow? (Nat.pow 2 64)))
    | _ => none
  | "array" =>
    match j.fields? ["size", "elem"] depth with
    | some [some size, some item] => return .array (← size.text?) (← item.text?)
    | _ => none
  | "arr_lit" => .arrayOf <$> j.texts? depth
  | "arr_load" =>
    match j.fields? ["from", "index"] depth with
    | some [some source, some index] => return .arrayLoad (← source.text?) (← index.text?)
    | _ => none
  | "arr_store" =>
    match j.fields? ["to", "index", "rhs"] depth with
    | some [some target, some index, some value] =>
      return .arrayStore (← target.text?) (← index.text?) (← value.text?)
    | _ => none
  | "arr_len" => .arrayLength <$> j.text?
  | "make_some" => .makeSome <$> j.text?
  | "is_some" => .isSome <$> j.text?
  | "deref_some" => .derefSome <$> j.text?
  | "x_ref" => .external <$> j.text?
  | "ext_call" =>
    match j.fields? ["callee", "args"] depth with
    | some [some symbol, some args] =>
      return .externalCall (← symbol.text?) (← args.texts? (depth - 1))
    | _ => none
  | "make_cls" =>
    match j.fields? ["captures", "fun"] depth with
    | some [some captures, some target] =>
      return .makeClosure (← captures.texts? (depth - 1)) (← target.text?)
    | _ => none
  | _ => none

/-- The right-hand side with a given tag and contents; nested blocks are read by `block`. -/
def Rhs.ofVariant? {β : Type} (block : Nat → Json → Option β) (tag : String) (depth : Nat)
    (j : Json) : Option (Rhs β) :=
  match tag with
  | "fun" =>
    match j.fields? ["params", "body"] depth with
    | some [some params, some body] =>
      return .fn (← params.texts? (depth - 1)) (← block (depth - 1) body)
    | _ => none
  | "if" =>
    match j.fields? ["cond", "then", "otherwise"] depth with
    | some [some cond, some yes, some no] =>
      return .branch (← cond.text?) (← block (depth - 1) yes) (← block (depth - 1) no)
    | _ => none
  | _ => .op <$> Operation.ofVariant? tag depth j

/-- A right-hand side; `depth` levels of nesting are left. -/
def Rhs.ofJson? {β : Type} (block : Nat → Json → Option β) : Nat → Json → Option (Rhs β)
  | _, .str (some tag) => .op <$> Operation.ofBareTag? tag
  | depth + 1, .obj [(some tag, contents)] =>
    match Operation.ofBareTag? tag, contents with
    | some o, .null => some (.op o)
    | some _, _ => none
    | none, _ => Rhs.ofVariant? block tag depth contents
  | _, _ => none

/-- An instruction; `depth` levels of nesting are left, and nested blocks are read by `block`. -/
def Json.instruction? (block : Nat → Json → Option Block) (depth : Nat) (j : Json) :
    Option (Name × Rhs Block) :=
  match j.fields? ["ident", "val"] depth with
  | some [some ident, some val] => return (← ident.text?, ← Rhs.ofJson? block (depth - 1) val)
  | _ => none

/-- A block with at most `fuel` blocks inside one another and `depth` levels of nesting left. -/
def Block.decode? : Nat → Nat → Json → Option Block
  | fuel + 1, depth + 1, .arr items =>
    Block.ofList <$> items.mapM (Json.instruction? (Block.decode? fuel) depth)
  | _, _, _ => none

/-- The block that a document holds. Blocks inside one another take several levels each, so the
nesting limit bounds their number too. -/
def Block.ofJson? (j : Json) : Option Block := Block.decode? nestingLimit nestingLimit j

/-- The block that a text holds. -/
def Block.parse? (s : String) : Option Block := (Json.parse? s).bind Block.ofJson?

end ClosureConversion
