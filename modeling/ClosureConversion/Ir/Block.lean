import ClosureConversion.Ir.Operation

/-!
# Nested blocks

The form in which programs are read and written: a block is a sequence of instructions, with the
blocks of function literals and conditionals nested inside. The sequence is part of the type, so
every definition on blocks is a recursion over one plain inductive type.
-/

namespace ClosureConversion

/-- A sequence of instructions with nested blocks. -/
inductive Block where
  /-- The end of the block. -/
  | done
  /-- A flat instruction. -/
  | op (ident : Name) (o : Operation) (rest : Block)
  /-- A function literal. -/
  | fn (ident : Name) (params : List Name) (body rest : Block)
  /-- A conditional. -/
  | branch (ident cond : Name) (yes no rest : Block)
deriving DecidableEq, Repr

namespace Block

instance : Inhabited Block := ⟨done⟩

/-- Put an instruction in front of a block. -/
def cons (ident : Name) (rhs : Rhs Block) (rest : Block) : Block :=
  match rhs with
  | .op o => .op ident o rest
  | .fn params body => .fn ident params body rest
  | .branch cond yes no => .branch ident cond yes no rest

/-- The block of a list of instructions. -/
def ofList : List (Name × Rhs Block) → Block
  | [] => .done
  | (ident, rhs) :: rest => cons ident rhs (ofList rest)

/-- The instructions of a block in order. -/
def toList : Block → List (Name × Rhs Block)
  | .done => []
  | .op ident o rest => (ident, .op o) :: rest.toList
  | .fn ident params body rest => (ident, .fn params body) :: rest.toList
  | .branch ident cond yes no rest => (ident, .branch cond yes no) :: rest.toList

/-- The list of a block with one more instruction in front. -/
@[simp] theorem toList_cons (ident : Name) (rhs : Rhs Block) (rest : Block) :
    (cons ident rhs rest).toList = (ident, rhs) :: rest.toList := by
  cases rhs <;> rfl

/-- Nothing is lost between lists and blocks. -/
@[simp] theorem toList_ofList (l : List (Name × Rhs Block)) : (ofList l).toList = l := by
  induction l with
  | nil => rfl
  | cons e rest ih => simp [ofList, ih]

/-- Nothing is lost between blocks and lists. -/
@[simp] theorem ofList_toList (b : Block) : ofList b.toList = b := by
  induction b with
  | done => rfl
  | op _ _ _ ih => simp [toList, ofList, cons, ih]
  | fn _ _ _ _ _ ih => simp [toList, ofList, cons, ih]
  | branch _ _ _ _ _ _ _ ih => simp [toList, ofList, cons, ih]

end Block

end ClosureConversion
