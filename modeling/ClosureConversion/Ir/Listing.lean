import ClosureConversion.Ir.Code
import ClosureConversion.Number.Decimal
import ClosureConversion.Text.Quoted

/-!
# Listings

The text form of code for people: one instruction a line, nested blocks indented by two spaces.
-/

namespace ClosureConversion

/-- Names with a comma and a blank between them. -/
def commaList (names : List Name) : String := ", ".intercalate names

/-- Words with a blank between them. -/
def wordList (words : List String) : String := " ".intercalate words

/-- An operation on one line. -/
def Operation.listing : Operation → String
  | .nop => "nop"
  | .unit => "unit"
  | .bool b => "bool " ++ (if b then "true" else "false")
  | .int i => "int " ++ toString i.toInt
  | .float x => "float " ++ x.listing
  | .str s => "string " ++ Text.quoted s
  | .unary op child => wordList ["unary", op.mnemonic, child]
  | .binary op lhs rhs => wordList ["binary", op.mnemonic, lhs, rhs]
  | .ref of => wordList ["ref", of]
  | .app callee args indirect =>
    wordList ((if indirect then "appcls" else "app") :: callee :: args)
  | .tuple items => "tuple " ++ commaList items
  | .tupleLoad source index => wordList ["tplload", toString index.toNat, source]
  | .array size item => wordList ["array", size, item]
  | .arrayOf items => "arrlit " ++ commaList items
  | .arrayLoad source index => wordList ["arrload", index, source]
  | .arrayStore target index value => wordList ["arrstore", index, target, value]
  | .arrayLength of => wordList ["arrlen", of]
  | .makeSome of => wordList ["some", of]
  | .makeNone => "none"
  | .isSome of => wordList ["issome", of]
  | .derefSome of => wordList ["derefsome", of]
  | .external symbol => wordList ["xref", symbol]
  | .externalCall symbol args => wordList ("appx" :: symbol :: args)
  | .makeClosure captures target => "makecls (" ++ commaList captures ++ ") " ++ target

/-- Two spaces for each level of nesting. -/
def indent (depth : Nat) : String := String.ofList (List.replicate (2 * depth) ' ')

/-- The line of a function with its parameters. -/
def functionLine (depth : Nat) (ident : Name) (params : List Name) : String :=
  indent depth ++ ident ++ " = fun " ++ commaList params

/-- The lines of code at some depth. -/
def Code.lines (depth : Nat) : Code → List String
  | .done => []
  | .op _ ident o rest => (indent depth ++ ident ++ " = " ++ o.listing) :: rest.lines depth
  | .fn _ ident params _ body rest =>
    functionLine depth ident params :: body.lines (depth + 1) ++ rest.lines depth
  | .branch _ ident cond _ _ yes no rest =>
    (indent depth ++ ident ++ " = if " ++ cond) ::
      (indent depth ++ "  then:") :: yes.lines (depth + 2) ++
      (indent depth ++ "  else:") :: no.lines (depth + 2) ++ rest.lines depth

/-- Lines as a text, each ended by a line break. -/
def unlines (lines : List String) : String := String.join (lines.map (· ++ "\n"))

/-- The listing of code. -/
def Code.listing (c : Code) : String := unlines (c.lines 0)

end ClosureConversion
