import ClosureConversion.Toml.Number
import ClosureConversion.Toml.Text

/-!
# TOML documents

A document is read as the list of its statements: headers of tables, and pairs of a key and a value.
What they add up to is for the settings to say. Truth values, arrays and inline tables are kept;
other values only have to be well-formed.

* In an inline table no key may be given twice or lead through another one (`compatible`).
* Arrays and inline tables may stand inside one another up to `maxNesting` deep, and a dotted key
  may have at most `maxParts` parts.
-/

namespace ClosureConversion.Toml

/-- A dotted key. -/
abbrev Path := List String

/-- A value. -/
inductive Value where
  | bool (b : Bool)
  /-- A string, a number, a date or a time. -/
  | scalar
  | array (items : List Value)
  /-- An inline table with its entries as written. -/
  | table (entries : List (Path × Value))

/-- A line that says something. -/
inductive Statement where
  | pair (path : Path) (value : Value)
  /-- The header of a table. -/
  | header (path : Path)
  /-- The header of an item of an array of tables. -/
  | itemHeader (path : Path)

/-- How many arrays and inline tables may stand inside one another. -/
def maxNesting : Nat := 79

/-- How many parts a dotted key may have. -/
def maxParts : Nat := 79

/-- Whether the keys of an inline table can stand together: none leads to or through another. -/
def compatible (entries : List (Path × Value)) : Bool :=
  decide ((entries.map (·.1)).Pairwise fun p q => ¬ p.isPrefixOf q ∧ ¬ q.isPrefixOf p)

/-! ## Keys -/

/-- Whether a character may stand in a bare key. -/
def isBareChar (c : Char) : Bool := c.isAlphanum || c == '_' || c == '-'

/-- Read one part of a key. -/
def readKeyPart : List Char → Option (String × List Char)
  | '"' :: rest => do
    let (s, rest) ← readBasic 0 rest
    return (String.ofList s, rest)
  | '\'' :: rest => do
    let (s, rest) ← readLiteral rest
    return (String.ofList s, rest)
  | cs =>
    let part := cs.takeWhile isBareChar
    if part = [] then none else some (String.ofList part, cs.dropWhile isBareChar)

/-- Read a dotted key with the blanks around its parts, at most `parts` of them. -/
def readKey : Nat → List Char → Option (Path × List Char)
  | 0, _ => none
  | parts + 1, cs => do
    let (part, rest) ← readKeyPart (skipBlanks cs)
    match skipBlanks rest with
    | '.' :: rest =>
      let (path, rest) ← readKey parts rest
      return (part :: path, rest)
    | rest => return ([part], rest)

/-! ## Values -/

/-- Read a value that contains no other. -/
def readSimple (cs : List Char) : Option (Value × List Char) :=
  match cs with
  | 't' :: 'r' :: 'u' :: 'e' :: rest => some (.bool true, rest)
  | 'f' :: 'a' :: 'l' :: 's' :: 'e' :: rest => some (.bool false, rest)
  | _ => (skipString? cs <|> skipNumber? cs).map fun rest => (.scalar, rest)

mutual

/-- Read a value; `depth` levels of nesting are left. -/
def readValue : Nat → Nat → List Char → Option (Value × List Char)
  | 0, _, _ => none
  | fuel + 1, depth, cs =>
    match cs, depth with
    | '[' :: rest, depth + 1 => do
      let (items, rest) ← readItems fuel depth rest
      return (.array items, rest)
    | '\x7b' :: rest, depth + 1 => do
      let (entries, rest) ← match skipBlanks rest with
        | '\x7d' :: rest => some ([], rest)
        | rest => readEntries fuel depth rest
      if compatible entries then some (.table entries, rest) else none
    | cs, _ => readSimple cs

/-- Read the items of an array up to and including its closing bracket. Items may be spread over
lines, and a comma may follow the last. -/
def readItems : Nat → Nat → List Char → Option (List Value × List Char)
  | 0, _, _ => none
  | fuel + 1, depth, cs =>
    match skipLines cs.length cs with
    | ']' :: rest => some ([], rest)
    | rest => do
      let (item, rest) ← readValue fuel depth rest
      match skipLines rest.length rest with
      | ',' :: rest =>
        let (items, rest) ← readItems fuel depth rest
        return (item :: items, rest)
      | ']' :: rest => return ([item], rest)
      | _ => none

/-- Read the entries of an inline table up to and including its closing brace. -/
def readEntries : Nat → Nat → List Char → Option (List (Path × Value) × List Char)
  | 0, _, _ => none
  | fuel + 1, depth, cs => do
    let (path, rest) ← readKey maxParts cs
    let (value, rest) ← readValue fuel depth (skipBlanks (← skipChar? '=' rest))
    match skipBlanks rest with
    | ',' :: rest =>
      let (entries, rest) ← readEntries fuel depth rest
      return ((path, value) :: entries, rest)
    | '\x7d' :: rest => return ([(path, value)], rest)
    | _ => none

end

/-! ## Statements -/

/-- Read a header or a pair together with the end of its line. -/
def readStatement (cs : List Char) : Option (Statement × List Char) :=
  match cs with
  | '[' :: '[' :: rest => do
    let (path, rest) ← readKey maxParts rest
    return (.itemHeader path, ← finishLine? (← skipChar? ']' (← skipChar? ']' rest)))
  | '[' :: rest => do
    let (path, rest) ← readKey maxParts rest
    return (.header path, ← finishLine? (← skipChar? ']' rest))
  | _ => do
    let (path, rest) ← readKey maxParts cs
    let rest := skipBlanks (← skipChar? '=' rest)
    let (value, rest) ← readValue (2 * rest.length + 2) maxNesting rest
    return (.pair path value, ← finishLine? rest)

/-- Read statements to the end, at most `fuel` of them. -/
def readStatements : Nat → List Char → Option (List Statement)
  | 0, _ => none
  | fuel + 1, cs =>
    match skipLines cs.length cs with
    | [] => some []
    | rest => do
      let (statement, rest) ← readStatement rest
      return statement :: (← readStatements fuel rest)

/-- The statements of a document. A byte order mark in front is skipped. -/
def parse? (s : String) : Option (List Statement) :=
  let cs := match s.toList with
    | '\uFEFF' :: rest => rest
    | cs => cs
  readStatements (cs.length + 1) cs

end ClosureConversion.Toml
