import ClosureConversion.Json.Basic

/-!
# Writing JSON

Two forms: `compact` has no blanks at all, `pretty` puts every item on a line of its own, indented
by two spaces, and leaves empty arrays and objects closed. Strings escape the quote, the backslash
and the control characters, and nothing else.
-/

namespace ClosureConversion

/-- The characters of a literal. An exponent always carries its sign. -/
def Numeral.chars (n : Numeral) : List Char :=
  (if n.negative then ['-'] else []) ++ Nat.toDigits 10 n.whole ++
    (if n.fraction = [] then [] else '.' :: n.fraction) ++
    match n.exponent with
    | none => []
    | some e => 'e' :: (if e < 0 then '-' else '+') :: Nat.toDigits 10 e.natAbs

namespace Json

/-- One character inside a string. -/
def escapeChar (c : Char) : List Char :=
  if c = '"' then ['\\', '"']
  else if c = '\\' then ['\\', '\\']
  else if c = '\x08' then ['\\', 'b']
  else if c = '\x0c' then ['\\', 'f']
  else if c = '\n' then ['\\', 'n']
  else if c = '\r' then ['\\', 'r']
  else if c = '\t' then ['\\', 't']
  else if c < ' ' then
    ['\\', 'u', '0', '0', Nat.digitChar (c.toNat / 16), Nat.digitChar (c.toNat % 16)]
  else [c]

/-- A string with its quotes. A textless one is written as a lone surrogate. -/
def stringChars : Option String → List Char
  | some s => '"' :: s.toList.flatMap escapeChar ++ ['"']
  | none => ['"', '\\', 'u', 'd', '8', '0', '0', '"']

mutual

/-- The characters of a document without blanks. -/
def chars : Json → List Char
  | .null => ['n', 'u', 'l', 'l']
  | .bool true => ['t', 'r', 'u', 'e']
  | .bool false => ['f', 'a', 'l', 's', 'e']
  | .num n => n.chars
  | .str s => stringChars s
  | .arr items => '[' :: itemChars items ++ [']']
  | .obj fields => '{' :: fieldChars fields ++ ['}']

/-- The items of an array, with commas between them. -/
def itemChars : List Json → List Char
  | [] => []
  | [item] => item.chars
  | item :: rest => item.chars ++ ',' :: itemChars rest

/-- The fields of an object, with commas between them. -/
def fieldChars : List (Option String × Json) → List Char
  | [] => []
  | [(key, value)] => stringChars key ++ ':' :: value.chars
  | (key, value) :: rest => stringChars key ++ ':' :: value.chars ++ ',' :: fieldChars rest

end

/-- A document without blanks. -/
def compact (j : Json) : String := String.ofList j.chars

/-- A line break and the blanks that start a line at some depth. -/
def lineStart (depth : Nat) : List Char := '\n' :: List.replicate (2 * depth) ' '

mutual

/-- The characters of a document spread over lines. -/
def prettyChars (depth : Nat) : Json → List Char
  | .arr [] => ['[', ']']
  | .obj [] => ['{', '}']
  | .arr items => '[' :: prettyItems (depth + 1) items ++ lineStart depth ++ [']']
  | .obj fields => '{' :: prettyFields (depth + 1) fields ++ lineStart depth ++ ['}']
  | .null => chars .null
  | .bool b => chars (.bool b)
  | .num n => n.chars
  | .str s => stringChars s

/-- The items of an array, each on a line. -/
def prettyItems (depth : Nat) : List Json → List Char
  | [] => []
  | [item] => lineStart depth ++ prettyChars depth item
  | item :: rest => lineStart depth ++ prettyChars depth item ++ ',' :: prettyItems depth rest

/-- The fields of an object, each on a line. -/
def prettyFields (depth : Nat) : List (Option String × Json) → List Char
  | [] => []
  | [(key, value)] =>
    lineStart depth ++ stringChars key ++ ':' :: ' ' :: prettyChars depth value
  | (key, value) :: rest =>
    lineStart depth ++ stringChars key ++ ':' :: ' ' :: prettyChars depth value ++
      ',' :: prettyFields depth rest

end

/-- A document spread over lines, two spaces a level. -/
def pretty (j : Json) : String := String.ofList (prettyChars 0 j)

end Json

end ClosureConversion
