import ClosureConversion.Number.Scaling

/-!
# JSON documents

A document is kept as it is written: an object is the list of its fields in order, repeated keys
included, and a number is its literal. What a literal means (an integer of some range, a double)
is for the decoder to say. A string whose escapes leave half of a surrogate pair has no text; it is
`none`, which is well-formed JSON but decodes to nothing.
-/

namespace ClosureConversion

/-- A number literal. The whole part has no superfluous zeros, so its value determines it; an empty
fraction is an absent one. -/
structure Numeral where
  negative : Bool
  whole : Nat
  fraction : List Char
  exponent : Option Int
deriving DecidableEq, Repr

namespace Numeral

/-- The literal of an integer. -/
def ofInt (i : Int) : Numeral := ⟨decide (i < 0), i.natAbs, [], none⟩

/-- The integer that a literal without fraction and exponent denotes. Negative zero is none: it
can only be meant as a double. -/
def toInt? (n : Numeral) : Option Int :=
  if n.fraction = [] ∧ n.exponent = none then
    if n.negative then (if n.whole = 0 then none else some (-(n.whole : Int)))
    else some n.whole
  else none

/-- The digits of a literal that fit into 64 bits, from the front, at their place. Digits of the
whole part that do not fit count as zeros; those of the fraction are dropped. -/
def leading (n : Numeral) : Decimal :=
  let whole := Nat.toDigits 10 n.whole
  let (digits, taken) := Decimal.appendDigits (Nat.pow 2 64) 0 whole
  let (digits, places) := Decimal.appendDigits (Nat.pow 2 64) digits n.fraction
  ⟨digits, n.exponent.getD 0 + (whole.length - taken : Nat) - places⟩

/-- The double that a literal is read as, unless it overflows: its leading digits, scaled in double
arithmetic. -/
def toBinary64? (n : Numeral) : Option Binary64 :=
  n.leading.scaled?.map ({ · with negative := n.negative })

/-- The literal written for a double: its shortest digits, with a point and at least one digit
after it where the leading digit stands from `10 ^ -5` to `10 ^ 15`, with an exponent outside. -/
def ofBinary64 (x : Binary64) : Numeral :=
  let d := Decimal.shortest .even x
  let digits := Nat.toDigits 10 d.digits
  let lead := d.exponent + digits.length - 1
  if d.digits = 0 then ⟨x.negative, 0, ['0'], none⟩
  else if lead < -5 ∨ 16 ≤ lead then
    ⟨x.negative, Nat.ofDigitChars 10 (digits.take 1) 0, digits.drop 1, some lead⟩
  else if 0 ≤ d.exponent then ⟨x.negative, d.digits * Nat.pow 10 d.exponent.toNat, ['0'], none⟩
  else
    let places := (-d.exponent).toNat
    let padded := List.replicate (places - digits.length) '0' ++ digits
    ⟨x.negative, Nat.ofDigitChars 10 (padded.take (padded.length - places)) 0,
      padded.drop (padded.length - places), none⟩

end Numeral

/-- A JSON document. -/
inductive Json where
  | null
  | bool (b : Bool)
  | num (n : Numeral)
  /-- A string; `none` if an escape leaves a lone surrogate. -/
  | str (text : Option String)
  | arr (items : List Json)
  /-- An object with its fields as written. -/
  | obj (fields : List (Option String × Json))
deriving Inhabited, Repr

namespace Json

/-- A string document. -/
def text (s : String) : Json := .str (some s)

/-- A list of names. -/
def texts (names : List String) : Json := .arr (names.map text)

/-- A natural number document. -/
def nat (n : Nat) : Json := .num (.ofInt n)

/-- An object with the given fields. -/
def object (fields : List (String × Json)) : Json := .obj (fields.map fun f => (some f.1, f.2))

/-- A string or null. -/
def optText : Option String → Json
  | some s => text s
  | none => null

end Json

end ClosureConversion
