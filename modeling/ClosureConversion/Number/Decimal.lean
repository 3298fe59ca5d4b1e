import ClosureConversion.Number.Binary64

/-!
# Decimals and the shortest decimal of a double

`Decimal` is a natural scaled by a power of ten. `Decimal.rank` rounds one to the nearest double;
`Decimal.shortest` goes the other way and selects, among the decimals that read back as a given
double, one with the fewest digits, the nearest of those. The selection tests its candidates with
the reader itself, so what it returns reads back by construction.
-/

namespace ClosureConversion

/-- The number `digits * 10 ^ exponent`. -/
structure Decimal where
  digits : Nat
  exponent : Int
deriving DecidableEq, Repr

/-- Where an exact tie between two decimals of equal length goes. -/
inductive Tie where
  /-- To the larger decimal. -/
  | up
  /-- To the decimal with the even last digit. -/
  | even
deriving DecidableEq, Repr

namespace Decimal

/-- How many decimal digits a natural has; zero has one. -/
def length (n : Nat) : Nat := (Nat.toDigits 10 n).length

/-- The rank of the double nearest to a decimal. Beyond 400 digits on either side of the point
the answer is infinite or zero whatever the digits are, and no power of ten is formed. -/
def rank (d : Decimal) : Nat :=
  if d.digits = 0 then 0
  else
    let scale := d.exponent + length d.digits
    if scale > 400 then infiniteRank
    else if scale < -400 then 0
    else
      Binary64.rankOfQuotient (d.digits * Nat.pow 10 d.exponent.toNat)
        (Nat.pow 10 (-d.exponent).toNat)

/-- The double nearest to a signed decimal, if that is finite. -/
def toBinary64? (negative : Bool) (d : Decimal) : Option Binary64 :=
  if h : d.rank < infiniteRank then some ⟨negative, d.rank, h⟩ else none

/-- Move trailing zeros of the digits into the exponent, at most `fuel` of them. -/
def stripZeros : Nat → Decimal → Decimal
  | 0, d => d
  | fuel + 1, d =>
    if d.digits ≠ 0 ∧ d.digits % 10 = 0 then stripZeros fuel ⟨d.digits / 10, d.exponent + 1⟩
    else d

/-- The magnitude of a double as a decimal without any rounding. -/
def exact (x : Binary64) : Decimal :=
  if 0 ≤ x.exponent then ⟨x.mantissa * Nat.pow 2 x.exponent.toNat, 0⟩
  else ⟨x.mantissa * Nat.pow 5 (-x.exponent).toNat, x.exponent⟩

/-- An exponent `k` with the magnitude below `10 ^ k`, exact up to one. -/
def scale (num den : Nat) : Int :=
  if den ≤ num then length (num / den) else 1 - (length (den / num) : Int)

/-- The decimal with last digit at `10 ^ grid` that reads back as `x` and is nearest to it: one of
the two neighbours of the magnitude `num / den` on that grid. -/
def onGrid? (tie : Tie) (x : Binary64) (num den : Nat) (grid : Int) : Option Decimal :=
  let top := num * Nat.pow 10 (-grid).toNat
  let bottom := den * Nat.pow 10 grid.toNat
  let low : Decimal := ⟨top / bottom, grid⟩
  let high : Decimal := ⟨top / bottom + 1, grid⟩
  let twice := 2 * (top % bottom)
  if low.rank = x.rank ∧ low.digits ≠ 0 then
    if high.rank = x.rank then
      if twice < bottom then some low
      else if bottom < twice then some high
      else match tie with
        | .up => some high
        | .even => if low.digits % 2 = 0 then some low else some high
    else some low
  else if high.rank = x.rank then some high
  else none

/-- The shortest decimal that reads back as the magnitude of a double. Seventeen digits are
tried; should none read back, the exact value does. -/
def shortest (tie : Tie) (x : Binary64) : Decimal :=
  if x.rank = 0 then ⟨0, 0⟩
  else
    let top := scale x.numerator x.denominator
    let found := (List.range 17).findSome? fun n =>
      onGrid? tie x x.numerator x.denominator (top - (n + 1 : Nat))
    let d := found.getD (exact x)
    stripZeros (length d.digits) d

/-- The decimal written without an exponent: digits, a point where one is needed, and zeros up to
it on either side. -/
def plain (d : Decimal) : List Char :=
  let digits := Nat.toDigits 10 d.digits
  if 0 ≤ d.exponent then
    if d.digits = 0 then ['0'] else digits ++ List.replicate d.exponent.toNat '0'
  else
    let places := (-d.exponent).toNat
    if places < digits.length then
      digits.take (digits.length - places) ++ '.' :: digits.drop (digits.length - places)
    else '0' :: '.' :: (List.replicate (places - digits.length) '0' ++ digits)

end Decimal

/-- A double as it stands in a listing: the shortest digits, never an exponent, no point after a
whole number, and a sign on negative zero. -/
def Binary64.listing (x : Binary64) : String :=
  String.ofList ((if x.negative then ['-'] else []) ++ (Decimal.shortest .up x).plain)

end ClosureConversion
