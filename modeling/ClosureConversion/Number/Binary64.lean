/-!
# Finite doubles

A finite IEEE binary64 number is kept as its sign and its *rank*: the number of non-negative
doubles below its magnitude. Rank `0` is zero, rank `1` the least positive double, and neighbours
in magnitude have neighbouring ranks, so a carry out of the mantissa needs no special case. No
machine arithmetic is involved: every operation rounds an exact quotient of naturals to a rank, and
has no result where that would be infinite. Infinities and NaN have no rank and are not represented.
-/

namespace ClosureConversion

/-- The rank of infinity: all finite magnitudes lie below it. -/
def infiniteRank : Nat := 2047 * Nat.pow 2 52

/-- A finite double. -/
structure Binary64 where
  /-- The sign bit; zero has one too. -/
  negative : Bool
  /-- How many non-negative doubles lie below the magnitude. -/
  rank : Nat
  /-- The magnitude is finite. -/
  finite : rank < infiniteRank
deriving DecidableEq, Repr

namespace Binary64

/-- The quotient `num / den` to the nearest natural, a half to the even neighbour. -/
def roundHalfEven (num den : Nat) : Nat :=
  let low := num / den
  let twice := 2 * (num % den)
  if twice < den then low else if den < twice then low + 1 else low + low % 2

/-- The binary exponent at which a positive quotient has a mantissa of 53 bits, or the least
exponent if the quotient is too small for that. -/
def scaleOf (num den : Nat) : Int :=
  let guess : Int := (num.log2 : Int) - (den.log2 : Int) - 53
  let low := num * Nat.pow 2 (-guess).toNat / (den * Nat.pow 2 guess.toNat)
  max (-1074) (if Nat.pow 2 53 ≤ low then guess + 1 else guess)

/-- The rank nearest to a quotient, `infiniteRank` or more if the quotient is too large. At the
exponent `q` the ranks of the mantissas count on from `(q + 1074) * 2 ^ 52`. -/
def rankOfQuotient (num den : Nat) : Nat :=
  if num = 0 then 0
  else
    let q := scaleOf num den
    (q + 1074).toNat * Nat.pow 2 52 +
      roundHalfEven (num * Nat.pow 2 (-q).toNat) (den * Nat.pow 2 q.toNat)

/-- The integer mantissa `m` of the magnitude `m * 2 ^ exponent`. -/
def mantissa (x : Binary64) : Nat :=
  if x.rank < Nat.pow 2 52 then x.rank else Nat.pow 2 52 + x.rank % Nat.pow 2 52

/-- The binary exponent that goes with `mantissa`. -/
def exponent (x : Binary64) : Int :=
  if x.rank < Nat.pow 2 52 then -1074 else (x.rank / Nat.pow 2 52 : Nat) - 1075

/-- The magnitude of a double is `numerator / denominator`. -/
def numerator (x : Binary64) : Nat := x.mantissa * Nat.pow 2 x.exponent.toNat

/-- The power of two under the numerator. -/
def denominator (x : Binary64) : Nat := Nat.pow 2 (-x.exponent).toNat

/-- The double nearest to a quotient with the given sign, if that is finite. -/
def nearest? (negative : Bool) (num den : Nat) : Option Binary64 :=
  if h : rankOfQuotient num den < infiniteRank then some ⟨negative, rankOfQuotient num den, h⟩
  else none

/-- The product of two doubles, rounded once. -/
def mul? (x y : Binary64) : Option Binary64 :=
  nearest? (x.negative != y.negative) (x.numerator * y.numerator) (x.denominator * y.denominator)

/-- The quotient of two doubles, rounded once. -/
def div? (x y : Binary64) : Option Binary64 :=
  if y.rank = 0 then none
  else nearest? (x.negative != y.negative) (x.numerator * y.denominator)
    (x.denominator * y.numerator)

/-- Whether two doubles are numerically equal: the two zeros are. -/
def sameValue (x y : Binary64) : Bool :=
  x.rank == y.rank && (x.rank == 0 || x.negative == y.negative)

end Binary64

end ClosureConversion
