import ClosureConversion.Number.Decimal

/-!
# Decimals scaled in double arithmetic

`Decimal.toBinary64?` rounds a decimal once. `Decimal.scaled?` rounds at every step instead: the
digits to a double, the power of ten to a double, and then their product or quotient. The two agree
where both factors are doubles themselves, up to fifteen digits and a power of twenty-two; beyond
that the second may end up beside the nearest double.
-/

namespace ClosureConversion.Decimal

/-- The greatest power of ten that has a finite double. -/
def maxPower : Nat := 308

/-- The double nearest to a power of ten, if that is finite. -/
def power? (k : Nat) : Option Binary64 :=
  if k ≤ maxPower then Binary64.nearest? false (Nat.pow 10 k) 1 else none

/-- A double multiplied by a power of ten. -/
def scaleUp? (x : Binary64) (k : Nat) : Option Binary64 := do x.mul? (← power? k)

/-- A double divided by a power of ten. A power that has no double is divided off in two steps; the
second stops at the greatest power, since by then the result is zero. -/
def scaleDown? (x : Binary64) (k : Nat) : Option Binary64 :=
  if k ≤ maxPower then do x.div? (← power? k)
  else do (← x.div? (← power? maxPower)).div? (← power? (min (k - maxPower) maxPower))

/-- The double that a decimal becomes in double arithmetic, if that is finite. Zero stays zero under
any power. -/
def scaled? (d : Decimal) : Option Binary64 := do
  let x ← Binary64.nearest? false d.digits 1
  if d.digits = 0 then return x
  else if 0 ≤ d.exponent then scaleUp? x d.exponent.toNat
  else scaleDown? x (-d.exponent).toNat

/-- Append digits to a natural as long as it stays below a bound. The result is the natural and the
number of digits appended. -/
def appendDigits (bound n : Nat) : List Char → Nat × Nat
  | [] => (n, 0)
  | c :: rest =>
    let next := Nat.ofDigitChars 10 [c] n
    if next < bound then
      let (m, count) := appendDigits bound next rest
      (m, count + 1)
    else (n, 0)

end ClosureConversion.Decimal
