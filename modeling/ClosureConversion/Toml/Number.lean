import ClosureConversion.Json.Reader
import ClosureConversion.Number.Decimal

/-!
# Numbers and dates of TOML

Integers of 64 bits in four bases, doubles, dates and times. No setting has such a value, so a
reader only tells what follows one; it refuses what stands for no value: an integer out of range, a
double beyond the greatest, a day that its month does not have.
-/

namespace ClosureConversion.Toml

/-! ## Numbers -/

/-- Read the digits behind a first one. An underscore may stand between two digits. -/
def moreDigits (isDigit : Char → Bool) : List Char → Option (List Char × List Char)
  | '_' :: c :: rest =>
    if isDigit c then do
      let (ds, rest) ← moreDigits isDigit rest
      return (c :: ds, rest)
    else none
  | c :: rest =>
    if isDigit c then do
      let (ds, rest) ← moreDigits isDigit rest
      return (c :: ds, rest)
    else if c = '_' then none
    else some ([], c :: rest)
  | [] => some ([], [])

/-- Read one digit or more. -/
def readDigits (isDigit : Char → Bool) : List Char → Option (List Char × List Char)
  | c :: rest =>
    if isDigit c then do
      let (ds, rest) ← moreDigits isDigit rest
      return (c :: ds, rest)
    else none
  | [] => none

/-- Read a sign: whether it is a minus. -/
def readSign : List Char → Bool × List Char
  | '-' :: rest => (true, rest)
  | '+' :: rest => (false, rest)
  | rest => (false, rest)

/-- Read a whole number in decimal digits, which has no superfluous zero in front. -/
def readWhole : List Char → Option (List Char × List Char)
  | '0' :: rest => some (['0'], rest)
  | rest => readDigits Char.isDigit rest

/-- Read an exponent with its mark, if there is one. -/
def readExponent? : List Char → Option (Option Int × List Char)
  | 'e' :: rest | 'E' :: rest => do
    let (negative, rest) := readSign rest
    let (ds, rest) ← readDigits Char.isDigit rest
    let n : Int := Nat.ofDigitChars 10 ds 0
    return (some (if negative then -n else n), rest)
  | rest => some (none, rest)

/-- Read a fraction with its point, if there is one. -/
def readFraction? : List Char → Option (List Char × List Char)
  | '.' :: rest => readDigits Char.isDigit rest
  | rest => some ([], rest)

/-- Skip a number in decimal digits: an integer, or a double if it has a fraction or an exponent. A
double too large is refused, unless it is negative. -/
def skipDecimal? (cs : List Char) : Option (List Char) := do
  let (negative, rest) := readSign cs
  let (whole, rest) ← readWhole rest
  let (fraction, rest) ← readFraction? rest
  let (exponent, rest) ← readExponent? rest
  let digits := Nat.ofDigitChars 10 (whole ++ fraction) 0
  if fraction = [] ∧ exponent = none then
    if digits < Nat.pow 2 63 + (if negative then 1 else 0) then some rest else none
  else
    let d : Decimal := ⟨digits, exponent.getD 0 - fraction.length⟩
    if negative ∨ (d.toBinary64? false).isSome then some rest else none

/-- Whether a character is a hexadecimal digit. -/
def isHexDigit (c : Char) : Bool := (Json.hexValue? c).isSome

/-- The base that a letter behind a zero announces, and its digits. -/
def base? : Char → Option (Nat × (Char → Bool))
  | 'x' => some (16, isHexDigit)
  | 'o' => some (8, fun c => '0' ≤ c && c ≤ '7')
  | 'b' => some (2, fun c => c == '0' || c == '1')
  | _ => none

/-- Skip an integer in another base, which has no sign. -/
def skipBased? : List Char → Option (List Char)
  | '0' :: letter :: rest => do
    let (base, isDigit) ← base? letter
    let (ds, rest) ← readDigits isDigit rest
    let n ← ds.foldlM (fun n c => return n * base + (← Json.hexValue? c)) 0
    if n < Nat.pow 2 63 then some rest else none
  | _ => none

/-- Skip infinity or the value that is no number. -/
def skipSpecial? (cs : List Char) : Option (List Char) :=
  match (readSign cs).2 with
  | 'i' :: 'n' :: 'f' :: rest => some rest
  | 'n' :: 'a' :: 'n' :: rest => some rest
  | _ => none

/-! ## Dates and times -/

/-- Read a number of exactly so many digits. -/
def readFixed (count : Nat) (cs : List Char) : Option (Nat × List Char) :=
  let ds := cs.take count
  if ds.length = count ∧ ds.all Char.isDigit then some (Nat.ofDigitChars 10 ds 0, cs.drop count)
  else none

/-- Read a number of two digits between two bounds. -/
def readPart (low high : Nat) (cs : List Char) : Option (Nat × List Char) := do
  let (n, rest) ← readFixed 2 cs
  if low ≤ n ∧ n ≤ high then some (n, rest) else none

/-- Skip a given character. -/
def skipChar? (c : Char) : List Char → Option (List Char)
  | d :: rest => if d = c then some rest else none
  | [] => none

/-- Whether a year has a leap day. -/
def isLeapYear (year : Nat) : Bool := year % 4 == 0 && (year % 100 != 0 || year % 400 == 0)

/-- How many days a month has. -/
def daysOf (year month : Nat) : Nat :=
  if month = 2 then (if isLeapYear year then 29 else 28)
  else if month = 4 ∨ month = 6 ∨ month = 9 ∨ month = 11 then 30
  else 31

/-- Skip a date. -/
def skipDate? (cs : List Char) : Option (List Char) := do
  let (year, rest) ← readFixed 4 cs
  let (month, rest) ← readPart 1 12 (← skipChar? '-' rest)
  let (_, rest) ← readPart 1 (daysOf year month) (← skipChar? '-' rest)
  return rest

/-- Skip the fraction of a second, if there is one. -/
def skipSecondFraction (cs : List Char) : List Char :=
  match cs with
  | '.' :: rest =>
    if (rest.takeWhile Char.isDigit).isEmpty then cs else rest.dropWhile Char.isDigit
  | _ => cs

/-- Skip a time of day. A minute may have a leap second. -/
def skipTime? (cs : List Char) : Option (List Char) := do
  let (_, rest) ← readPart 0 23 cs
  let (_, rest) ← readPart 0 59 (← skipChar? ':' rest)
  let (_, rest) ← readPart 0 60 (← skipChar? ':' rest)
  return skipSecondFraction rest

/-- Skip an offset from universal time with its sign. -/
def skipOffset? (cs : List Char) : Option (List Char) := do
  let (_, rest) ← readPart 0 23 cs
  let (_, rest) ← readPart 0 59 (← skipChar? ':' rest)
  return rest

/-- Skip what tells the zone of a time behind a date, if anything does. -/
def skipZone (cs : List Char) : List Char :=
  match cs with
  | 'Z' :: rest | 'z' :: rest => rest
  | '+' :: rest | '-' :: rest => (skipOffset? rest).getD cs
  | _ => cs

/-- Skip the time of day behind a date, if there is one. -/
def skipTimeOfDate (cs : List Char) : List Char :=
  match cs with
  | 'T' :: rest | 't' :: rest | ' ' :: rest => ((skipTime? rest).map skipZone).getD cs
  | _ => cs

/-- Skip a date, a time or both. -/
def skipMoment? (cs : List Char) : Option (List Char) :=
  (skipDate? cs).map skipTimeOfDate <|> skipTime? cs

/-- Skip a number or a date. What begins like a date is one. -/
def skipNumber? (cs : List Char) : Option (List Char) :=
  skipMoment? cs <|> skipBased? cs <|> skipDecimal? cs <|> skipSpecial? cs

end ClosureConversion.Toml
