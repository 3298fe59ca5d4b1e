import Mathlib.Data.List.TakeWhile
import Mathlib.Tactic.Common
import ClosureConversion.Json.Reader
import ClosureConversion.Json.Writer

/-!
# Number literals read back

A literal is written digit by digit and read by taking as many digits as there are, so that what stands
behind it must not continue it. Between the tokens of a document only commas and closing brackets do
(`Json.Ends`). Under this condition every proper literal is read back, with what follows it
(`Numeral.readNumeral_chars`). The literals written for integers and doubles are proper.
-/

namespace ClosureConversion

/-- What may stand behind a document: nothing, or what continues or closes an array or object. -/
def Json.Ends (rest : List Char) : Prop := ∀ c ∈ rest.head?, c = ',' ∨ c = ']' ∨ c = '}'

/-- What does not continue a sequence of digits. -/
def NoDigit (rest : List Char) : Prop := ∀ c ∈ rest.head?, c.isDigit = false

/-- A character that is no digit ends a numeral. -/
theorem noDigit_cons {c : Char} (h : c.isDigit = false) (rest : List Char) : NoDigit (c :: rest) :=
  fun _ hc => Option.some.inj hc ▸ h

/-- A separator or a closing bracket ends a value. -/
theorem Json.ends_cons {c : Char} (h : c = ',' ∨ c = ']' ∨ c = '}') (rest : List Char) :
    Ends (c :: rest) :=
  fun _ hc => Option.some.inj hc ▸ h

/-- What ends a value ends a numeral. -/
theorem Json.Ends.noDigit {rest : List Char} (h : Ends rest) : NoDigit rest := by
  intro c hc
  rcases h c hc with rfl | rfl | rfl <;> rfl

/-! ## Digits -/

/-- The decimal form of a number consists of digits. -/
theorem isDigit_of_mem_decimal {n : Nat} {c : Char} (h : c ∈ Nat.toDigits 10 n) :
    c.isDigit = true :=
  Nat.isDigit_of_mem_toDigits (by decide) (by decide) h

/-- A number begins with a digit. -/
theorem exists_toDigits_cons (n : Nat) :
    ∃ c cs, Nat.toDigits 10 n = c :: cs ∧ c.isDigit = true := by
  obtain ⟨c, cs, hcs⟩ := List.exists_cons_of_ne_nil (Nat.toDigits_ne_nil (n := n) (b := 10))
  exact ⟨c, cs, hcs, isDigit_of_mem_decimal (hcs ▸ List.mem_cons_self)⟩

/-- The first digit of a number is zero for zero only. -/
theorem eq_zero_of_head_toDigits {n : Nat} (h : (Nat.toDigits 10 n).head? = some '0') : n = 0 := by
  induction n using Nat.strong_induction_on with
  | _ n ih =>
      rw [Nat.toDigits_eq_if (by decide)] at h
      split at h
      next hlt =>
        have hdigits : ∀ k < 10, k.digitChar = '0' → k = 0 := by decide
        exact hdigits n hlt (Option.some.inj h)
      next hge =>
        obtain ⟨c, cs, hcs, -⟩ := exists_toDigits_cons (n / 10)
        rw [hcs] at h
        have hhead : (Nat.toDigits 10 (n / 10)).head? = some '0' := by rw [hcs]; exact h
        have := ih (n / 10) (by omega) hhead
        omega

namespace Json

variable {rest : List Char}

/-- Digits are read up to the first other character. -/
theorem readDigits_append {digits : List Char} (hd : ∀ c ∈ digits, c.isDigit = true)
    (hne : digits ≠ []) (hr : NoDigit rest) : readDigits (digits ++ rest) = some (digits, rest) := by
  have htake : rest.takeWhile Char.isDigit = [] := by
    cases rest with
    | nil => rfl
    | cons c rest => rw [List.takeWhile_cons, hr c rfl]; rfl
  have hdrop : rest.dropWhile Char.isDigit = rest := by
    cases rest with
    | nil => rfl
    | cons c rest => rw [List.dropWhile_cons, hr c rfl]; rfl
  unfold readDigits
  rw [List.takeWhile_append_of_pos hd, List.dropWhile_append_of_pos hd, htake, hdrop,
    List.append_nil]
  exact if_neg hne

/-- The decimal form of a number is read as its digits. -/
theorem readDigits_toDigits (n : Nat) (hr : NoDigit rest) :
    readDigits (Nat.toDigits 10 n ++ rest) = some (Nat.toDigits 10 n, rest) :=
  readDigits_append (fun _ => isDigit_of_mem_decimal) Nat.toDigits_ne_nil hr

/-- The decimal form of a number is read as the number. -/
theorem readWhole_toDigits (n : Nat) (hr : NoDigit rest) :
    readWhole (Nat.toDigits 10 n ++ rest) = some (n, rest) := by
  have hzero : ¬((Nat.toDigits 10 n).head? = some '0' ∧ (Nat.toDigits 10 n).length ≠ 1) := by
    rintro ⟨hhead, hlen⟩
    rw [eq_zero_of_head_toDigits hhead] at hlen
    exact hlen rfl
  rw [readWhole, readDigits_toDigits n hr]
  show (if _ then none else some (Nat.ofDigitChars 10 (Nat.toDigits 10 n) 0, rest)) = _
  rw [if_neg hzero, Nat.ofDigitChars_toDigits (by decide) (by decide)]

/-- The digits of an exponent are read with its sign. -/
theorem readExponentDigits_toDigits (negative : Bool) (n : Nat) (hr : NoDigit rest) :
    readExponentDigits negative (Nat.toDigits 10 n ++ rest) =
      some (some (if negative then -(n : Int) else n), rest) := by
  rw [readExponentDigits, readDigits_toDigits n hr]
  show some (some (if negative then -((Nat.ofDigitChars 10 (Nat.toDigits 10 n) 0 : Nat) : Int)
    else (Nat.ofDigitChars 10 (Nat.toDigits 10 n) 0 : Nat)), rest) = _
  rw [Nat.ofDigitChars_toDigits (by decide) (by decide)]

end Json

/-! ## Literals -/

namespace Numeral

open Json

variable {rest : List Char}

/-- The fraction of a literal is made of digits. -/
def Proper (n : Numeral) : Prop := ∀ c ∈ n.fraction, c.isDigit = true

instance (n : Numeral) : Decidable n.Proper :=
  inferInstanceAs (Decidable (∀ c ∈ n.fraction, c.isDigit = true))

/-- The characters of a fraction. -/
def fractionChars (fraction : List Char) : List Char :=
  if fraction = [] then [] else '.' :: fraction

/-- The characters of an exponent. -/
def exponentChars : Option Int → List Char
  | none => []
  | some e => 'e' :: (if e < 0 then '-' else '+') :: Nat.toDigits 10 e.natAbs

/-- The parts of a numeral, one after the other. -/
theorem chars_eq (n : Numeral) :
    n.chars = (if n.negative then ['-'] else []) ++ (Nat.toDigits 10 n.whole ++
      (fractionChars n.fraction ++ exponentChars n.exponent)) := by
  unfold chars
  rw [List.append_assoc, List.append_assoc]
  cases n.exponent <;> rfl

/-- An exponent that is written is read. -/
theorem readExponent_chars (e : Option Int) (hr : Ends rest) :
    readExponent (exponentChars e ++ rest) = some (e, rest) := by
  cases e with
  | none =>
      cases rest with
      | nil => rfl
      | cons c rest =>
          have hc : ¬(c = 'e' ∨ c = 'E') := by
            rcases hr c rfl with rfl | rfl | rfl <;> decide
          exact if_neg hc
  | some e =>
      by_cases he : e < 0
      · have hread := readExponentDigits_toDigits true e.natAbs hr.noDigit
        rw [if_pos rfl, Int.ofNat_natAbs_of_nonpos (Int.le_of_lt he), Int.neg_neg] at hread
        simp only [exponentChars, if_pos he]
        exact hread
      · have hread := readExponentDigits_toDigits false e.natAbs hr.noDigit
        rw [if_neg Bool.false_ne_true, Int.natAbs_of_nonneg (Int.not_lt.mp he)] at hread
        simp only [exponentChars, if_neg he]
        exact hread

/-- Behind a fraction stands an exponent or what follows the literal. -/
theorem exponentChars_append_cases (e : Option Int) (hr : Ends rest) {c : Char}
    (hc : c ∈ (exponentChars e ++ rest).head?) : c = 'e' ∨ c = ',' ∨ c = ']' ∨ c = '}' := by
  cases e with
  | none => exact .inr (hr c hc)
  | some e => exact .inl (Option.some.inj hc).symm

/-- An exponent begins with no digit. -/
theorem noDigit_exponentChars (e : Option Int) (hr : Ends rest) :
    NoDigit (exponentChars e ++ rest) := by
  intro c hc
  rcases exponentChars_append_cases e hr hc with rfl | rfl | rfl | rfl <;> rfl

/-- A fraction that is written is read. -/
theorem readFraction_chars {fraction : List Char} (hf : ∀ c ∈ fraction, c.isDigit = true)
    (e : Option Int) (hr : Ends rest) :
    readFraction (fractionChars fraction ++ (exponentChars e ++ rest)) =
      some (fraction, exponentChars e ++ rest) := by
  unfold fractionChars
  split
  next hnil =>
    subst hnil
    unfold readFraction
    split
    next cs heq =>
      have hdot := exponentChars_append_cases e hr (congrArg List.head? heq)
      exact absurd hdot (by decide)
    next => rfl
  next hne => exact readDigits_append hf hne (noDigit_exponentChars e hr)

/-- A fraction begins with no digit. -/
theorem noDigit_fractionChars (fraction : List Char) (e : Option Int) (hr : Ends rest) :
    NoDigit (fractionChars fraction ++ (exponentChars e ++ rest)) := by
  unfold fractionChars
  split
  · exact noDigit_exponentChars e hr
  · exact noDigit_cons rfl _

/-- A literal begins with a sign or a digit. -/
theorem exists_chars_cons (n : Numeral) :
    ∃ c cs, n.chars = c :: cs ∧ (c = '-' ∨ c.isDigit = true) := by
  obtain ⟨c, cs, hcs, hc⟩ := exists_toDigits_cons n.whole
  rw [chars_eq, hcs]
  cases n.negative with
  | true => exact ⟨'-', _, rfl, .inl rfl⟩
  | false => exact ⟨c, _, rfl, .inr hc⟩

/-- A literal is read back up to what ends it. -/
theorem readNumeral_chars {n : Numeral} (hn : n.Proper) (hr : Ends rest) :
    readNumeral (n.chars ++ rest) = some (n, rest) := by
  obtain ⟨negative, whole, fraction, exponent⟩ := n
  have hmagnitude : ∀ b, readMagnitude b (Nat.toDigits 10 whole ++
      (fractionChars fraction ++ (exponentChars exponent ++ rest))) =
        some (⟨b, whole, fraction, exponent⟩, rest) := by
    intro b
    rw [readMagnitude, readWhole_toDigits whole (noDigit_fractionChars fraction exponent hr)]
    show (readFraction (fractionChars fraction ++ (exponentChars exponent ++ rest)) >>= _) = _
    rw [readFraction_chars hn exponent hr]
    show (readExponent (exponentChars exponent ++ rest) >>= _) = _
    rw [readExponent_chars exponent hr]
    rfl
  rw [chars_eq, List.append_assoc, List.append_assoc, List.append_assoc]
  cases negative with
  | true => exact hmagnitude true
  | false =>
      rw [if_neg Bool.false_ne_true, List.nil_append, ← hmagnitude false]
      -- the first digit is no sign
      unfold readNumeral
      split
      next cs' heq =>
        obtain ⟨c, cs, hcs, hc⟩ := exists_toDigits_cons whole
        rw [hcs, List.cons_append] at heq
        rw [(List.cons.inj heq).1] at hc
        exact absurd hc (by decide)
      next => rfl

/-- The numeral of an integer is proper. -/
theorem proper_ofInt (i : Int) : (ofInt i).Proper := fun _ hc => absurd hc List.not_mem_nil

/-- The numeral of a double is proper: its fraction consists of digits. -/
theorem proper_ofBinary64 (x : Binary64) : (ofBinary64 x).Proper := by
  intro c hc
  unfold ofBinary64 at hc
  dsimp only at hc
  split at hc
  · obtain rfl := List.mem_singleton.mp hc
    rfl
  · split at hc
    · exact isDigit_of_mem_decimal (List.mem_of_mem_drop hc)
    · split at hc
      · obtain rfl := List.mem_singleton.mp hc
        rfl
      · rcases List.mem_append.mp (List.mem_of_mem_drop hc) with hzero | hc
        · obtain rfl := (List.mem_replicate.mp hzero).2
          rfl
        · exact isDigit_of_mem_decimal hc

end Numeral

end ClosureConversion
