/-
  Number/Decimal.lean --- numbers in decimal notation.

  WHAT THIS FILE IS FOR.  Two ways of writing a value in decimal, with a given
  number of significant digits or of decimal places, and one way of reading it.
  All three round to the nearest on exact values, a half to the even neighbour,
  so no step of them is approximate.
-/
import XmlTree.Number.Binary64

set_option autoImplicit false

namespace XmlTree

/-- The decimal digits of a natural number. -/
def decimalDigits (n : Nat) : List Char := Nat.toDigits 10 n

/-! ## Writing -/

/-- A value `d.ddd * 10 ^ exponent`, where `digits` are all the digits `d`. -/
structure Scientific where
  digits : List Char
  exponent : Int
  deriving DecidableEq, Repr, Inhabited

namespace Scientific

/-- Whether `10 ^ e ≤ num / den`. -/
def tenPowerLe (e : Int) (num den : Nat) : Bool :=
  if 0 ≤ e then den * Nat.pow 10 e.toNat ≤ num else den ≤ num * Nat.pow 10 (-e).toNat

/-- The exponent of the leading digit of `num / den`. -/
def leadingExponent (num den : Nat) : Int :=
  -- a quotient of numbers with `a` and `b` digits lies between `10 ^ (a - b - 1)`
  -- and `10 ^ (a - b + 1)`
  let guess : Int := ((decimalDigits num).length : Int) - ((decimalDigits den).length : Int)
  if tenPowerLe guess num den then guess else guess - 1

/-- The positive quotient `num / den` with `count` significant digits. -/
def ofQuotient (num den count : Nat) : Scientific :=
  let e := leadingExponent num den
  let places : Int := (count : Int) - 1 - e
  let rounded :=
    if 0 ≤ places then roundDiv (num * Nat.pow 10 places.toNat) den
    else roundDiv num (den * Nat.pow 10 (-places).toNat)
  if rounded = Nat.pow 10 count then ⟨decimalDigits (Nat.pow 10 (count - 1)), e + 1⟩
  else ⟨decimalDigits rounded, e⟩

end Scientific

/-- The quotient `num / den` with `places` decimal places. -/
def fixedPoint (num den places : Nat) : List Char :=
  let rounded := roundDiv (num * Nat.pow 10 places) den
  let whole := decimalDigits (rounded / Nat.pow 10 places)
  if places = 0 then
    whole
  else
    let fraction := decimalDigits (rounded % Nat.pow 10 places)
    whole ++ '.' :: (List.replicate (places - fraction.length) '0' ++ fraction)

/-- A decimal text without the zeros that end its fraction, and without its point
when nothing is left of the fraction. -/
def dropFractionZeros (cs : List Char) : List Char :=
  if cs.contains '.' then
    ((cs.reverse.dropWhile (· == '0')).dropWhile (· == '.')).reverse
  else
    cs

/-! ## Reading -/

/-- The value `mantissa * 10 ^ exponent`, with its sign. -/
structure DecimalLiteral where
  negative : Bool
  mantissa : Nat
  exponent : Int
  deriving DecidableEq, Repr, Inhabited

namespace DecimalLiteral

/-- The number that a short list of digits spells. -/
def natOfFewDigits (cs : List Char) : Nat :=
  cs.foldl (fun n c => 10 * n + (c.toNat - '0'.toNat)) 0

/-- The number that a list of digits spells, where the list is cut in half `depth`
times. -/
def natOfDigitsByHalves : (depth : Nat) → List Char → Nat
  | 0, cs => natOfFewDigits cs
  | depth + 1, cs =>
    let size := cs.length
    let (front, back) := cs.splitAt (size / 2)
    natOfDigitsByHalves depth front * Nat.pow 10 (size - size / 2)
      + natOfDigitsByHalves depth back

/-- The number that a list of digits spells.  Long lists are cut into parts of some
dozens of digits, so that the time this takes grows little faster than the list. -/
def natOfDigits (cs : List Char) : Nat := natOfDigitsByHalves (cs.length / 32).log2 cs

theorem foldl_digits (cs : List Char) (n : Nat) :
    cs.foldl (fun n c => 10 * n + (c.toNat - '0'.toNat)) n
      = n * Nat.pow 10 cs.length + natOfFewDigits cs := by
  induction cs generalizing n with
  | nil => exact (Nat.mul_one n).symm
  | cons c cs ih =>
    have hpow : Nat.pow 10 (cs.length + 1) = 10 * Nat.pow 10 cs.length := Nat.mul_comm _ _
    simp only [natOfFewDigits, List.foldl_cons, List.length_cons]
    rw [ih, ih (10 * 0 + (c.toNat - '0'.toNat)), hpow, Nat.mul_zero, Nat.zero_add, Nat.add_mul,
      Nat.mul_comm 10 n, Nat.mul_assoc, Nat.add_assoc]

theorem natOfFewDigits_append (front back : List Char) :
    natOfFewDigits (front ++ back)
      = natOfFewDigits front * Nat.pow 10 back.length + natOfFewDigits back := by
  rw [natOfFewDigits, List.foldl_append, foldl_digits]
  rfl

theorem natOfDigitsByHalves_eq (depth : Nat) (cs : List Char) :
    natOfDigitsByHalves depth cs = natOfFewDigits cs := by
  induction depth generalizing cs with
  | zero => rfl
  | succ depth ih =>
    have hcut := natOfFewDigits_append (cs.take (cs.length / 2)) (cs.drop (cs.length / 2))
    rw [List.take_append_drop, List.length_drop] at hcut
    simp only [natOfDigitsByHalves, List.splitAt_eq, ih]
    exact hcut.symm

theorem natOfDigits_eq (cs : List Char) : natOfDigits cs = natOfFewDigits cs :=
  natOfDigitsByHalves_eq _ cs

/-- The literal with the given digits before and after its point, times a power of
ten. -/
def ofParts (negative : Bool) (whole fraction : List Char) (exponent : Int) : DecimalLiteral :=
  ⟨negative, natOfDigits (whole ++ fraction), exponent - fraction.length⟩

/-- A power of ten beyond every double. -/
def exponentBound : Nat := 400

/-- The double nearest to the literal.  Exponents that put the value beyond every
double, or below every double, are answered without computing the power. -/
def toFloat (d : DecimalLiteral) : Float :=
  if d.mantissa = 0 then
    Binary64.ofMagnitude d.negative 0
  else if (exponentBound : Int) < d.exponent then
    Binary64.ofMagnitude d.negative Binary64.infinityBits
  else if d.exponent < -((exponentBound + d.mantissa.log2 : Nat) : Int) then
    Binary64.ofMagnitude d.negative 0
  else if 0 ≤ d.exponent then
    Binary64.nearest d.negative (d.mantissa * Nat.pow 10 d.exponent.toNat) 1
  else
    Binary64.nearest d.negative d.mantissa (Nat.pow 10 (-d.exponent).toNat)

end DecimalLiteral

end XmlTree
