/-
  Number/Text.lean --- numbers and truth values stored as text.

  WHAT THIS FILE IS FOR.  Attribute values and node texts are read and written as
  numbers.  Writing chooses between positional and scientific notation by the
  exponent, with trailing zeros dropped.  Reading is lenient: leading white space is
  skipped, the longest beginning that is a number counts, and integers out of range
  are clamped, so every text reads as some value.
-/
import XmlTree.Text.Reference
import XmlTree.Number.Decimal

set_option autoImplicit false

namespace XmlTree

/-! ## Writing -/

/-- Significant digits that tell all doubles apart. -/
def doublePrecision : Nat := 17

/-- Significant digits that tell all single floats apart. -/
def singlePrecision : Nat := 9

/-- An exponent with its sign and at least two digits. -/
def exponentText (e : Int) : List Char :=
  let digits := decimalDigits e.natAbs
  (if e < 0 then '-' else '+') :: (List.replicate (2 - digits.length) '0' ++ digits)

/-- A positive quotient with `precision` significant digits: positional from
`10 ^ -4` up to `10 ^ precision`, scientific beyond, without trailing zeros. -/
def generalMagnitude (num den precision : Nat) : List Char :=
  let s := Scientific.ofQuotient num den precision
  if s.exponent < -4 || (precision : Int) ≤ s.exponent then
    let mantissa :=
      match s.digits with
      | d :: e :: more => d :: '.' :: e :: more
      | ds => ds
    dropFractionZeros mantissa ++ 'e' :: exponentText s.exponent
  else
    dropFractionZeros (fixedPoint num den ((precision : Int) - 1 - s.exponent).toNat)

/-- A number with at most `precision` significant digits, at least one. -/
def formatGeneral (x : Float) (precision : Nat) : String :=
  match Binary64.view x with
  | .nan => "nan"
  | .infinite negative => if negative then "-inf" else "inf"
  | .finite v =>
    let sign := if v.negative then ['-'] else []
    if v.mantissa = 0 then
      String.ofList (sign ++ ['0'])
    else
      let (num, den) := v.quotient
      String.ofList (sign ++ generalMagnitude num den (max precision 1))

/-- A double, exactly enough to be read back. -/
def formatDouble (x : Float) : String := formatGeneral x doublePrecision

/-- A single float, exactly enough to be read back. -/
def formatSingle (x : Float32) : String := formatGeneral x.toFloat singlePrecision

/-- A truth value. -/
def formatBool (b : Bool) : String := if b then "true" else "false"

/-! ## Reading integers -/

/-- The values of a kind of integers. -/
structure IntegerRange where
  least : Int
  greatest : Int
  deriving DecidableEq, Repr, Inhabited

namespace IntegerRange

/-- Signed integers of 32 bits. -/
def int32 : IntegerRange := ⟨-2147483648, 2147483647⟩
/-- Unsigned integers of 32 bits. -/
def uint32 : IntegerRange := ⟨0, 4294967295⟩
/-- Signed integers of 64 bits. -/
def int64 : IntegerRange := ⟨-9223372036854775808, 9223372036854775807⟩
/-- Unsigned integers of 64 bits. -/
def uint64 : IntegerRange := ⟨0, 18446744073709551615⟩

/-- The value of the range nearest to `n`. -/
def clamp (r : IntegerRange) (n : Int) : Int := max r.least (min n r.greatest)

/-- A magnitude that no value of the range exceeds. -/
def ceiling (r : IntegerRange) : Nat := max r.least.natAbs r.greatest.natAbs

end IntegerRange

/-- The sign that begins a text, and the text after it. -/
def takeSign : List Char → Bool × List Char
  | '-' :: cs => (true, cs)
  | '+' :: cs => (false, cs)
  | cs => (false, cs)

/-- The number that the digits at the start of a text spell, zero without any; the
ceiling when they spell a greater one. -/
def leadingNumeral (base ceiling value : Nat) : List Char → Nat
  | [] => value
  | c :: cs =>
    match digitValue? base c with
    | some d => leadingNumeral base ceiling (min (value * base + d) ceiling) cs
    | none => value

/-- The integer that the start of a text spells: white space, a sign, then decimal
digits, or `0x` and hexadecimal digits.  Its magnitude stops at the ceiling. -/
def leadingInteger (ceiling : Nat) (text : List Char) : Int :=
  let (negative, cs) := takeSign (dropSpace text)
  let magnitude :=
    match cs with
    | '0' :: 'x' :: digits => leadingNumeral 16 ceiling 0 digits
    | '0' :: 'X' :: digits => leadingNumeral 16 ceiling 0 digits
    | digits => leadingNumeral 10 ceiling 0 digits
  if negative then -(magnitude : Int) else magnitude

/-- The integer that the start of a text spells, clamped to the range. -/
def IntegerRange.parse (r : IntegerRange) (text : String) : Int :=
  r.clamp (leadingInteger r.ceiling text.toList)

/-! ## Reading other values -/

/-- Digits of an exponent count only until they spell this much. -/
def exponentCeiling : Nat := 65536

/-- The number that the digits of an exponent spell.  Once the ceiling is reached, no
further digit counts, since few texts are long enough to make up for such an
exponent. -/
def exponentOfDigits (digits : List Char) : Nat :=
  digits.foldl
    (fun e c => if e < exponentCeiling then 10 * e + (c.toNat - '0'.toNat) else e) 0

/-- The exponent at the start of a text, zero when there is none. -/
def leadingExponent : List Char → Int
  | c :: cs =>
    if c = 'e' || c = 'E' then
      let (negative, rest) := takeSign cs
      let digits := rest.takeWhile Char.isDigit
      let value : Int := exponentOfDigits digits
      if negative then -value else value
    else
      0
  | [] => 0

/-- The number that the start of a text spells, zero when it spells none: white
space, a sign, then digits with a point and an exponent, or the word for infinity
or for no number in either case. -/
def parseDouble (text : String) : Float :=
  let (negative, cs) := takeSign (dropSpace text.toList)
  let word := (cs.take 3).map Char.toLower
  if word = "inf".toList then
    Binary64.ofMagnitude negative Binary64.infinityBits
  else if word = "nan".toList then
    Float.ofBits 0x7FF8000000000000
  else
    let whole := cs.takeWhile Char.isDigit
    let afterWhole := cs.drop whole.length
    let (fraction, rest) :=
      match afterWhole with
      | '.' :: more =>
        let fraction := more.takeWhile Char.isDigit
        (fraction, more.drop fraction.length)
      | more => ([], more)
    if whole.isEmpty && fraction.isEmpty then
      0
    else
      (DecimalLiteral.ofParts negative whole fraction (leadingExponent rest)).toFloat

/-- The single float nearest to the double that a text spells. -/
def parseSingle (text : String) : Float32 := (parseDouble text).toFloat32

/-- Whether a text begins like a word of affirmation. -/
def parseBool (text : String) : Bool :=
  match text.toList with
  | c :: _ => c == '1' || c == 't' || c == 'T' || c == 'y' || c == 'Y'
  | [] => false

end XmlTree
