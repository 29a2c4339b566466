/-
  Query/Number.lean --- numbers in path expressions.

  A number is written positionally, with at most sixteen significant digits and
  never with an exponent.  A text is a number only if it is one as a whole: white
  space around, a minus sign, digits, and a point with digits.
-/
import XmlTree.Text.Chars
import XmlTree.Number.Decimal

set_option autoImplicit false

namespace XmlTree

/-- What is no number. -/
def notANumber : Float := Float.ofBits 0x7FF8000000000000

/-- The parts of a decimal number without a sign: the digits before and after its
point. -/
def decimalParts? (cs : List Char) : Option (List Char × List Char) :=
  let whole := cs.takeWhile Char.isDigit
  let parts :=
    match cs.drop whole.length with
    | [] => some (whole, [])
    | '.' :: fraction => if fraction.all Char.isDigit then some (whole, fraction) else none
    | _ => none
  parts.filter fun (whole, fraction) => !(whole.isEmpty && fraction.isEmpty)

/-- The literal that a text is, if it is one. -/
def numberLiteral? (text : List Char) : Option DecimalLiteral :=
  let trimmed := dropTrailingSpace (dropSpace text)
  let (negative, body) :=
    match trimmed with
    | '-' :: body => (true, body)
    | body => (false, body)
  (decimalParts? body).map fun (whole, fraction) => .ofParts negative whole fraction 0

/-- The number that a text spells, or no number. -/
def parseNumber (text : String) : Float :=
  (numberLiteral? text.toList).elim notANumber DecimalLiteral.toFloat

/-- Most significant digits that are written. -/
def writtenDigits : Nat := 16

/-- The value `0.digits * 10 ^ exponent` in positional notation. -/
def positional (digits : List Char) (exponent : Int) : List Char :=
  let places := exponent.toNat
  let whole :=
    if exponent ≤ 0 then ['0']
    else digits.take places ++ List.replicate (places - digits.length) '0'
  let fraction := digits.drop places
  if fraction.isEmpty then whole
  else whole ++ '.' :: (List.replicate (-exponent).toNat '0' ++ fraction)

/-- A scientific value in positional notation, without superfluous zeros. -/
def Scientific.positional (s : Scientific) : List Char :=
  XmlTree.positional (s.digits.reverse.dropWhile (· == '0')).reverse (s.exponent + 1)

/-- The text of a number. -/
def formatNumber (x : Float) : String :=
  match Binary64.view x with
  | .nan => "NaN"
  | .infinite negative => if negative then "-Infinity" else "Infinity"
  | .finite v =>
    if v.mantissa = 0 then "0"
    else
      let (num, den) := v.quotient
      let text := (Scientific.ofQuotient num den writtenDigits).positional
      String.ofList (if v.negative then '-' :: text else text)

end XmlTree
