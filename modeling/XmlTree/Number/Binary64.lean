/-
  Number/Binary64.lean --- the exact value of a double, and the double nearest to
  a value.

  WHAT THIS FILE IS FOR.  Numbers are read and written exactly here, with natural
  numbers: a finite double is taken apart into `mantissa * 2 ^ exponent`, and a
  quotient of natural numbers is rounded to the nearest double, a half to the even
  neighbour.  The bit patterns are those of IEEE 754 `binary64`.
-/
import XmlTree.Number.Rounding

set_option autoImplicit false

namespace XmlTree

namespace Binary64

/-- The magnitude of a finite number, `mantissa * 2 ^ exponent`, and its sign. -/
structure Finite where
  negative : Bool
  mantissa : Nat
  exponent : Int
  deriving DecidableEq, Repr, Inhabited

/-- A double with its kinds told apart. -/
inductive View where
  | nan
  | infinite (negative : Bool)
  | finite (value : Finite)
  deriving DecidableEq, Repr, Inhabited

/-- Number of bits of the stored fraction. -/
def fractionBits : Nat := 52

/-- The exponent of the last place of the smallest doubles. -/
def leastExponent : Int := -1074

/-- The exponent field of infinities and of what is no number. -/
def topField : Nat := 2047

/-- A double taken apart. -/
def view (x : Float) : View :=
  let bits := x.toBits.toNat
  let negative := Nat.pow 2 63 ≤ bits
  let field := bits / Nat.pow 2 fractionBits % Nat.pow 2 11
  let fraction := bits % Nat.pow 2 fractionBits
  if field = topField then
    if fraction = 0 then .infinite negative else .nan
  else if field = 0 then
    .finite ⟨negative, fraction, leastExponent⟩
  else
    .finite ⟨negative, Nat.pow 2 fractionBits + fraction, leastExponent + (field - 1 : Int)⟩

/-- The magnitude as a quotient of natural numbers. -/
def Finite.quotient (v : Finite) : Nat × Nat :=
  if 0 ≤ v.exponent then (v.mantissa * Nat.pow 2 v.exponent.toNat, 1)
  else (v.mantissa, Nat.pow 2 (-v.exponent).toNat)

/-- The double with the given sign and the given bits below it. -/
def ofMagnitude (negative : Bool) (bits : Nat) : Float :=
  Float.ofBits (UInt64.ofNat ((if negative then Nat.pow 2 63 else 0) + bits))

/-- The bits of infinity without its sign. -/
def infinityBits : Nat := topField * Nat.pow 2 fractionBits

/-- The bits of the double nearest to `mantissa * 2 ^ exponent`, where the
mantissa has at most 53 bits and the exponent is at least the least one.  The
exponent field counts how far the exponent is above the least one, and a mantissa
of 53 bits adds one to it by itself. -/
def assemble (mantissa : Nat) (exponent : Int) : Nat :=
  min (mantissa + (exponent - leastExponent).toNat * Nat.pow 2 fractionBits) infinityBits

/-- The double nearest to `num / den`, a half to the even neighbour; infinite when
the quotient is at least half a place beyond the largest double. -/
def nearest (negative : Bool) (num den : Nat) : Float :=
  if num = 0 || den = 0 then
    ofMagnitude negative 0
  else
    -- a quotient of `a` bits by `b` bits lies between `2 ^ (a - b - 1)` and `2 ^ (a - b + 1)`
    let guess : Int := (num.log2 : Int) - (den.log2 : Int)
    let atLeast := if 0 ≤ guess then den * Nat.pow 2 guess.toNat ≤ num
      else den ≤ num * Nat.pow 2 (-guess).toNat
    let top : Int := if atLeast then guess else guess - 1
    let place : Int := max leastExponent (top - fractionBits)
    let mantissa :=
      if 0 ≤ place then roundDiv num (den * Nat.pow 2 place.toNat)
      else roundDiv (num * Nat.pow 2 (-place).toNat) den
    ofMagnitude negative (assemble mantissa place)

/-- The remainder of a division whose quotient is cut towards zero; it has the
sign of the dividend. -/
def remainder (x y : Float) : Float :=
  match view x, view y with
  | .finite a, .finite b =>
    if b.mantissa = 0 then
      Float.ofBits 0x7FF8000000000000
    else
      let place := min a.exponent b.exponent
      let left := a.mantissa * Nat.pow 2 (a.exponent - place).toNat
      let right := b.mantissa * Nat.pow 2 (b.exponent - place).toNat
      let rest := left % right
      if 0 ≤ place then nearest a.negative (rest * Nat.pow 2 place.toNat) 1
      else nearest a.negative rest (Nat.pow 2 (-place).toNat)
  | .finite _, .infinite _ => x
  | _, _ => Float.ofBits 0x7FF8000000000000

end Binary64

end XmlTree
