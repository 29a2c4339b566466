/-
  Number/Rounding.lean --- quotients of natural numbers, rounded to the nearest.
-/
set_option autoImplicit false

namespace XmlTree

/-- `num / den` rounded to the nearest natural number, a half to the even
neighbour. -/
def roundDiv (num den : Nat) : Nat :=
  let q := num / den
  let r := num % den
  if den < 2 * r then q + 1
  else if 2 * r = den then q + q % 2
  else q

end XmlTree
