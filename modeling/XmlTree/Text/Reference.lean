/-
  Text/Reference.lean --- character references and what they stand for.

  A reference is `&` body `;`.  The body is one of five names, `#` with decimal
  digits, or `#x` with hexadecimal digits, and it is at most ten characters long,
  the length of `#x0010FFFF`.  What is not a reference in this sense stands for
  itself, so reading references never fails.
-/
import XmlTree.Text.Chars

set_option autoImplicit false

namespace XmlTree

/-! ## Numerals -/

/-- The value of a digit to the given base, in either case. -/
def digitValue? (base : Nat) (c : Char) : Option Nat :=
  let value? :=
    if c.isDigit then some (c.toNat - '0'.toNat)
    else if 'a' ≤ c && c ≤ 'z' then some (c.toNat - 'a'.toNat + 10)
    else if 'A' ≤ c && c ≤ 'Z' then some (c.toNat - 'A'.toNat + 10)
    else none
  value?.filter (· < base)

/-- The number that digits continue, read from the left. -/
def numeralFrom? (base : Nat) (value : Nat) : List Char → Option Nat
  | [] => some value
  | c :: cs =>
    match digitValue? base c with
    | some d => numeralFrom? base (value * base + d) cs
    | none => none

/-- The number that at least one digit, and nothing but digits, spell. -/
def numeral? (base : Nat) : List Char → Option Nat
  | [] => none
  | cs => numeralFrom? base 0 cs

/-- The least number that takes more than 32 bits. -/
def wordLimit : Nat := 0x100000000

/-- The number of 32 bits that a numeral spells, which may have a plus sign in front. -/
def word? (base : Nat) (cs : List Char) : Option Nat :=
  let digits := match cs with
    | '+' :: digits => digits
    | digits => digits
  (numeral? base digits).filter (· < wordLimit)

/-- The character with the given number, if there is one. -/
def charOfNumber? (n : Nat) : Option Char :=
  if n.isValidChar then some (Char.ofNat n) else none

/-! ## References -/

/-- The character whose number is spelled in decimal digits, or in hexadecimal ones behind an
`x`.  What reads the number takes a sign, so a number with a sign is refused after that. -/
def numberedChar? (number : List Char) : Option Char :=
  let value? := match number with
    | 'x' :: digits => word? 16 digits
    | digits => word? 10 digits
  value?.bind fun n => if number.contains '+' then none else charOfNumber? n

/-- The character that the body of a reference names. -/
def referencedChar? (body : List Char) : Option Char :=
  if body = "lt".toList then some '<'
  else if body = "gt".toList then some '>'
  else if body = "amp".toList then some '&'
  else if body = "quot".toList then some '"'
  else if body = "apos".toList then some '\''
  else
    match body with
    | '#' :: number => numberedChar? number
    | _ => none

/-- The greatest length of the body of a reference. -/
def referenceBodyLimit : Nat := 10

/-- The reference whose body begins the text: its character and what follows its
semicolon.  Only as many characters are looked at as a body may have. -/
def reference? (afterAmpersand : List Char) : Option (Char × List Char) :=
  let body := (afterAmpersand.take referenceBodyLimit).takeWhile (· != ';')
  match afterAmpersand.drop body.length with
  | ';' :: rest => (referencedChar? body).map fun c => (c, rest)
  | _ => none

theorem length_of_reference? {cs rest : List Char} {c : Char}
    (h : reference? cs = some (c, rest)) : rest.length < cs.length := by
  simp only [reference?] at h
  split at h
  · rename_i after hdrop
    simp only [Option.map_eq_some_iff, Prod.mk.injEq] at h
    obtain ⟨_, _, _, rfl⟩ := h
    have := congrArg List.length hdrop
    simp at this
    omega
  · simp at h

/-- The text with every reference replaced, from left to right; a replaced
character is never read again. -/
def decodeReferences : List Char → List Char
  | [] => []
  | c :: cs =>
    if c = '&' then
      match _h : reference? cs with
      | some (d, rest) => d :: decodeReferences rest
      | none => '&' :: decodeReferences cs
    else
      c :: decodeReferences cs
termination_by cs => cs.length
decreasing_by
  · have := length_of_reference? _h; simp; omega
  · simp
  · simp

/-- What is done at an ampersand. -/
theorem decodeReferences_ampersand (cs : List Char) :
    decodeReferences ('&' :: cs) =
      match reference? cs with
      | some (c, rest) => c :: decodeReferences rest
      | none => '&' :: decodeReferences cs := by
  rw [decodeReferences, if_pos rfl]
  split <;> simp_all

/-- Any other character stands for itself. -/
theorem decodeReferences_cons {c : Char} (h : c ≠ '&') (rest : List Char) :
    decodeReferences (c :: rest) = c :: decodeReferences rest := by
  rw [decodeReferences, if_neg h]

end XmlTree
