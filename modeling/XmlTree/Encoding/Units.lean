/-
  Encoding/Units.lean --- UTF-16 and UTF-32, read in two ways.

  WHAT THIS FILE IS FOR.  A text in units of two or four bytes is read by two readers that
  have nothing in common but the units.  The one that replaces what is malformed takes all
  units first, makes characters of them, and looks last at whether bytes are left over.  The
  one that refuses walks over the bytes with the offset at which it stands, and answers that
  offset.

  SURROGATES.  A unit of UTF-16 from U+D800 to U+DFFF is half of a character.  A first half is
  taken together with the unit behind it if that is a second half, and otherwise stands alone;
  then the unit behind it is read on its own.
-/
import XmlTree.Text.Reference
import XmlTree.Encoding.Segments

set_option autoImplicit false

namespace XmlTree

namespace Encoding

/-- The number of the character that two halves make. -/
def surrogatePair (lead trail : Nat) : Nat := 0x10000 + (lead - 0xD800) * 1024 + (trail - 0xDC00)

/-! ## Replacing what is malformed -/

/-- The units of two bytes; a byte that is left over is none. -/
def units16 (order : ByteOrder) : Bytes → List Nat
  | a :: b :: rest => order.unit16 a b :: units16 order rest
  | _ => []

/-- The units of four bytes; bytes that are left over are none. -/
def units32 (order : ByteOrder) : Bytes → List Nat
  | a :: b :: c :: d :: rest => order.unit32 a b c d :: units32 order rest
  | _ => []

/-- The characters that units of UTF-16 make, and none for each half that stands alone. -/
def charsOfUnits : List Nat → List (Option Char)
  | [] => []
  | [u] => [charOfNumber? u]
  | u :: v :: us =>
    if isHighSurrogate u then
      if isLowSurrogate v then charOfNumber? (surrogatePair u v) :: charsOfUnits us
      else none :: charsOfUnits (v :: us)
    else charOfNumber? u :: charsOfUnits (v :: us)

/-- The replacement character for what is none, and one more for bytes that are left over. -/
def replaceMissing (chars : List (Option Char)) (left : Bool) : List Char :=
  chars.map (fun c => c.getD '\uFFFD') ++ if left then ['\uFFFD'] else []

/-- The characters of bytes in UTF-16. -/
def utf16Lossy (order : ByteOrder) (bytes : Bytes) : List Char :=
  replaceMissing (charsOfUnits (units16 order bytes)) (bytes.length % 2 != 0)

/-- The characters of bytes in UTF-32. -/
def utf32Lossy (order : ByteOrder) (bytes : Bytes) : List Char :=
  replaceMissing ((units32 order bytes).map charOfNumber?) (bytes.length % 4 != 0)

/-! ## Refusing what is malformed -/

/-- The character with number `n` in front of others; the offset if there is none. -/
def charAt (offset n : Nat) (others : Except Nat (List Char)) : Except Nat (List Char) :=
  match charOfNumber? n with
  | some c => others.map (c :: ·)
  | none => .error offset

/-- The characters of bytes in UTF-16 of which the first one stands at `offset`, or the offset
of the first unit that is not a part of one. -/
def utf16Strict (order : ByteOrder) (offset : Nat) : Bytes → Except Nat (List Char)
  | [] => .ok []
  | [_] => .error offset
  | a :: b :: rest =>
    let lead := order.unit16 a b
    if isHighSurrogate lead then
      match rest with
      | c :: d :: rest =>
        let trail := order.unit16 c d
        if isLowSurrogate trail then
          charAt offset (surrogatePair lead trail) (utf16Strict order (offset + 4) rest)
        else .error offset
      | _ => .error offset
    else if isLowSurrogate lead then .error offset
    else charAt offset lead (utf16Strict order (offset + 2) rest)

/-- The characters of bytes in UTF-32 of which the first one stands at `offset`, or the offset
of the first four bytes, or fewer at the end, that are none. -/
def utf32Strict (order : ByteOrder) (offset : Nat) : Bytes → Except Nat (List Char)
  | [] => .ok []
  | a :: b :: c :: d :: rest =>
    charAt offset (order.unit32 a b c d) (utf32Strict order (offset + 4) rest)
  | _ => .error offset

end Encoding

end XmlTree
