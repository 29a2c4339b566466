/-
  Encoding/Segments.lean --- bytes cut into characters and what is none.

  WHAT THIS FILE IS FOR.  Reading bytes in an encoding cuts them, from left to
  right, into segments: the bytes of one character, or a shortest run that no
  character can begin with.  Both ways of reading --- replacing what is malformed,
  or refusing it --- look at the same segments, so they agree on where the first
  fault is.

  WHERE A FAULT ENDS.  In UTF-8 a malformed run is as long as it could still have
  become a character (the "maximal subpart"); in UTF-16 it is one unit, in UTF-32
  four bytes, and in both it is whatever is left at the end of the input.
-/
import XmlTree.Encoding.Basic

set_option autoImplicit false

namespace XmlTree

/-- One step of reading bytes as characters. -/
inductive Segment where
  /-- the next `width` bytes are the character `value` -/
  | char (value : Char) (width : Nat)
  /-- the next `width` bytes begin no character -/
  | malformed (width : Nat)
  deriving DecidableEq, Repr, Inhabited

namespace Segment

/-- Number of bytes of a segment. -/
def width : Segment → Nat
  | char _ n => n
  | malformed n => n

/-- The character of a segment, with the replacement character for a malformed
one. -/
def charOrReplacement : Segment → Char
  | char c _ => c
  | malformed _ => '\uFFFD'

/-- The character with number `n`, as a segment of `width` bytes; malformed when
there is none. -/
def ofScalar (n width : Nat) : Segment :=
  if n.isValidChar then char (Char.ofNat n) width else malformed width

end Segment

namespace Encoding

/-! ## UTF-8 -/

/-- Whether a byte continues a character. -/
def isContinuation (b : UInt8) : Bool := 0x80 ≤ b && b ≤ 0xBF

/-- The six low bits of a continuation byte. -/
def continuationBits (b : UInt8) : Nat := b.toNat % 64

/-- The least and greatest byte that may follow the lead byte of a character of
three or four bytes; the bounds leave out spellings that are too long, surrogates
and numbers beyond the last character. -/
def secondByteBounds (lead : UInt8) : UInt8 × UInt8 :=
  if lead = 0xE0 then (0xA0, 0xBF)
  else if lead = 0xED then (0x80, 0x9F)
  else if lead = 0xF0 then (0x90, 0xBF)
  else if lead = 0xF4 then (0x80, 0x8F)
  else (0x80, 0xBF)

/-- Whether `b` may follow the lead byte `lead`. -/
def continuesLead (lead b : UInt8) : Bool :=
  (secondByteBounds lead).1 ≤ b && b ≤ (secondByteBounds lead).2

/-- The segment that begins with `lead`, in UTF-8. -/
def utf8Segment (lead : UInt8) (rest : Bytes) : Segment :=
  if lead < 0x80 then
    .char (latin1Char lead) 1
  else if lead < 0xC2 then
    .malformed 1
  else if lead < 0xE0 then
    match rest with
    | b :: _ =>
      if isContinuation b then
        .ofScalar (lead.toNat % 32 * 64 + continuationBits b) 2
      else
        .malformed 1
    | [] => .malformed 1
  else if lead < 0xF0 then
    match rest with
    | b :: c :: _ =>
      if !continuesLead lead b then .malformed 1
      else if !isContinuation c then .malformed 2
      else
        .ofScalar
          (lead.toNat % 16 * 4096 + continuationBits b * 64 + continuationBits c) 3
    | [b] => if continuesLead lead b then .malformed 2 else .malformed 1
    | [] => .malformed 1
  else if lead < 0xF5 then
    match rest with
    | b :: c :: d :: _ =>
      if !continuesLead lead b then .malformed 1
      else if !isContinuation c then .malformed 2
      else if !isContinuation d then .malformed 3
      else
        .ofScalar
          (lead.toNat % 8 * 262144 + continuationBits b * 4096 + continuationBits c * 64
            + continuationBits d) 4
    | [b, c] =>
      if !continuesLead lead b then .malformed 1
      else if isContinuation c then .malformed 3
      else .malformed 2
    | [b] => if continuesLead lead b then .malformed 2 else .malformed 1
    | [] => .malformed 1
  else
    .malformed 1

/-! ## UTF-16 and UTF-32 -/

/-- Order of the bytes of a unit. -/
inductive ByteOrder where
  | lowFirst
  | highFirst
  deriving DecidableEq, Repr, Inhabited

/-- The unit of two bytes. -/
def ByteOrder.unit16 : ByteOrder → UInt8 → UInt8 → Nat
  | lowFirst, a, b => b.toNat * 256 + a.toNat
  | highFirst, a, b => a.toNat * 256 + b.toNat

/-- The unit of four bytes. -/
def ByteOrder.unit32 : ByteOrder → UInt8 → UInt8 → UInt8 → UInt8 → Nat
  | lowFirst, a, b, c, d =>
    d.toNat * 16777216 + c.toNat * 65536 + b.toNat * 256 + a.toNat
  | highFirst, a, b, c, d =>
    a.toNat * 16777216 + b.toNat * 65536 + c.toNat * 256 + d.toNat

/-- Whether a unit is the first half of a surrogate pair. -/
def isHighSurrogate (u : Nat) : Bool := 0xD800 ≤ u && u < 0xDC00

/-- Whether a unit is the second half of a surrogate pair. -/
def isLowSurrogate (u : Nat) : Bool := 0xDC00 ≤ u && u < 0xE000

/-- The segment at the start of `first :: rest`, in UTF-16. -/
def utf16Segment (order : ByteOrder) (first : UInt8) (rest : Bytes) : Segment :=
  match rest with
  | [] => .malformed 1
  | second :: rest =>
    let lead := order.unit16 first second
    if isHighSurrogate lead then
      match rest with
      | a :: b :: _ =>
        let trail := order.unit16 a b
        if isLowSurrogate trail then
          .ofScalar (0x10000 + (lead - 0xD800) * 1024 + (trail - 0xDC00)) 4
        else
          .malformed 2
      | _ => .malformed 2
    else
      .ofScalar lead 2

/-- The segment at the start of `first :: rest`, in UTF-32. -/
def utf32Segment (order : ByteOrder) (first : UInt8) (rest : Bytes) : Segment :=
  match rest with
  | b :: c :: d :: _ => .ofScalar (order.unit32 first b c d) 4
  | rest => .malformed (rest.length + 1)

/-! ## Every encoding -/

/-- The segment at the start of `first :: rest`, in the encoding `e`.  An open
encoding is read as UTF-8. -/
def segment (e : Encoding) (first : UInt8) (rest : Bytes) : Segment :=
  match e.forOutput with
  | utf16le => utf16Segment .lowFirst first rest
  | utf16be => utf16Segment .highFirst first rest
  | utf32le => utf32Segment .lowFirst first rest
  | utf32be => utf32Segment .highFirst first rest
  | latin1 => .char (latin1Char first) 1
  | _ => utf8Segment first rest

/-- The bytes cut into segments from left to right.  A segment has at least one
byte, so the first one is dropped apart from the others. -/
def segments (e : Encoding) : Bytes → List Segment
  | [] => []
  | first :: rest =>
    let s := e.segment first rest
    s :: segments e (rest.drop (s.width - 1))
termination_by bytes => bytes.length
decreasing_by simp only [List.length_drop, List.length_cons]; omega

end Encoding

end XmlTree
