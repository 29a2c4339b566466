/-
  Encoding/Codec.lean --- texts to bytes and bytes to texts.

  Writing is `Encoding.encode`.  Reading comes twice: `decodeStrict` answers the
  offset of the first malformed byte, `decodeLossy` puts the replacement
  character there and reads on; only the latter takes a byte order mark off
  first.  The two share no reader but that of UTF-8.
-/
import XmlTree.Encoding.Units

set_option autoImplicit false

namespace XmlTree

namespace Encoding

/-! ## Writing -/

/-- The two bytes of a unit. -/
def ByteOrder.bytes16 (order : ByteOrder) (u : Nat) : Bytes :=
  let low := UInt8.ofNat (u % 256)
  let high := UInt8.ofNat (u / 256)
  match order with
  | lowFirst => [low, high]
  | highFirst => [high, low]

/-- The four bytes of a unit. -/
def ByteOrder.bytes32 (order : ByteOrder) (u : Nat) : Bytes :=
  let b0 := UInt8.ofNat (u % 256)
  let b1 := UInt8.ofNat (u / 256 % 256)
  let b2 := UInt8.ofNat (u / 65536 % 256)
  let b3 := UInt8.ofNat (u / 16777216)
  match order with
  | lowFirst => [b0, b1, b2, b3]
  | highFirst => [b3, b2, b1, b0]

/-- A character in UTF-16: one unit, or a surrogate pair beyond U+FFFF. -/
def utf16Bytes (order : ByteOrder) (c : Char) : Bytes :=
  let n := c.toNat
  if n < 0x10000 then
    order.bytes16 n
  else
    let m := n - 0x10000
    order.bytes16 (0xD800 + m / 1024) ++ order.bytes16 (0xDC00 + m % 1024)

/-- A character in UTF-8. -/
def utf8Bytes (c : Char) : Bytes :=
  let n := c.toNat
  if n < 0x80 then
    [UInt8.ofNat n]
  else if n < 0x800 then
    [UInt8.ofNat (0xC0 + n / 64), UInt8.ofNat (0x80 + n % 64)]
  else if n < 0x10000 then
    [UInt8.ofNat (0xE0 + n / 4096), UInt8.ofNat (0x80 + n / 64 % 64),
      UInt8.ofNat (0x80 + n % 64)]
  else
    [UInt8.ofNat (0xF0 + n / 262144), UInt8.ofNat (0x80 + n / 4096 % 64),
      UInt8.ofNat (0x80 + n / 64 % 64), UInt8.ofNat (0x80 + n % 64)]

/-- A character in Latin-1, `?` standing for what it does not have. -/
def latin1Byte (c : Char) : UInt8 :=
  if c.toNat < 256 then UInt8.ofNat c.toNat else 0x3F

/-- A character in the output encoding that `e` stands for. -/
def encodeChar (e : Encoding) (c : Char) : Bytes :=
  match e.forOutput with
  | utf16le => utf16Bytes .lowFirst c
  | utf16be => utf16Bytes .highFirst c
  | utf32le => ByteOrder.lowFirst.bytes32 c.toNat
  | utf32be => ByteOrder.highFirst.bytes32 c.toNat
  | latin1 => [latin1Byte c]
  | _ => utf8Bytes c

/-- A text in the output encoding that `e` stands for. -/
def encode (e : Encoding) (text : String) : Bytes :=
  text.toList.flatMap e.encodeChar

/-! ## Reading -/

/-- The characters of segments of which none is malformed; otherwise the offset
of the first malformed one, counted from `offset`. -/
def charsOfSegments (offset : Nat) : List Segment → Except Nat (List Char)
  | [] => .ok []
  | .char c n :: rest =>
    match charsOfSegments (offset + n) rest with
    | .ok cs => .ok (c :: cs)
    | .error at_ => .error at_
  | .malformed _ :: _ => .error offset

/-- The characters of bytes in UTF-8, or the offset of the first that are none. -/
def utf8Strict (input : Bytes) : Except Nat (List Char) := charsOfSegments 0 (utf8.segments input)

/-- The characters of bytes in UTF-8, with the replacement character for each malformed
segment; there is nothing to replace in bytes that are well-formed. -/
def utf8Lossy (input : Bytes) : List Char :=
  match utf8Strict input with
  | .ok cs => cs
  | .error _ => (utf8.segments input).map Segment.charOrReplacement

/-- The text that the bytes spell, or the offset of the first byte that spells
none. -/
def decodeStrict (e : Encoding) (input : Bytes) : Except Nat String :=
  let chars := match e.forOutput with
    | utf16le => utf16Strict .lowFirst 0 input
    | utf16be => utf16Strict .highFirst 0 input
    | utf32le => utf32Strict .lowFirst 0 input
    | utf32be => utf32Strict .highFirst 0 input
    | latin1 => .ok (input.map latin1Char)
    | _ => utf8Strict input
  chars.map String.ofList

/-- The name of the encoding in messages. -/
def title : Encoding → String
  | auto => "Auto"
  | utf8 => "Utf8"
  | utf16le => "Utf16Le"
  | utf16be => "Utf16Be"
  | utf16 => "Utf16"
  | utf32le => "Utf32Le"
  | utf32be => "Utf32Be"
  | utf32 => "Utf32"
  | wchar => "Wchar"
  | latin1 => "Latin1"

/-- What is said about bytes of which the one at `offset` spells no text. -/
def malformedMessage (e : Encoding) (offset : Nat) : String :=
  "Invalid " ++ e.title ++ " data at byte " ++ String.ofList (Nat.toDigits 10 offset)

/-- The bytes without the encoding's byte order mark at their start. -/
def dropByteOrderMark (e : Encoding) (input : Bytes) : Bytes :=
  let mark := e.byteOrderMark
  if mark.isPrefixOf input then input.drop mark.length else input

/-- The text that the bytes spell after a byte order mark, with the replacement
character for what is malformed. -/
def decodeLossy (e : Encoding) (input : Bytes) : String :=
  let input := e.dropByteOrderMark input
  String.ofList <|
    match e.forOutput with
    | utf16le => utf16Lossy .lowFirst input
    | utf16be => utf16Lossy .highFirst input
    | utf32le => utf32Lossy .lowFirst input
    | utf32be => utf32Lossy .highFirst input
    | latin1 => input.map latin1Char
    | _ => utf8Lossy input

end Encoding

end XmlTree
