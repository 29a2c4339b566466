/-
  Encoding/Basic.lean --- the character encodings, and how each is found.

  WHAT THIS FILE IS FOR.  An encoding may be named outright, named by a family
  whose byte order is that of the machine, or left open.  This file says which
  concrete encoding is then meant: for reading by looking at the first bytes, for
  writing always UTF-8.

  THE MACHINE.  The byte order of the machine is taken to be little-endian and
  its wide character to have four bytes; `Encoding.concrete` is the only place
  that knows.
-/
import XmlTree.Text.Chars

set_option autoImplicit false

namespace XmlTree

/-- A sequence of bytes. -/
abbrev Bytes : Type := List UInt8

/-- A character encoding, possibly left open. -/
inductive Encoding where
  /-- found from the bytes when reading, UTF-8 when writing -/
  | auto
  | utf8
  /-- UTF-16, low byte first -/
  | utf16le
  /-- UTF-16, high byte first -/
  | utf16be
  /-- UTF-16 in the byte order of the machine -/
  | utf16
  /-- UTF-32, low byte first -/
  | utf32le
  /-- UTF-32, high byte first -/
  | utf32be
  /-- UTF-32 in the byte order of the machine -/
  | utf32
  /-- the wide character of the machine -/
  | wchar
  /-- ISO-8859-1: a byte for each of the first 256 characters -/
  | latin1
  deriving DecidableEq, Repr, Inhabited

namespace Encoding

/-- The encoding with the machine's byte order filled in. -/
def concrete : Encoding → Encoding
  | utf16 => utf16le
  | utf32 => utf32le
  | wchar => utf32le
  | e => e

/-- The encoding that output is written in. -/
def forOutput : Encoding → Encoding
  | auto => utf8
  | e => e.concrete

/-- The mark that announces the encoding at the start of a file; Latin-1 has
none. -/
def byteOrderMark (e : Encoding) : Bytes :=
  match e.forOutput with
  | utf8 => [0xEF, 0xBB, 0xBF]
  | utf16le => [0xFF, 0xFE]
  | utf16be => [0xFE, 0xFF]
  | utf32le => [0xFF, 0xFE, 0x00, 0x00]
  | utf32be => [0x00, 0x00, 0xFE, 0xFF]
  | _ => []

/-! ## Finding the encoding of given bytes -/

/-- A byte read as the character with that number. -/
def latin1Char (b : UInt8) : Char := Char.ofNat b.toNat

/-- The name that a leading declaration `<?xml … encoding="name" … ?>` gives, if
the bytes begin with one.  Only the first `encoding` in it counts, and it must be
followed by a quoted name. -/
def declaredName? (input : Bytes) : Option (List Char) := do
  let text := input.map latin1Char
  let _ ← dropMark? "<?xml".toList text
  let (declaration, _) ← cutAt? "?>".toList text
  let (_, after) ← cutAt? "encoding".toList declaration
  match after.dropWhile fun c => isSpace c || c == '=' with
  | quote :: rest =>
    if quote == '"' || quote == '\'' then
      (cutAt? [quote] rest).map Prod.fst
    else
      none
  | [] => none

/-- Whether a leading declaration names Latin-1. -/
def declaresLatin1 (input : Bytes) : Bool :=
  match declaredName? input with
  | some name =>
    eqIgnoringCase name "latin1".toList || eqIgnoringCase name "iso-8859-1".toList
  | none => false

/-- The encoding that the first bytes announce: by a byte order mark, by a null
byte beside `<`, by a declaration that names Latin-1; otherwise UTF-8. -/
def detect (input : Bytes) : Encoding :=
  match input with
  | 0x00 :: 0x00 :: 0xFE :: 0xFF :: _ => utf32be
  | 0xFF :: 0xFE :: 0x00 :: 0x00 :: _ => utf32le
  | 0x00 :: 0x00 :: 0x00 :: 0x3C :: _ => utf32be
  | 0x3C :: 0x00 :: 0x00 :: 0x00 :: _ => utf32le
  | 0xFE :: 0xFF :: _ => utf16be
  | 0xFF :: 0xFE :: _ => utf16le
  | 0xEF :: 0xBB :: 0xBF :: _ => utf8
  | 0x00 :: 0x3C :: _ => utf16be
  | 0x3C :: 0x00 :: _ => utf16le
  | _ => if declaresLatin1 input then latin1 else utf8

/-- The encoding that `input` is read in. -/
def forInput (e : Encoding) (input : Bytes) : Encoding :=
  match e with
  | auto => detect input
  | e => e.concrete

end Encoding

end XmlTree
