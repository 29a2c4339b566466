/-
  Text/Scanner.lean --- a cursor over the bytes of a text.

  A scanner may be put anywhere, also inside a character and beyond the end, where
  there is nothing to read.  It looks for ASCII marks alone; a byte of a character
  beyond ASCII counts as a letter of a name, so that names are cut between
  characters when the scanner stands between two.
-/
import XmlTree.Text.Slice

set_option autoImplicit false

namespace XmlTree

/-- Whether a byte is white space. -/
def isSpaceByte (b : UInt8) : Bool := b = 0x20 || b = 0x09 || b = 0x0A || b = 0x0D

/-- Whether a byte is an ASCII letter. -/
def isLetterByte (b : UInt8) : Bool := (0x41 ≤ b && b ≤ 0x5A) || (0x61 ≤ b && b ≤ 0x7A)

/-- Whether a name may begin with a byte. -/
def isNameStartByte (b : UInt8) : Bool :=
  isLetterByte b || b = 0x5F || b = 0x3A || 0x80 ≤ b

/-- Whether a name may go on with a byte. -/
def isNameByte (b : UInt8) : Bool :=
  isNameStartByte b || (0x30 ≤ b && b ≤ 0x39) || b = 0x2D || b = 0x2E

/-- A place in the bytes of a text. -/
structure Scanner where
  text : String
  position : Nat
  deriving DecidableEq, Repr, Inhabited

namespace Scanner

/-- The start of a text. -/
def ofText (text : String) : Scanner := ⟨text, 0⟩

/-- The bytes from the place on. -/
def rest (s : Scanner) : List UInt8 := s.text.toUTF8.data.toList.drop s.position

/-- Number of bytes of the text. -/
def size (s : Scanner) : Nat := s.text.utf8ByteSize

/-- Whether nothing is left to read. -/
def atEnd (s : Scanner) : Bool := s.size ≤ s.position

/-- The next byte. -/
def peek? (s : Scanner) : Option UInt8 := s.rest.head?

/-- The scanner `n` bytes further on. -/
def advance (s : Scanner) (n : Nat) : Scanner := { s with position := s.position + n }

/-- The scanner at a place. -/
def moveTo (s : Scanner) (position : Nat) : Scanner := { s with position }

/-- Steps over a byte if it comes next. -/
def eat (s : Scanner) (b : UInt8) : Bool × Scanner :=
  if s.peek? = some b then (true, s.advance 1) else (false, s)

/-- Steps over white space. -/
def skipSpace (s : Scanner) : Scanner := s.advance (s.rest.takeWhile isSpaceByte).length

/-- The first place from which `mark` can be read. -/
def findMark? (s : Scanner) (mark : List UInt8) : Option Nat :=
  go s.rest s.position
where
  /-- Looks at each place in turn. -/
  go (bytes : List UInt8) (position : Nat) : Option Nat :=
    if mark.isPrefixOf bytes then some position
    else
      match bytes with
      | [] => none
      | _ :: rest => go rest (position + 1)

/-- The next place with a byte. -/
def findByte? (s : Scanner) (b : UInt8) : Option Nat := s.findMark? [b]

/-- The next place where a tag begins. -/
def findTagStart? (s : Scanner) : Option Nat := s.findByte? 0x3C

/-- Whether `mark` comes next. -/
def beginsWith (s : Scanner) (mark : List UInt8) : Bool := mark.isPrefixOf s.rest

/-- Steps over a name.  Answers where it begins and ends; none if no name begins
here. -/
def readName (s : Scanner) : Option (Nat × Nat) × Scanner :=
  match s.rest with
  | first :: more =>
    if isNameStartByte first then
      let next := s.advance (1 + (more.takeWhile isNameByte).length)
      (some (s.position, next.position), next)
    else
      (none, s)
  | [] => (none, s)

end Scanner

end XmlTree
