/-
  Options.lean --- the two sets of switches: for reading and for writing markup.

  Both sets are masks of 32 bits whose values are stable, so a mask can be stored
  and passed around; bits without a meaning are kept.  Combining two masks unites
  their switches.
-/
set_option autoImplicit false

namespace XmlTree

/-- The digits of a number to the base sixteen, in lower case. -/
def hexDigits (n : Nat) : String := String.ofList (Nat.toDigits 16 n)

/-! ## Reading -/

/-- What a load does with the constructs it meets. -/
structure ParseOptions where
  bits : UInt32
  deriving DecidableEq, Repr, Inhabited

namespace ParseOptions

/-- Elements, attributes and character data, taken as they stand. -/
def minimal : ParseOptions := ⟨0x0000⟩
/-- Make nodes of processing instructions. -/
def pi : ParseOptions := ⟨0x0001⟩
/-- Make nodes of comments. -/
def comments : ParseOptions := ⟨0x0002⟩
/-- Make nodes of CDATA sections. -/
def cdata : ParseOptions := ⟨0x0004⟩
/-- Keep character data that is white space only. -/
def wsPcdata : ParseOptions := ⟨0x0008⟩
/-- Decode character references. -/
def escapes : ParseOptions := ⟨0x0010⟩
/-- Write every line end as a line feed. -/
def eol : ParseOptions := ⟨0x0020⟩
/-- Turn each white space character of an attribute value into a space. -/
def wconvAttribute : ParseOptions := ⟨0x0040⟩
/-- Trim attribute values and join their runs of white space. -/
def wnormAttribute : ParseOptions := ⟨0x0080⟩
/-- Make a node of the document's declaration. -/
def declaration : ParseOptions := ⟨0x0100⟩
/-- Make a node of the document type. -/
def doctype : ParseOptions := ⟨0x0200⟩
/-- Keep white character data that is the only content of its element. -/
def wsPcdataSingle : ParseOptions := ⟨0x0400⟩
/-- Trim character data. -/
def trimPcdata : ParseOptions := ⟨0x0800⟩
/-- Accept text without an element, and keep character data at the top. -/
def fragment : ParseOptions := ⟨0x1000⟩
/-- Store the first character data of an element in the element itself. -/
def embedPcdata : ParseOptions := ⟨0x2000⟩
/-- Join character data to the character data before it. -/
def mergePcdata : ParseOptions := ⟨0x4000⟩

/-- The union of two sets of switches. -/
def union (a b : ParseOptions) : ParseOptions := ⟨a.bits ||| b.bits⟩
/-- The switches that both sets hold. -/
def inter (a b : ParseOptions) : ParseOptions := ⟨a.bits &&& b.bits⟩
/-- The switches that the set does not hold. -/
def complement (a : ParseOptions) : ParseOptions := ⟨~~~a.bits⟩
/-- The switches of `a` that are not in `b`. -/
def without (a b : ParseOptions) : ParseOptions := ⟨a.bits &&& ~~~b.bits⟩
/-- Whether every switch of `b` is in `a`. -/
def contains (a b : ParseOptions) : Bool := a.bits &&& b.bits == b.bits
/-- Whether some switch of `b` is in `a`. -/
def intersects (a b : ParseOptions) : Bool := a.bits &&& b.bits != 0

/-- CDATA sections, references, and the usual conversions of line ends and
attribute white space. -/
def default : ParseOptions := (((cdata.union escapes).union wconvAttribute).union eol)

/-- As `default`, with a node for every construct. -/
def full : ParseOptions :=
  (((default.union pi).union comments).union declaration).union doctype

/-- How a mask is shown to a programmer. -/
def describe (a : ParseOptions) : String :=
  "ParseOptions(0x" ++ hexDigits a.bits.toNat ++ ")"

end ParseOptions

/-! ## Writing -/

/-- How a tree is written as markup. -/
structure FormatOptions where
  bits : UInt32
  deriving DecidableEq, Repr, Inhabited

namespace FormatOptions

/-- Indent nested nodes. -/
def indent : FormatOptions := ⟨0x0001⟩
/-- Write the byte order mark of the encoding first. -/
def writeBom : FormatOptions := ⟨0x0002⟩
/-- Write no white space that the tree does not hold. -/
def raw : FormatOptions := ⟨0x0004⟩
/-- Add no declaration. -/
def noDeclaration : FormatOptions := ⟨0x0008⟩
/-- Write texts and attribute values as they are. -/
def noEscapes : FormatOptions := ⟨0x0010⟩
/-- Open files in text mode. -/
def saveFileText : FormatOptions := ⟨0x0020⟩
/-- Put each attribute on a line of its own. -/
def indentAttributes : FormatOptions := ⟨0x0040⟩
/-- Close childless elements with an end tag. -/
def noEmptyElementTags : FormatOptions := ⟨0x0080⟩
/-- Leave control characters out. -/
def skipControlChars : FormatOptions := ⟨0x0100⟩
/-- Put attribute values between apostrophes. -/
def attributeSingleQuote : FormatOptions := ⟨0x0200⟩

/-- The union of two sets of switches. -/
def union (a b : FormatOptions) : FormatOptions := ⟨a.bits ||| b.bits⟩
/-- The switches that both sets hold. -/
def inter (a b : FormatOptions) : FormatOptions := ⟨a.bits &&& b.bits⟩
/-- The switches that the set does not hold. -/
def complement (a : FormatOptions) : FormatOptions := ⟨~~~a.bits⟩
/-- The switches of `a` that are not in `b`. -/
def without (a b : FormatOptions) : FormatOptions := ⟨a.bits &&& ~~~b.bits⟩
/-- Whether every switch of `b` is in `a`. -/
def contains (a b : FormatOptions) : Bool := a.bits &&& b.bits == b.bits
/-- Whether some switch of `b` is in `a`. -/
def intersects (a b : FormatOptions) : Bool := a.bits &&& b.bits != 0

/-- Indented output. -/
def default : FormatOptions := indent

/-- How a mask is shown to a programmer. -/
def describe (a : FormatOptions) : String :=
  "FormatOptions(0x" ++ hexDigits a.bits.toNat ++ ")"

end FormatOptions

end XmlTree
