/-
  Number/Scalar.lean --- values that are stored as text.

  A value of one of eight kinds has one text that it is written as.  A text is read as
  a value of the same kind as a given default, which an empty text stands for.
-/
import XmlTree.Number.Text

set_option autoImplicit false

namespace XmlTree

/-- A value that can be stored as text. -/
inductive Scalar where
  | text (value : String)
  /-- an integer of one of the fixed ranges -/
  | integer (range : IntegerRange) (value : Int)
  | double (value : Float)
  | single (value : Float32)
  | boolean (value : Bool)
  deriving Repr, Inhabited

namespace Scalar

/-- The text that a value is stored as. -/
def toText : Scalar → String
  | text s => s
  | integer _ n => toString n
  | double x => formatDouble x
  | single x => formatSingle x
  | boolean b => formatBool b

/-- The value of the same kind as the default that a text that is not empty is read
as. -/
def ofText (default : Scalar) (stored : String) : Scalar :=
  match default with
  | text _ => text stored
  | integer range _ => integer range (range.parse stored)
  | double _ => double (parseDouble stored)
  | single _ => single (parseSingle stored)
  | boolean _ => boolean (parseBool stored)

/-- The value that a text is read as, or the default when the text is empty. -/
def read (default : Scalar) (stored : String) : Scalar :=
  if stored.isEmpty then default else ofText default stored

end Scalar

end XmlTree
