/-
  Query/Value.lean --- the values of expressions.

  WHAT THIS FILE IS FOR.  A value is a node-set, a truth value, a number or a text.
  Each can be read as each of the last three; a node-set is read through the text of
  its first node in document order.
-/
import XmlTree.Query.NodeSet
import XmlTree.Query.Number

set_option autoImplicit false

namespace XmlTree

/-- The value of an expression. -/
inductive Value where
  | nodeSet (nodes : NodeSet)
  | boolean (value : Bool)
  | number (value : Float)
  | string (value : String)
  deriving Repr, Inhabited

/-- The text of a tree node: its own for a leaf; for an element or the document its
embedded text and all character data below it. -/
def Document.stringValueOf (doc : Document) (id : NodeId) : String :=
  match doc.kind id with
  | .pcdata | .cdata | .comment | .pi => doc.value id
  | .element | .document =>
    (doc.descendants id).foldl
      (fun text d => if (doc.kind d).isText then text ++ doc.value d else text) (doc.value id)
  | _ => ""

/-- The text of a node or attribute. -/
def Document.stringValue (doc : Document) : QueryNode → String
  | .null => ""
  | .node id => doc.stringValueOf id
  | .attribute attr _ => doc.attrValue attr

/-- The number that the text of a node spells. -/
def Document.numberValue (doc : Document) (n : QueryNode) : Float :=
  parseNumber (doc.stringValue n)

namespace Value

/-- The type of a value. -/
def type : Value → ValueType
  | nodeSet _ => .nodeSet
  | boolean _ => .boolean
  | number _ => .number
  | string _ => .string

/-- The value that a variable of a type has at first. -/
def initial : ValueType → Value
  | .nodeSet => nodeSet .empty
  | .number => number 0
  | .boolean => boolean false
  | _ => string ""

theorem type_initial {type : ValueType} (h : type ≠ .none) : (initial type).type = type := by
  cases type with
  | none => exact absurd rfl h
  | nodeSet | number | string | boolean => rfl

/-- A value read as a truth value: a set with a node, a number other than zero, a
text with a character. -/
def toBoolean : Value → Bool
  | nodeSet s => !s.nodes.isEmpty
  | boolean b => b
  | number x => x != 0 && !x.isNaN
  | string s => !s.isEmpty

/-- A truth value read as a number. -/
def numberOfBool (b : Bool) : Float := if b then 1 else 0

/-- A value read as a text. -/
def toText (order : DocumentOrder) : Value → String
  | nodeSet s => order.doc.stringValue (s.first order)
  | boolean b => if b then "true" else "false"
  | number x => formatNumber x
  | string s => s

/-- A value read as a number. -/
def toNumber (order : DocumentOrder) : Value → Float
  | nodeSet s => parseNumber (toText order (nodeSet s))
  | boolean b => numberOfBool b
  | number x => x
  | string s => parseNumber s

/-- The node-set that a value is; empty for other values. -/
def toNodeSet : Value → NodeSet
  | nodeSet s => s
  | _ => .empty

end Value

end XmlTree
