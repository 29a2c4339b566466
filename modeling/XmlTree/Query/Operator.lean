/-
  Query/Operator.lean --- the operators between two values.

  COMPARISONS.  A node-set is compared node by node: it stands in a relation when one
  of its nodes does.  Against a truth value it is first read as one, but only by `=`
  and `!=`.  Of two other values, `=` and `!=` compare as truth values if one is, else
  as numbers if one is, else as texts; the other comparisons compare numbers.
-/
import XmlTree.Query.Value
import XmlTree.Number.Binary64

set_option autoImplicit false

namespace XmlTree

namespace Value

/-- Whether two values are equal, or are different when `equal` is false. -/
def compareEqual (order : DocumentOrder) (equal : Bool) (a b : Value) : Bool :=
  let doc := order.doc
  let someNode (s : NodeSet) : Value → Bool
    | .nodeSet t =>
      let others := t.nodes.map doc.stringValue
      s.nodes.any fun n =>
        let text := doc.stringValue n
        others.any fun o => (text == o) == equal
    | .boolean b => ((!s.nodes.isEmpty) == b) == equal
    | .number x => s.nodes.any fun n => (doc.numberValue n == x) == equal
    | .string text => s.nodes.any fun n => (doc.stringValue n == text) == equal
  match a, b with
  | .nodeSet s, b => someNode s b
  | a, .nodeSet t => someNode t a
  | .boolean x, b => (x == b.toBoolean) == equal
  | a, .boolean y => (a.toBoolean == y) == equal
  | .number x, b => (x == b.toNumber order) == equal
  | a, .number y => (a.toNumber order == y) == equal
  | .string x, .string y => (x == y) == equal

/-- The numbers that a value is compared by: one for each node, or its own. -/
def comparedNumbers (order : DocumentOrder) : Value → List Float
  | nodeSet s => s.nodes.map order.doc.numberValue
  | v => [v.toNumber order]

/-- Whether a relation holds between some numbers of two values. -/
def compareNumbers (order : DocumentOrder) (holds : Float → Float → Bool) (a b : Value) : Bool :=
  let others := b.comparedNumbers order
  (a.comparedNumbers order).any fun x => others.any fun y => holds x y

end Value

namespace BinaryOp

/-- The value of an operator. -/
def apply (order : DocumentOrder) (op : BinaryOp) (a b : Value) : Value :=
  match op with
  | or => .boolean (a.toBoolean || b.toBoolean)
  | and => .boolean (a.toBoolean && b.toBoolean)
  | eq => .boolean (a.compareEqual order true b)
  | notEq => .boolean (a.compareEqual order false b)
  | lt => .boolean (a.compareNumbers order (fun x y => x < y) b)
  | ltEq => .boolean (a.compareNumbers order (fun x y => x ≤ y) b)
  | gt => .boolean (a.compareNumbers order (fun x y => x > y) b)
  | gtEq => .boolean (a.compareNumbers order (fun x y => x ≥ y) b)
  | add => .number (a.toNumber order + b.toNumber order)
  | sub => .number (a.toNumber order - b.toNumber order)
  | mul => .number (a.toNumber order * b.toNumber order)
  | div => .number (a.toNumber order / b.toNumber order)
  | mod => .number (Binary64.remainder (a.toNumber order) (b.toNumber order))
  | union => .nodeSet (a.toNodeSet.union b.toNodeSet)

/-- Whether the first operand alone decides what the value is: a true one of `or`, a
false one of `and`. -/
def settledBy (op : BinaryOp) (a : Value) : Bool :=
  match op with
  | or => a.toBoolean
  | and => !a.toBoolean
  | _ => false

theorem apply_eq_of_settledBy {op : BinaryOp} {a : Value} (h : op.settledBy a = true)
    (order : DocumentOrder) (b : Value) : op.apply order a b = .boolean a.toBoolean := by
  cases op <;> simp_all [settledBy, apply]

end BinaryOp

end XmlTree
