/-
  Query/Fold.lean --- evaluating constant parts beforehand.

  WHAT THIS FILE IS FOR.  An operator or function whose operands are literals has the
  same value at every place, unless it looks at the context or at a tree.  Such parts
  are replaced by a literal, from the inside out.
-/
import XmlTree.Query.Eval

set_option autoImplicit false

namespace XmlTree

namespace Expr

/-- Whether an expression is a literal. -/
def isLiteral : Expr → Bool
  | number _ | string _ | boolean _ => true
  | _ => false

/-- The literal for a value; a node-set has none. -/
def ofValue? : Value → Option Expr
  | .number x => some (number x)
  | .string s => some (string s)
  | .boolean b => some (boolean b)
  | .nodeSet _ => none

/-- Where literals are evaluated: no nodes and no variables. -/
def nowhere : Environment := ⟨Document.new.order, .empty⟩

/-- The literal that has the value of an expression of literals. -/
def evaluated (e : Expr) : Expr := (ofValue? (e.eval nowhere (.only .null))).getD e

/-- The negative of an expression; of a number, the number. -/
def negated : Expr → Expr
  | number x => number (-x)
  | e => negate e

end Expr

mutual

/-- The expression with its constant parts evaluated. -/
def Expr.fold : Expr → Expr
  | .step axis test predicates => .step axis test (foldAll predicates)
  | .path input axis test predicates => .path input.fold axis test (foldAll predicates)
  | .filter base predicates => .filter base.fold (foldAll predicates)
  | .negate operand => operand.fold.negated
  | .binary op left right =>
    let left := left.fold
    let right := right.fold
    let folded := Expr.binary op left right
    if op != .union && left.isLiteral && right.isLiteral then folded.evaluated else folded
  | .call f arguments =>
    let arguments := foldAll arguments
    let folded := Expr.call f arguments
    if f.isPure arguments.length && arguments.all Expr.isLiteral then folded.evaluated else folded
  | e => e

/-- Several expressions with their constant parts evaluated. -/
def Expr.foldAll : List Expr → List Expr
  | [] => []
  | e :: es => e.fold :: foldAll es

end

end XmlTree
