/-
  Query/Expr.lean --- path expressions.

  WHAT THIS FILE IS FOR.  An expression is a tree of steps, filters, calls, operators,
  literals and variables.  Every expression has a type that is known before it is
  evaluated, and the operators, axes and functions are told apart by what they are,
  not by how they are spelled.
-/
import XmlTree.Text.Chars

set_option autoImplicit false

namespace XmlTree

/-! ## Types -/

/-- The type of an expression or variable. -/
inductive ValueType where
  /-- the type of what did not compile -/
  | none
  | nodeSet
  | number
  | string
  | boolean
  deriving DecidableEq, Repr, Inhabited

/-! ## Axes and node tests -/

/-- What is known about the order of a list of nodes. -/
inductive NodeOrder where
  | unsorted
  /-- document order -/
  | sorted
  /-- document order backwards -/
  | reverse
  deriving DecidableEq, Repr, Inhabited

/-- A direction of a step. -/
inductive Axis where
  | child
  | descendant
  | descendantOrSelf
  | parent
  | ancestor
  | ancestorOrSelf
  | followingSibling
  | precedingSibling
  | following
  | preceding
  | self
  | attribute
  | namespace_
  deriving DecidableEq, Repr, Inhabited

namespace Axis

/-- The axis with a name. -/
def ofName? (name : String) : Option Axis :=
  match name with
  | "child" => some .child
  | "descendant" => some .descendant
  | "descendant-or-self" => some .descendantOrSelf
  | "parent" => some .parent
  | "ancestor" => some .ancestor
  | "ancestor-or-self" => some .ancestorOrSelf
  | "following-sibling" => some .followingSibling
  | "preceding-sibling" => some .precedingSibling
  | "following" => some .following
  | "preceding" => some .preceding
  | "self" => some .self
  | "attribute" => some .attribute
  | "namespace" => some .namespace_
  | _ => none

/-- The order in which an axis lists its nodes: the nearest first on the axes that
lead backwards. -/
def order : Axis → NodeOrder
  | .ancestor | .ancestorOrSelf | .preceding | .precedingSibling => .reverse
  | _ => .sorted

/-- Axes that lead from two nodes to the same node only if they begin at the same
one. -/
def isDisjoint : Axis → Bool
  | .child | .attribute | .self => true
  | _ => false

end Axis

/-- What a step asks of the nodes on its axis. -/
inductive NodeTest where
  /-- an element or attribute of any name -/
  | any
  /-- an element or attribute of this name -/
  | name (value : String)
  /-- an element or attribute whose name begins like this, with a colon at the end -/
  | inNamespace (start : String)
  /-- any node -/
  | node
  /-- character data -/
  | text
  | comment
  /-- an instruction, with this target if one is given -/
  | pi (target : Option String)
  deriving DecidableEq, Repr, Inhabited

/-- The test that the name of a kind of nodes stands for. -/
def NodeTest.ofKindName? (name : String) : Option NodeTest :=
  match name with
  | "node" => some node
  | "text" => some text
  | "comment" => some comment
  | "processing-instruction" => some (pi none)
  | _ => none

/-! ## Operators -/

/-- An operator between two expressions. -/
inductive BinaryOp where
  | or
  | and
  | eq
  | notEq
  | lt
  | ltEq
  | gt
  | gtEq
  | add
  | sub
  | mul
  | div
  | mod
  | union
  deriving DecidableEq, Repr, Inhabited

namespace BinaryOp

/-- How tightly an operator binds. -/
def precedence : BinaryOp → Nat
  | or => 1
  | and => 2
  | eq | notEq => 3
  | lt | ltEq | gt | gtEq => 4
  | add | sub => 5
  | mul | div | mod => 6
  | union => 7

/-- The type of the result. -/
def type : BinaryOp → ValueType
  | add | sub | mul | div | mod => .number
  | union => .nodeSet
  | _ => .boolean

end BinaryOp

/-! ## Functions -/

/-- A function of the core library. -/
inductive CoreFunction where
  | last
  | position
  | count
  | id
  | localName
  | namespaceUri
  | name
  | string
  | concat
  | startsWith
  | contains
  | substringBefore
  | substringAfter
  | substring
  | stringLength
  | normalizeSpace
  | translate
  | boolean
  | not
  | alwaysTrue
  | alwaysFalse
  | lang
  | number
  | sum
  | floor
  | ceiling
  | round
  deriving DecidableEq, Repr, Inhabited

namespace CoreFunction

/-- The function with a name that takes the given number of arguments. -/
def resolve? (name : String) (count : Nat) : Option CoreFunction :=
  match name, count with
  | "last", 0 => some last
  | "position", 0 => some position
  | "count", 1 => some .count
  | "id", 1 => some id
  | "local-name", 0 | "local-name", 1 => some localName
  | "namespace-uri", 0 | "namespace-uri", 1 => some namespaceUri
  | "name", 0 | "name", 1 => some .name
  | "string", 0 | "string", 1 => some string
  | "concat", n => if 2 ≤ n then some concat else none
  | "starts-with", 2 => some startsWith
  | "contains", 2 => some contains
  | "substring-before", 2 => some substringBefore
  | "substring-after", 2 => some substringAfter
  | "substring", 2 | "substring", 3 => some substring
  | "string-length", 0 | "string-length", 1 => some stringLength
  | "normalize-space", 0 | "normalize-space", 1 => some normalizeSpace
  | "translate", 3 => some translate
  | "boolean", 1 => some boolean
  | "not", 1 => some not
  | "true", 0 => some .alwaysTrue
  | "false", 0 => some .alwaysFalse
  | "lang", 1 => some lang
  | "number", 0 | "number", 1 => some number
  | "sum", 1 => some sum
  | "floor", 1 => some floor
  | "ceiling", 1 => some ceiling
  | "round", 1 => some round
  | _, _ => none

/-- The type of the result. -/
def type : CoreFunction → ValueType
  | last | position | count | stringLength | number | sum | floor | ceiling | round => .number
  | id => .nodeSet
  | boolean | not | alwaysTrue | alwaysFalse | lang | startsWith | contains => .boolean
  | _ => .string

/-- Whether the arguments, of which there are `count`, have to be node-sets. -/
def takesNodeSet (f : CoreFunction) (argumentCount : Nat) : Bool :=
  match f with
  | count | sum => true
  | localName | namespaceUri | name => argumentCount == 1
  | _ => false

/-- Whether the function of constants, of which there are `count`, is a constant: it
must not look at the context or at a tree. -/
def isPure (f : CoreFunction) (argumentCount : Nat) : Bool :=
  match f with
  | last | position | id | lang | localName | namespaceUri | name => false
  | string | stringLength | normalizeSpace | number => decide (0 < argumentCount)
  | _ => true

end CoreFunction

/-! ## Expressions -/

/-- A variable that an expression refers to: its cell, with the name and type that
it was found under. -/
structure VariableRef where
  cell : Nat
  name : String
  type : ValueType
  deriving DecidableEq, Repr, Inhabited

/-- A path expression. -/
inductive Expr where
  /-- the top of the tree of the context node -/
  | root
  /-- a step from the context node -/
  | step (axis : Axis) (test : NodeTest) (predicates : List Expr)
  /-- a step from each node of a node-set -/
  | path (input : Expr) (axis : Axis) (test : NodeTest) (predicates : List Expr)
  /-- the nodes of a node-set that pass the predicates -/
  | filter (base : Expr) (predicates : List Expr)
  | call (function : CoreFunction) (arguments : List Expr)
  | binary (op : BinaryOp) (left right : Expr)
  | negate (operand : Expr)
  | number (value : Float)
  | string (value : String)
  | boolean (value : Bool)
  | variable (ref : VariableRef)
  deriving Repr, Inhabited

/-- The type of the values of an expression. -/
def Expr.type : Expr → ValueType
  | root | step _ _ _ | path _ _ _ _ | filter _ _ => .nodeSet
  | call f _ => f.type
  | binary op _ _ => op.type
  | negate _ | number _ => .number
  | string _ => .string
  | boolean _ => .boolean
  | .variable ref => ref.type

end XmlTree
