/-
  Query/Context.lean --- the place of an evaluation.

  WHAT THIS FILE IS FOR.  An expression is evaluated at a node that has a position
  among others, with the values that its variables have at that moment.
-/
import XmlTree.Query.Variables

set_option autoImplicit false

namespace XmlTree

/-- A node, its position among the nodes it was listed with, counted from one, and
their number. -/
structure Context where
  node : QueryNode
  position : Nat
  size : Nat
  deriving DecidableEq, Repr, Inhabited

/-- A node on its own. -/
def Context.only (node : QueryNode) : Context := ⟨node, 1, 1⟩

/-- What every part of an expression is evaluated against. -/
structure Environment where
  order : DocumentOrder
  values : VariableStore

/-- The document of an environment. -/
def Environment.doc (env : Environment) : Document := env.order.doc

end XmlTree
