/-
  Query/Query.lean --- compiled queries.

  WHAT THIS FILE IS FOR.  A query is the text of an expression together with what
  came of reading it: the expression with its constant parts evaluated, or a fault.
  A query that could not be read is still a query; asked for a value it answers the
  empty one, and asked for nodes it answers the fault.
-/
import XmlTree.Query.Grammar
import XmlTree.Query.Fold

set_option autoImplicit false

namespace XmlTree

/-- Why a query answers no nodes. -/
inductive QueryError where
  /-- the expression could not be read -/
  | unreadable (fault : SyntaxFault)
  /-- the expression is of another type -/
  | notNodeSet
  deriving DecidableEq, Repr, Inhabited

/-- What is said about an error. -/
def QueryError.message : QueryError → String
  | unreadable fault =>
    s!"XPath syntax error at offset {fault.offset}: {fault.cause.message}"
  | notNodeSet => "XPath evaluation error: Expression does not evaluate to node set"

/-- What is known about the reading of an expression. -/
structure QueryStatus where
  /-- what is said about the fault, if there is one -/
  error : Option String
  /-- the byte that the fault is at -/
  offset : Nat
  deriving DecidableEq, Repr, Inhabited

namespace QueryStatus

/-- The status before anything was read. -/
def unset : QueryStatus := ⟨some "Internal error", 0⟩

/-- Whether there is no fault. -/
def isOk (s : QueryStatus) : Bool := s.error.isNone

/-- What is said about a status. -/
def message (s : QueryStatus) : String := s.error.getD "No error"

end QueryStatus

/-- The text of an expression, and what came of reading it. -/
structure Query where
  text : String
  outcome : Except SyntaxFault Expr

namespace Query

/-- Reads an expression that may refer to the variables in scope. -/
def compile (scope : Grammar.Scope) (text : String) : Query :=
  ⟨text, (Expr.parse scope text).map Expr.fold⟩

/-- The expression, if it could be read. -/
def expr? (q : Query) : Option Expr :=
  match q.outcome with
  | .ok e => some e
  | .error _ => none

/-- Why the expression could not be read. -/
def fault? (q : Query) : Option SyntaxFault :=
  match q.outcome with
  | .ok _ => none
  | .error f => some f

/-- What is known about the reading of the expression. -/
def status (q : Query) : QueryStatus :=
  q.fault?.elim ⟨none, 0⟩ fun f => ⟨some f.cause.message, f.offset⟩

/-- The type of the query's values. -/
def type (q : Query) : ValueType := q.expr?.elim .none Expr.type

/-- The value at a node; none for a query that could not be read. -/
def value? (q : Query) (env : Environment) (node : QueryNode) : Option Value :=
  q.expr?.map fun e => e.eval env (.only node)

/-- The value read as a truth value. -/
def boolean (q : Query) (env : Environment) (node : QueryNode) : Bool :=
  (q.value? env node).elim false Value.toBoolean

/-- The value read as a number. -/
def number (q : Query) (env : Environment) (node : QueryNode) : Float :=
  (q.value? env node).elim notANumber (Value.toNumber env.order)

/-- The value read as a text. -/
def string (q : Query) (env : Environment) (node : QueryNode) : String :=
  (q.value? env node).elim "" (Value.toText env.order)

/-- The nodes that a query of node-sets answers. -/
def nodeSet (q : Query) (env : Environment) (node : QueryNode) : Except QueryError NodeSet :=
  match q.outcome with
  | .error f => .error (.unreadable f)
  | .ok e =>
    if e.type = .nodeSet then .ok (e.eval env (.only node)).toNodeSet else .error .notNodeSet

/-- The first of the nodes that a query of node-sets answers. -/
def node (q : Query) (env : Environment) (start : QueryNode) : Except QueryError QueryNode :=
  (q.nodeSet env start).map (NodeSet.first env.order)

/-- Every way to read the value of a query at one node. -/
structure Readings where
  boolean : Bool
  number : Float
  string : String
  nodes : Except QueryError NodeSet
  first : Except QueryError QueryNode

/-- All readings of the value at a node, which is computed once. -/
def readings (q : Query) (env : Environment) (node : QueryNode) : Readings :=
  let value := q.value? env node
  let nodes :=
    match q.outcome with
    | .error f => .error (.unreadable f)
    | .ok e =>
      if e.type = .nodeSet then .ok (value.elim .empty Value.toNodeSet) else .error .notNodeSet
  ⟨value.elim false Value.toBoolean, value.elim notANumber (Value.toNumber env.order),
    value.elim "" (Value.toText env.order), nodes, nodes.map (NodeSet.first env.order)⟩

theorem readings_eq (q : Query) (env : Environment) (n : QueryNode) :
    q.readings env n
      = ⟨q.boolean env n, q.number env n, q.string env n, q.nodeSet env n, q.node env n⟩ := by
  cases h : q.outcome <;>
    simp [readings, boolean, number, string, node, nodeSet, value?, expr?, h]

end Query

end XmlTree
