/-
  Query/Eval.lean --- the values of expressions.

  WHAT THIS FILE IS FOR.  Evaluation recurses over the expression.  A step lists the
  nodes on its axis from each node it starts at, and its predicates pick from each
  such list; a predicate that is a number picks the node at that position.

  ORDER.  A step from one node lists nodes in the order of its axis.  From several
  nodes the lists follow one another, so nothing is known about the order once nodes
  follow those of an earlier start; then nodes that can be reached twice are listed
  where they are reached first.  A filter always counts in document order.
-/
import XmlTree.Query.Axis
import XmlTree.Query.Function
import XmlTree.Query.Operator

set_option autoImplicit false

namespace XmlTree

/-! ## Parts -/

/-- The top of the tree of a node. -/
def Document.topOf (doc : Document) : QueryNode → Option NodeId
  | .null => none
  | .node id => if doc.contains id then some ((doc.ancestors id).getLast?.getD id) else none
  | .attribute _ parent =>
    if doc.contains parent then some ((doc.ancestors parent).getLast?.getD parent) else none

/-- The nodes that a step leads to from several nodes, given the list for each of them
and the order of the nodes it starts at. -/
def Axis.gather (axis : Axis) (sourceOrder : NodeOrder) (lists : List (List QueryNode)) : NodeSet :=
  let order :=
    if axis = .self then sourceOrder
    else if lists.dropLast.any (fun l => !l.isEmpty) then .unsorted
    else axis.order
  let nodes := lists.flatten
  if !axis.isDisjoint && order = .unsorted then ⟨firstOccurrences ∅ nodes, order⟩
  else ⟨nodes, order⟩

/-- Whether the value of a predicate picks the node at a position. -/
def Value.picks (position : Nat) : Value → Bool
  | number x => x == Float.ofNat position
  | v => v.toBoolean

/-- The nodes of a list that a predicate picks. -/
def pickBy (predicate : Context → Value) (nodes : List QueryNode) : List QueryNode :=
  let size := nodes.length
  ((nodes.zipIdx 1).filter fun (n, i) => (predicate ⟨n, i, size⟩).picks i).map Prod.fst

/-! ## Evaluation -/

mutual

/-- The value of an expression at a place. -/
def Expr.eval (env : Environment) : Expr → Context → Value
  | .root, ctx => .nodeSet ⟨(env.doc.topOf ctx.node).toList.map .node, .sorted⟩
  | .step axis test predicates, ctx =>
    let nodes := env.doc.axisNodes axis test ctx.node
    .nodeSet ⟨pickByAll env predicates nodes, axis.order⟩
  | .path input axis test predicates, ctx =>
    let sources := (input.eval env ctx).toNodeSet
    .nodeSet <| axis.gather sources.order <|
      sources.nodes.map fun n => pickByAll env predicates (env.doc.axisNodes axis test n)
  | .filter base predicates, ctx =>
    let set := (base.eval env ctx).toNodeSet
    let sorted := if set.order = .sorted then set else set.sort env.order false
    .nodeSet ⟨pickByAll env predicates sorted.nodes, .sorted⟩
  | .call f arguments, ctx => f.apply env.order ctx (evalAll env arguments ctx)
  | .binary op left right, ctx =>
    let a := left.eval env ctx
    if op.settledBy a then .boolean a.toBoolean
    else op.apply env.order a (right.eval env ctx)
  | .negate operand, ctx => .number (-(operand.eval env ctx).toNumber env.order)
  | .number x, _ => .number x
  | .string s, _ => .string s
  | .boolean b, _ => .boolean b
  | .variable ref, _ => env.values.value ref

/-- The values of several expressions. -/
def Expr.evalAll (env : Environment) : List Expr → Context → List Value
  | [], _ => []
  | e :: es, ctx => e.eval env ctx :: evalAll env es ctx

/-- The nodes of a list that predicates pick, one after the other. -/
def Expr.pickByAll (env : Environment) : List Expr → List QueryNode → List QueryNode
  | [], nodes => nodes
  | p :: ps, nodes => pickByAll env ps (pickBy (fun ctx => p.eval env ctx) nodes)

end

/-- The second operand is left out only where it makes no difference. -/
theorem Expr.eval_binary (env : Environment) (op : BinaryOp) (left right : Expr) (ctx : Context) :
    (Expr.binary op left right).eval env ctx
      = op.apply env.order (left.eval env ctx) (right.eval env ctx) := by
  simp only [Expr.eval]
  split
  · rename_i h
    exact (BinaryOp.apply_eq_of_settledBy h _ _).symm
  · rfl

end XmlTree
