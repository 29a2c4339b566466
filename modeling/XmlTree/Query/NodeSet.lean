/-
  Query/NodeSet.lean --- the nodes that a query answers.

  WHAT THIS FILE IS FOR.  A query answers tree nodes and attributes, an attribute
  together with the node it was reached from.  A node-set lists them with a tag that
  says what is known about their order; sorting establishes the order and drops
  repetitions.

  ORDER.  A node is placed by document order, and an attribute right after its node,
  in the order of the attributes there.  What is not in the tree comes last.
-/
import Std.Data.HashSet
import XmlTree.Document.Preorder
import XmlTree.Query.Expr

set_option autoImplicit false

namespace XmlTree

/-- A node or attribute that a query answers. -/
inductive QueryNode where
  | null
  | node (id : NodeId)
  | attribute (attr : AttrId) (parent : NodeId)
  deriving DecidableEq, Repr, Inhabited, Hashable

namespace QueryNode

/-- The node above, or the one that the attribute was reached from. -/
def parent? (doc : Document) : QueryNode → Option NodeId
  | null => none
  | node id => doc.parent? id
  | .attribute _ parent => some parent

end QueryNode

/-! ## Keys -/

/-- Where a node belongs in document order: where its node comes, then its place
there. -/
structure OrderKey where
  rank : Option Nat
  position : Option Nat
  deriving DecidableEq, Repr, Inhabited

namespace OrderKey

/-- Compares by rank, then by place. -/
def compare (a b : OrderKey) : Ordering :=
  (Document.compareKeys a.rank b.rank).then (Document.compareKeys a.position b.position)

/-- Whether `a` does not come after `b`. -/
def le (a b : OrderKey) : Bool := a.compare b != .gt

end OrderKey

/-- Document order of a document, where the ranks are looked for when they are first
needed. -/
structure DocumentOrder where
  doc : Document
  ranks : Thunk Ranks

/-- The document order of a document. -/
def Document.order (doc : Document) : DocumentOrder := ⟨doc, Thunk.mk fun _ => doc.currentRanks⟩

/-- The key of a node. -/
def DocumentOrder.key (order : DocumentOrder) : QueryNode → OrderKey
  | .null => ⟨none, none⟩
  | .node id => ⟨order.doc.orderKey? order.ranks id, some 0⟩
  | .attribute attr parent =>
    ⟨order.doc.orderKey? order.ranks parent, some (order.doc.attrPosition attr)⟩

/-! ## Lists of nodes -/

/-- The list without members that equal the one right before them. -/
def dropRepeats {α : Type} [DecidableEq α] : List α → List α
  | a :: b :: rest => if a = b then dropRepeats (b :: rest) else a :: dropRepeats (b :: rest)
  | short => short

/-- The list with only the first occurrence of each member; `seen` are those that
came before. -/
def firstOccurrences (seen : Std.HashSet QueryNode) : List QueryNode → List QueryNode
  | [] => []
  | n :: rest =>
    if seen.contains n then firstOccurrences seen rest
    else n :: firstOccurrences (seen.insert n) rest

/-- The member with the least key, the first one of several. -/
def leastBy (key : QueryNode → OrderKey) : List QueryNode → Option QueryNode
  | [] => none
  | n :: rest =>
    some (rest.foldl
      (fun (best : QueryNode × OrderKey) m =>
        let k := key m
        if k.compare best.2 = .lt then (m, k) else best)
      (n, key n)).1

/-- Nodes with what is known about their order. -/
structure NodeSet where
  nodes : List QueryNode
  order : NodeOrder
  deriving DecidableEq, Repr, Inhabited

namespace NodeSet

/-- No nodes. -/
def empty : NodeSet := ⟨[], .unsorted⟩

/-- The node that comes first in document order; where the order is known it is read
off. -/
def first (order : DocumentOrder) (s : NodeSet) : QueryNode :=
  let found :=
    match s.order with
    | .sorted => s.nodes.head?
    | .reverse => s.nodes.getLast?
    | .unsorted => leastBy order.key s.nodes
  found.getD .null

/-- The nodes in document order or backwards, without repetitions. -/
def sort (order : DocumentOrder) (s : NodeSet) (backwards : Bool) : NodeSet :=
  let keyed := s.nodes.map fun n => (order.key n, n)
  let sorted := (keyed.mergeSort fun a b => a.1.le b.1).map Prod.snd
  let distinct := dropRepeats sorted
  if backwards then ⟨distinct.reverse, .reverse⟩ else ⟨distinct, .sorted⟩

/-- The nodes of two sets, each once, in an order that is not known. -/
def union (a b : NodeSet) : NodeSet := ⟨firstOccurrences ∅ (a.nodes ++ b.nodes), .unsorted⟩

end NodeSet

end XmlTree
