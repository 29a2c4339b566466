/-
  Query/Axis.lean --- the nodes on an axis.

  WHAT THIS FILE IS FOR.  From a context node, an axis leads to a list of nodes: in
  document order on the axes that lead forwards, the nearest first on those that lead
  backwards.  A node test then picks from the list.

  CLIMBING.  What follows and what precedes a node is found along the links, node by node.
  Onwards the way leads down to a first child, or up until there is a sibling after; backwards
  it leads up until there is a sibling before, and then down to the last node of its subtree.
  Nodes above the one it began at are passed on the way up and not listed.

  ATTRIBUTES are no children of their node, so few axes lead somewhere from them: to
  their node and the nodes above, to themselves, and to what follows or precedes the
  start of their node.
-/
import XmlTree.Query.NodeSet

set_option autoImplicit false

namespace XmlTree

namespace Document

/-! ## Node tests -/

/-- Whether a node passes a test. -/
def passes (doc : Document) (test : NodeTest) (id : NodeId) : Bool :=
  match test with
  | .node => true
  | .any => doc.kind id == .element
  | .name name => doc.kind id == .element && doc.name id == name
  | .inNamespace start =>
    doc.kind id == .element && beginsWith start.toList (doc.name id).toList
  | .text => (doc.kind id).isText
  | .comment => doc.kind id == .comment
  | .pi none => doc.kind id == .pi
  | .pi (some target) => doc.kind id == .pi && doc.name id == target

/-- Whether an attribute name declares a namespace; such attributes are on no
axis. -/
def declaresNamespace (name : String) : Bool :=
  name == "xmlns" || beginsWith "xmlns:".toList name.toList

/-- Whether an attribute passes a test on the attribute axis. -/
def attrPasses (doc : Document) (test : NodeTest) (id : AttrId) : Bool :=
  let name := doc.attrName id
  let passes :=
    match test with
    | .name wanted => name == wanted
    | .node | .any => true
    | .inNamespace start => beginsWith start.toList name.toList
    | _ => false
  passes && !declaresNamespace name

/-! ## Axes -/

/-- Where document order goes on after the subtree of a node: at the sibling after it, or after
the nearest node above it that has one.  It looks at no more than `limit` nodes. -/
def afterSubtree? (doc : Document) : (limit : Nat) → NodeId → Option NodeId
  | 0, _ => none
  | limit + 1, id =>
    match doc.nextSibling? id with
    | some sibling => some sibling
    | none =>
      match doc.parent? id with
      | some p => afterSubtree? doc limit p
      | none => none

/-- The node after another one in document order. -/
def follower? (doc : Document) (id : NodeId) : Option NodeId :=
  match doc.firstChild? id with
  | some child => some child
  | none => doc.afterSubtree? doc.walkLimit id

/-- A node and all that come after it in document order. -/
def followingFrom (doc : Document) (start : Option NodeId) : List NodeId :=
  chain doc.follower? doc.walkLimit start

/-- What comes after the subtree of a node, in document order. -/
def followingNodes (doc : Document) (id : NodeId) : List NodeId :=
  doc.followingFrom (doc.afterSubtree? doc.walkLimit id)

/-- The last node of the subtree of a node: down along the last children, no more than `limit`
times. -/
def lastInSubtree (doc : Document) : (limit : Nat) → NodeId → NodeId
  | 0, id => id
  | limit + 1, id =>
    match doc.lastChild? id with
    | some child => lastInSubtree doc limit child
    | none => id

/-- The nearest node before another one that does not stand above it: the last one in the
subtree of the sibling before it, or before the nearest node above it that has one. -/
def firstBefore? (doc : Document) : (limit : Nat) → NodeId → Option NodeId
  | 0, _ => none
  | limit + 1, id =>
    match doc.previousSibling? id with
    | some sibling => some (doc.lastInSubtree doc.walkLimit sibling)
    | none =>
      match doc.parent? id with
      | some p => firstBefore? doc limit p
      | none => none

/-- The node before `id` in document order, where the nodes above `origin` are passed over. -/
def nodeBefore? (doc : Document) (origin : NodeId) : (limit : Nat) → NodeId → Option NodeId
  | 0, _ => none
  | limit + 1, id =>
    match doc.previousSibling? id with
    | some sibling => some (doc.lastInSubtree doc.walkLimit sibling)
    | none =>
      match doc.parent? id with
      | some p => if doc.isAncestorOrSelf p origin then nodeBefore? doc origin limit p else some p
      | none => none

/-- What comes before a node without the nodes above it, the nearest first. -/
def precedingNodes (doc : Document) (id : NodeId) : List NodeId :=
  chain (doc.nodeBefore? id doc.walkLimit) doc.walkLimit (doc.firstBefore? doc.walkLimit id)

/-- The tree nodes on an axis from a tree node. -/
def axisFromNode (doc : Document) (id : NodeId) : Axis → List NodeId
  | .child => doc.children id
  | .descendant => doc.descendants id
  | .descendantOrSelf => id :: doc.descendants id
  | .parent => (doc.parent? id).toList
  | .ancestor => doc.ancestors id
  | .ancestorOrSelf => id :: doc.ancestors id
  | .followingSibling => doc.followingSiblings id
  | .precedingSibling => doc.precedingSiblings id
  | .following => doc.followingNodes id
  | .preceding => doc.precedingNodes id
  | .self => [id]
  | .attribute | .namespace_ => []

/-- The tree nodes on an axis from an attribute of `parent`. -/
def axisFromAttribute (doc : Document) (parent : NodeId) : Axis → List NodeId
  | .parent => [parent]
  | .ancestor | .ancestorOrSelf => parent :: doc.ancestors parent
  | .following => doc.followingFrom (doc.follower? parent)
  | .preceding => doc.precedingNodes parent
  | _ => []

/-- Whether an axis leads from an attribute to itself, which only the test for any
node accepts. -/
def leadsToItself : Axis → Bool
  | .self | .ancestorOrSelf | .descendantOrSelf => true
  | _ => false

/-- The nodes on an axis from a context node that pass a test. -/
def axisNodes (doc : Document) (axis : Axis) (test : NodeTest) : QueryNode → List QueryNode
  | .null => []
  | .node id =>
    if !doc.contains id then []
    else if axis = .attribute then
      ((doc.attributes id).filter (doc.attrPasses test)).map (.attribute · id)
    else
      ((doc.axisFromNode id axis).filter (doc.passes test)).map .node
  | .attribute attr parent =>
    if !(doc.containsAttr attr && doc.contains parent) then []
    else
      let itself :=
        if leadsToItself axis && test == .node then [QueryNode.attribute attr parent] else []
      itself ++ ((doc.axisFromAttribute parent axis).filter (doc.passes test)).map .node

end Document

end XmlTree
