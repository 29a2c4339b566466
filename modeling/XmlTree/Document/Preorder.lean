/-
  Document/Preorder.lean --- walks through a tree, and document order.

  WHAT THIS FILE IS FOR.  Document order is the order of the preorder walk from the
  document node: a node comes before its children, and a subtree before the next
  one.  A walk keeps a list of the nodes that are still to be visited and puts the
  children of a visited node in front of it; the number of slots of the store bounds
  its length.

  ALONG THE LINKS.  What is below a node is listed without such a list: from a node the
  way goes on to its first child, or else up until a sibling turns up.

  COMPARING NODES.  As long as nodes stand in the order in which they were made, their
  serial numbers are compared.  After nodes were put elsewhere, a rank table holds for
  each slot the position of its occupant in the walk; it is made when it is first
  asked for and kept until nodes are put somewhere again.  Either way comparing two
  nodes costs two look-ups.  Handles that lead to no node come last, in the order of
  their slots.
-/
import XmlTree.Document.Basic

set_option autoImplicit false

namespace XmlTree

/-- The first `limit` visits of the walk that begins with the list `pending`, where
the successors of a visited item come right after it. -/
def walk {α : Type} (successors : α → List α) : (limit : Nat) → (pending : List α) → List α
  | 0, _ => []
  | _, [] => []
  | limit + 1, a :: pending => a :: walk successors limit (successors a ++ pending)

namespace Document

/-- An upper bound of the number of nodes. -/
def walkLimit (doc : Document) : Nat := doc.nodes.slotCount

/-- The given nodes and everything below them, in document order. -/
def preorderOf (doc : Document) (ids : List NodeId) : List NodeId :=
  walk doc.children doc.walkLimit ids

/-- A node and everything below it, in document order. -/
def subtree (doc : Document) (id : NodeId) : List NodeId := doc.preorderOf [id]

/-- All nodes below the document node and itself, in document order. -/
def preorder (doc : Document) : List NodeId := doc.subtree doc.root

/-- A node and everything below it, where children come in reverse order. -/
def mirroredSubtree (doc : Document) (id : NodeId) : List NodeId :=
  walk (fun n => (doc.children n).reverse) doc.walkLimit [id]

/-- The chain of parents from a node upwards, at most `limit` of them. -/
def ancestorsUpTo (doc : Document) : (limit : Nat) → NodeId → List NodeId
  | 0, _ => []
  | limit + 1, id =>
    match doc.parent? id with
    | some p => p :: ancestorsUpTo doc limit p
    | none => []

/-- The nodes above a node, the nearest first. -/
def ancestors (doc : Document) (id : NodeId) : List NodeId :=
  doc.ancestorsUpTo doc.walkLimit id

/-- Whether `ancestor` is `id` or stands above it. -/
def isAncestorOrSelf (doc : Document) (ancestor id : NodeId) : Bool :=
  (id :: doc.ancestors id).contains ancestor

/-! ## Along the links -/

/-- Where a walk below `top` goes on when everything below `id` was visited: the sibling
after `id`, or after the nearest node above it that has one.  It looks at no more than
`limit` nodes and ends below `top`. -/
def resume? (doc : Document) (top : NodeId) : (limit : Nat) → NodeId → Option NodeId
  | 0, _ => none
  | limit + 1, id =>
    if id = top then none
    else
      match doc.nextSibling? id with
      | some sibling => some sibling
      | none =>
        match doc.parent? id with
        | some p => if p = top then none else resume? doc top limit p
        | none => none

/-- The node after `id` in a walk below `top`. -/
def nextBelow? (doc : Document) (top id : NodeId) : Option NodeId :=
  match doc.firstChild? id with
  | some child => some child
  | none => doc.resume? top doc.walkLimit id

/-- Everything below a node, in document order. -/
def descendants (doc : Document) (id : NodeId) : List NodeId :=
  chain (doc.nextBelow? id) doc.walkLimit (doc.firstChild? id)

/-! ## Document order -/

/-- Enters the next rank into a table, in the slot of a node. -/
def enterRank (acc : Array (Option Nat) × Nat) (id : NodeId) : Array (Option Nat) × Nat :=
  (acc.1.modify id.handle.index fun _ => some acc.2, acc.2 + 1)

/-- The ranks of all nodes that the preorder walk reaches. -/
def ranks (doc : Document) : Ranks :=
  let blank := Array.replicate doc.walkLimit (none : Option Nat)
  ⟨(doc.preorder.foldl enterRank (blank, 0)).1⟩

/-- The ranks that are kept, or else those of the tree as it is. -/
def currentRanks (doc : Document) : Ranks := doc.knownRanks.getD doc.ranks

/-- The document after its ranks were asked for. -/
def withRanks (doc : Document) : Document :=
  if doc.reordered then { doc with knownRanks := some doc.currentRanks } else doc

/-- The document after nodes were put somewhere. -/
def forgetOrder (doc : Document) : Document := { doc with reordered := true, knownRanks := none }

/-- Where a node comes in document order, given the ranks; none for a handle that
leads to no node. -/
def orderKey? (doc : Document) (ranks : Thunk Ranks) (id : NodeId) : Option Nat :=
  match doc.node? id with
  | some r => if doc.reordered then (ranks.get.table[id.handle.index]?).join else some r.serial
  | none => none

/-- Order of optional keys: those that are there by size, then the others. -/
def compareKeys : Option Nat → Option Nat → Ordering
  | some a, some b => compare a b
  | some _, none => .lt
  | none, some _ => .gt
  | none, none => .eq

/-- Compares two nodes by document order. -/
def compareOrder (doc : Document) (a b : NodeId) : Ordering :=
  if a = b then .eq
  else
    let ranks := Thunk.mk fun _ => doc.currentRanks
    (compareKeys (doc.orderKey? ranks a) (doc.orderKey? ranks b)).then
      (compare a.handle.index b.handle.index)

/-- Position of an attribute among the attributes of its owner, counted from one;
zero for a stale handle. -/
def attrPosition (doc : Document) (id : AttrId) : Nat :=
  match (doc.attrSiblings id).idxOf? id with
  | some i => i + 1
  | none => 0

/-! ## Visiting -/

/-- What is done on a visit of a subtree.  Each part returns whether to go on, and
the new state. -/
structure Visitor (σ : Type) where
  /-- before anything below the node is visited -/
  enter : NodeId → σ → Bool × σ := fun _ s => (true, s)
  /-- for each node below, with its depth; the children of the node have depth zero -/
  visit : NodeId → Nat → σ → Bool × σ
  /-- after everything below the node was visited -/
  leave : NodeId → σ → Bool × σ := fun _ s => (true, s)

/-- Where a visit below `top` goes on when everything below `id` was visited, and how deep
that is: one level less, and never below zero, for each node that it climbs to. -/
def resumeVisit? (doc : Document) (top : NodeId) :
    (limit : Nat) → (id : NodeId) → (depth : Nat) → Option (NodeId × Nat)
  | 0, _, _ => none
  | limit + 1, id, depth =>
    if id = top then none
    else
      match doc.nextSibling? id with
      | some sibling => some (sibling, depth)
      | none =>
        match doc.parent? id with
        | some p => if p = top then none else resumeVisit? doc top limit p (depth - 1)
        | none => none

/-- The node after another in a visit below `top`, both with their depths. -/
def nextVisit? (doc : Document) (top : NodeId) : NodeId × Nat → Option (NodeId × Nat)
  | (id, depth) =>
    match doc.firstChild? id with
    | some child => some (child, depth + 1)
    | none => doc.resumeVisit? top doc.walkLimit id depth

/-- Where a visit below a node begins. -/
def firstVisit? (doc : Document) (id : NodeId) : Option (NodeId × Nat) :=
  (doc.firstChild? id).map (·, 0)

/-- Everything below a node with its depth, in document order. -/
def descendantsWithDepth (doc : Document) (id : NodeId) : List (NodeId × Nat) :=
  chain (doc.nextVisit? id) doc.walkLimit (doc.firstVisit? id)

/-- Visits a node and those after it below `top`, at most `limit` of them, until one visit
refuses to go on. -/
def visitFrom {σ : Type} (doc : Document) (top : NodeId) (visitor : Visitor σ) :
    (limit : Nat) → Option (NodeId × Nat) → σ → Bool × σ
  | limit + 1, some (id, depth), s =>
    match visitor.visit id depth s with
    | (true, s) => visitFrom doc top visitor limit (doc.nextVisit? top (id, depth)) s
    | (false, s) => (false, s)
  | _, _, s => (true, s)

/-- Visits everything below a node in document order.  Answers false as soon as a
part of the visitor does; it is not told about the end then. -/
def traverse {σ : Type} (doc : Document) (id : NodeId) (visitor : Visitor σ) (s : σ) :
    Bool × σ :=
  match visitor.enter id s with
  | (false, s) => (false, s)
  | (true, s) =>
    match doc.visitFrom id visitor doc.walkLimit (doc.firstVisit? id) s with
    | (false, s) => (false, s)
    | (true, s) => visitor.leave id s

end Document

end XmlTree
