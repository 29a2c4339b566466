/-
  Document/Link.lean --- putting records into the tree, taking them out, and
  dropping them.

  WHAT THIS FILE IS FOR.  These are the steps that edits are made of.  They check
  nothing: the edits do, before the first step.

  ORDER OF DROPPING.  A slot that was vacated last is used first, so the order in
  which a subtree is dropped can be seen.  It is the preorder walk in which children
  come in reverse, and at each node its texts are given back and its attributes
  dropped in their order.
-/
import XmlTree.Document.Preorder
import XmlTree.Document.Place

set_option autoImplicit false

namespace XmlTree

namespace Document

/-! ## Children -/

/-- The children that a place below `parent` lies between. -/
def gapAt (doc : Document) (parent : NodeId) : Place NodeId → Neighbours NodeId
  | .first => ⟨none, doc.firstChild? parent⟩
  | .last => ⟨doc.lastChild? parent, none⟩
  | .before r => ⟨doc.previousSibling? r, some r⟩
  | .after r => ⟨some r, doc.nextSibling? r⟩

/-- Makes `next` the one after `previous`, or the first child of `parent`. -/
def setNext (doc : Document) (parent : Option NodeId) (previous next : Option NodeId) :
    Document :=
  match previous, parent with
  | some p, _ => doc.modifyNode p fun r => { r with siblings := { r.siblings with next } }
  | none, some p =>
    doc.modifyNode p fun r => { r with children := { r.children with first := next } }
  | none, none => doc

/-- Makes `previous` the one before `next`, or the last child of `parent`. -/
def setPrevious (doc : Document) (parent : Option NodeId) (previous next : Option NodeId) :
    Document :=
  match next, parent with
  | some n, _ => doc.modifyNode n fun r => { r with siblings := { r.siblings with previous } }
  | none, some p =>
    doc.modifyNode p fun r => { r with children := { r.children with last := previous } }
  | none, none => doc

/-- Puts a node that stands nowhere among the children of `parent`. -/
def link (doc : Document) (parent : NodeId) (place : Place NodeId) (id : NodeId) : Document :=
  let gap := doc.gapAt parent place
  let doc := doc.modifyNode id fun r => { r with parent := some parent, siblings := gap }
  let doc := doc.setNext (some parent) gap.previous (some id)
  doc.setPrevious (some parent) (some id) gap.next

/-- Takes a node out of the children of its parent. -/
def unlink (doc : Document) (id : NodeId) : Document :=
  match doc.node? id with
  | some r =>
    let doc := doc.setNext r.parent r.siblings.previous r.siblings.next
    let doc := doc.setPrevious r.parent r.siblings.previous r.siblings.next
    doc.modifyNode id fun r => { r with parent := none, siblings := .none }
  | none => doc

/-! ## Attributes -/

/-- The attributes that a place among those of `owner` lies between. -/
def attrGapAt (doc : Document) (owner : NodeId) : Place AttrId → Neighbours AttrId
  | .first => ⟨none, doc.firstAttribute? owner⟩
  | .last => ⟨doc.lastAttribute? owner, none⟩
  | .before r => ⟨doc.previousAttribute? r, some r⟩
  | .after r => ⟨some r, doc.nextAttribute? r⟩

/-- Makes `next` the one after `previous`, or the first attribute of `owner`. -/
def setNextAttr (doc : Document) (owner : Option NodeId) (previous next : Option AttrId) :
    Document :=
  match previous, owner with
  | some p, _ => doc.modifyAttr p fun r => { r with neighbours := { r.neighbours with next } }
  | none, some o =>
    doc.modifyNode o fun r => { r with attributes := { r.attributes with first := next } }
  | none, none => doc

/-- Makes `previous` the one before `next`, or the last attribute of `owner`. -/
def setPreviousAttr (doc : Document) (owner : Option NodeId) (previous next : Option AttrId) :
    Document :=
  match next, owner with
  | some n, _ => doc.modifyAttr n fun r => { r with neighbours := { r.neighbours with previous } }
  | none, some o =>
    doc.modifyNode o fun r => { r with attributes := { r.attributes with last := previous } }
  | none, none => doc

/-- Puts an attribute that belongs to no node among the attributes of `owner`. -/
def linkAttr (doc : Document) (owner : NodeId) (place : Place AttrId) (id : AttrId) : Document :=
  let gap := doc.attrGapAt owner place
  let doc := doc.modifyAttr id fun r => { r with owner := some owner, neighbours := gap }
  let doc := doc.setNextAttr (some owner) gap.previous (some id)
  doc.setPreviousAttr (some owner) (some id) gap.next

/-- Takes an attribute out of the attributes of its owner. -/
def unlinkAttr (doc : Document) (id : AttrId) : Document :=
  match doc.attr? id with
  | some r =>
    let doc := doc.setNextAttr r.owner r.neighbours.previous r.neighbours.next
    let doc := doc.setPreviousAttr r.owner r.neighbours.previous r.neighbours.next
    doc.modifyAttr id fun r => { r with owner := none, neighbours := .none }
  | none => doc

/-! ## Dropping -/

/-- Drops an attribute and gives its texts back. -/
def freeAttr (doc : Document) (id : AttrId) : Document :=
  match doc.attrs.remove? id.handle with
  | some (r, attrs) => (releaseText { doc with attrs } r.name).releaseText r.value
  | none => doc

/-- Drops a node with its attributes, and gives their texts back. -/
def freeNode (doc : Document) (id : NodeId) : Document :=
  let attributes := doc.attributes id
  match doc.nodes.remove? id.handle with
  | some (r, nodes) =>
    attributes.foldl freeAttr ((releaseText { doc with nodes } r.name).releaseText r.value)
  | none => doc

/-- Drops a node with everything below it. -/
def freeSubtree (doc : Document) (id : NodeId) : Document :=
  (doc.mirroredSubtree id).foldl freeNode doc

end Document

end XmlTree
