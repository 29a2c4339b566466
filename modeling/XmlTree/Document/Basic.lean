/-
  Document/Basic.lean --- documents, and reading what a handle leads to.

  WHAT THIS FILE IS FOR.  A document owns the records of its nodes and attributes
  and the texts they refer to.  Everything is reached through handles, and a handle
  that leads to no record reads as nothing: no kind, no name, no neighbours.

  LISTS ARE LINKED.  The children of a node are read from its first child on, each
  sibling found from the one before it, and so are attributes.  A reading stops after
  as many members as there are slots.

  WHAT A HANDLE IS NOT.  A handle does not say which document it came from, so a
  handle of another document finds whatever has the same slot and generation here.
-/
import XmlTree.Document.Node
import XmlTree.Document.Place

set_option autoImplicit false

namespace XmlTree

/-- The rank of each slot's occupant in document order. -/
structure Ranks where
  table : Array (Option Nat)
  deriving Repr, Inhabited

/-- A tree of nodes below one document node, with its texts. -/
structure Document where
  nodes : SlotStore NodeRecord
  attrs : SlotStore AttrRecord
  texts : TextStore
  /-- the document node -/
  root : NodeId
  /-- how many nodes were made since the document was emptied -/
  made : Nat
  /-- whether nodes may stand in another order than they were made in -/
  reordered : Bool
  /-- the ranks, if they were asked for since nodes were put somewhere -/
  knownRanks : Option Ranks
  deriving Repr, Inhabited

/-- The members of a linked list from `start` on, at most `limit` of them. -/
def chain {α : Type} (next : α → Option α) : (limit : Nat) → (start : Option α) → List α
  | limit + 1, some a => a :: chain next limit (next a)
  | _, _ => []

namespace Document

/-! ## Records -/

/-- The record of a node. -/
def node? (doc : Document) (id : NodeId) : Option NodeRecord := doc.nodes.get? id.handle

/-- The record of an attribute. -/
def attr? (doc : Document) (id : AttrId) : Option AttrRecord := doc.attrs.get? id.handle

/-- Whether a handle leads to a node. -/
def contains (doc : Document) (id : NodeId) : Bool := (doc.node? id).isSome

/-- Whether a handle leads to an attribute. -/
def containsAttr (doc : Document) (id : AttrId) : Bool := (doc.attr? id).isSome

/-- Changes the record of a node. -/
def modifyNode (doc : Document) (id : NodeId) (f : NodeRecord → NodeRecord) : Document :=
  { doc with nodes := doc.nodes.modify id.handle f }

/-- Changes the record of an attribute. -/
def modifyAttr (doc : Document) (id : AttrId) (f : AttrRecord → AttrRecord) : Document :=
  { doc with attrs := doc.attrs.modify id.handle f }

/-- Makes a node that stands nowhere yet. -/
def allocNode (doc : Document) (kind : NodeKind) : NodeId × Document :=
  let (handle, nodes) := doc.nodes.insert (.detached kind doc.made)
  (⟨handle⟩, { doc with nodes, made := doc.made + 1 })

/-- Makes an attribute that belongs to no node yet. -/
def allocAttr (doc : Document) : AttrId × Document :=
  let (handle, attrs) := doc.attrs.insert .detached
  (⟨handle⟩, { doc with attrs })

/-- A slot of its own for a string, unless the string is too long. -/
def ownText (doc : Document) (text : String) : Option TextSlot × Document :=
  let (slot, texts) := doc.texts.own text
  (slot, { doc with texts })

/-- Gives the space of a slot back. -/
def releaseText (doc : Document) (slot : TextSlot) : Document :=
  { doc with texts := doc.texts.release slot }

/-- The text of a slot. -/
def textOf (doc : Document) (slot : TextSlot) : String := doc.texts.get slot

/-! ## The empty document -/

/-- Gives a document without records its document node. -/
def withRoot (doc : Document) : Document :=
  let (root, doc) := doc.allocNode .document
  { doc with root }

/-- The document with its document node alone. -/
def new : Document := withRoot ⟨.empty, .empty, .empty, ⟨⟨0, 0⟩⟩, 0, false, none⟩

/-- The document with all records and texts dropped and a new document node; all
handles given so far are stale. -/
def reset (doc : Document) : Document :=
  withRoot ⟨doc.nodes.clear, doc.attrs.clear, doc.texts.clear, doc.root, 0, false, none⟩

/-- Number of nodes, the document node included. -/
def nodeCount (doc : Document) : Nat := doc.nodes.size

/-- Number of attributes. -/
def attributeCount (doc : Document) : Nat := doc.attrs.size

/-- Bytes of copied text that are no longer used. -/
def wastedBytes (doc : Document) : Nat := doc.texts.wasted

/-! ## Nodes -/

/-- The kind of a node. -/
def kind (doc : Document) (id : NodeId) : NodeKind := (doc.node? id).elim .null (·.kind)

/-- The name of a node, empty when it has none. -/
def name (doc : Document) (id : NodeId) : String :=
  (doc.node? id).elim "" fun r => doc.textOf r.name

/-- The value of a node, empty when it has none. -/
def value (doc : Document) (id : NodeId) : String :=
  (doc.node? id).elim "" fun r => doc.textOf r.value

/-- The node above. -/
def parent? (doc : Document) (id : NodeId) : Option NodeId := (doc.node? id).bind (·.parent)

/-- The first node directly below. -/
def firstChild? (doc : Document) (id : NodeId) : Option NodeId :=
  (doc.node? id).bind (·.children.first)

/-- The last node directly below. -/
def lastChild? (doc : Document) (id : NodeId) : Option NodeId :=
  (doc.node? id).bind (·.children.last)

/-- The sibling right after a node. -/
def nextSibling? (doc : Document) (id : NodeId) : Option NodeId :=
  (doc.node? id).bind (·.siblings.next)

/-- The sibling right before a node. -/
def previousSibling? (doc : Document) (id : NodeId) : Option NodeId :=
  (doc.node? id).bind (·.siblings.previous)

/-- The nodes directly below, in order. -/
def children (doc : Document) (id : NodeId) : List NodeId :=
  chain doc.nextSibling? doc.nodes.slotCount (doc.firstChild? id)

/-- The siblings after a node, in order. -/
def followingSiblings (doc : Document) (id : NodeId) : List NodeId :=
  chain doc.nextSibling? doc.nodes.slotCount (doc.nextSibling? id)

/-- The siblings before a node, the nearest first. -/
def precedingSiblings (doc : Document) (id : NodeId) : List NodeId :=
  chain doc.previousSibling? doc.nodes.slotCount (doc.previousSibling? id)

/-! ## Attributes -/

/-- The first attribute of a node. -/
def firstAttribute? (doc : Document) (id : NodeId) : Option AttrId :=
  (doc.node? id).bind (·.attributes.first)

/-- The last attribute of a node. -/
def lastAttribute? (doc : Document) (id : NodeId) : Option AttrId :=
  (doc.node? id).bind (·.attributes.last)

/-- The attribute right after an attribute. -/
def nextAttribute? (doc : Document) (id : AttrId) : Option AttrId :=
  (doc.attr? id).bind (·.neighbours.next)

/-- The attribute right before an attribute. -/
def previousAttribute? (doc : Document) (id : AttrId) : Option AttrId :=
  (doc.attr? id).bind (·.neighbours.previous)

/-- The attributes of a node, in order. -/
def attributes (doc : Document) (id : NodeId) : List AttrId :=
  chain doc.nextAttribute? doc.attrs.slotCount (doc.firstAttribute? id)

/-- The name of an attribute. -/
def attrName (doc : Document) (id : AttrId) : String :=
  (doc.attr? id).elim "" fun r => doc.textOf r.name

/-- The value of an attribute. -/
def attrValue (doc : Document) (id : AttrId) : String :=
  (doc.attr? id).elim "" fun r => doc.textOf r.value

/-- The node that an attribute belongs to. -/
def owner? (doc : Document) (id : AttrId) : Option NodeId := (doc.attr? id).bind (·.owner)

/-- The attributes that an attribute stands among. -/
def attrSiblings (doc : Document) (id : AttrId) : List AttrId :=
  (doc.owner? id).elim [] doc.attributes

/-- The first attribute of a node that has the given name. -/
def attributeNamed? (doc : Document) (id : NodeId) (name : String) : Option AttrId :=
  (doc.attributes id).find? fun a => doc.attrName a == name

/-- The value of the first attribute of a node that has the given name. -/
def attributeValue? (doc : Document) (id : NodeId) (name : String) : Option String :=
  (doc.attributeNamed? id name).map doc.attrValue

end Document

end XmlTree
