/-
  Document/Node.lean --- the kinds of nodes, and what is stored for a node and for
  an attribute.

  WHAT THIS FILE IS FOR.  A tree is stored as records under handles.  Children and
  attributes are linked lists: the node keeps the two ends of each list, and a member
  keeps its neighbours and the node that the list belongs to.  Which kinds may stand
  below which is `NodeKind.allowsChild`.
-/
import XmlTree.Store.Slots
import XmlTree.Store.Text

set_option autoImplicit false

namespace XmlTree

/-! ## Kinds -/

/-- What a node is. -/
inductive NodeKind where
  /-- the kind of a handle that leads to no node -/
  | null
  | document
  | element
  /-- character data -/
  | pcdata
  | cdata
  | comment
  /-- processing instruction -/
  | pi
  /-- the declaration `<?xml … ?>` -/
  | declaration
  /-- document type declaration -/
  | doctype
  deriving DecidableEq, Repr, Inhabited

namespace NodeKind

/-- All kinds. -/
def all : List NodeKind :=
  [null, document, element, pcdata, cdata, comment, pi, declaration, doctype]

/-- Kinds whose nodes carry a name. -/
def hasName : NodeKind → Bool
  | element | pi | declaration => true
  | _ => false

/-- Kinds whose nodes carry a value. -/
def hasValue : NodeKind → Bool
  | pcdata | cdata | comment | pi | doctype => true
  | _ => false

/-- Kinds whose nodes may own attributes. -/
def hasAttributes : NodeKind → Bool
  | element | declaration => true
  | _ => false

/-- Kinds whose nodes may have children. -/
def hasChildren : NodeKind → Bool
  | document | element => true
  | _ => false

/-- Character data, plain or in a CDATA section. -/
def isText : NodeKind → Bool
  | pcdata | cdata => true
  | _ => false

/-- Whether a node of kind `child` may stand directly below one of kind `parent`. -/
def allowsChild (parent child : NodeKind) : Bool :=
  parent.hasChildren &&
    match child with
    | null | document => false
    | declaration | doctype => parent = document
    | _ => true

end NodeKind

/-! ## Handles -/

/-- The handle of a node. -/
structure NodeId where
  handle : Handle
  deriving DecidableEq, Repr, Inhabited, Hashable

/-- The handle of an attribute. -/
structure AttrId where
  handle : Handle
  deriving DecidableEq, Repr, Inhabited, Hashable

/-! ## Records -/

/-- The two ends of a linked list, none when the list is empty. -/
structure Ends (α : Type) where
  first : Option α
  last : Option α
  deriving DecidableEq, Repr, Inhabited

/-- The ends of a list without members. -/
def Ends.empty {α : Type} : Ends α := ⟨none, none⟩

/-- The members next to a member of a linked list. -/
structure Neighbours (α : Type) where
  previous : Option α
  next : Option α
  deriving DecidableEq, Repr, Inhabited

/-- The neighbours of what stands in no list. -/
def Neighbours.none {α : Type} : Neighbours α := ⟨.none, .none⟩

/-- What is stored for a node. -/
structure NodeRecord where
  kind : NodeKind
  name : TextSlot
  /-- the text of a text node, comment, instruction or document type, and the text
  embedded in an element -/
  value : TextSlot
  /-- none for the document node alone -/
  parent : Option NodeId
  siblings : Neighbours NodeId
  children : Ends NodeId
  attributes : Ends AttrId
  /-- how many nodes the document had made before this one -/
  serial : Nat
  deriving Repr, Inhabited

/-- A node that stands nowhere yet. -/
def NodeRecord.detached (kind : NodeKind) (serial : Nat) : NodeRecord :=
  ⟨kind, .null, .null, none, .none, .empty, .empty, serial⟩

/-- What is stored for an attribute. -/
structure AttrRecord where
  name : TextSlot
  value : TextSlot
  owner : Option NodeId
  neighbours : Neighbours AttrId
  deriving Repr, Inhabited

/-- An attribute that belongs to no node yet. -/
def AttrRecord.detached : AttrRecord := ⟨.null, .null, none, .none⟩

end XmlTree
