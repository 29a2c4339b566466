/-
  Document/Edit.lean --- inserting, moving and removing nodes and attributes.

  WHAT THIS FILE IS FOR.  Every edit first checks its handles and the rules for
  what may stand where, and refuses, changing nothing, when they do not hold.  An
  edit that makes or moves something answers its handle, or none when refused; the
  others answer whether they were carried out.

  A TEXT THAT IS TOO LONG is found out only when it is copied.  Most edits have
  changed nothing by then.  An element has been made, and is removed again; the name
  of an attribute has been copied, and is given back.

  A PLACE beside a node is valid only if that node is a child of the given parent.
-/
import XmlTree.Document.Link
import XmlTree.Document.Lookup

set_option autoImplicit false

namespace XmlTree

namespace Document

/-! ## Texts -/

/-- Puts a copy of a text where the text of the slot `old` was, whose space is given
back.  Refused, changing nothing, for a text that is too long. -/
def replaceText (doc : Document) (text : String) (old : TextSlot)
    (put : TextSlot → Document → Document) : Bool × Document :=
  match doc.ownText text with
  | (some slot, doc) => (true, (put slot doc).releaseText old)
  | (none, doc) => (false, doc)

/-- Replaces the name of a node by a copy of the given text. -/
def replaceName (doc : Document) (id : NodeId) (name : String) : Bool × Document :=
  match doc.node? id with
  | some old =>
    doc.replaceText name old.name fun slot doc =>
      doc.modifyNode id fun r => { r with name := slot }
  | none => (false, doc)

/-- Replaces the value of a node by a copy of the given text. -/
def replaceValue (doc : Document) (id : NodeId) (value : String) : Bool × Document :=
  match doc.node? id with
  | some old =>
    doc.replaceText value old.value fun slot doc =>
      doc.modifyNode id fun r => { r with value := slot }
  | none => (false, doc)

/-- Renames an element, instruction or declaration. -/
def setName (doc : Document) (id : NodeId) (name : String) : Bool × Document :=
  if (doc.kind id).hasName then doc.replaceName id name else (false, doc)

/-- Sets the value of a node whose kind has one. -/
def setValue (doc : Document) (id : NodeId) (value : String) : Bool × Document :=
  if (doc.kind id).hasValue then doc.replaceValue id value else (false, doc)

/-- Renames an attribute. -/
def setAttrName (doc : Document) (id : AttrId) (name : String) : Bool × Document :=
  match doc.attr? id with
  | some old =>
    doc.replaceText name old.name fun slot doc =>
      doc.modifyAttr id fun r => { r with name := slot }
  | none => (false, doc)

/-- Sets the value of an attribute. -/
def setAttrValue (doc : Document) (id : AttrId) (value : String) : Bool × Document :=
  match doc.attr? id with
  | some old =>
    doc.replaceText value old.value fun slot doc =>
      doc.modifyAttr id fun r => { r with value := slot }
  | none => (false, doc)

/-! ## Nodes -/

/-- Whether a place is one among the children of `parent`. -/
def placeOk (doc : Document) (parent : NodeId) (place : Place NodeId) : Bool :=
  doc.contains parent &&
    match place.reference? with
    | some r => doc.parent? r == some parent
    | none => true

/-- Whether a node of the given kind may go to a place below `parent`. -/
def accepts (doc : Document) (parent : NodeId) (kind : NodeKind) (place : Place NodeId) : Bool :=
  (doc.kind parent).allowsChild kind && doc.placeOk parent place

/-- Puts a node that stands nowhere at a place below `parent`. -/
def linkAt (doc : Document) (parent : NodeId) (place : Place NodeId) (id : NodeId) : Document :=
  (doc.link parent place id).forgetOrder

/-- Makes a new node at a place below `parent`.  A declaration is born with its
name. -/
def insertChild (doc : Document) (parent : NodeId) (kind : NodeKind) (place : Place NodeId) :
    Option NodeId × Document :=
  if doc.accepts parent kind place then
    let (id, doc) := doc.allocNode kind
    let doc := if kind = .declaration then (doc.replaceName id "xml").2 else doc
    (some id, doc.linkAt parent place id)
  else
    (none, doc)

/-- Moves a node with everything below it to a place below `parent`.  Refused for
the document node, below the node itself, and beside it. -/
def insertMove (doc : Document) (parent moved : NodeId) (place : Place NodeId) :
    Option NodeId × Document :=
  if doc.accepts parent (doc.kind moved) place && (doc.parent? moved).isSome
      && !doc.isAncestorOrSelf moved parent && place.reference? != some moved then
    (some moved, (doc.unlink moved).linkAt parent place moved)
  else
    (none, doc)

/-- Removes a child of `parent` with everything below it. -/
def removeChild (doc : Document) (parent child : NodeId) : Bool × Document :=
  if doc.contains parent && doc.parent? child == some parent then
    (true, (doc.unlink child).freeSubtree child)
  else
    (false, doc)

/-- Makes a new element with a name at a place below `parent`.  An element that does
not get its name is removed again. -/
def insertElement (doc : Document) (parent : NodeId) (name : String) (place : Place NodeId) :
    Option NodeId × Document :=
  match doc.insertChild parent .element place with
  | (some id, doc) =>
    match doc.setName id name with
    | (true, doc) => (some id, doc)
    | (false, doc) => (none, (doc.removeChild parent id).2)
  | (none, doc) => (none, doc)

/-- Removes the first child of `parent` with a name. -/
def removeChildNamed (doc : Document) (parent : NodeId) (name : String) : Bool × Document :=
  match doc.childNamed? parent name with
  | some child => doc.removeChild parent child
  | none => (false, doc)

/-- Removes all children of `parent`, from the first to the last. -/
def removeChildren (doc : Document) (parent : NodeId) : Bool × Document :=
  if doc.contains parent then
    (true, (doc.children parent).foldl (fun doc c => (doc.unlink c).freeSubtree c) doc)
  else
    (false, doc)

/-! ## Attributes -/

/-- Whether a place is one among the attributes of `owner`. -/
def attrPlaceOk (doc : Document) (owner : NodeId) (place : Place AttrId) : Bool :=
  match place.reference? with
  | some r => doc.owner? r == some owner
  | none => true

/-- Makes a new attribute at a place among the attributes of `owner`. -/
def insertAttribute (doc : Document) (owner : NodeId) (name value : String)
    (place : Place AttrId) : Option AttrId × Document :=
  if (doc.kind owner).hasAttributes && doc.attrPlaceOk owner place then
    match doc.ownText name with
    | (some nameSlot, doc) =>
      match doc.ownText value with
      | (some valueSlot, doc) =>
        let (id, doc) := doc.allocAttr
        let doc := doc.modifyAttr id fun r => { r with name := nameSlot, value := valueSlot }
        (some id, doc.linkAttr owner place id)
      | (none, doc) => (none, doc.releaseText nameSlot)
    | (none, doc) => (none, doc)
  else
    (none, doc)

/-- Makes a copy of an attribute at a place among the attributes of `owner`. -/
def insertAttributeCopy (doc : Document) (owner : NodeId) (proto : AttrId)
    (place : Place AttrId) : Option AttrId × Document :=
  if doc.containsAttr proto then
    doc.insertAttribute owner (doc.attrName proto) (doc.attrValue proto) place
  else
    (none, doc)

/-- Sets the value of the first attribute with a name, making it at the end if
there is none. -/
def setAttribute (doc : Document) (owner : NodeId) (name value : String) :
    Option AttrId × Document :=
  match doc.attributeNamed? owner name with
  | some id =>
    let (done, doc) := doc.setAttrValue id value
    (if done then some id else none, doc)
  | none => doc.insertAttribute owner name value .last

/-- Removes an attribute of `owner`. -/
def removeAttribute (doc : Document) (owner : NodeId) (id : AttrId) : Bool × Document :=
  if doc.contains owner && doc.owner? id == some owner then
    (true, (doc.unlinkAttr id).freeAttr id)
  else
    (false, doc)

/-- Removes the first attribute of `owner` with a name. -/
def removeAttributeNamed (doc : Document) (owner : NodeId) (name : String) : Bool × Document :=
  match doc.attributeNamed? owner name with
  | some id => doc.removeAttribute owner id
  | none => (false, doc)

/-- Removes all attributes of `owner`, from the first to the last. -/
def removeAttributes (doc : Document) (owner : NodeId) : Bool × Document :=
  if doc.contains owner then
    (true, (doc.attributes owner).foldl (fun doc a => (doc.unlinkAttr a).freeAttr a) doc)
  else
    (false, doc)

end Document

end XmlTree
