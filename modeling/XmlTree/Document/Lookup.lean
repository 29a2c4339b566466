/-
  Document/Lookup.lean --- finding nodes by name, by attribute, by path, by position.

  WHAT THIS FILE IS FOR.  Every search here answers the first hit in document order.
  A path is a list of names between delimiters; where several children share a name,
  each is tried in turn until the rest of the path leads somewhere.
-/
import XmlTree.Document.Preorder

set_option autoImplicit false

namespace XmlTree

namespace Document

/-! ## By name -/

/-- Whether a node has a name at all, and it is the given one. -/
def hasName (doc : Document) (name : String) (id : NodeId) : Bool :=
  match doc.node? id with
  | some r => !r.name.isNull && doc.textOf r.name == name
  | none => false

/-- The children with a name. -/
def childrenNamed (doc : Document) (id : NodeId) (name : String) : List NodeId :=
  (doc.children id).filter (doc.hasName name)

/-- The first child with a name. -/
def childNamed? (doc : Document) (id : NodeId) (name : String) : Option NodeId :=
  (doc.children id).find? (doc.hasName name)

/-- The nearest sibling with a name after a node. -/
def nextSiblingNamed? (doc : Document) (id : NodeId) (name : String) : Option NodeId :=
  (doc.followingSiblings id).find? (doc.hasName name)

/-- The nearest sibling with a name before a node. -/
def previousSiblingNamed? (doc : Document) (id : NodeId) (name : String) : Option NodeId :=
  (doc.precedingSiblings id).find? (doc.hasName name)

/-- The first child with a property. -/
def findChild? (doc : Document) (id : NodeId) (p : NodeId → Bool) : Option NodeId :=
  (doc.children id).find? p

/-- The first node below with a property. -/
def findDescendant? (doc : Document) (id : NodeId) (p : NodeId → Bool) : Option NodeId :=
  (doc.descendants id).find? p

/-- The first element at the top of the document. -/
def documentElement? (doc : Document) : Option NodeId :=
  (doc.children doc.root).find? fun c => doc.kind c == .element

/-! ## By attribute -/

/-- The first attribute of a node with a property. -/
def findAttribute? (doc : Document) (id : NodeId) (p : AttrId → Bool) : Option AttrId :=
  (doc.attributes id).find? p

/-- Whether a node has an attribute with the given name and value. -/
def hasAttributeValue (doc : Document) (name value : String) (id : NodeId) : Bool :=
  (doc.attributes id).any fun a => doc.attrName a == name && doc.attrValue a == value

/-- The first child with a name that has an attribute with the given name and
value. -/
def childWithAttribute? (doc : Document) (id : NodeId) (name attrName attrValue : String) :
    Option NodeId :=
  (doc.childrenNamed id name).find? (doc.hasAttributeValue attrName attrValue)

/-- The first child that has an attribute with the given name and value. -/
def anyChildWithAttribute? (doc : Document) (id : NodeId) (attrName attrValue : String) :
    Option NodeId :=
  (doc.children id).find? (doc.hasAttributeValue attrName attrValue)

/-! ## Text of a node -/

/-- The text embedded in an element, or else the value of the first child that is
character data and has a value. -/
def childValue (doc : Document) (id : NodeId) : String :=
  match doc.node? id with
  | some r =>
    if r.kind = .element && !r.value.isNull then
      doc.textOf r.value
    else
      (((doc.children id).filterMap doc.node?).find? fun c => c.kind.isText && !c.value.isNull).elim ""
        fun c => doc.textOf c.value
  | none => ""

/-- The text of the first child with a name. -/
def childValueNamed (doc : Document) (id : NodeId) (name : String) : String :=
  (doc.childNamed? id name).elim "" doc.childValue

/-- Where the name, or else the value, of a node stands in the loaded text; none
when it was copied. -/
def sourceOffset? (doc : Document) (id : NodeId) : Option Nat :=
  match doc.node? id with
  | some r =>
    match r.kind with
    | .document => some 0
    | .element | .declaration | .pi => r.name.sourceOffset?
    | .null => none
    | _ => r.value.sourceOffset?
  | none => none

/-! ## By path -/

/-- The names from the document node down to a node, between delimiters. -/
def path (doc : Document) (id : NodeId) (delimiter : Char) : String :=
  if doc.contains id then
    String.intercalate (String.singleton delimiter)
      ((id :: doc.ancestors id).reverse.map doc.name)
  else
    ""

/-- A step of a path. -/
inductive PathStep where
  /-- to the document node -/
  | root
  /-- nowhere else -/
  | stay
  /-- to the parent -/
  | up
  /-- to a child with the name -/
  | child (name : String)
  deriving DecidableEq, Repr, Inhabited

/-- The step that a name between delimiters stands for. -/
def PathStep.ofName (name : List Char) : PathStep :=
  if name = ['.'] then stay
  else if name = ['.', '.'] then up
  else child (String.ofList name)

/-- The names between delimiters, without the empty ones. -/
def pathNames (delimiter : Char) (text : List Char) : List (List Char) :=
  (text.splitOn delimiter).filter fun name => !name.isEmpty

/-- The steps of a path.  A delimiter at its start leads to the document node. -/
def PathStep.ofPath (delimiter : Char) (text : List Char) : List PathStep :=
  let steps := (pathNames delimiter text).map PathStep.ofName
  if text.head? = some delimiter then root :: steps else steps

/-- The first node that the steps lead to. -/
def follow? (doc : Document) : List PathStep → NodeId → Option NodeId
  | [], id => some id
  | .root :: steps, _ => follow? doc steps doc.root
  | .stay :: steps, id => follow? doc steps id
  | .up :: steps, id => (doc.parent? id).bind (follow? doc steps)
  | .child name :: steps, id => (doc.childrenNamed id name).findSome? (follow? doc steps)

/-- The first node that a path leads to from a node. -/
def nodeAtPath? (doc : Document) (id : NodeId) (path : String) (delimiter : Char) :
    Option NodeId :=
  if doc.contains id then doc.follow? (PathStep.ofPath delimiter path.toList) id else none

/-! ## By position -/

/-- The position of a node among its siblings; none for the document node. -/
def childIndex? (doc : Document) (id : NodeId) : Option Nat :=
  (doc.parent? id).bind fun p => (doc.children p).idxOf? id

/-- The positions of a node and of the nodes above it among their siblings, from
the top down; none for a handle that leads to no node. -/
def address? (doc : Document) (id : NodeId) : Option (List Nat) :=
  if doc.contains id then
    some ((id :: doc.ancestors id).filterMap doc.childIndex?).reverse
  else
    none

/-- The node at an address. -/
def nodeAt? (doc : Document) (address : List Nat) : Option NodeId :=
  address.foldl (fun node i => node.bind fun n => (doc.children n)[i]?) (some doc.root)

/-- The position of an attribute among the attributes of its owner. -/
def attrIndex? (doc : Document) (id : AttrId) : Option Nat :=
  (doc.owner? id).bind fun o => (doc.attributes o).idxOf? id

/-- An address as text: a slash before each position, and one alone for the document
node. -/
def addressText (address : List Nat) : String :=
  match address with
  | [] => "/"
  | steps => String.join (steps.map fun i => "/" ++ toString i)

/-- The address of a node as text. -/
def addressTextOf? (doc : Document) (id : NodeId) : Option String :=
  (doc.address? id).map addressText

/-- The node at an address that is given as text. -/
def nodeAtText? (doc : Document) (text : String) : Option NodeId :=
  ((pathNames '/' text.toList).mapM fun name => (String.ofList name).toNat?).bind doc.nodeAt?

end Document

end XmlTree
