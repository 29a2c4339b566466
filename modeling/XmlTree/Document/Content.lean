/-
  Document/Content.lean --- the text of a node.

  WHAT THIS FILE IS FOR.  The text of a node is its own value if it is character
  data or an element with embedded text, and else that of its first child that is
  character data.  Setting the text of a node without any makes such a child.
-/
import XmlTree.Document.Edit

set_option autoImplicit false

namespace XmlTree

namespace Document

/-- The node that holds the text of a node. -/
def textHolder? (doc : Document) (id : NodeId) : Option NodeId :=
  match doc.node? id with
  | some r =>
    if r.kind.isText || (r.kind = .element && !r.value.isNull) then some id
    else (doc.children id).find? fun c => (doc.kind c).isText
  | none => none

/-- The text of a node, empty when it has none. -/
def content (doc : Document) (id : NodeId) : String :=
  (doc.textHolder? id).elim "" doc.value

/-- Sets the text of a node, making a child for it at the end if it has none. -/
def setContent (doc : Document) (id : NodeId) (text : String) : Bool × Document :=
  match doc.textHolder? id with
  | some holder =>
    if doc.kind holder = .element then doc.replaceValue holder text
    else doc.setValue holder text
  | none =>
    match doc.insertChild id .pcdata .last with
    | (some holder, doc) => doc.setValue holder text
    | (none, doc) => (false, doc)

end Document

end XmlTree
