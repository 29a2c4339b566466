/-
  Document/Copy.lean --- copies of subtrees, within a document and between two.

  WHAT THIS FILE IS FOR.  A copy is taken of the value of the subtree before
  anything is made, so the copy may go below its own pattern.  Every text of the copy
  is a text of its own.  An empty text becomes the null slot, whatever it was in the
  pattern.

  NO TEXT IS TOO LONG.  What is copied was read from a slot, and no slot reads as a text
  that is too long to be copied.

  ORDER OF MAKING.  Nodes are made in document order; for each its name and value are
  copied, then its attributes are made one by one.
-/
import XmlTree.Document.Tree
import XmlTree.Document.Edit

set_option autoImplicit false

namespace XmlTree

namespace Document

/-- Makes an attribute at the end of the attributes of `owner`. -/
def pushAttr (owner : NodeId) (doc : Document) (a : TreeAttribute) : Document :=
  let (id, doc) := doc.allocAttr
  let doc := doc.linkAttr owner .last id
  let (name, doc) := doc.ownText (a.name.getD "")
  let (value, doc) := doc.ownText (a.value.getD "")
  doc.modifyAttr id fun r => { r with name := name.getD .null, value := value.getD .null }

/-- Makes a node that stands nowhere yet, with the given names, values and
attributes. -/
def buildNode (doc : Document) (label : TreeLabel) : NodeId × Document :=
  let (id, doc) := doc.allocNode label.kind
  let (name, doc) := doc.ownText (label.name.getD "")
  let (value, doc) := doc.ownText (label.value.getD "")
  let doc := doc.modifyNode id fun r =>
    { r with name := name.getD .null, value := value.getD .null }
  (id, label.attributes.foldl (pushAttr id) doc)

mutual

/-- Makes a subtree whose top stands nowhere yet. -/
def build (doc : Document) : Tree → NodeId × Document
  | .node label children =>
    let (id, doc) := doc.buildNode label
    (id, buildBelow doc id children)

/-- Makes subtrees at the end of the children of `parent`. -/
def buildBelow (doc : Document) (parent : NodeId) : List Tree → Document
  | [] => doc
  | t :: ts =>
    let (id, doc) := build doc t
    buildBelow (doc.link parent .last id) parent ts

end

/-- Makes a copy of a tree of the given kind at a place below `parent`. -/
def insertTree (doc : Document) (parent : NodeId) (kind : NodeKind) (tree : Tree)
    (place : Place NodeId) : Option NodeId × Document :=
  if doc.accepts parent kind place then
    let (id, doc) := doc.build tree
    (some id, doc.linkAt parent place id)
  else
    (none, doc)

/-- Makes a copy of the subtree of `proto` at a place below `parent`. -/
def insertCopy (doc : Document) (parent proto : NodeId) (place : Place NodeId) :
    Option NodeId × Document :=
  doc.insertTree parent (doc.kind proto) (doc.tree proto) place

/-- Makes a copy of a subtree of another document at a place below `parent`. -/
def insertCopyFrom (doc : Document) (parent : NodeId) (source : Document) (proto : NodeId)
    (place : Place NodeId) : Option NodeId × Document :=
  doc.insertTree parent (source.kind proto) (source.tree proto) place

/-- Makes copies of subtrees of another document at the top, up to the first one
that may not stand there. -/
def copyTops (doc source : Document) : List NodeId → Document
  | [] => doc
  | c :: cs =>
    match doc.insertCopyFrom doc.root source c .last with
    | (some _, doc) => copyTops doc source cs
    | (none, doc) => doc

/-- The document with its content replaced by a copy of that of `source`. -/
def resetFrom (doc source : Document) : Document :=
  doc.reset.copyTops source (source.children source.root)

/-- A new document with a copy of the content of `source`. -/
def clone (source : Document) : Document := new.resetFrom source

end Document

end XmlTree
