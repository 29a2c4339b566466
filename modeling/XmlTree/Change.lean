/-
  Change.lean --- everything that can be done to a document.

  WHAT THIS FILE IS FOR.  A change is one operation on a document with its arguments,
  as a value; carrying it out gives an outcome and a new document.  A document is
  reachable if some changes lead to it from the new document.  The arguments of a
  change are not restricted: handles may be stale or come from another document.
-/
import XmlTree.Load.Load
import XmlTree.Document.Copy
import XmlTree.Document.Content

set_option autoImplicit false

namespace XmlTree

/-- An operation on a document. -/
inductive Change where
  | loadString (text : String) (options : ParseOptions)
  | loadBytes (bytes : Bytes) (options : ParseOptions) (encoding : Encoding)
  | loadFetched (fetched : Except FetchFailure Bytes) (options : ParseOptions)
      (encoding : Encoding)
  | appendBytes (parent : NodeId) (bytes : Bytes) (options : ParseOptions) (encoding : Encoding)
  | reset
  | resetFrom (source : Document)
  | insertChild (parent : NodeId) (kind : NodeKind) (place : Place NodeId)
  | insertElement (parent : NodeId) (name : String) (place : Place NodeId)
  | insertCopy (parent proto : NodeId) (place : Place NodeId)
  | insertCopyFrom (parent : NodeId) (source : Document) (proto : NodeId) (place : Place NodeId)
  | insertMove (parent moved : NodeId) (place : Place NodeId)
  | removeChild (parent child : NodeId)
  | removeChildNamed (parent : NodeId) (name : String)
  | removeChildren (parent : NodeId)
  | insertAttribute (owner : NodeId) (name value : String) (place : Place AttrId)
  | setAttribute (owner : NodeId) (name value : String)
  | insertAttributeCopy (owner : NodeId) (proto : AttrId) (place : Place AttrId)
  | removeAttribute (owner : NodeId) (attr : AttrId)
  | removeAttributeNamed (owner : NodeId) (name : String)
  | removeAttributes (owner : NodeId)
  | setName (id : NodeId) (name : String)
  | setValue (id : NodeId) (value : String)
  | setContent (id : NodeId) (text : String)
  | setAttrName (id : AttrId) (name : String)
  | setAttrValue (id : AttrId) (value : String)

/-- The document that a change takes something from. -/
def Change.source? : Change → Option Document
  | resetFrom source => some source
  | insertCopyFrom _ source _ _ => some source
  | _ => none

/-- What comes of a change, apart from the document. -/
inductive Outcome where
  | nothing
  /-- how a load ended -/
  | loaded (result : LoadResult)
  /-- the node that was inserted, unless the change was refused -/
  | node (id : Option NodeId)
  /-- the attribute that was inserted or set, unless the change was refused -/
  | attr (id : Option AttrId)
  /-- whether the change was carried out -/
  | done (accepted : Bool)
  deriving DecidableEq, Repr, Inhabited

namespace Document

/-- Carries a change out. -/
def apply (doc : Document) : Change → Outcome × Document
  | .loadString text options => (doc.loadString text options).map .loaded id
  | .loadBytes bytes options encoding => (doc.loadBytes bytes options encoding).map .loaded id
  | .loadFetched fetched options encoding =>
    (doc.loadFetched fetched options encoding).map .loaded id
  | .appendBytes parent bytes options encoding =>
    (doc.appendBytes parent bytes options encoding).map .loaded id
  | .reset => (.nothing, doc.reset)
  | .resetFrom source => (.nothing, doc.resetFrom source)
  | .insertChild parent kind place => (doc.insertChild parent kind place).map .node id
  | .insertElement parent name place => (doc.insertElement parent name place).map .node id
  | .insertCopy parent proto place => (doc.insertCopy parent proto place).map .node id
  | .insertCopyFrom parent source proto place =>
    (doc.insertCopyFrom parent source proto place).map .node id
  | .insertMove parent moved place => (doc.insertMove parent moved place).map .node id
  | .removeChild parent child => (doc.removeChild parent child).map .done id
  | .removeChildNamed parent name => (doc.removeChildNamed parent name).map .done id
  | .removeChildren parent => (doc.removeChildren parent).map .done id
  | .insertAttribute owner name value place =>
    (doc.insertAttribute owner name value place).map .attr id
  | .setAttribute owner name value => (doc.setAttribute owner name value).map .attr id
  | .insertAttributeCopy owner proto place =>
    (doc.insertAttributeCopy owner proto place).map .attr id
  | .removeAttribute owner attr => (doc.removeAttribute owner attr).map .done id
  | .removeAttributeNamed owner name => (doc.removeAttributeNamed owner name).map .done id
  | .removeAttributes owner => (doc.removeAttributes owner).map .done id
  | .setName node name => (doc.setName node name).map .done id
  | .setValue node value => (doc.setValue node value).map .done id
  | .setContent node text => (doc.setContent node text).map .done id
  | .setAttrName attr name => (doc.setAttrName attr name).map .done id
  | .setAttrValue attr value => (doc.setAttrValue attr value).map .done id

/-- Carries changes out one after the other. -/
def applyAll (doc : Document) (changes : List Change) : Document :=
  changes.foldl (fun doc c => (doc.apply c).2) doc

/-- A document that changes lead to from the new one; documents that something is
taken from are reachable themselves.  Between changes document order may be asked
for, which leaves ranks behind. -/
inductive Reachable : Document → Prop where
  | new : Reachable .new
  | change {doc : Document} (c : Change) (before : Reachable doc)
      (source : ∀ s, c.source? = some s → Reachable s) : Reachable (doc.apply c).2
  | ranked {doc : Document} (before : Reachable doc) : Reachable doc.withRanks

end Document

end XmlTree
