/-
  Document/Tree.lean --- the tree as a value.

  WHAT THIS FILE IS FOR.  A document spreads a tree over records.  Here the subtree
  of a node is read off as one value: kinds, names, values, attributes and children,
  without handles and without slots.  Writing markup and copying work on this value,
  and "the same tree" means that two such values are equal.

  NOTHING AND THE EMPTY TEXT are still told apart: a null slot reads as `none`.
-/
import XmlTree.Document.Preorder

set_option autoImplicit false

namespace XmlTree

/-- An attribute as a value. -/
structure TreeAttribute where
  name : Option String
  value : Option String
  deriving DecidableEq, Repr, Inhabited

/-- A node as a value, without what is below it. -/
structure TreeLabel where
  kind : NodeKind
  name : Option String
  value : Option String
  attributes : List TreeAttribute
  deriving DecidableEq, Repr, Inhabited

/-- A node with everything below it. -/
inductive Tree where
  | node (label : TreeLabel) (children : List Tree)
  deriving Repr, Inhabited

namespace Tree

/-- The node itself. -/
def label : Tree → TreeLabel
  | node l _ => l

/-- The trees below. -/
def children : Tree → List Tree
  | node _ cs => cs

end Tree

namespace Document

/-- The text of a slot, none for the null slot. -/
def textOf? (doc : Document) (slot : TextSlot) : Option String :=
  if slot.isNull then none else some (doc.textOf slot)

/-- An attribute read off its record. -/
def attrLabel (doc : Document) (id : AttrId) : TreeAttribute :=
  (doc.attr? id).elim ⟨none, none⟩ fun r => ⟨doc.textOf? r.name, doc.textOf? r.value⟩

/-- A node without what is below it; no kind for a handle that leads to no node. -/
def labelOf (doc : Document) (id : NodeId) : TreeLabel :=
  match doc.node? id with
  | some r =>
    ⟨r.kind, doc.textOf? r.name, doc.textOf? r.value, (doc.attributes id).map doc.attrLabel⟩
  | none => ⟨.null, none, none, []⟩

/-- The subtree of a node down to `depth` levels. -/
def treeUpTo (doc : Document) : (depth : Nat) → NodeId → Tree
  | 0, _ => .node ⟨.null, none, none, []⟩ []
  | depth + 1, id => .node (doc.labelOf id) ((doc.children id).map (treeUpTo doc depth))

/-- The subtree of a node.  No path in it is longer than the number of slots. -/
def tree (doc : Document) (id : NodeId) : Tree := doc.treeUpTo doc.walkLimit id

end Document

end XmlTree
