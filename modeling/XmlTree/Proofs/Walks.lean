/-
  Proofs/Walks.lean --- what lies around a node in document order.

  WHAT THIS FILE IS FOR.  The walk through a document, cut at a node, is what comes before
  the node, its subtree, and what follows the subtree.  The lists that a node is asked for
  (what is below it, above it, beside it, before and after it) are pieces of that walk, and
  here it is said which.

  THE WAY DOWN.  The cut at a node is made from the cut at its parent: the subtree of the
  parent is the parent, then the subtrees of its children one after the other.
-/
import XmlTree.Proofs.Ranks
import XmlTree.Proofs.Stepping

set_option autoImplicit false

namespace XmlTree

namespace Document

variable {doc : Document} {lay : Layout}

/-! ## After and before a node -/

/-- What comes after the subtree of a node: the subtrees of its following siblings, then
of those of the nodes above. -/
def nodesAfter (doc : Document) (id : NodeId) : List NodeId :=
  (id :: doc.ancestors id).flatMap fun n => doc.preorderOf (doc.followingSiblings n)

/-- What comes before a node without the nodes above it, the nearest first. -/
def nodesBefore (doc : Document) (id : NodeId) : List NodeId :=
  (id :: doc.ancestors id).flatMap fun n =>
    (doc.preorderOf (doc.precedingSiblings n).reverse).reverse

/-! ## The cut at a node -/

/-- The walk through a document is cut at a node: what comes before the node holds the nodes
above it and the rest of what precedes it. -/
structure CutAt (doc : Document) (id : NodeId) (before : List NodeId) : Prop where
  eq : doc.preorder = before ++ (doc.subtree id ++ doc.nodesAfter id)
  above : (doc.ancestors id).reverse.Sublist before
  before : (doc.nodesBefore id).reverse.Sublist before

/-- Nothing comes after the document node. -/
theorem Rooted.nodesAfter_root (h : Rooted doc lay) : doc.nodesAfter doc.root = [] := by
  rw [nodesAfter, LaidOut.ancestors_eq_nil h.parent?_root, List.flatMap_singleton,
    (h.siblings_eq_nil h.parent?_root).1, preorderOf_nil]

/-- Nothing comes before the document node. -/
theorem Rooted.nodesBefore_root (h : Rooted doc lay) : doc.nodesBefore doc.root = [] := by
  rw [nodesBefore, LaidOut.ancestors_eq_nil h.parent?_root, List.flatMap_singleton,
    (h.siblings_eq_nil h.parent?_root).2, List.reverse_nil, preorderOf_nil, List.reverse_nil]

/-- The walk is cut at the document node before everything. -/
theorem Rooted.cutAt_root (h : Rooted doc lay) : doc.CutAt doc.root [] where
  eq := by rw [h.nodesAfter_root, List.append_nil, List.nil_append, preorder]
  above := by rw [LaidOut.ancestors_eq_nil h.parent?_root, List.reverse_nil]
  before := by rw [h.nodesBefore_root, List.reverse_nil]

namespace LaidOut

variable {p c : NodeId} {xs ys : List NodeId}

/-- The subtree of a parent around one of its children. -/
theorem subtree_eq_around (h : LaidOut doc lay) (hchildren : doc.children p = xs ++ c :: ys) :
    doc.subtree p = p :: (doc.preorderOf xs ++ (doc.subtree c ++ doc.preorderOf ys)) := by
  have hxs : xs.Sublist (doc.children p) := by
    rw [hchildren]
    exact List.sublist_append_left xs _
  have hys : ys.Sublist (doc.children p) := by
    rw [hchildren]
    exact (List.sublist_cons_self c ys).trans (List.sublist_append_right xs _)
  have hp : doc.parent? c = some p := h.mem_children.1 (by simp [hchildren])
  rw [h.subtree_eq (h.contains_parent hp), h.descendants_eq, hchildren, h.preorderOf_eq hxs,
    h.preorderOf_eq hys, List.flatMap_append, List.flatMap_cons]

/-- What follows a child is what its later siblings hold, and what follows the parent. -/
theorem nodesAfter_eq_append (h : LaidOut doc lay)
    (hchildren : doc.children p = xs ++ c :: ys) :
    doc.nodesAfter c = doc.preorderOf ys ++ doc.nodesAfter p := by
  have hp : doc.parent? c = some p := h.mem_children.1 (by simp [hchildren])
  rw [nodesAfter, h.ancestors_eq_cons hp, List.flatMap_cons,
    h.followingSiblings_eq hchildren, nodesAfter]

/-- What precedes a child is what its earlier siblings hold, and what precedes the parent. -/
theorem nodesBefore_eq_append (h : LaidOut doc lay)
    (hchildren : doc.children p = xs ++ c :: ys) :
    doc.nodesBefore c = (doc.preorderOf xs).reverse ++ doc.nodesBefore p := by
  have hp : doc.parent? c = some p := h.mem_children.1 (by simp [hchildren])
  rw [nodesBefore, h.ancestors_eq_cons hp, List.flatMap_cons,
    h.precedingSiblings_eq hchildren, List.reverse_reverse, nodesBefore]

/-- The cut at a child is made from the cut at its parent: the parent and the subtrees of
earlier children come before it, too. -/
theorem cutAt_child (h : LaidOut doc lay) {before : List NodeId} (hcut : doc.CutAt p before)
    (hp : doc.parent? c = some p) : ∃ before', doc.CutAt c before' := by
  obtain ⟨xs, ys, hchildren⟩ := List.append_of_mem (h.mem_children.2 hp)
  refine ⟨before ++ p :: doc.preorderOf xs, ?_, ?_, ?_⟩
  · rw [hcut.eq, h.subtree_eq_around hchildren, h.nodesAfter_eq_append hchildren]
    simp
  · rw [h.ancestors_eq_cons hp, List.reverse_cons]
    exact hcut.above.append (List.singleton_sublist.2 List.mem_cons_self)
  · rw [h.nodesBefore_eq_append hchildren, List.reverse_append, List.reverse_reverse]
    exact hcut.before.append (List.sublist_cons_self p _)

end LaidOut

/-- The walk through a document can be cut at every node. -/
theorem Rooted.exists_cutAt (h : Rooted doc lay) {id : NodeId} (hid : doc.contains id = true) :
    ∃ before, doc.CutAt id before := by
  have hbelow := h.below_root hid
  clear hid
  induction hbelow with
  | self => exact ⟨[], h.cutAt_root⟩
  | step hp _ ih =>
    obtain ⟨before, hcut⟩ := ih
    exact h.cutAt_child hcut hp

/-! ## The lists that a node is asked for -/

namespace Rooted

variable {id : NodeId}

theorem subtree_sublist (h : Rooted doc lay) (hid : doc.contains id = true) :
    (doc.subtree id).Sublist doc.preorder := by
  obtain ⟨before, hcut⟩ := h.exists_cutAt hid
  rw [hcut.eq]
  exact (List.sublist_append_left _ _).trans (List.sublist_append_right before _)

/-- What is below a node and what follows it come one after the other. -/
theorem descendants_append_after_sublist (h : Rooted doc lay)
    (hid : doc.contains id = true) :
    (doc.descendants id ++ doc.nodesAfter id).Sublist doc.preorder := by
  obtain ⟨before, hcut⟩ := h.exists_cutAt hid
  have hbelow : (doc.descendants id).Sublist (doc.subtree id) := by
    rw [h.subtree_eq hid]
    exact List.sublist_cons_self id _
  rw [hcut.eq]
  exact (hbelow.append (List.Sublist.refl _)).trans (List.sublist_append_right before _)

/-- The nodes above a node and the node itself, from the top down. -/
theorem ancestorsOrSelf_sublist (h : Rooted doc lay) (hid : doc.contains id = true) :
    (id :: doc.ancestors id).reverse.Sublist doc.preorder := by
  obtain ⟨before, hcut⟩ := h.exists_cutAt hid
  rw [List.reverse_cons, hcut.eq, h.subtree_eq hid]
  exact hcut.above.append (List.singleton_sublist.2 (by simp))

theorem before_sublist (h : Rooted doc lay) (hid : doc.contains id = true) :
    (doc.nodesBefore id).reverse.Sublist doc.preorder := by
  obtain ⟨before, hcut⟩ := h.exists_cutAt hid
  rw [hcut.eq]
  exact hcut.before.trans (List.sublist_append_left before _)

/-- The children of a node come in their order, each at the start of its subtree. -/
theorem children_sublist (h : Rooted doc lay) (p : NodeId) :
    (doc.children p).Sublist doc.preorder := by
  cases hp : doc.contains p with
  | false =>
    rw [h.children_eq_nil hp]
    exact List.nil_sublist _
  | true =>
    have hstarts : (doc.children p).Sublist (doc.descendants p) := by
      rw [h.descendants_eq]
      have hsingle : (doc.children p).flatMap (fun c => [c]) = doc.children p := by simp
      conv_lhs => rw [← hsingle]
      refine List.Sublist.flatMap_right _ fun c hc => List.singleton_sublist.2 ?_
      have hlive : doc.contains c = true := contains_of_parent? (h.mem_children.1 hc)
      rw [h.subtree_eq hlive]
      exact List.mem_cons_self
    exact hstarts.trans ((List.sublist_append_left _ _).trans
      (h.descendants_append_after_sublist hp))

/-- The siblings after a node, and those before it from the first one on. -/
theorem siblings_sublist (h : Rooted doc lay) (id : NodeId) :
    (doc.followingSiblings id).Sublist doc.preorder ∧
      (doc.precedingSiblings id).reverse.Sublist doc.preorder := by
  cases hp : doc.parent? id with
  | none =>
    obtain ⟨hafter, hbefore⟩ := h.siblings_eq_nil hp
    rw [hafter, hbefore]
    exact ⟨List.nil_sublist _, List.nil_sublist _⟩
  | some p =>
    obtain ⟨xs, ys, hchildren⟩ := List.append_of_mem (h.mem_children.2 hp)
    have hsub : (xs ++ id :: ys).Sublist doc.preorder := hchildren ▸ h.children_sublist p
    rw [h.followingSiblings_eq hchildren, h.precedingSiblings_eq hchildren, List.reverse_reverse]
    exact ⟨((List.sublist_cons_self id ys).trans (List.sublist_append_right xs _)).trans hsub,
      (List.sublist_append_left xs _).trans hsub⟩

end Rooted

end Document

end XmlTree
