/-
  Proofs/Surroundings.lean --- the axes of a node split up the tree.

  WHAT THIS FILE IS FOR.  Seen from a node, every node of the tree is the node itself, above
  it, below it, before it or after it, and only one of these.  Seen from an attribute there
  is nothing below, and its owner counts as above and what is below the owner as after it.
  So the axes that lead there list every node of a document, each of them once.

  THE INDUCTION is on the way down to the node: a step to a child moves the parent to the
  nodes above, and parts what is below the parent into before, below and after.
-/
import XmlTree.Proofs.Axes
import XmlTree.Proofs.TreeShape

set_option autoImplicit false

namespace XmlTree

/-- The axes that lead backwards. -/
def Axis.backwards : List Axis := [.ancestor, .ancestorOrSelf, .preceding, .precedingSibling]

/-- The axes that lead from a tree node to all nodes. -/
def Axis.aroundNode : List Axis := [.self, .ancestor, .descendant, .preceding, .following]

/-- The axes that lead from an attribute to all nodes. -/
def Axis.aroundAttribute : List Axis := [.ancestor, .preceding, .following]

theorem Axis.order_eq (axis : Axis) :
    axis.order = if axis ∈ backwards then .reverse else .sorted := by
  cases axis <;> decide

namespace Document

variable {doc : Document} {lay : Layout}

/-- The axes lead from a node to all nodes of the document: to each of them on one axis, and
there once. -/
structure SplitBy (doc : Document) (axes : List Axis) (n : QueryNode) : Prop where
  nodup : ∀ axis ∈ axes, (doc.axisNodes axis .node n).Nodup
  disjoint : axes.Pairwise fun a b =>
    (doc.axisNodes a .node n).Disjoint (doc.axisNodes b .node n)
  mem_iff : ∀ x, (∃ axis ∈ axes, x ∈ doc.axisNodes axis .node n) ↔
    ∃ id, x = .node id ∧ doc.contains id = true

/-- Every axis lists what it leads to in document order, or backwards if it leads
backwards. -/
structure ListsInOrder (doc : Document) (n : QueryNode) : Prop where
  increasing : ∀ axis ∉ Axis.backwards, ∀ test,
    (doc.axisNodes axis test n).Pairwise doc.Precedes
  decreasing : ∀ axis ∈ Axis.backwards, ∀ test,
    (doc.axisNodes axis test n).Pairwise fun a b => doc.Precedes b a

/-! ## All nodes around one -/

/-- Above a node, before it, in its subtree and after it are all nodes, each of them once. -/
theorem Rooted.perm_around (h : Rooted doc lay) {id : NodeId} (hid : doc.contains id = true) :
    (doc.ancestors id ++ (doc.nodesBefore id ++
      (doc.subtree id ++ doc.nodesAfter id))).Perm doc.preorder := by
  have hbelow := h.below_root hid
  clear hid
  induction hbelow with
  | self =>
    have habove : doc.ancestors doc.root = [] := LaidOut.ancestors_eq_nil h.parent?_root
    simp [habove, h.nodesBefore_root, h.nodesAfter_root, preorder]
  | @step c p hp _ ih =>
    obtain ⟨xs, ys, hchildren⟩ := List.append_of_mem (h.mem_children.2 hp)
    refine List.Perm.trans (List.perm_iff_count.2 fun x => ?_) ih
    rw [h.subtree_eq_around hchildren, h.nodesAfter_eq_append hchildren,
      h.nodesBefore_eq_append hchildren, h.ancestors_eq_cons hp]
    simp only [List.count_append, List.count_cons, List.count_reverse]
    omega

/-! ## Splits -/

theorem axisNodes_node_eq {id : NodeId} (hid : doc.contains id = true) {axis : Axis}
    (haxis : axis ≠ .attribute) :
    doc.axisNodes axis .node (.node id) = (doc.axisFromNode id axis).map .node := by
  have hall : (doc.axisFromNode id axis).filter (doc.passes .node) = doc.axisFromNode id axis :=
    List.filter_eq_self.2 fun _ _ => rfl
  simp [axisNodes, hid, haxis, hall]

theorem LaidOut.axisNodes_attribute_eq (h : LaidOut doc lay) {attr : AttrId} {owner : NodeId}
    (howner : doc.owner? attr = some owner) {axis : Axis} (haxis : leadsToItself axis = false) :
    doc.axisNodes axis .node (.attribute attr owner) =
      (doc.axisFromAttribute owner axis).map .node := by
  have hall : (doc.axisFromAttribute owner axis).filter (doc.passes .node) =
      doc.axisFromAttribute owner axis := List.filter_eq_self.2 fun _ _ => rfl
  simp [axisNodes, containsAttr_of_owner? howner, h.contains_owner howner, haxis, hall]

/-- Axes that list the nodes of the walk in some order split them up. -/
theorem Rooted.splitBy_of_perm (h : Rooted doc lay) {axes : List Axis} {n : QueryNode}
    (hperm : (axes.flatMap fun axis => doc.axisNodes axis .node n).Perm
      (doc.preorder.map .node)) : doc.SplitBy axes n := by
  have hnodup : (doc.preorder.map QueryNode.node).Nodup :=
    h.preorder_nodup.map fun _ _ heq => QueryNode.node.inj heq
  obtain ⟨heach, hpairs⟩ := List.nodup_flatMap.1 (hperm.nodup_iff.2 hnodup)
  refine ⟨heach, hpairs, fun x => ?_⟩
  have hmem : x ∈ (axes.flatMap fun axis => doc.axisNodes axis .node n) ↔ _ := hperm.mem_iff
  simp only [List.mem_flatMap, List.mem_map, h.mem_preorder] at hmem
  rw [hmem]
  constructor
  · rintro ⟨id, hid, rfl⟩
    exact ⟨id, rfl, hid⟩
  · rintro ⟨id, rfl, hid⟩
    exact ⟨id, hid, rfl⟩

/-- From a tree node: itself, above, below, before, after. -/
theorem Rooted.splitBy_aroundNode (h : Rooted doc lay) {id : NodeId}
    (hid : doc.contains id = true) : doc.SplitBy Axis.aroundNode (.node id) := by
  refine h.splitBy_of_perm ?_
  have hmap : (Axis.aroundNode.flatMap fun axis => doc.axisNodes axis .node (.node id)) =
      (Axis.aroundNode.flatMap (doc.axisFromNode id)).map .node := by
    rw [List.map_flatMap]
    refine List.flatMap_congr fun axis haxis => axisNodes_node_eq hid ?_
    rintro rfl
    exact absurd haxis (by decide)
  rw [hmap]
  refine List.Perm.map _ (List.Perm.trans (List.perm_iff_count.2 fun x => ?_)
    (h.perm_around hid))
  simp only [Axis.aroundNode, axisFromNode, h.followingNodes_eq hid, h.precedingNodes_eq hid,
    h.subtree_eq hid, List.flatMap_cons,
    List.flatMap_nil, List.count_append, List.count_cons, List.count_nil]
  omega

/-- From an attribute: above, before, after. -/
theorem Rooted.splitBy_aroundAttribute (h : Rooted doc lay) {attr : AttrId} {owner : NodeId}
    (howner : doc.owner? attr = some owner) :
    doc.SplitBy Axis.aroundAttribute (.attribute attr owner) := by
  have hid : doc.contains owner = true := h.contains_owner howner
  refine h.splitBy_of_perm ?_
  have hmap : (Axis.aroundAttribute.flatMap fun axis =>
      doc.axisNodes axis .node (.attribute attr owner)) =
        (Axis.aroundAttribute.flatMap (doc.axisFromAttribute owner)).map .node := by
    rw [List.map_flatMap]
    refine List.flatMap_congr fun axis haxis => h.axisNodes_attribute_eq howner ?_
    revert axis
    decide
  rw [hmap]
  refine List.Perm.map _ (List.Perm.trans (List.perm_iff_count.2 fun x => ?_)
    (h.perm_around hid))
  simp only [Axis.aroundAttribute, axisFromAttribute, h.followingFrom_follower? hid,
    h.precedingNodes_eq hid, h.subtree_eq hid, List.flatMap_cons,
    List.flatMap_nil, List.count_append, List.count_cons, List.count_nil]
  omega

/-! ## Order -/

/-- Every axis lists nodes in its order. -/
theorem Rooted.listsInOrder (h : Rooted doc lay) {n : QueryNode} (hn : doc.Live n) :
    doc.ListsInOrder n where
  increasing axis haxis test :=
    (h.sound_axisNodes (.inr hn) axis test).sorted (by rw [Axis.order_eq, if_neg haxis])
  decreasing axis haxis test :=
    (h.sound_axisNodes (.inr hn) axis test).reverse (by rw [Axis.order_eq, if_pos haxis])

/-! ## Whatever was done -/

/-- The axes of a document split it up around every tree node and around every attribute,
and list nodes in their order. -/
structure SplitByAxes (doc : Document) : Prop where
  aroundNode : ∀ id, doc.contains id = true → doc.SplitBy Axis.aroundNode (.node id)
  aroundAttribute : ∀ attr owner, doc.owner? attr = some owner →
    doc.SplitBy Axis.aroundAttribute (.attribute attr owner)
  owner_above : ∀ attr owner, doc.owner? attr = some owner →
    .node owner ∈ doc.axisNodes .ancestor .node (.attribute attr owner)
  below_owner_after : ∀ attr owner, doc.owner? attr = some owner →
    doc.axisNodes .descendant .node (.node owner) ⊆
      doc.axisNodes .following .node (.attribute attr owner)
  inOrder : ∀ n, doc.Live n → doc.ListsInOrder n

theorem Rooted.splitByAxes (h : Rooted doc lay) : SplitByAxes doc where
  aroundNode _ hid := h.splitBy_aroundNode hid
  aroundAttribute _ _ howner := h.splitBy_aroundAttribute howner
  owner_above _ _ howner := by
    rw [h.axisNodes_attribute_eq howner rfl]
    exact List.mem_map_of_mem List.mem_cons_self
  below_owner_after _ _ howner := by
    rw [h.axisNodes_attribute_eq howner rfl,
      axisNodes_node_eq (h.contains_owner howner) (by decide), axisFromAttribute,
      h.followingFrom_follower? (h.contains_owner howner)]
    exact List.map_subset _ (List.subset_append_left _ _)
  inOrder _ hn := h.listsInOrder hn

/-- Whatever was done to a document, its axes split it up around every node. -/
theorem reachable_splitByAxes (hdoc : Reachable doc) : SplitByAxes doc := by
  obtain ⟨lay, hrooted⟩ := hdoc.whole
  exact hrooted.splitByAxes

/-- Around a node that was put into a slot used before. -/
theorem splitByAxes_shuffled :
    (Axis.aroundNode.map fun axis =>
        (new.applyAll shuffled).axisNodes axis .node (.node ⟨⟨2, 2⟩⟩)) =
      [[.node ⟨⟨2, 2⟩⟩], [.node ⟨⟨1, 1⟩⟩, .node ⟨⟨0, 1⟩⟩], [], [.node ⟨⟨3, 1⟩⟩], []] ∧
      SplitByAxes (new.applyAll shuffled) :=
  ⟨by decide +kernel, reachable_splitByAxes (Reachable.new.applyAll (by decide))⟩

end Document

end XmlTree
