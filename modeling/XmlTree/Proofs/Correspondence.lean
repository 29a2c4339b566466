/-
  Proofs/Correspondence.lean --- documents with the same tree.

  WHAT THIS FILE IS FOR.  Two documents may hold the same tree in different ways: their nodes
  were made in another order, stand in other slots, and refer to texts that were loaded or
  copied.  A mapping says where each node and attribute of the one is found in the other, and
  the trees are the same when it takes the document node to the document node and keeps kinds,
  names, values and the lists of children and attributes.

  NOTHING ELSE IS ASSUMED of the mapping.  That it takes different nodes to different nodes,
  and parents to parents, follows, because both documents are trees.  So does everything that
  a node is asked for: each list of the one is the image of that of the other.
-/
import XmlTree.Proofs.Axes
import XmlTree.Proofs.DocumentOrder

set_option autoImplicit false

namespace XmlTree

/-- Where the nodes and attributes of one document are found in another one. -/
structure Mapping where
  node : NodeId → NodeId
  attr : AttrId → AttrId

/-- Where a node of a query is found. -/
def Mapping.query (m : Mapping) : QueryNode → QueryNode
  | .null => .null
  | .node id => .node (m.node id)
  | .attribute attr parent => .attribute (m.attr attr) (m.node parent)

namespace Document

variable {doc doc' : Document} {lay lay' : Layout} {m : Mapping}

/-- The trees of two documents are equal node for node. -/
structure SameTree (doc doc' : Document) (m : Mapping) : Prop where
  root : m.node doc.root = doc'.root
  kind : ∀ x, doc.contains x = true → doc'.kind (m.node x) = doc.kind x
  name : ∀ x, doc.contains x = true → doc'.name (m.node x) = doc.name x
  value : ∀ x, doc.contains x = true → doc'.value (m.node x) = doc.value x
  children : ∀ x, doc.contains x = true → doc'.children (m.node x) = (doc.children x).map m.node
  attributes : ∀ x, doc.contains x = true →
    doc'.attributes (m.node x) = (doc.attributes x).map m.attr
  attrName : ∀ a, doc.containsAttr a = true → doc'.attrName (m.attr a) = doc.attrName a
  attrValue : ∀ a, doc.containsAttr a = true → doc'.attrValue (m.attr a) = doc.attrValue a

/-- Two documents that are trees, and the same one, and whose nodes compare as they stand. -/
structure Twins (doc doc' : Document) (lay lay' : Layout) (m : Mapping) : Prop where
  left : Rooted doc lay
  right : Rooted doc' lay'
  leftTimely : Timely doc
  rightTimely : Timely doc'
  same : SameTree doc doc' m

namespace Twins

/-! ## Nodes and attributes -/

theorem contains_node (t : Twins doc doc' lay lay' m) {x : NodeId}
    (hx : doc.contains x = true) : doc'.contains (m.node x) = true := by
  refine contains_of_kind_ne ?_
  rw [t.same.kind x hx]
  exact t.left.isTree.kind_ne_null x hx

/-- Parents are taken to parents. -/
theorem parent?_node (t : Twins doc doc' lay lay' m) {x : NodeId}
    (hx : doc.contains x = true) : doc'.parent? (m.node x) = (doc.parent? x).map m.node := by
  cases hp : doc.parent? x with
  | none =>
    rw [t.left.top_eq hx hp, t.same.root]
    exact t.right.parent?_root
  | some p =>
    have hmem : m.node x ∈ doc'.children (m.node p) := by
      rw [t.same.children p (t.left.contains_parent hp)]
      exact List.mem_map_of_mem (t.left.mem_children.2 hp)
    exact t.right.mem_children.1 hmem

/-- Different nodes are taken to different nodes: their parents are, or they are different
children of one parent. -/
theorem node_inj (t : Twins doc doc' lay lay' m) {x y : NodeId} (hx : doc.contains x = true)
    (hy : doc.contains y = true) (heq : m.node x = m.node y) : x = y := by
  have hbelow := t.left.below_root hx
  clear hx
  induction hbelow generalizing y with
  | self =>
    have htop : doc'.parent? (m.node y) = none := by
      rw [← heq, t.same.root]
      exact t.right.parent?_root
    rw [t.parent?_node hy, Option.map_eq_none_iff] at htop
    exact (t.left.top_eq hy htop).symm
  | @step c p hp _ ih =>
    have hparents := t.parent?_node (contains_of_parent? hp)
    rw [heq, t.parent?_node hy, hp, Option.map_some] at hparents
    obtain ⟨q, hq, hpq⟩ := Option.map_eq_some_iff.1 hparents
    have hlive : doc.contains q = true := t.left.contains_parent hq
    obtain rfl : p = q := ih hlive hpq.symm
    have hnodup : ((doc.children p).map m.node).Nodup := by
      rw [← t.same.children p hlive, t.right.children_eq]
      exact t.right.childLists.nodup _
    exact List.inj_on_of_nodup_map hnodup (t.left.mem_children.2 hp) (t.left.mem_children.2 hq)
      heq

theorem owner?_attr (t : Twins doc doc' lay lay' m) {a : AttrId} {p : NodeId}
    (howner : doc.owner? a = some p) : doc'.owner? (m.attr a) = some (m.node p) := by
  refine t.right.mem_attributes.1 ?_
  rw [t.same.attributes p (t.left.contains_owner howner)]
  exact List.mem_map_of_mem (t.left.mem_attributes.2 howner)

theorem attr_inj (t : Twins doc doc' lay lay' m) {a b : AttrId} {p : NodeId}
    (ha : doc.owner? a = some p) (hb : doc.owner? b = some p) (heq : m.attr a = m.attr b) :
    a = b := by
  have hnodup : ((doc.attributes p).map m.attr).Nodup := by
    rw [← t.same.attributes p (t.left.contains_owner ha), t.right.attributes_eq]
    exact t.right.attrLists.nodup _
  exact List.inj_on_of_nodup_map hnodup (t.left.mem_attributes.2 ha) (t.left.mem_attributes.2 hb)
    heq

theorem live_query (t : Twins doc doc' lay lay' m) {n : QueryNode} (hn : doc.Live n) :
    doc'.Live (m.query n) := by
  rcases n with _ | id | ⟨attr, parent⟩
  · exact hn
  · exact t.contains_node hn
  · exact t.owner?_attr hn

/-- Different nodes of a query are taken to different nodes. -/
theorem query_inj (t : Twins doc doc' lay lay' m) {n k : QueryNode} (hn : doc.Live n)
    (hk : doc.Live k) (heq : m.query n = m.query k) : n = k := by
  rcases n with _ | x | ⟨a, p⟩
  · exact hn.elim
  · rcases k with _ | y | ⟨b, q⟩
    · exact hk.elim
    · rw [t.node_inj hn hk (QueryNode.node.inj heq)]
    · exact absurd heq (by simp [Mapping.query])
  · rcases k with _ | y | ⟨b, q⟩
    · exact hk.elim
    · exact absurd heq (by simp [Mapping.query])
    · obtain ⟨hattrs, hparents⟩ := QueryNode.attribute.inj heq
      obtain rfl : p = q :=
        t.node_inj (t.left.contains_owner hn) (t.left.contains_owner hk) hparents
      rw [t.attr_inj hn hk hattrs]

/-! ## Lists of nodes -/

theorem ancestors_node (t : Twins doc doc' lay lay' m) {x : NodeId}
    (hx : doc.contains x = true) :
    doc'.ancestors (m.node x) = (doc.ancestors x).map m.node := by
  have hbelow := t.left.below_root hx
  clear hx
  induction hbelow with
  | self =>
    rw [t.same.root, LaidOut.ancestors_eq_nil t.left.parent?_root,
      LaidOut.ancestors_eq_nil t.right.parent?_root]
    rfl
  | @step c p hp _ ih =>
    have hp' : doc'.parent? (m.node c) = some (m.node p) := by
      rw [t.parent?_node (contains_of_parent? hp), hp]
      rfl
    rw [t.left.ancestors_eq_cons hp, t.right.ancestors_eq_cons hp', ih, List.map_cons]

theorem subtree_node (t : Twins doc doc' lay lay' m) {x : NodeId}
    (hx : doc.contains x = true) : doc'.subtree (m.node x) = (doc.subtree x).map m.node := by
  obtain ⟨o, rfl, ho⟩ := t.left.forest.exists_outline x
  induction ho with
  | @node a os hhere _ ih =>
    have hx : doc.contains a = true := hx
    have hchildren : ∀ o ∈ os, doc.contains o.top = true := fun o ho => by
      have hmem : o.top ∈ doc.children a := hhere ▸ List.mem_map_of_mem ho
      exact contains_of_parent? (t.left.mem_children.1 hmem)
    rw [Outline.top, t.left.subtree_eq hx, t.right.subtree_eq (t.contains_node hx),
      t.left.descendants_eq, t.right.descendants_eq, t.same.children a hx, hhere, List.map_cons,
      List.map_flatMap, List.flatMap_map, List.flatMap_map, List.flatMap_map]
    exact congrArg _ (List.flatMap_congr fun o ho => ih o ho (hchildren o ho))

/-- Subtrees of children side by side. -/
theorem preorderOf_node (t : Twins doc doc' lay lay' m) {p : NodeId} {ids : List NodeId}
    (hp : doc.contains p = true) (hsub : ids.Sublist (doc.children p)) :
    doc'.preorderOf (ids.map m.node) = (doc.preorderOf ids).map m.node := by
  have hsub' : (ids.map m.node).Sublist (doc'.children (m.node p)) := by
    rw [t.same.children p hp]
    exact hsub.map m.node
  rw [t.left.preorderOf_eq hsub, t.right.preorderOf_eq hsub', List.map_flatMap, List.flatMap_map]
  exact List.flatMap_congr fun c hc =>
    t.subtree_node (contains_of_parent? (t.left.mem_children.1 (hsub.subset hc)))

theorem descendants_node (t : Twins doc doc' lay lay' m) {x : NodeId}
    (hx : doc.contains x = true) :
    doc'.descendants (m.node x) = (doc.descendants x).map m.node := by
  rw [t.left.descendants_eq_preorderOf, t.right.descendants_eq_preorderOf, t.same.children x hx]
  exact t.preorderOf_node hx (List.Sublist.refl _)

theorem preorder_eq (t : Twins doc doc' lay lay' m) :
    doc'.preorder = doc.preorder.map m.node := by
  rw [preorder, ← t.same.root]
  exact t.subtree_node t.left.contains_root

/-- What stands beside a node, and what the subtrees of its siblings hold. -/
theorem siblings_node (t : Twins doc doc' lay lay' m) {x : NodeId}
    (hx : doc.contains x = true) :
    doc'.followingSiblings (m.node x) = (doc.followingSiblings x).map m.node ∧
      doc'.precedingSiblings (m.node x) = (doc.precedingSiblings x).map m.node ∧
      doc'.preorderOf (doc'.followingSiblings (m.node x)) =
        (doc.preorderOf (doc.followingSiblings x)).map m.node ∧
      doc'.preorderOf (doc'.precedingSiblings (m.node x)).reverse =
        (doc.preorderOf (doc.precedingSiblings x).reverse).map m.node := by
  cases hp : doc.parent? x with
  | none =>
    have hp' : doc'.parent? (m.node x) = none := by
      rw [t.parent?_node hx, hp]
      rfl
    obtain ⟨hafter, hbefore⟩ := t.left.siblings_eq_nil hp
    obtain ⟨hafter', hbefore'⟩ := t.right.siblings_eq_nil hp'
    simp [hafter, hbefore, hafter', hbefore', preorderOf_nil]
  | some p =>
    have hlive : doc.contains p = true := t.left.contains_parent hp
    obtain ⟨xs, ys, hchildren⟩ := List.append_of_mem (t.left.mem_children.2 hp)
    have hchildren' : doc'.children (m.node p) = xs.map m.node ++ m.node x :: ys.map m.node := by
      rw [t.same.children p hlive, hchildren, List.map_append, List.map_cons]
    have hxs : xs.Sublist (doc.children p) := by
      rw [hchildren]
      exact List.sublist_append_left xs _
    have hys : ys.Sublist (doc.children p) := by
      rw [hchildren]
      exact (List.sublist_cons_self x ys).trans (List.sublist_append_right xs _)
    rw [t.left.followingSiblings_eq hchildren, t.right.followingSiblings_eq hchildren',
      t.left.precedingSiblings_eq hchildren, t.right.precedingSiblings_eq hchildren']
    refine ⟨rfl, List.map_reverse.symm, t.preorderOf_node hlive hys, ?_⟩
    rw [List.reverse_reverse, List.reverse_reverse]
    exact t.preorderOf_node hlive hxs

/-- The nodes at and above a node are there. -/
theorem contains_of_mem_above (t : Twins doc doc' lay lay' m) {x y : NodeId}
    (hx : doc.contains x = true) (hy : y ∈ x :: doc.ancestors x) : doc.contains y = true :=
  t.left.contains_above hx (((t.left.reads_ancestors hx).2.2 y).2 hy)

theorem nodesAfter_node (t : Twins doc doc' lay lay' m) {x : NodeId}
    (hx : doc.contains x = true) :
    doc'.nodesAfter (m.node x) = (doc.nodesAfter x).map m.node := by
  rw [nodesAfter, t.ancestors_node hx, ← List.map_cons, List.flatMap_map, nodesAfter,
    List.map_flatMap]
  exact List.flatMap_congr fun y hy =>
    (t.siblings_node (t.contains_of_mem_above hx hy)).2.2.1

theorem nodesBefore_node (t : Twins doc doc' lay lay' m) {x : NodeId}
    (hx : doc.contains x = true) :
    doc'.nodesBefore (m.node x) = (doc.nodesBefore x).map m.node := by
  rw [nodesBefore, t.ancestors_node hx, ← List.map_cons, List.flatMap_map, nodesBefore,
    List.map_flatMap]
  refine List.flatMap_congr fun y hy => ?_
  rw [(t.siblings_node (t.contains_of_mem_above hx hy)).2.2.2, List.map_reverse]

/-! ## Axes -/

theorem followingNodes_node (t : Twins doc doc' lay lay' m) {x : NodeId}
    (hx : doc.contains x = true) :
    doc'.followingNodes (m.node x) = (doc.followingNodes x).map m.node := by
  rw [t.right.followingNodes_eq (t.contains_node hx), t.left.followingNodes_eq hx,
    t.nodesAfter_node hx]

theorem precedingNodes_node (t : Twins doc doc' lay lay' m) {x : NodeId}
    (hx : doc.contains x = true) :
    doc'.precedingNodes (m.node x) = (doc.precedingNodes x).map m.node := by
  rw [t.right.precedingNodes_eq (t.contains_node hx), t.left.precedingNodes_eq hx,
    t.nodesBefore_node hx]

theorem axisFromNode_node (t : Twins doc doc' lay lay' m) {x : NodeId}
    (hx : doc.contains x = true) (axis : Axis) :
    doc'.axisFromNode (m.node x) axis = (doc.axisFromNode x axis).map m.node := by
  cases axis with
  | child => exact t.same.children x hx
  | descendant => exact t.descendants_node hx
  | descendantOrSelf => exact congrArg (m.node x :: ·) (t.descendants_node hx)
  | parent =>
    rw [axisFromNode, axisFromNode, t.parent?_node hx]
    cases doc.parent? x <;> rfl
  | ancestor => exact t.ancestors_node hx
  | ancestorOrSelf => exact congrArg (m.node x :: ·) (t.ancestors_node hx)
  | followingSibling => exact (t.siblings_node hx).1
  | precedingSibling => exact (t.siblings_node hx).2.1
  | following => exact t.followingNodes_node hx
  | preceding => exact t.precedingNodes_node hx
  | self => rfl
  | «attribute» => rfl
  | namespace_ => rfl

theorem axisFromAttribute_node (t : Twins doc doc' lay lay' m) {x : NodeId}
    (hx : doc.contains x = true) (axis : Axis) :
    doc'.axisFromAttribute (m.node x) axis = (doc.axisFromAttribute x axis).map m.node := by
  cases axis with
  | parent => rfl
  | ancestor => exact congrArg (m.node x :: ·) (t.ancestors_node hx)
  | ancestorOrSelf => exact congrArg (m.node x :: ·) (t.ancestors_node hx)
  | following =>
    rw [axisFromAttribute, axisFromAttribute, t.left.followingFrom_follower? hx,
      t.right.followingFrom_follower? (t.contains_node hx), t.descendants_node hx,
      t.nodesAfter_node hx, List.map_append]
  | preceding => exact t.precedingNodes_node hx
  | _ => rfl

theorem passes_node (t : Twins doc doc' lay lay' m) {x : NodeId} (hx : doc.contains x = true)
    (test : NodeTest) : doc'.passes test (m.node x) = doc.passes test x := by
  cases test with
  | pi target => cases target <;> simp [passes, t.same.kind x hx, t.same.name x hx]
  | _ => simp [passes, t.same.kind x hx, t.same.name x hx]

theorem attrPasses_attr (t : Twins doc doc' lay lay' m) {a : AttrId}
    (ha : doc.containsAttr a = true) (test : NodeTest) :
    doc'.attrPasses test (m.attr a) = doc.attrPasses test a := by
  simp [attrPasses, t.same.attrName a ha]

/-- The nodes of a list that pass a test. -/
theorem filter_passes_map (t : Twins doc doc' lay lay' m) {ids : List NodeId}
    (hlive : ∀ x ∈ ids, doc.contains x = true) (test : NodeTest) :
    ((ids.map m.node).filter (doc'.passes test)).map QueryNode.node =
      ((ids.filter (doc.passes test)).map QueryNode.node).map m.query := by
  have hsame : ids.filter (doc'.passes test ∘ m.node) = ids.filter (doc.passes test) :=
    List.filter_congr fun x hx => t.passes_node (hlive x hx) test
  rw [List.filter_map, hsame, List.map_map, List.map_map]
  rfl

/-- An axis leads from corresponding nodes to corresponding nodes. -/
theorem axisNodes_query (t : Twins doc doc' lay lay' m) {n : QueryNode}
    (hn : n = .null ∨ doc.Live n) (axis : Axis) (test : NodeTest) :
    doc'.axisNodes axis test (m.query n) = (doc.axisNodes axis test n).map m.query := by
  obtain rfl | hlive := hn
  · rfl
  rcases n with _ | x | ⟨attr, owner⟩
  · rfl
  · have hx : doc.contains x = true := hlive
    have hlives : ∀ y ∈ doc.axisFromNode x axis, doc.contains y = true := fun y hy =>
      (t.left.sound_axisFromNode hx axis).live (.node y) (List.mem_map_of_mem hy)
    have hpicked := t.filter_passes_map hlives test
    rw [← t.axisFromNode_node hx axis] at hpicked
    by_cases haxis : axis = .attribute
    · subst haxis
      have hsame : (doc.attributes x).filter (doc'.attrPasses test ∘ m.attr) =
          (doc.attributes x).filter (doc.attrPasses test) := by
        refine List.filter_congr fun a ha => t.attrPasses_attr ?_ test
        exact containsAttr_of_owner? (t.left.mem_attributes.1 ha)
      simp only [Mapping.query, axisNodes, t.contains_node hx, hx, Bool.not_true,
        Bool.false_eq_true, if_false, if_true, t.same.attributes x hx, List.filter_map, hsame,
        List.map_map]
      rfl
    · simp only [Mapping.query, axisNodes, t.contains_node hx, hx, Bool.not_true,
        Bool.false_eq_true, if_false, if_neg haxis]
      exact hpicked
  · have howner : doc.owner? attr = some owner := hlive
    have hx : doc.contains owner = true := t.left.contains_owner howner
    have hlives : ∀ y ∈ doc.axisFromAttribute owner axis, doc.contains y = true := fun y hy =>
      (t.left.sound_axisFromAttribute howner axis).live (.node y)
        (List.mem_append_right _ (List.mem_map_of_mem hy))
    have hpicked := t.filter_passes_map hlives test
    rw [← t.axisFromAttribute_node hx axis] at hpicked
    simp only [Mapping.query, axisNodes, t.contains_node hx, hx,
      containsAttr_of_owner? howner, containsAttr_of_owner? (t.owner?_attr howner),
      Bool.and_self, Bool.not_true, Bool.false_eq_true, if_false, List.map_append]
    rw [hpicked]
    congr 1
    split <;> rfl

/-! ## Order -/

theorem sequence_eq (t : Twins doc doc' lay lay' m) :
    doc'.sequence = doc.sequence.map m.query := by
  rw [sequence, t.preorder_eq, List.flatMap_map, sequence, List.map_flatMap]
  refine List.flatMap_congr fun x hx => ?_
  rw [entries, t.same.attributes x (t.left.mem_preorder.1 hx), entries, List.map_cons,
    List.map_map, List.map_map]
  rfl

/-- Nodes that come one before the other do so in both documents. -/
theorem precedes_query (t : Twins doc doc' lay lay' m) {a b : QueryNode}
    (hab : doc.Precedes a b) : doc'.Precedes (m.query a) (m.query b) := by
  rw [Precedes, t.sequence_eq]
  exact hab.map m.query

end Twins

end Document

end XmlTree
