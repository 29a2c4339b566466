/-
  Proofs/Axes.lean --- a step from one node lists nodes in the order of its axis.

  WHAT THIS FILE IS FOR.  A node-set is sound when its nodes are there, none of them twice,
  and its tag tells the truth about their order.  From every node, each axis leads to a
  sound set with the tag of the axis, and so does a step, which keeps some of those nodes.

  FROM AN ATTRIBUTE.  The one axis that leads to tree nodes and to the attribute itself
  lists the attribute first: it comes after its owner, and the axis leads backwards.

  FROM SEVERAL NODES.  Two axes never lead to one node from different nodes, since what
  they lead to says where it was reached from.
-/
import XmlTree.Proofs.Climbing
import XmlTree.Proofs.Sequence

set_option autoImplicit false

namespace XmlTree

open Document

/-! ## Sound sets -/

/-- The nodes of a set are there, each of them once, and in the order that the tag says. -/
structure NodeSet.Sound (doc : Document) (s : NodeSet) : Prop where
  live : ∀ n ∈ s.nodes, doc.Live n
  nodup : s.nodes.Nodup
  sorted : s.order = .sorted → s.nodes.Pairwise doc.Precedes
  reverse : s.order = .reverse → s.nodes.Pairwise fun a b => doc.Precedes b a

variable {doc : Document} {lay : Layout}

namespace NodeSet.Sound

variable {l l' : List QueryNode} {o : NodeOrder}

theorem empty (doc : Document) (o : NodeOrder) : Sound doc ⟨[], o⟩ where
  live n hn := by cases hn
  nodup := List.nodup_nil
  sorted _ := List.Pairwise.nil
  reverse _ := List.Pairwise.nil

/-- Members may be taken out. -/
theorem sublist (h : Sound doc ⟨l, o⟩) (hsub : l'.Sublist l) : Sound doc ⟨l', o⟩ where
  live n hn := h.live n (hsub.subset hn)
  nodup := h.nodup.sublist hsub
  sorted ho := (h.sorted ho).sublist hsub
  reverse ho := (h.reverse ho).sublist hsub

/-- Nothing need be known about the order. -/
theorem unsorted (hlive : ∀ n ∈ l, doc.Live n) (hnodup : l.Nodup) : Sound doc ⟨l, .unsorted⟩ where
  live := hlive
  nodup := hnodup
  sorted ho := by cases ho
  reverse ho := by cases ho

end NodeSet.Sound

namespace Document.Rooted

variable {l : List QueryNode} {ids : List NodeId}

/-- A part of the sequence is sorted. -/
theorem sound_sorted (h : Rooted doc lay) (hsub : l.Sublist doc.sequence) :
    NodeSet.Sound doc ⟨l, .sorted⟩ where
  live n hn := h.mem_sequence.1 (hsub.subset hn)
  nodup := h.sequence_nodup.sublist hsub
  sorted _ := pairwise_precedes hsub
  reverse ho := by cases ho

/-- A part of the sequence that is listed backwards is sorted backwards. -/
theorem sound_reverse (h : Rooted doc lay) (hsub : l.reverse.Sublist doc.sequence) :
    NodeSet.Sound doc ⟨l, .reverse⟩ where
  live n hn := h.mem_sequence.1 (hsub.subset (List.mem_reverse.2 hn))
  nodup := List.nodup_reverse.1 (h.sequence_nodup.sublist hsub)
  sorted ho := by cases ho
  reverse _ := List.pairwise_reverse.1 (pairwise_precedes hsub)

theorem sound_nodes (h : Rooted doc lay) (hsub : ids.Sublist doc.preorder) :
    NodeSet.Sound doc ⟨ids.map QueryNode.node, .sorted⟩ :=
  h.sound_sorted (map_node_sublist hsub)

theorem sound_nodes_reverse (h : Rooted doc lay) (hsub : ids.reverse.Sublist doc.preorder) :
    NodeSet.Sound doc ⟨ids.map QueryNode.node, .reverse⟩ := by
  refine h.sound_reverse ?_
  rw [← List.map_reverse]
  exact map_node_sublist hsub

/-! ## From a tree node -/

/-- The tree nodes on an axis come in the order of the axis. -/
theorem sound_axisFromNode (h : Rooted doc lay) {id : NodeId} (hid : doc.contains id = true)
    (axis : Axis) :
    NodeSet.Sound doc ⟨(doc.axisFromNode id axis).map QueryNode.node, axis.order⟩ := by
  have hboth := h.descendants_append_after_sublist hid
  have hself : [id].Sublist doc.preorder := List.singleton_sublist.2 (h.mem_preorder.2 hid)
  have habove := h.ancestorsOrSelf_sublist hid
  cases axis with
  | child => exact h.sound_nodes (h.children_sublist id)
  | descendant => exact h.sound_nodes ((List.sublist_append_left _ _).trans hboth)
  | descendantOrSelf =>
    refine h.sound_nodes ?_
    rw [axisFromNode, ← h.subtree_eq hid]
    exact h.subtree_sublist hid
  | parent =>
    refine h.sound_nodes ?_
    rw [axisFromNode]
    cases hp : doc.parent? id with
    | none => exact List.nil_sublist _
    | some p => exact List.singleton_sublist.2 (h.mem_preorder.2 (h.contains_parent hp))
  | ancestor =>
    refine h.sound_nodes_reverse ?_
    rw [List.reverse_cons] at habove
    exact (List.sublist_append_left _ _).trans habove
  | ancestorOrSelf => exact h.sound_nodes_reverse habove
  | followingSibling => exact h.sound_nodes (h.siblings_sublist id).1
  | precedingSibling => exact h.sound_nodes_reverse (h.siblings_sublist id).2
  | following =>
    refine h.sound_nodes ?_
    rw [axisFromNode, h.followingNodes_eq hid]
    exact (List.sublist_append_right _ _).trans hboth
  | preceding =>
    refine h.sound_nodes_reverse ?_
    rw [axisFromNode, h.precedingNodes_eq hid]
    exact h.before_sublist hid
  | self => exact h.sound_nodes hself
  | «attribute» => exact .empty doc .sorted
  | namespace_ => exact .empty doc .sorted

/-! ## From an attribute -/

/-- What an axis leads to from an attribute comes in the order of the axis, the attribute
itself included. -/
theorem sound_axisFromAttribute (h : Rooted doc lay) {attr : AttrId} {parent : NodeId}
    (howner : doc.owner? attr = some parent) (axis : Axis) :
    NodeSet.Sound doc ⟨(if leadsToItself axis then [.attribute attr parent] else []) ++
      (doc.axisFromAttribute parent axis).map .node, axis.order⟩ := by
  have hid : doc.contains parent = true := h.contains_owner howner
  have hboth := h.descendants_append_after_sublist hid
  have hself : [parent].Sublist doc.preorder := List.singleton_sublist.2 (h.mem_preorder.2 hid)
  have habove := h.ancestorsOrSelf_sublist hid
  have hitself : NodeSet.Sound doc ⟨[.attribute attr parent], .sorted⟩ :=
    h.sound_sorted (List.singleton_sublist.2 (h.mem_sequence.2 howner))
  cases axis with
  | parent => exact h.sound_nodes hself
  | ancestor => exact h.sound_nodes_reverse habove
  | ancestorOrSelf =>
    refine h.sound_reverse ?_
    rw [List.reverse_cons] at habove
    have hlist := h.map_node_append_attribute_sublist habove howner
    simpa [leadsToItself, axisFromAttribute] using hlist
  | following =>
    refine h.sound_nodes ?_
    rw [axisFromAttribute, h.followingFrom_follower? hid]
    exact hboth
  | preceding =>
    refine h.sound_nodes_reverse ?_
    rw [axisFromAttribute, h.precedingNodes_eq hid]
    exact h.before_sublist hid
  | self => exact hitself
  | descendantOrSelf => exact hitself
  | child => exact .empty doc .sorted
  | descendant => exact .empty doc .sorted
  | followingSibling => exact .empty doc .sorted
  | precedingSibling => exact .empty doc .reverse
  | «attribute» => exact .empty doc .sorted
  | namespace_ => exact .empty doc .sorted

/-! ## Steps -/

/-- A step from a node leads to a sound set with the tag of its axis. -/
theorem sound_axisNodes (h : Rooted doc lay) {n : QueryNode} (hn : n = .null ∨ doc.Live n)
    (axis : Axis) (test : NodeTest) :
    NodeSet.Sound doc ⟨doc.axisNodes axis test n, axis.order⟩ := by
  obtain rfl | hlive := hn
  · exact .empty doc axis.order
  rcases n with _ | id | ⟨attr, parent⟩
  · exact hlive.elim
  · have hid : doc.contains id = true := hlive
    rw [axisNodes, hid]
    by_cases haxis : axis = .attribute
    · subst haxis
      have hattributes := h.sound_sorted (h.attributes_sublist hid)
      exact hattributes.sublist (List.filter_sublist.map _)
    · simp only [Bool.not_true, Bool.false_eq_true, if_false, if_neg haxis]
      exact (h.sound_axisFromNode hid axis).sublist (List.filter_sublist.map _)
  · have howner : doc.owner? attr = some parent := hlive
    have hboth : (doc.containsAttr attr && doc.contains parent) = true := by
      rw [containsAttr_of_owner? howner, h.contains_owner howner]
      rfl
    rw [axisNodes, hboth]
    refine (h.sound_axisFromAttribute howner axis).sublist ?_
    refine List.Sublist.append ?_ (List.filter_sublist.map _)
    cases leadsToItself axis with
    | false => exact List.Sublist.refl _
    | true =>
      split
      · exact List.Sublist.refl _
      · exact List.nil_sublist _

/-- What the axes of children and of attributes lead to is below the node that they were
followed from. -/
theorem eq_of_mem_axisNodes (h : Rooted doc lay) {axis : Axis}
    (haxis : axis = .child ∨ axis = .attribute) {test : NodeTest} {n x : QueryNode}
    (hx : x ∈ doc.axisNodes axis test n) : (x.parent? doc).map .node = some n := by
  rcases n with _ | id | ⟨attr, parent⟩
  · cases hx
  · rw [axisNodes] at hx
    split at hx
    · cases hx
    · obtain rfl | rfl := haxis
      · obtain ⟨c, hc, rfl⟩ := List.mem_map.1 hx
        have hparent := h.mem_children.1 (List.mem_filter.1 hc).1
        rw [QueryNode.parent?, hparent, Option.map_some]
      · obtain ⟨a, -, rfl⟩ := List.mem_map.1 hx
        rfl
  · rw [axisNodes] at hx
    split at hx
    · cases hx
    · obtain rfl | rfl := haxis
      · cases hx
      · cases hx

end Document.Rooted

/-- From a node, the axis of the node itself leads nowhere else. -/
theorem Document.axisNodes_self_sublist (doc : Document) (test : NodeTest) (n : QueryNode) :
    (doc.axisNodes .self test n).Sublist [n] := by
  rcases n with _ | id | ⟨attr, parent⟩
  · exact List.nil_sublist _
  · rw [axisNodes]
    split
    · exact List.nil_sublist _
    · exact (List.filter_sublist (l := [id])).map QueryNode.node
  · rw [axisNodes]
    split
    · exact List.nil_sublist _
    · simp only [axisFromAttribute, List.filter_nil, List.map_nil, List.append_nil]
      split
      · exact List.Sublist.refl _
      · exact List.nil_sublist _

end XmlTree
