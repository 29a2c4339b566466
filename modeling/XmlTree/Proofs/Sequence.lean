/-
  Proofs/Sequence.lean --- document order of nodes and attributes.

  WHAT THIS FILE IS FOR.  Nodes and attributes come in one sequence: the walk through the
  tree, and right after each node its attributes as they are listed.  One comes before
  another when the sequence has them in that order.

  LISTS IN ORDER.  A list that is a part of the sequence is in order, and so is whatever is
  left when members are taken out of it.  The lists of nodes found in the walk are parts of
  the sequence as soon as they are parts of the walk.
-/
import XmlTree.Proofs.Walks
import XmlTree.Query.NodeSet

set_option autoImplicit false

namespace XmlTree

namespace Document

variable {doc : Document} {lay : Layout}

/-! ## The sequence -/

/-- A node and, right after it, its attributes. -/
def entries (doc : Document) (id : NodeId) : List QueryNode :=
  .node id :: (doc.attributes id).map (.attribute · id)

/-- All nodes and attributes in document order. -/
def sequence (doc : Document) : List QueryNode := doc.preorder.flatMap doc.entries

/-- The node is there; an attribute is there and comes with its owner. -/
def Live (doc : Document) : QueryNode → Prop
  | .null => False
  | .node id => doc.contains id = true
  | .attribute attr parent => doc.owner? attr = some parent

/-- The one comes before the other in document order. -/
def Precedes (doc : Document) (a b : QueryNode) : Prop := [a, b].Sublist doc.sequence

theorem mem_entries (h : LaidOut doc lay) {id : NodeId} {n : QueryNode} :
    n ∈ doc.entries id ↔ n = .node id ∨ ∃ a, doc.owner? a = some id ∧ n = .attribute a id := by
  simp only [entries, List.mem_cons, List.mem_map, h.mem_attributes, eq_comm]

namespace Rooted

/-- The sequence has what is there, and nothing else. -/
theorem mem_sequence (h : Rooted doc lay) {n : QueryNode} : n ∈ doc.sequence ↔ doc.Live n := by
  simp only [sequence, List.mem_flatMap, mem_entries h.toLaidOut, h.mem_preorder]
  rcases n with _ | id | ⟨attr, parent⟩
  · simp [Live]
  · simp [Live]
  · simp only [Live, reduceCtorEq, QueryNode.attribute.injEq, false_or]
    constructor
    · rintro ⟨id, -, a, hownera, rfl, rfl⟩
      exact hownera
    · intro howner
      exact ⟨parent, h.contains_owner howner, attr, howner, rfl, rfl⟩

/-- Nothing comes twice in the sequence. -/
theorem sequence_nodup (h : Rooted doc lay) : doc.sequence.Nodup := by
  refine List.nodup_flatMap.2 ⟨fun id _ => ?_, ?_⟩
  · have hattributes : ((doc.attributes id).map (QueryNode.attribute · id)).Nodup := by
      refine List.Nodup.map (fun a b hab => ?_) ?_
      · cases hab
        rfl
      · rw [h.attributes_eq]
        exact h.attrLists.nodup id
    exact List.nodup_cons.2 ⟨by simp, hattributes⟩
  · refine h.preorder_nodup.imp fun {x y} hne n hx hy => hne ?_
    obtain rfl | ⟨a, -, rfl⟩ := (mem_entries h.toLaidOut).1 hx
    · obtain heq | ⟨b, -, heq⟩ := (mem_entries h.toLaidOut).1 hy
      · exact QueryNode.node.inj heq
      · cases heq
    · obtain heq | ⟨b, -, heq⟩ := (mem_entries h.toLaidOut).1 hy
      · cases heq
      · exact (QueryNode.attribute.inj heq).2

/-! ## Before and after -/

theorem live_of_precedes (h : Rooted doc lay) {a b : QueryNode} (hab : doc.Precedes a b) :
    doc.Live a ∧ doc.Live b :=
  ⟨h.mem_sequence.1 (hab.subset (by simp)), h.mem_sequence.1 (hab.subset (by simp))⟩

theorem not_precedes_self (h : Rooted doc lay) (a : QueryNode) : ¬ doc.Precedes a a := by
  intro haa
  simpa using h.sequence_nodup.sublist haa

/-- Of two different nodes that are there, one comes before the other. -/
theorem precedes_or (h : Rooted doc lay) {a b : QueryNode} (ha : doc.Live a) (hb : doc.Live b)
    (hne : a ≠ b) : doc.Precedes a b ∨ doc.Precedes b a := by
  obtain ⟨xs, ys, hcut⟩ := List.append_of_mem (h.mem_sequence.2 ha)
  have hbmem : b ∈ xs ++ a :: ys := hcut ▸ h.mem_sequence.2 hb
  obtain hbefore | hafter := List.mem_append.1 hbmem
  · right
    rw [Precedes, hcut]
    exact (List.singleton_sublist.2 hbefore).append (List.singleton_sublist.2 List.mem_cons_self)
  · left
    obtain rfl | hafter := List.mem_cons.1 hafter
    · exact absurd rfl hne
    · rw [Precedes, hcut]
      exact ((List.singleton_sublist.2 hafter).cons_cons a).trans
        (List.sublist_append_right xs _)

end Rooted

/-! ## Parts of the sequence -/

/-- A part of the sequence is in order. -/
theorem pairwise_precedes {l : List QueryNode} (hsub : l.Sublist doc.sequence) :
    l.Pairwise doc.Precedes :=
  List.pairwise_of_forall_sublist fun hab => hab.trans hsub

theorem map_node_sublist_flatMap (ids : List NodeId) :
    (ids.map QueryNode.node).Sublist (ids.flatMap doc.entries) := by
  have hsingle : ids.map QueryNode.node = ids.flatMap fun id => [.node id] := by
    rw [List.map_eq_flatMap]
  rw [hsingle]
  refine List.Sublist.flatMap_right _ fun id _ => List.singleton_sublist.2 ?_
  exact List.mem_cons_self

/-- Nodes in the order of the walk are in order. -/
theorem map_node_sublist {ids : List NodeId} (hsub : ids.Sublist doc.preorder) :
    (ids.map QueryNode.node).Sublist doc.sequence :=
  (map_node_sublist_flatMap ids).trans (hsub.flatMap doc.entries)

namespace Rooted

/-- The attributes of a node are in order. -/
theorem attributes_sublist (h : Rooted doc lay) {id : NodeId} (hid : doc.contains id = true) :
    ((doc.attributes id).map (QueryNode.attribute · id)).Sublist doc.sequence := by
  have hsingle : [id].Sublist doc.preorder := List.singleton_sublist.2 (h.mem_preorder.2 hid)
  have hentries : (doc.entries id).Sublist doc.sequence := by
    have hflat := hsingle.flatMap doc.entries
    rwa [List.flatMap_singleton] at hflat
  exact (List.sublist_cons_self _ _).trans hentries

/-- An attribute comes after its owner and the nodes above. -/
theorem map_node_append_attribute_sublist (h : Rooted doc lay) {ids : List NodeId}
    {attr : AttrId} {parent : NodeId} (hsub : (ids ++ [parent]).Sublist doc.preorder)
    (howner : doc.owner? attr = some parent) :
    ((ids ++ [parent]).map QueryNode.node ++ [QueryNode.attribute attr parent]).Sublist
      doc.sequence := by
  have hlast : [QueryNode.node parent, QueryNode.attribute attr parent].Sublist
      (doc.entries parent) := by
    refine List.Sublist.cons_cons _ (List.singleton_sublist.2 ?_)
    exact List.mem_map_of_mem (h.mem_attributes.2 howner)
  have hflat := hsub.flatMap doc.entries
  rw [List.flatMap_append, List.flatMap_singleton] at hflat
  rw [List.map_append, List.append_assoc]
  exact ((map_node_sublist_flatMap ids).append hlast).trans hflat

end Rooted

end Document

end XmlTree
