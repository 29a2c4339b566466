/-
  Proofs/Copying.lean --- copies of subtrees.

  WHAT THIS FILE IS FOR.  A copy is taken of the value of a subtree.  The value read off a
  document obeys the rules for what may stand where, because the records do and because
  the reading goes deep enough; and what is built from such a value hangs below one new
  node.
-/
import XmlTree.Proofs.Growth

set_option autoImplicit false

namespace XmlTree

/-- The kinds in a tree obey the rules for what may stand where. -/
inductive Tree.Lawful : Tree → Prop where
  | node {label : TreeLabel} {children : List Tree}
      (owns : label.attributes ≠ [] → label.kind.hasAttributes = true)
      (allowed : ∀ t ∈ children, label.kind.allowsChild t.label.kind = true)
      (below : ∀ t ∈ children, Lawful t) : Lawful (.node label children)

namespace Document

variable {doc doc' source : Document} {lay : Layout}

/-! ## Reading a subtree as a value -/

theorem label_treeUpTo (depth : Nat) (id : NodeId) :
    (doc.treeUpTo (depth + 1) id).label = doc.labelOf id := rfl

theorem kind_labelOf (id : NodeId) : (doc.labelOf id).kind = doc.kind id := by
  unfold labelOf kind
  cases doc.node? id <;> rfl

theorem hasAttributes_of_labelOf (h : LaidOut doc lay) {id : NodeId}
    (hattributes : (doc.labelOf id).attributes ≠ []) : (doc.kind id).hasAttributes = true := by
  unfold labelOf at hattributes
  cases hr : doc.node? id with
  | none => simp [hr] at hattributes
  | some r =>
    simp only [hr, ne_eq, List.map_eq_nil_iff] at hattributes
    obtain ⟨a, ha⟩ := List.exists_mem_of_ne_nil _ hattributes
    exact h.owns (h.mem_attributes.1 ha)

/-- A reading that goes deep enough obeys the rules. -/
theorem LaidOut.lawful_treeUpTo (h : LaidOut doc lay) {o : Outline NodeId}
    (ho : o.Follows doc.children) {depth : Nat} (hdepth : o.flatten.length ≤ depth) :
    (doc.treeUpTo depth o.top).Lawful := by
  induction ho generalizing depth with
  | @node id os hhere _ ih =>
    cases depth with
    | zero => simp [Outline.flatten] at hdepth
    | succ depth =>
      have hlength : ∀ o ∈ os, 0 < o.flatten.length ∧ o.flatten.length ≤ depth := by
        intro o ho
        refine ⟨o.length_flatten_pos, ?_⟩
        have hall : (Outline.flattenAll os).length ≤ depth := by
          simpa [Outline.flatten] using hdepth
        exact Nat.le_trans (Outline.length_flatten_le_of_mem ho) hall
      rw [Outline.top, treeUpTo, hhere]
      refine .node (fun hattributes => ?_) (fun t ht => ?_) fun t ht => ?_
      · rw [kind_labelOf]
        exact hasAttributes_of_labelOf h hattributes
      · obtain ⟨c, hc, rfl⟩ := List.mem_map.1 ht
        obtain ⟨o, ho, rfl⟩ := List.mem_map.1 hc
        obtain ⟨n, rfl⟩ := Nat.exists_eq_succ_of_ne_zero
          (show depth ≠ 0 by have := hlength o ho; omega)
        rw [label_treeUpTo, kind_labelOf, kind_labelOf]
        exact h.allowed (h.mem_children.1 (hhere ▸ hc))
      · obtain ⟨c, hc, rfl⟩ := List.mem_map.1 ht
        obtain ⟨o, ho, rfl⟩ := List.mem_map.1 hc
        exact ih o ho (hlength o ho).2

/-- The value of the subtree of a node obeys the rules. -/
theorem LaidOut.lawful_tree (h : LaidOut doc lay) {id : NodeId}
    (hid : doc.contains id = true) :
    (doc.tree id).Lawful ∧ (doc.tree id).label.kind = doc.kind id := by
  obtain ⟨o, rfl, ho⟩ := h.forest.exists_outline id
  have hlength : o.flatten.length ≤ doc.walkLimit := length_flatten_le h.forest ho hid
  refine ⟨h.lawful_treeUpTo ho hlength, ?_⟩
  obtain ⟨n, hn⟩ := Nat.exists_eq_succ_of_ne_zero
    (show doc.walkLimit ≠ 0 by have := o.length_flatten_pos; omega)
  rw [tree, hn, label_treeUpTo, kind_labelOf]

/-! ## Building -/

/-- The attributes of a copy are added one by one. -/
theorem LaidOut.pushAttr (h : LaidOut doc lay) {owner : NodeId}
    (howns : (doc.kind owner).hasAttributes = true) (a : TreeAttribute) :
    (∃ lay', LaidOut (Document.pushAttr owner doc a) lay') ∧
      Grown doc (Document.pushAttr owner doc a) [] := by
  obtain ⟨⟨lay', hlaid⟩, hgrown⟩ := h.addAttr owner .last (.refl doc.allocAttr.2) howns
    (by simp [Place.reference?])
  -- only texts change after the attribute was put in
  have hsame : SameShape (doc.allocAttr.2.linkAttr owner .last doc.allocAttr.1)
      (Document.pushAttr owner doc a) :=
    ((SameShape.ownText _ (a.name.getD "")).trans (SameShape.ownText _ (a.value.getD ""))).trans
      (SameShape.modifyAttr _ fun _ => rfl)
  exact ⟨⟨lay', hlaid.sameShape hsame⟩, hgrown.trans_nil (.sameShape hsame)⟩

theorem LaidOut.foldl_pushAttr (h : LaidOut doc lay) (owner : NodeId)
    (as : List TreeAttribute) (howns : as ≠ [] → (doc.kind owner).hasAttributes = true) :
    (∃ lay', LaidOut (as.foldl (Document.pushAttr owner) doc) lay') ∧
      Grown doc (as.foldl (Document.pushAttr owner) doc) [] := by
  induction as generalizing doc lay with
  | nil => exact ⟨⟨lay, h⟩, .refl doc⟩
  | cons a as ih =>
    have hkind := howns (by simp)
    have howner : doc.contains owner = true := by
      refine contains_of_kind_ne fun hnull => ?_
      rw [hnull] at hkind
      exact absurd hkind (by decide)
    obtain ⟨⟨lay', hlaid⟩, hgrown⟩ := h.pushAttr hkind a
    obtain ⟨hlaid', hgrown'⟩ := ih hlaid fun _ => by rwa [hgrown.kind howner]
    exact ⟨hlaid', hgrown.trans_nil hgrown'⟩

/-- A node is made with its texts and attributes. -/
theorem LaidOut.buildNode (h : LaidOut doc lay) (label : TreeLabel)
    (howns : label.attributes ≠ [] → label.kind.hasAttributes = true) :
    Sprouted doc (doc.buildNode label).2 (doc.buildNode label).1 label.kind := by
  let made := (doc.allocNode label.kind).2
  let named := (made.ownText (label.name.getD "")).2
  let valued := (named.ownText (label.value.getD "")).2
  have hsame : SameShape made (valued.modifyNode (doc.allocNode label.kind).1 fun r =>
      { r with
        name := (made.ownText (label.name.getD "")).1.getD .null
        value := (named.ownText (label.value.getD "")).1.getD .null }) :=
    ((SameShape.ownText made _).trans (SameShape.ownText named _)).trans
      (SameShape.modifyNode _ fun _ => rfl)
  have hsprout := h.sprout hsame
  obtain ⟨lay', hlaid⟩ := hsprout.laid
  obtain ⟨hlaid', hgrown⟩ := hlaid.foldl_pushAttr (doc.allocNode label.kind).1
    label.attributes fun hne => by
      rw [hsprout.kind_eq]
      exact howns hne
  exact hsprout.trans_nil hlaid' hgrown

mutual

/-- What is built from a value that obeys the rules hangs below one new node. -/
theorem LaidOut.build {doc : Document} {lay : Layout} (h : LaidOut doc lay) (t : Tree)
    (ht : t.Lawful) : Sprouted doc (doc.build t).2 (doc.build t).1 t.label.kind := by
  match t, ht with
  | .node label children, .node howns hallowed hbelow =>
    have hnode := h.buildNode label howns
    obtain ⟨lay', hlaid⟩ := hnode.laid
    obtain ⟨hlaid', hgrown⟩ := LaidOut.buildBelow hlaid (doc.buildNode label).1
      children hbelow fun t ht => by
        rw [hnode.kind_eq]
        exact hallowed t ht
    exact hnode.trans_nil hlaid' hgrown

/-- Values that obey the rules are built at the end of the children of a node. -/
theorem LaidOut.buildBelow {doc : Document} {lay : Layout} (h : LaidOut doc lay)
    (parent : NodeId) (ts : List Tree) (hts : ∀ t ∈ ts, t.Lawful)
    (hallowed : ∀ t ∈ ts, (doc.kind parent).allowsChild t.label.kind = true) :
    (∃ lay', LaidOut (buildBelow doc parent ts) lay') ∧
      Grown doc (buildBelow doc parent ts) [] := by
  match ts with
  | [] => exact ⟨⟨lay, h⟩, .refl doc⟩
  | t :: ts =>
    obtain ⟨ht, hrest⟩ := List.forall_mem_cons.1 hts
    obtain ⟨hallowedt, hallowedrest⟩ := List.forall_mem_cons.1 hallowed
    have hparent : doc.contains parent = true :=
      contains_of_kind_ne (kind_ne_null_of_allowsChild hallowedt)
    obtain ⟨⟨lay', hlaid⟩, hgrown⟩ := (LaidOut.build h t ht).link h parent .last
      hallowedt (by simp [Place.reference?])
    obtain ⟨hlaid', hgrown'⟩ := LaidOut.buildBelow hlaid parent ts hrest
      fun t ht => by
        rw [hgrown.kind hparent]
        exact hallowedrest t ht
    exact ⟨hlaid', hgrown.trans_nil hgrown'⟩

end

end Document

end XmlTree
