/-
  Proofs/Dropping.lean --- dropping attributes and subtrees.

  WHAT THIS FILE IS FOR.  A subtree is dropped node by node, parents before children, so
  in the middle of it there are nodes whose parent is gone.  That state is described from
  outside: the handles of the nodes dropped so far, and those of their attributes, lead to
  nothing, and all others lead to what they led to before.  When all of a subtree is gone,
  what is left spells the layout without it.
-/
import XmlTree.Proofs.Linking

set_option autoImplicit false

namespace XmlTree

namespace Document

variable {doc doc' : Document} {lay : Layout}

/-! ## Dropping one attribute -/

theorem node?_freeAttr (a : AttrId) (x : NodeId) : (doc.freeAttr a).node? x = doc.node? x := by
  unfold freeAttr
  split <;> rfl

theorem attr?_freeAttr (a y : AttrId) :
    (doc.freeAttr a).attr? y = if y = a then none else doc.attr? y := by
  unfold freeAttr
  split
  · rename_i r attrs hremove
    have hget := (SlotStore.get?_of_remove? hremove).2 y.handle
    by_cases hy : y = a
    · rw [if_pos hy]
      exact hget.trans (if_pos (congrArg AttrId.handle hy))
    · rw [if_neg hy]
      exact hget.trans (if_neg fun heq => hy (congrArg AttrId.mk heq))
  · rename_i hremove
    by_cases hy : y = a
    · rw [if_pos hy, hy]
      exact SlotStore.remove?_eq_none_iff.1 hremove
    · rw [if_neg hy]

theorem SameSlots.freeAttr (a : AttrId) : SameSlots doc (doc.freeAttr a) := by
  unfold Document.freeAttr
  split
  · rename_i r attrs hremove
    exact ⟨fun h => h, fun h => h.remove? hremove, rfl, rfl,
      SlotStore.slotCount_of_remove? hremove, rfl, rfl, rfl⟩
  · exact .refl doc

/-- Nobody misses an attribute that belongs to nobody. -/
theorem LaidOut.freeAttr (h : LaidOut doc lay) {a : AttrId} (ha : doc.owner? a = none) :
    LaidOut (doc.freeAttr a) lay := by
  have howner : ∀ y, (doc.freeAttr a).owner? y = doc.owner? y := by
    intro y
    by_cases hy : y = a
    · rw [hy, ha, owner?, attr?_freeAttr, if_pos rfl]
      rfl
    · rw [owner?, attr?_freeAttr, if_neg hy, owner?]
  have hnear : ∀ y, (doc.owner? y).isSome → (doc.freeAttr a).attrBesides y =
      doc.attrBesides y := by
    intro y hsome
    have hy : y ≠ a := fun heq => by simp [heq, ha] at hsome
    rw [attrBesides, attr?_freeAttr, if_neg hy, attrBesides]
  have hnode : ∀ {β : Type} (b : β) (f : NodeRecord → β) (x : NodeId),
      ((doc.freeAttr a).node? x).elim b f = (doc.node? x).elim b f := by
    intro β b f x
    rw [node?_freeAttr]
  have hparent : ∀ x, (doc.freeAttr a).parent? x = doc.parent? x := by
    intro x
    rw [parent?, node?_freeAttr, parent?]
  exact
  { nodes := (SameSlots.freeAttr a).nodes h.nodes
    attrs := (SameSlots.freeAttr a).attrs h.attrs
    childLists := h.childLists.congr (hnode _ _) hparent fun y _ => hnode _ _ y
    attrLists := h.attrLists.congr (hnode _ _) howner hnear
    allowed := by
      intro c p hp
      rw [hparent] at hp
      rw [kind, kind, hnode, hnode]
      exact h.allowed hp
    owns := by
      intro b p hp
      rw [howner] at hp
      rw [kind, hnode]
      exact h.owns hp
    acyclic := h.acyclic.congr hparent
    apart := fun {x} hx => by
      rw [hparent] at hx
      exact (hnode _ _ x).trans (h.apart hx) }

/-! ## Dropping nodes -/

/-- The nodes of a list and their attributes are gone; all the rest is as it was. -/
structure Dropped (doc doc' : Document) (gone : List NodeId) : Prop
    extends SameSlots doc doc' where
  node : ∀ x, doc'.node? x = if x ∈ gone then none else doc.node? x
  attr : ∀ a, doc'.attr? a = if ∃ p ∈ gone, doc.owner? a = some p then none else doc.attr? a

namespace Dropped

variable {gone : List NodeId}

theorem nil (doc : Document) : Dropped doc doc [] :=
  ⟨.refl doc, by simp, by simp⟩

/-- The attributes of a node that is still there are still there. -/
theorem attributes_eq (hd : Dropped doc doc' gone) (h : LaidOut doc lay) {id : NodeId}
    (hid : id ∉ gone) : doc'.attributes id = doc.attributes id := by
  have hsame : ∀ a ∈ lay.attributes id, doc'.attr? a = doc.attr? a := by
    intro a ha
    rw [hd.attr, if_neg]
    rintro ⟨p, hp, howner⟩
    rw [h.attrLists.mem.1 ha] at howner
    cases howner
    exact hid hp
  have hreads : Reads doc'.nextAttribute? (doc.attributeEnds id).first (lay.attributes id) := by
    refine (h.attrLists.spells id).reads_forwards fun a ha => ?_
    rw [nextAttribute?, hsame a ha, ← nextAttribute?, nextAttribute?_eq]
  have hfirst : doc'.firstAttribute? id = (doc.attributeEnds id).first := by
    rw [firstAttribute?, hd.node, if_neg hid, ← firstAttribute?, firstAttribute?_eq]
  have hlength : (lay.attributes id).length ≤ doc'.attrs.slotCount := by
    rw [hd.attrSlots]
    exact h.length_attributes_le id
  rw [h.attributes_eq, attributes, hfirst]
  exact chain_eq_of_reads hreads hlength

theorem foldl_freeAttr (as : List AttrId) (doc : Document) :
    SameSlots doc (as.foldl Document.freeAttr doc) ∧
      (∀ x, (as.foldl Document.freeAttr doc).node? x = doc.node? x) ∧
      ∀ y, (as.foldl Document.freeAttr doc).attr? y = if y ∈ as then none else doc.attr? y := by
  induction as generalizing doc with
  | nil => exact ⟨.refl doc, fun _ => rfl, by simp⟩
  | cons a as ih =>
    obtain ⟨hslots, hnode, hattr⟩ := ih (doc.freeAttr a)
    refine ⟨(SameSlots.freeAttr a).trans hslots, fun x => ?_, fun y => ?_⟩
    · rw [List.foldl_cons, hnode, node?_freeAttr]
    · rw [List.foldl_cons, hattr, attr?_freeAttr]
      by_cases hy : y = a
      · simp [hy]
      · simp [hy]

/-- One more node is dropped. -/
theorem freeNode (hd : Dropped doc doc' gone) (h : LaidOut doc lay) {id : NodeId}
    (hid : id ∉ gone) (hlive : doc.contains id = true) :
    Dropped doc (doc'.freeNode id) (id :: gone) := by
  obtain ⟨r, hr⟩ := contains_iff.1 hlive
  have hr' : doc'.nodes.get? id.handle = some r := by
    have hnode := hd.node id
    rw [if_neg hid, hr] at hnode
    exact hnode
  obtain ⟨nodes, hremove⟩ := SlotStore.remove?_of_get? hr'
  have hget := (SlotStore.get?_of_remove? hremove).2
  obtain ⟨hslots, hnode, hattr⟩ := foldl_freeAttr (doc'.attributes id)
    ((releaseText { doc' with nodes } r.name).releaseText r.value)
  have hfree : doc'.freeNode id = (doc'.attributes id).foldl Document.freeAttr
      ((releaseText { doc' with nodes } r.name).releaseText r.value) := by
    rw [Document.freeNode, hremove]
  rw [hfree]
  refine ⟨?_, fun x => ?_, fun a => ?_⟩
  · have hstep : SameSlots doc' { doc' with nodes } :=
      ⟨fun hs => hs.remove? hremove, fun hs => hs, rfl, SlotStore.slotCount_of_remove? hremove,
        rfl, rfl, rfl, rfl⟩
    exact hd.toSameSlots.trans ((hstep.trans ((SameSlots.ofTexts _).trans
      (SameSlots.ofTexts _))).trans hslots)
  · rw [hnode]
    refine (hget x.handle).trans ?_
    by_cases hx : x = id
    · simp [hx]
    · have hhandle : x.handle ≠ id.handle := fun heq => hx (congrArg NodeId.mk heq)
      rw [if_neg hhandle]
      refine (hd.node x).trans ?_
      simp [hx]
  · rw [hattr, hd.attributes_eq h hid]
    refine Eq.trans (congrArg (ite _ none) (hd.attr a)) ?_
    have hiff : (∃ p ∈ id :: gone, doc.owner? a = some p) ↔
        doc.owner? a = some id ∨ ∃ p ∈ gone, doc.owner? a = some p := by simp
    by_cases ha : doc.owner? a = some id
    · rw [if_pos (h.mem_attributes.2 ha), if_pos (hiff.2 (.inl ha))]
    · rw [if_neg fun hmem => ha (h.mem_attributes.1 hmem)]
      by_cases hp : ∃ p ∈ gone, doc.owner? a = some p
      · rw [if_pos hp, if_pos (hiff.2 (.inr hp))]
      · rw [if_neg hp, if_neg fun hor => (hiff.1 hor).elim ha hp]

/-- The nodes of a list are dropped one after the other. -/
theorem foldl_freeNode (h : LaidOut doc lay) {ids : List NodeId} (hd : Dropped doc doc' gone)
    (hnodup : ids.Nodup) (hfresh : ∀ x ∈ ids, x ∉ gone)
    (hlive : ∀ x ∈ ids, doc.contains x = true) :
    Dropped doc (ids.foldl Document.freeNode doc') (ids.reverse ++ gone) := by
  induction ids generalizing doc' gone with
  | nil => exact hd
  | cons id ids ih =>
    obtain ⟨hid, hrest⟩ := List.nodup_cons.1 hnodup
    rw [List.reverse_cons, List.append_assoc]
    refine ih (hd.freeNode h (hfresh id (by simp)) (hlive id (by simp))) hrest ?_
      fun x hx => hlive x (by simp [hx])
    intro x hx hmem
    obtain rfl | hmem := List.mem_cons.1 hmem
    · exact hid hx
    · exact hfresh x (by simp [hx]) hmem

/-! What is read off the document then. -/

theorem contains_iff (hd : Dropped doc doc' gone) {x : NodeId} :
    doc'.contains x = true ↔ doc.contains x = true ∧ x ∉ gone := by
  rw [contains, hd.node]
  by_cases hx : x ∈ gone <;> simp [hx, contains]

theorem parent?_eq (hd : Dropped doc doc' gone) (x : NodeId) :
    doc'.parent? x = if x ∈ gone then none else doc.parent? x := by
  rw [parent?, hd.node]
  by_cases hx : x ∈ gone <;> simp [hx, parent?]

theorem kind_eq (hd : Dropped doc doc' gone) {x : NodeId} (hx : x ∉ gone) :
    doc'.kind x = doc.kind x := by
  rw [kind, hd.node, if_neg hx, kind]

theorem owner?_eq (hd : Dropped doc doc' gone) (a : AttrId) :
    doc'.owner? a = if ∃ p ∈ gone, doc.owner? a = some p then none else doc.owner? a := by
  rw [owner?, hd.attr]
  split <;> rfl

theorem containsAttr_iff (hd : Dropped doc doc' gone) {a : AttrId} :
    doc'.containsAttr a = true ↔
      doc.containsAttr a = true ∧ ¬ ∃ p ∈ gone, doc.owner? a = some p := by
  rw [containsAttr, hd.attr]
  split
  · rename_i hp
    simpa using fun _ => hp
  · rename_i hp
    simp [containsAttr, hp]

end Dropped

/-- When everything below a dropped node is dropped, and nothing else that has a parent,
what is left spells the layout without it. -/
theorem LaidOut.dropped (h : LaidOut doc lay) {gone : List NodeId} (hd : Dropped doc doc' gone)
    (hclosed : ∀ {c p}, doc.parent? c = some p → (c ∈ gone ↔ p ∈ gone)) :
    LaidOut doc' (lay.without gone) where
  nodes := hd.nodes h.nodes
  attrs := hd.attrs h.attrs
  childLists := by
    refine h.childLists.without (fun p => ?_) (fun {p c} => ?_) fun {p c} hparent hp => ?_
    · rw [childEnds, hd.node]
      split <;> rfl
    · rw [hd.parent?_eq]
      by_cases hc : c ∈ gone
      · simpa [hc] using fun hparent => (hclosed hparent).1 hc
      · simpa [hc] using fun hparent hp => hc ((hclosed hparent).2 hp)
    · have hc : c ∉ gone := fun hmem => hp ((hclosed hparent).1 hmem)
      rw [besides, hd.node, if_neg hc, besides]
  attrLists := by
    refine h.attrLists.without (fun p => ?_) (fun {p a} => ?_) fun {p a} howner hp => ?_
    · rw [attributeEnds, hd.node]
      split <;> rfl
    · rw [hd.owner?_eq]
      split
      · rename_i hsome
        obtain ⟨q, hq, howner⟩ := hsome
        rw [howner]
        simp only [reduceCtorEq, Option.some.injEq, false_iff, not_and, not_not]
        rintro rfl
        exact hq
      · rename_i hnone
        simpa using fun howner hp => hnone ⟨p, hp, howner⟩
    · have hnone : ¬ ∃ q ∈ gone, doc.owner? a = some q := by
        rintro ⟨q, hq, howner'⟩
        exact hp (Option.some.inj (howner.symm.trans howner') ▸ hq)
      rw [attrBesides, hd.attr, if_neg hnone, attrBesides]
  allowed {c p} hp := by
    rw [hd.parent?_eq] at hp
    split at hp
    · cases hp
    · rename_i hc
      rw [hd.kind_eq hc, hd.kind_eq fun hmem => hc ((hclosed hp).2 hmem)]
      exact h.allowed hp
  owns {a p} hp := by
    rw [hd.owner?_eq] at hp
    split at hp
    · cases hp
    · rename_i hnone
      rw [hd.kind_eq fun hmem => hnone ⟨p, hmem, hp⟩]
      exact h.owns hp
  acyclic := h.acyclic.mono fun {c p} hp => by
    rw [hd.parent?_eq] at hp
    split at hp
    · cases hp
    · exact hp
  apart {x} hx := by
    rw [hd.parent?_eq] at hx
    rw [besides, hd.node]
    split at hx
    · rename_i hgone
      rw [if_pos hgone]
      rfl
    · rename_i hstays
      rw [if_neg hstays]
      exact h.apart hx

/-- Dropping a subtree that stands nowhere drops the nodes below its top. -/
theorem LaidOut.freeSubtree (h : LaidOut doc lay) {id : NodeId} (hid : doc.contains id = true)
    (htop : doc.parent? id = none) :
    ∃ gone, (∀ x, x ∈ gone ↔ Below doc.parent? id x) ∧ Dropped doc (doc.freeSubtree id) gone ∧
      LaidOut (doc.freeSubtree id) (lay.without gone) := by
  have hmem : ∀ x, x ∈ (doc.mirroredSubtree id).reverse ↔ Below doc.parent? id x := by
    intro x
    rw [List.mem_reverse, h.mem_mirroredSubtree hid]
  have hd : Dropped doc (doc.freeSubtree id) (doc.mirroredSubtree id).reverse := by
    have hfold := Dropped.foldl_freeNode h (Dropped.nil doc) (h.mirroredSubtree_nodup hid)
      (by simp) fun x hx => contains_of_below ((h.mem_mirroredSubtree hid).1 hx) hid
    rwa [List.append_nil] at hfold
  refine ⟨_, hmem, hd, h.dropped hd fun {c p} hp => ?_⟩
  rw [hmem, hmem]
  constructor
  · intro hc
    cases hc with
    | self =>
      rw [htop] at hp
      cases hp
    | step hp' hbelow =>
      rw [hp] at hp'
      cases hp'
      exact hbelow
  · exact fun hbelow => .step hp hbelow

end Document

end XmlTree
