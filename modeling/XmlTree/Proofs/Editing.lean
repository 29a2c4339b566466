/-
  Proofs/Editing.lean --- every edit keeps the document one tree.

  WHAT THIS FILE IS FOR.  An edit checks its arguments and then carries out its steps.
  For each edit the checks are shown to be what its steps need.  A refused edit changes
  nothing.
-/
import XmlTree.Proofs.Copying
import XmlTree.Proofs.Dropping

set_option autoImplicit false

namespace XmlTree

namespace Document

variable {doc doc' source : Document} {lay : Layout}

/-- All nodes hang below the document node, and the lists of the records are in order. -/
def Whole (doc : Document) : Prop := ∃ lay, Rooted doc lay

namespace Whole

theorem sameShape (h : Whole doc) (hsame : SameShape doc doc') : Whole doc' := by
  obtain ⟨lay, h⟩ := h
  exact ⟨lay, h.sameShape hsame⟩

/-- What was added hangs below the document node. -/
theorem grown (h : Whole doc) (hlaid : ∃ lay, LaidOut doc' lay) (hgrown : Grown doc doc' []) :
    Whole doc' := by
  obtain ⟨lay, h⟩ := h
  obtain ⟨lay', hlaid⟩ := hlaid
  exact ⟨lay', h.grown hgrown hlaid⟩

theorem forgetOrder (h : Whole doc) : Whole doc.forgetOrder := by
  obtain ⟨lay, h⟩ := h
  exact ⟨lay, h.forgetOrder⟩

theorem withRanks (h : Whole doc) : Whole doc.withRanks := by
  obtain ⟨lay, h⟩ := h
  exact ⟨lay, h.withRanks⟩

end Whole

/-! ## Empty documents -/

/-- A document without records gets its document node. -/
theorem whole_withRoot (hnodes : doc.nodes.Sound) (hattrs : doc.attrs.Sound)
    (hnode : ∀ x, doc.node? x = none) (hattr : ∀ a, doc.attr? a = none) :
    Whole doc.withRoot := by
  have hparent : ∀ x, doc.parent? x = none := fun x => by rw [parent?, hnode]; rfl
  have howner : ∀ a, doc.owner? a = none := fun a => by rw [owner?, hattr]; rfl
  have hlaid : LaidOut doc .blank :=
    { nodes := hnodes
      attrs := hattrs
      childLists := .blank (fun x => by rw [childEnds, hnode]; rfl) hparent
      attrLists := .blank (fun x => by rw [attributeEnds, hnode]; rfl) howner
      allowed := fun {c p} hp => by
        rw [hparent] at hp
        cases hp
      owns := fun {a p} hp => by
        rw [howner] at hp
        cases hp
      acyclic := ⟨fun _ => 0, fun {c p} hp => by
        rw [hparent] at hp
        cases hp⟩
      apart := fun {x} _ => by
        rw [besides, hnode]
        rfl }
  have hroot := hlaid.allocNode .document
  refine ⟨.blank, hroot.congr hroot.nodes hattrs (fun _ => rfl) (fun _ => rfl) (fun _ => rfl)
    (fun _ => rfl) (fun _ => rfl) (fun _ => rfl) fun _ => rfl, ?_, fun {x} hx _ => ?_,
    fun {a} ha => ?_⟩
  · exact (kind_allocNode hnodes .document _).trans (if_pos rfl)
  · have hx' : (doc.allocNode .document).2.contains x = true := hx
    rw [contains_allocNode hnodes, contains, hnode] at hx'
    have heq : x = (doc.allocNode .document).1 := by simpa using hx'
    exact heq
  · have ha' : doc.containsAttr a = true := ha
    rw [containsAttr, hattr] at ha'
    cases ha'

theorem whole_new : Whole new :=
  whole_withRoot SlotStore.sound_empty SlotStore.sound_empty (fun _ => rfl) fun _ => rfl

theorem whole_reset (doc : Document) : Whole doc.reset :=
  whole_withRoot SlotStore.sound_clear SlotStore.sound_clear
    (fun _ => SlotStore.get?_clear _) fun _ => SlotStore.get?_clear _

/-! ## Inserting nodes -/

theorem accepts_iff {parent : NodeId} {kind : NodeKind} {place : Place NodeId} :
    doc.accepts parent kind place = true ↔
      (doc.kind parent).allowsChild kind = true ∧ doc.contains parent = true ∧
        ∀ r, place.reference? = some r → doc.parent? r = some parent := by
  cases place <;> simp [accepts, placeOk, Place.reference?]

/-- What was made outside of the tree is put at a place that accepts it. -/
theorem Whole.linkAt (h : Whole doc) {id parent : NodeId} {kind : NodeKind}
    {place : Place NodeId} (hsprout : Sprouted doc doc' id kind)
    (haccepts : doc.accepts parent kind place = true) : Whole (doc'.linkAt parent place id) := by
  obtain ⟨hallowed, _, href⟩ := accepts_iff.1 haccepts
  obtain ⟨lay, hrooted⟩ := h
  obtain ⟨hlaid, hgrown⟩ := hsprout.link hrooted.toLaidOut parent place hallowed href
  exact (Whole.grown ⟨lay, hrooted⟩ hlaid hgrown).forgetOrder

theorem Whole.insertChild (h : Whole doc) (parent : NodeId) (kind : NodeKind)
    (place : Place NodeId) : Whole (doc.insertChild parent kind place).2 := by
  unfold Document.insertChild
  split
  · rename_i haccepts
    obtain ⟨lay, hrooted⟩ := id h
    refine h.linkAt (hrooted.sprout ?_) haccepts
    split
    · exact .replaceName _ _
    · exact .refl _
  · exact h

theorem Whole.setContent (h : Whole doc) (id : NodeId) (text : String) :
    Whole (doc.setContent id text).2 := by
  unfold Document.setContent
  split
  · split
    · exact h.sameShape (.replaceValue _ _)
    · exact h.sameShape (.setValue _ _)
  · have hchild := h.insertChild id .pcdata .last
    split
    · rename_i holder d heq
      rw [heq] at hchild
      exact hchild.sameShape (.setValue _ _)
    · rename_i d heq
      rw [heq] at hchild
      exact hchild

/-- A value that obeys the rules is put at a place that accepts its kind. -/
theorem Whole.insertTree (h : Whole doc) (parent : NodeId) {kind : NodeKind} {tree : Tree}
    (place : Place NodeId) (htree : kind ≠ .null → tree.Lawful ∧ tree.label.kind = kind) :
    Whole (doc.insertTree parent kind tree place).2 := by
  unfold Document.insertTree
  split
  · rename_i haccepts
    obtain ⟨lay, hrooted⟩ := id h
    have hkind : kind ≠ .null := by
      rintro rfl
      have hallowed := (accepts_iff.1 haccepts).1
      simp [NodeKind.allowsChild] at hallowed
    obtain ⟨hlawful, rfl⟩ := htree hkind
    exact h.linkAt (hrooted.toLaidOut.build tree hlawful) haccepts
  · exact h

/-- The subtree of a node of a whole document obeys the rules, if the node is there. -/
theorem Whole.lawful_tree (h : Whole doc) {id : NodeId} (hkind : doc.kind id ≠ .null) :
    (doc.tree id).Lawful ∧ (doc.tree id).label.kind = doc.kind id := by
  obtain ⟨lay, hrooted⟩ := h
  exact hrooted.toLaidOut.lawful_tree (contains_of_kind_ne hkind)

theorem Whole.insertCopy (h : Whole doc) (parent proto : NodeId) (place : Place NodeId) :
    Whole (doc.insertCopy parent proto place).2 :=
  h.insertTree parent place h.lawful_tree

theorem Whole.insertCopyFrom (h : Whole doc) (parent : NodeId) (hsource : Whole source)
    (proto : NodeId) (place : Place NodeId) :
    Whole (doc.insertCopyFrom parent source proto place).2 :=
  h.insertTree parent place hsource.lawful_tree

theorem Whole.copyTops (h : Whole doc) (hsource : Whole source) (cs : List NodeId) :
    Whole (doc.copyTops source cs) := by
  induction cs generalizing doc with
  | nil => exact h
  | cons c cs ih =>
    have hcopy := h.insertCopyFrom doc.root hsource c .last
    unfold Document.copyTops
    split
    · rename_i heq
      rw [heq] at hcopy
      exact ih hcopy
    · rename_i heq
      rw [heq] at hcopy
      exact hcopy

theorem Whole.resetFrom (doc : Document) (hsource : Whole source) :
    Whole (doc.resetFrom source) :=
  (whole_reset doc).copyTops hsource _

/-- A move is refused, or what it moves is a child, the place is one below a node that does
not stand below it, and not one beside itself. -/
theorem Rooted.insertMove_cases (h : Rooted doc lay) (parent moved : NodeId)
    (place : Place NodeId) :
    doc.insertMove parent moved place = (none, doc) ∨
      ∃ old, doc.parent? moved = some old ∧ doc.contains parent = true ∧
        (doc.kind parent).allowsChild (doc.kind moved) = true ∧
        (∀ r, place.reference? = some r → doc.parent? r = some parent ∧ r ≠ moved) ∧
        ¬ Below doc.parent? moved parent ∧
        doc.insertMove parent moved place =
          (some moved, (doc.unlink moved).linkAt parent place moved) := by
  unfold Document.insertMove
  split
  · rename_i hchecks
    simp only [Bool.and_eq_true, Bool.not_eq_true', bne_iff_ne] at hchecks
    obtain ⟨⟨⟨haccepts, hmoved⟩, hnot⟩, hself⟩ := hchecks
    obtain ⟨hallowed, hparent, href⟩ := accepts_iff.1 haccepts
    obtain ⟨old, hold⟩ := Option.isSome_iff_exists.1 hmoved
    refine .inr ⟨old, hold, hparent, hallowed, fun r hr => ⟨href r hr, ?_⟩, ?_, rfl⟩
    · rintro rfl
      exact hself hr
    · rw [← h.isAncestorOrSelf_iff hparent, hnot]
      simp
  · exact .inl rfl

theorem Whole.insertMove (h : Whole doc) (parent moved : NodeId) (place : Place NodeId) :
    Whole (doc.insertMove parent moved place).2 := by
  obtain ⟨lay, hrooted⟩ := id h
  rcases hrooted.insertMove_cases parent moved place with
    hrefused | ⟨old, hold, hparent, hallowed, href, hnot, hdone⟩
  · rw [hrefused]
    exact h
  · rw [hdone]
    have hmoved : (doc.parent? moved).isSome = true := by
      rw [hold]
      rfl
    exact Whole.forgetOrder (hrooted.move hparent hallowed href hmoved hnot)

/-! ## Removing nodes -/

/-- A child is taken out and dropped with everything below it. -/
theorem Whole.drop (h : Whole doc) {p c : NodeId} (hp : doc.parent? c = some p) :
    Whole ((doc.unlink c).freeSubtree c) ∧
      ∀ x, doc.parent? x = some p → x ≠ c →
        ((doc.unlink c).freeSubtree c).parent? x = some p := by
  obtain ⟨lay, hrooted⟩ := h
  have hid : doc.contains c = true := contains_of_parent? hp
  have hlaid := hrooted.toLaidOut.unlink hp
  have hparent? := parent?_unlink hid
  have htop : (doc.unlink c).parent? c = none := by rw [hparent?, if_pos rfl]
  obtain ⟨gone, hgone, hd, hlaid'⟩ := hlaid.freeSubtree (by rwa [contains_unlink hid]) htop
  have hroot : doc.root ∉ gone := by
    intro hmem
    have hne : doc.root ≠ c := by
      rintro heq
      rw [← heq, hrooted.parent?_root] at hp
      cases hp
    have hbelow := (hgone _).1 hmem
    cases hbelow with
    | self => exact hne rfl
    | step hp' _ =>
      rw [hparent?, if_neg hne, hrooted.parent?_root] at hp'
      cases hp'
  refine ⟨⟨_, hlaid', ?_, fun {x} hx hpx => ?_, fun {a} ha => ?_⟩, fun x hx hne => ?_⟩
  · rw [hd.root, (SameSlots.unlink c).root, hd.kind_eq hroot, kind_unlink hid]
    exact hrooted.root_kind
  · obtain ⟨hcontains, hnot⟩ := hd.contains_iff.1 hx
    rw [contains_unlink hid] at hcontains
    have hne : x ≠ c := fun heq => hnot ((hgone x).2 (heq ▸ .self))
    rw [hd.parent?_eq, if_neg hnot, hparent?, if_neg hne] at hpx
    rw [hd.root, (SameSlots.unlink c).root]
    exact hrooted.top_eq hcontains hpx
  · obtain ⟨hcontains, hnot⟩ := hd.containsAttr_iff.1 ha
    rw [containsAttr_unlink] at hcontains
    rw [hd.owner?_eq, if_neg hnot, owner?_unlink]
    exact hrooted.owned hcontains
  · -- a sibling does not stand below the child
    have hxgone : x ∉ gone := by
      intro hmem
      have hbelow := (hgone x).1 hmem
      cases hbelow with
      | self => exact hne rfl
      | step hp' hbelow =>
        rw [hparent?, if_neg hne, hx] at hp'
        cases hp'
        refine Below.not_parent hrooted.acyclic hp (hbelow.mono fun {y q} hq => ?_)
        rw [hparent?] at hq
        split at hq
        · cases hq
        · exact hq
    rw [hd.parent?_eq, if_neg hxgone, hparent?, if_neg hne, hx]

theorem Whole.removeChild (h : Whole doc) (parent child : NodeId) :
    Whole (doc.removeChild parent child).2 := by
  unfold Document.removeChild
  split
  · rename_i hchecks
    simp only [Bool.and_eq_true, beq_iff_eq] at hchecks
    exact (h.drop hchecks.2).1
  · exact h

theorem Whole.insertElement (h : Whole doc) (parent : NodeId) (name : String)
    (place : Place NodeId) : Whole (doc.insertElement parent name place).2 :=
  insertElement_induction (h.insertChild parent .element place)
    (fun _ _ hmade => hmade.sameShape (.setName _ _)) fun _ id hmade => hmade.removeChild parent id

theorem Whole.removeChildNamed (h : Whole doc) (parent : NodeId) (name : String) :
    Whole (doc.removeChildNamed parent name).2 := by
  unfold Document.removeChildNamed
  split
  · exact h.removeChild _ _
  · exact h

/-- Children of one node are dropped one after the other. -/
theorem Whole.foldl_drop (h : Whole doc) {p : NodeId} {cs : List NodeId} (hnodup : cs.Nodup)
    (hcs : ∀ c ∈ cs, doc.parent? c = some p) :
    Whole (cs.foldl (fun doc c => (doc.unlink c).freeSubtree c) doc) := by
  induction cs generalizing doc with
  | nil => exact h
  | cons c cs ih =>
    obtain ⟨hc, hrest⟩ := List.nodup_cons.1 hnodup
    obtain ⟨hwhole, hsame⟩ := h.drop (hcs c (by simp))
    refine ih hwhole hrest fun x hx => hsame x (hcs x (by simp [hx])) ?_
    rintro rfl
    exact hc hx

theorem Whole.removeChildren (h : Whole doc) (parent : NodeId) :
    Whole (doc.removeChildren parent).2 := by
  unfold Document.removeChildren
  split
  · obtain ⟨lay, hrooted⟩ := id h
    exact h.foldl_drop (hrooted.forest.nodup parent) fun c hc => hrooted.mem_children.1 hc
  · exact h

/-! ## Attributes -/

theorem attrPlaceOk_iff {owner : NodeId} {place : Place AttrId} :
    doc.attrPlaceOk owner place = true ↔
      ∀ r, place.reference? = some r → doc.owner? r = some owner := by
  cases place <;> simp [attrPlaceOk, Place.reference?]

theorem Whole.insertAttribute (h : Whole doc) (owner : NodeId) (name value : String)
    (place : Place AttrId) : Whole (doc.insertAttribute owner name value place).2 := by
  obtain ⟨nameSlot, named, valueSlot, valued, hallowed, hnamed, hvalued, hdone⟩ |
    ⟨nameSlot, named, -, hnamed, -, hdone⟩ | ⟨-, hdone⟩ :=
      doc.insertAttribute_cases owner name value place
  · obtain ⟨howns, hplace⟩ := Bool.and_eq_true_iff.1 hallowed
    have htexts : SameShape doc valued := (SameShape.of_ownText hnamed).trans (.of_ownText hvalued)
    have hwhole : Whole valued := h.sameShape htexts
    obtain ⟨lay, hrooted⟩ := id hwhole
    have hsame : SameShape valued.allocAttr.2 (valued.allocAttr.2.modifyAttr valued.allocAttr.1
        fun r => { r with name := nameSlot, value := valueSlot }) := .modifyAttr _ fun _ => rfl
    obtain ⟨hlaid, hgrown⟩ := hrooted.toLaidOut.addAttr owner place hsame
      (by rwa [htexts.kind_eq]) fun r hr => by
        rw [htexts.owner?_eq]
        exact attrPlaceOk_iff.1 hplace r hr
    rw [hdone]
    exact hwhole.grown hlaid hgrown
  · rw [hdone]
    exact h.sameShape ((SameShape.of_ownText hnamed).trans (.releaseText nameSlot))
  · rw [hdone]
    exact h

theorem Whole.insertAttributeCopy (h : Whole doc) (owner : NodeId) (proto : AttrId)
    (place : Place AttrId) : Whole (doc.insertAttributeCopy owner proto place).2 := by
  unfold Document.insertAttributeCopy
  split
  · exact h.insertAttribute _ _ _ _
  · exact h

theorem Whole.setAttribute (h : Whole doc) (owner : NodeId) (name value : String) :
    Whole (doc.setAttribute owner name value).2 := by
  unfold Document.setAttribute
  split
  · exact h.sameShape (.setAttrValue _ _)
  · exact h.insertAttribute _ _ _ _

/-- An attribute is taken out and dropped. -/
theorem Whole.dropAttr (h : Whole doc) {p : NodeId} {a : AttrId}
    (hp : doc.owner? a = some p) :
    Whole ((doc.unlinkAttr a).freeAttr a) ∧
      ∀ b, b ≠ a → ((doc.unlinkAttr a).freeAttr a).owner? b = doc.owner? b := by
  obtain ⟨lay, hrooted⟩ := h
  have hid : doc.containsAttr a = true := containsAttr_of_owner? hp
  have hfree : (doc.unlinkAttr a).owner? a = none := by rw [owner?_unlinkAttr hid, if_pos rfl]
  have howner : ∀ b, b ≠ a → ((doc.unlinkAttr a).freeAttr a).owner? b = doc.owner? b := by
    intro b hb
    rw [owner?, attr?_freeAttr, if_neg hb, ← owner?, owner?_unlinkAttr hid, if_neg hb]
  have hnode : ∀ {β : Type} (f : Option NodeRecord → β) (x : NodeId),
      f (((doc.unlinkAttr a).freeAttr a).node? x) = f ((doc.unlinkAttr a).node? x) := by
    intro β f x
    rw [node?_freeAttr]
  refine ⟨⟨_, (hrooted.toLaidOut.unlinkAttr hp).freeAttr hfree, ?_, fun {x} hx hpx => ?_,
    fun {b} hb => ?_⟩, howner⟩
  · rw [(SameSlots.freeAttr a).root, (SameSlots.unlinkAttr a).root, kind, node?_freeAttr, ← kind,
      kind_unlinkAttr hid]
    exact hrooted.root_kind
  · rw [contains, node?_freeAttr, ← contains, contains_unlinkAttr hid] at hx
    rw [parent?, node?_freeAttr, ← parent?, parent?_unlinkAttr hid] at hpx
    rw [(SameSlots.freeAttr a).root, (SameSlots.unlinkAttr a).root]
    exact hrooted.top_eq hx hpx
  · rw [containsAttr, attr?_freeAttr] at hb
    have hne : b ≠ a := by
      rintro rfl
      simp at hb
    rw [if_neg hne, ← containsAttr, containsAttr_unlinkAttr hid] at hb
    rw [howner b hne]
    exact hrooted.owned hb

theorem Whole.removeAttribute (h : Whole doc) (owner : NodeId) (a : AttrId) :
    Whole (doc.removeAttribute owner a).2 := by
  unfold Document.removeAttribute
  split
  · rename_i hchecks
    simp only [Bool.and_eq_true, beq_iff_eq] at hchecks
    exact (h.dropAttr hchecks.2).1
  · exact h

theorem Whole.removeAttributeNamed (h : Whole doc) (owner : NodeId) (name : String) :
    Whole (doc.removeAttributeNamed owner name).2 := by
  unfold Document.removeAttributeNamed
  split
  · exact h.removeAttribute _ _
  · exact h

/-- Attributes of one node are dropped one after the other. -/
theorem Whole.foldl_dropAttr (h : Whole doc) {p : NodeId} {as : List AttrId}
    (hnodup : as.Nodup) (has : ∀ a ∈ as, doc.owner? a = some p) :
    Whole (as.foldl (fun doc a => (doc.unlinkAttr a).freeAttr a) doc) := by
  induction as generalizing doc with
  | nil => exact h
  | cons a as ih =>
    obtain ⟨ha, hrest⟩ := List.nodup_cons.1 hnodup
    obtain ⟨hwhole, hsame⟩ := h.dropAttr (has a (by simp))
    refine ih hwhole hrest fun b hb => ?_
    have hne : b ≠ a := by
      rintro rfl
      exact ha hb
    rw [hsame b hne]
    exact has b (by simp [hb])

theorem Whole.removeAttributes (h : Whole doc) (owner : NodeId) :
    Whole (doc.removeAttributes owner).2 := by
  unfold Document.removeAttributes
  split
  · obtain ⟨lay, hrooted⟩ := id h
    refine h.foldl_dropAttr ?_ fun a ha => hrooted.mem_attributes.1 ha
    rw [hrooted.attributes_eq]
    exact hrooted.attrLists.nodup owner
  · exact h

end Document

end XmlTree
