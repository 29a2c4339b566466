/-
  Proofs/SlotLaws.lean --- what is asked of the slots in the records of a document.

  WHAT THIS FILE IS FOR.  A step that writes a slot into a record has three kinds to choose
  from: the null slot, the slot of a text that was kept just now, and a range of the text that
  is being loaded.  All other steps write no slot that did not stand in a record before.  So
  whatever is true of slots of these kinds, and stays true while texts are kept, is true of
  every slot of every document.

  LAWS AND ROLES.  Such a property is a law.  It may ask one thing of names and another of
  values, so it is told the role in which a slot stands; of the ranges of a loaded text it may
  ask what only the reader knows, so these are admitted event by event.
-/
import XmlTree.Change
import XmlTree.Proofs.Adding
import XmlTree.Proofs.Dropping
import XmlTree.Proofs.Texts

set_option autoImplicit false

namespace XmlTree

/-! ## Laws -/

/-- Where in a record a slot stands. -/
inductive SlotRole where
  | name
  /-- the value of a node of a kind -/
  | value (kind : NodeKind)
  | attrName
  | attrValue
  deriving DecidableEq, Repr

/-- What is asked of a slot in each role.  It holds of the null slot and of texts that were kept
just now, and what is kept later does not change it. -/
structure SlotLaw where
  Admits : SlotRole → TextStore → TextSlot → Prop
  null : ∀ {role s}, Admits role s .null
  own : ∀ {role text slot} (s : TextStore), (s.own text).1 = some slot →
    Admits role (s.own text).2 slot
  mono : ∀ {role s s' slot}, Admits role s slot → s.Extends s' → Admits role s' slot

namespace SlotLaw

/-- The slots of the record of a node are admitted. -/
structure AdmitsNode (law : SlotLaw) (s : TextStore) (r : NodeRecord) : Prop where
  name : law.Admits .name s r.name
  value : law.Admits (.value r.kind) s r.value

/-- The slots of the record of an attribute are admitted. -/
structure AdmitsAttr (law : SlotLaw) (s : TextStore) (r : AttrRecord) : Prop where
  name : law.Admits .attrName s r.name
  value : law.Admits .attrValue s r.value

variable {law : SlotLaw} {role : SlotRole} {doc owned : Document} {slot : TextSlot}

/-- A copy is admitted. -/
theorem admits_ownText {text : String} (h : doc.ownText text = (some slot, owned)) :
    law.Admits role owned.texts slot := by
  obtain ⟨hslot, rfl⟩ := Document.eq_of_ownText h
  exact law.own _ hslot

/-- So is what stands for a text that may be too long. -/
theorem admits_own_getD (s : TextStore) (text : String) :
    law.Admits role (s.own text).2 ((s.own text).1.getD .null) := by
  cases hown : (s.own text).1 with
  | none => exact law.null
  | some slot => exact law.own s hown

/-- A node that gets two copies, one after the other, is admitted. -/
theorem admitsNode_own (s : TextStore) (name value : String) (r : NodeRecord) :
    law.AdmitsNode ((s.own name).2.own value).2
      { r with
        name := (s.own name).1.getD .null
        value := ((s.own name).2.own value).1.getD .null } :=
  ⟨law.mono (law.admits_own_getD _ _) (.own _ _), law.admits_own_getD _ _⟩

end SlotLaw

namespace Document

variable {law : SlotLaw} {doc doc' doc'' : Document}

/-! ## Slots that stand in a record -/

/-- A slot stands in a record, in a role. -/
inductive Uses (doc : Document) : SlotRole → TextSlot → Prop where
  | name {x : NodeId} {r : NodeRecord} (hr : doc.node? x = some r) : Uses doc .name r.name
  | value {x : NodeId} {r : NodeRecord} (hr : doc.node? x = some r) :
      Uses doc (.value r.kind) r.value
  | attrName {a : AttrId} {r : AttrRecord} (hr : doc.attr? a = some r) :
      Uses doc .attrName r.name
  | attrValue {a : AttrId} {r : AttrRecord} (hr : doc.attr? a = some r) :
      Uses doc .attrValue r.value

/-- Every slot that stands in a record stood in one before, in the same role, and every text is
kept. -/
structure Drawn (doc doc' : Document) : Prop where
  nodes : doc.nodes.Sound → doc'.nodes.Sound
  attrs : doc.attrs.Sound → doc'.attrs.Sound
  texts : doc.texts.Extends doc'.texts
  uses : ∀ {role slot}, doc'.Uses role slot → doc.Uses role slot

namespace Drawn

theorem refl (doc : Document) : Drawn doc doc := ⟨id, id, .refl _, id⟩

theorem trans (h : Drawn doc doc') (h' : Drawn doc' doc'') : Drawn doc doc'' where
  nodes := h'.nodes ∘ h.nodes
  attrs := h'.attrs ∘ h.attrs
  texts := h.texts.trans h'.texts
  uses := h.uses ∘ h'.uses

/-- Records keep their slots. -/
theorem of_records (hslots : SameSlots doc doc') (htexts : doc.texts.Extends doc'.texts)
    (hnode : ∀ {x r'}, doc'.node? x = some r' →
      ∃ r, doc.node? x = some r ∧ r'.kind = r.kind ∧ r'.name = r.name ∧ r'.value = r.value)
    (hattr : ∀ {a r'}, doc'.attr? a = some r' →
      ∃ r, doc.attr? a = some r ∧ r'.name = r.name ∧ r'.value = r.value) :
    Drawn doc doc' where
  nodes := hslots.nodes
  attrs := hslots.attrs
  texts := htexts
  uses huse := by
    cases huse with
    | name hr =>
      obtain ⟨r, hr, -, hname, -⟩ := hnode hr
      exact hname ▸ .name hr
    | value hr =>
      obtain ⟨r, hr, hkind, -, hvalue⟩ := hnode hr
      exact hkind ▸ hvalue ▸ .value hr
    | attrName hr =>
      obtain ⟨r, hr, hname, -⟩ := hattr hr
      exact hname ▸ .attrName hr
    | attrValue hr =>
      obtain ⟨r, hr, -, hvalue⟩ := hattr hr
      exact hvalue ▸ .attrValue hr

/-- Only texts differ. -/
theorem ofTexts {texts : TextStore} (h : doc.texts.Extends texts) : Drawn doc { doc with texts } :=
  of_records (.ofTexts texts) h (fun hr => ⟨_, hr, rfl, rfl, rfl⟩) fun hr => ⟨_, hr, rfl, rfl⟩

theorem ownText (text : String) : Drawn doc (doc.ownText text).2 := ofTexts (.own _ _)

/-- A copy writes no slot yet. -/
theorem of_ownText {text : String} {slot : TextSlot} {owned : Document}
    (h : doc.ownText text = (some slot, owned)) : Drawn doc owned := by
  obtain ⟨-, rfl⟩ := eq_of_ownText h
  exact ownText text

theorem releaseText (slot : TextSlot) : Drawn doc (doc.releaseText slot) := ofTexts (.release _ _)

/-- The records and texts are the same. -/
theorem of_same (hnodes : doc'.nodes = doc.nodes) (hattrs : doc'.attrs = doc.attrs)
    (htexts : doc'.texts = doc.texts) : Drawn doc doc' where
  nodes h := hnodes ▸ h
  attrs h := hattrs ▸ h
  texts := htexts ▸ .refl _
  uses huse := by
    cases huse with
    | name hr =>
      rw [node?, hnodes] at hr
      exact .name hr
    | value hr =>
      rw [node?, hnodes] at hr
      exact .value hr
    | attrName hr =>
      rw [attr?, hattrs] at hr
      exact .attrName hr
    | attrValue hr =>
      rw [attr?, hattrs] at hr
      exact .attrValue hr

/-- What is known about the order of nodes does not matter. -/
theorem forgetOrder : Drawn doc doc.forgetOrder := of_same rfl rfl rfl

theorem withRanks : Drawn doc doc.withRanks := by
  unfold Document.withRanks
  split
  · exact of_same rfl rfl rfl
  · exact refl doc

/-! Links write no slots. -/

theorem link (parent : NodeId) (place : Place NodeId) (id : NodeId) :
    Drawn doc (doc.link parent place id) := by
  refine of_records (.link parent place id) ?_ (fun {x r'} hr => ?_) fun {a r'} hr => ?_
  · rw [texts_link]
    exact .refl _
  · rw [node?_link, Option.map_eq_some_iff] at hr
    obtain ⟨r, hr, rfl⟩ := hr
    exact ⟨r, hr, rfl, rfl, rfl⟩
  · rw [attr?_link] at hr
    exact ⟨r', hr, rfl, rfl⟩

theorem unlink (id : NodeId) : Drawn doc (doc.unlink id) := by
  cases hold : doc.node? id with
  | none =>
    have hsame : doc.unlink id = doc := by rw [Document.unlink, hold]
    rw [hsame]
    exact refl doc
  | some old =>
    refine of_records (.unlink id) ?_ (fun {x r'} hr => ?_) fun {a r'} hr => ?_
    · rw [texts_unlink]
      exact .refl _
    · rw [node?_unlink hold, Option.map_eq_some_iff] at hr
      obtain ⟨r, hr, rfl⟩ := hr
      exact ⟨r, hr, rfl, rfl, rfl⟩
    · rw [attr?_unlink] at hr
      exact ⟨r', hr, rfl, rfl⟩

theorem linkAttr (owner : NodeId) (place : Place AttrId) (id : AttrId) :
    Drawn doc (doc.linkAttr owner place id) := by
  refine of_records (.linkAttr owner place id) ?_ (fun {x r'} hr => ?_) fun {a r'} hr => ?_
  · rw [texts_linkAttr]
    exact .refl _
  · rw [node?_linkAttr, Option.map_eq_some_iff] at hr
    obtain ⟨r, hr, rfl⟩ := hr
    exact ⟨r, hr, rfl, rfl, rfl⟩
  · rw [attr?_linkAttr, Option.map_eq_some_iff] at hr
    obtain ⟨r, hr, rfl⟩ := hr
    exact ⟨r, hr, rfl, rfl⟩

theorem unlinkAttr (id : AttrId) : Drawn doc (doc.unlinkAttr id) := by
  cases hold : doc.attr? id with
  | none =>
    have hsame : doc.unlinkAttr id = doc := by rw [Document.unlinkAttr, hold]
    rw [hsame]
    exact refl doc
  | some old =>
    refine of_records (.unlinkAttr id) ?_ (fun {x r'} hr => ?_) fun {a r'} hr => ?_
    · rw [texts_unlinkAttr]
      exact .refl _
    · rw [node?_unlinkAttr hold, Option.map_eq_some_iff] at hr
      obtain ⟨r, hr, rfl⟩ := hr
      exact ⟨r, hr, rfl, rfl, rfl⟩
    · rw [attr?_unlinkAttr hold, Option.map_eq_some_iff] at hr
      obtain ⟨r, hr, rfl⟩ := hr
      exact ⟨r, hr, rfl, rfl⟩

/-! Nor does dropping. -/

theorem freeAttr (a : AttrId) : Drawn doc (doc.freeAttr a) := by
  refine of_records (.freeAttr a) ?_ (fun {x r'} hr => ?_) fun {y r'} hr => ?_
  · unfold Document.freeAttr
    split
    · exact (TextStore.Extends.release _ _).trans (.release _ _)
    · exact .refl _
  · rw [node?_freeAttr] at hr
    exact ⟨r', hr, rfl, rfl, rfl⟩
  · rw [attr?_freeAttr] at hr
    split at hr
    · cases hr
    · exact ⟨r', hr, rfl, rfl⟩

/-- Steps that write no slots write none one after the other. -/
theorem foldl {α : Type} {f : Document → α → Document} (hf : ∀ doc a, Drawn doc (f doc a))
    (as : List α) (doc : Document) : Drawn doc (as.foldl f doc) := by
  induction as generalizing doc with
  | nil => exact refl doc
  | cons a as ih => exact (hf doc a).trans (ih (f doc a))

theorem freeNode (id : NodeId) : Drawn doc (doc.freeNode id) := by
  unfold Document.freeNode
  dsimp only
  split
  · rename_i r nodes hremove
    have hslots : SameSlots doc { doc with nodes } :=
      ⟨fun h => h.remove? hremove, fun h => h, rfl, SlotStore.slotCount_of_remove? hremove, rfl,
        rfl, rfl, rfl⟩
    have hdropped : Drawn doc { doc with nodes } := by
      refine of_records hslots (.refl _) (fun {x r'} hr => ?_) fun hr => ⟨_, hr, rfl, rfl⟩
      have hget := (SlotStore.get?_of_remove? hremove).2 x.handle
      have hr' : nodes.get? x.handle = some r' := hr
      rw [hget] at hr'
      split at hr'
      · cases hr'
      · exact ⟨r', hr', rfl, rfl, rfl⟩
    exact ((hdropped.trans (releaseText _)).trans (releaseText _)).trans
      (foldl (fun _ a => freeAttr a) _ _)
  · exact refl doc

theorem freeSubtree (id : NodeId) : Drawn doc (doc.freeSubtree id) :=
  foldl (fun _ x => freeNode x) _ _

end Drawn

/-! ## Documents -/

/-- Every slot that stands in a record is admitted in its role. -/
structure Obeys (law : SlotLaw) (doc : Document) : Prop where
  nodes : doc.nodes.Sound
  attrs : doc.attrs.Sound
  slots : ∀ {role slot}, doc.Uses role slot → law.Admits role doc.texts slot

namespace Obeys

theorem drawn (h : doc.Obeys law) (hd : Drawn doc doc') : doc'.Obeys law where
  nodes := hd.nodes h.nodes
  attrs := hd.attrs h.attrs
  slots huse := law.mono (h.slots (hd.uses huse)) hd.texts

theorem of_node (h : doc.Obeys law) {x : NodeId} {r : NodeRecord} (hr : doc.node? x = some r) :
    law.AdmitsNode doc.texts r :=
  ⟨h.slots (.name hr), h.slots (.value hr)⟩

theorem of_attr (h : doc.Obeys law) {a : AttrId} {r : AttrRecord} (hr : doc.attr? a = some r) :
    law.AdmitsAttr doc.texts r :=
  ⟨h.slots (.attrName hr), h.slots (.attrValue hr)⟩

theorem of_records (hnodes : doc.nodes.Sound) (hattrs : doc.attrs.Sound)
    (hnode : ∀ x r, doc.node? x = some r → law.AdmitsNode doc.texts r)
    (hattr : ∀ a r, doc.attr? a = some r → law.AdmitsAttr doc.texts r) : doc.Obeys law where
  nodes := hnodes
  attrs := hattrs
  slots huse := by
    cases huse with
    | name hr => exact (hnode _ _ hr).name
    | value hr => exact (hnode _ _ hr).value
    | attrName hr => exact (hattr _ _ hr).name
    | attrValue hr => exact (hattr _ _ hr).value

/-- The texts of a node are changed to ones that were kept. -/
theorem modifyNode (h : Obeys law doc) (id : NodeId) {f : NodeRecord → NodeRecord}
    (hf : ∀ r, doc.node? id = some r → law.AdmitsNode doc.texts (f r)) :
    Obeys law (doc.modifyNode id f) := by
  refine of_records (h.nodes.modify _ _) h.attrs (fun x r' hr => ?_) fun a r hr => h.of_attr hr
  rw [node?_modifyNode_map, Option.map_eq_some_iff] at hr
  obtain ⟨r, hr, rfl⟩ := hr
  split
  · rename_i hx
    exact hf r (hx ▸ hr)
  · exact h.of_node hr

theorem modifyAttr (h : Obeys law doc) (id : AttrId) {f : AttrRecord → AttrRecord}
    (hf : ∀ r, doc.attr? id = some r → law.AdmitsAttr doc.texts (f r)) :
    Obeys law (doc.modifyAttr id f) := by
  refine of_records h.nodes (h.attrs.modify _ _) (fun x r hr => h.of_node hr) fun a r' hr => ?_
  rw [attr?_modifyAttr_map, Option.map_eq_some_iff] at hr
  obtain ⟨r, hr, rfl⟩ := hr
  split
  · rename_i hx
    exact hf r (hx ▸ hr)
  · exact h.of_attr hr

/-- A new node has no texts. -/
theorem allocNode (h : Obeys law doc) (kind : NodeKind) : Obeys law (doc.allocNode kind).2 := by
  refine of_records (h.nodes.insert _) h.attrs (fun x r hr => ?_) fun a r hr => h.of_attr hr
  rw [node?_allocNode h.nodes] at hr
  split at hr
  · cases hr
    exact ⟨law.null, law.null⟩
  · exact h.of_node hr

/-- A new attribute has no texts. -/
theorem allocAttr (h : Obeys law doc) : Obeys law doc.allocAttr.2 := by
  refine of_records h.nodes (h.attrs.insert _) (fun x r hr => h.of_node hr) fun a r hr => ?_
  rw [attr?_allocAttr h.attrs] at hr
  split at hr
  · cases hr
    exact ⟨law.null, law.null⟩
  · exact h.of_attr hr

/-! ## Edits -/

/-- A copy that is written where it is admitted. -/
theorem replaceText (h : Obeys law doc) (text : String) (old : TextSlot)
    {put : TextSlot → Document → Document}
    (hput : ∀ slot owned, Obeys law owned → (∀ role, law.Admits role owned.texts slot) →
      Obeys law (put slot owned)) :
    Obeys law (doc.replaceText text old put).2 := by
  refine replaceText_induction h fun slot owned howned => ?_
  have hset := hput slot owned (h.drawn (.of_ownText howned)) fun _ =>
    SlotLaw.admits_ownText howned
  exact hset.drawn (.releaseText old)

theorem replaceName (h : Obeys law doc) (id : NodeId) (name : String) :
    Obeys law (doc.replaceName id name).2 := by
  unfold Document.replaceName
  split
  · exact h.replaceText name _ fun slot owned howned hslot =>
      howned.modifyNode id fun r hr => ⟨hslot _, (howned.of_node hr).value⟩
  · exact h

theorem replaceValue (h : Obeys law doc) (id : NodeId) (value : String) :
    Obeys law (doc.replaceValue id value).2 := by
  unfold Document.replaceValue
  split
  · exact h.replaceText value _ fun slot owned howned hslot =>
      howned.modifyNode id fun r hr => ⟨(howned.of_node hr).name, hslot _⟩
  · exact h

theorem setName (h : Obeys law doc) (id : NodeId) (name : String) :
    Obeys law (doc.setName id name).2 := by
  unfold Document.setName
  split
  · exact h.replaceName id name
  · exact h

theorem setValue (h : Obeys law doc) (id : NodeId) (value : String) :
    Obeys law (doc.setValue id value).2 := by
  unfold Document.setValue
  split
  · exact h.replaceValue id value
  · exact h

theorem setAttrName (h : Obeys law doc) (a : AttrId) (name : String) :
    Obeys law (doc.setAttrName a name).2 := by
  unfold Document.setAttrName
  split
  · exact h.replaceText name _ fun slot owned howned hslot =>
      howned.modifyAttr a fun r hr => ⟨hslot _, (howned.of_attr hr).value⟩
  · exact h

theorem setAttrValue (h : Obeys law doc) (a : AttrId) (value : String) :
    Obeys law (doc.setAttrValue a value).2 := by
  unfold Document.setAttrValue
  split
  · exact h.replaceText value _ fun slot owned howned hslot =>
      howned.modifyAttr a fun r hr => ⟨(howned.of_attr hr).name, hslot _⟩
  · exact h

theorem linkAt (h : Obeys law doc) (parent : NodeId) (place : Place NodeId) (id : NodeId) :
    Obeys law (doc.linkAt parent place id) :=
  h.drawn (.trans (.link parent place id) .forgetOrder)

theorem insertChild (h : Obeys law doc) (parent : NodeId) (kind : NodeKind)
    (place : Place NodeId) : Obeys law (doc.insertChild parent kind place).2 := by
  unfold Document.insertChild
  split
  · refine Obeys.linkAt ?_ parent place _
    split
    · exact (h.allocNode kind).replaceName _ _
    · exact h.allocNode kind
  · exact h

theorem setContent (h : Obeys law doc) (id : NodeId) (text : String) :
    Obeys law (doc.setContent id text).2 := by
  unfold Document.setContent
  split
  · split
    · exact h.replaceValue _ text
    · exact h.setValue _ text
  · have hchild := h.insertChild id .pcdata .last
    split
    · rename_i heq
      rw [heq] at hchild
      exact hchild.setValue _ text
    · rename_i heq
      rw [heq] at hchild
      exact hchild

theorem drop (h : Obeys law doc) (id : NodeId) : Obeys law ((doc.unlink id).freeSubtree id) :=
  h.drawn (.trans (.unlink id) (.freeSubtree id))

theorem dropAttr (h : Obeys law doc) (a : AttrId) : Obeys law ((doc.unlinkAttr a).freeAttr a) :=
  h.drawn (.trans (.unlinkAttr a) (.freeAttr a))

theorem removeChild (h : Obeys law doc) (parent child : NodeId) :
    Obeys law (doc.removeChild parent child).2 := by
  unfold Document.removeChild
  split
  · exact h.drop child
  · exact h

theorem insertElement (h : Obeys law doc) (parent : NodeId) (name : String)
    (place : Place NodeId) : Obeys law (doc.insertElement parent name place).2 :=
  insertElement_induction (h.insertChild parent .element place)
    (fun _ id hmade => hmade.setName id name) fun _ id hmade => hmade.removeChild parent id

theorem removeAttribute (h : Obeys law doc) (owner : NodeId) (a : AttrId) :
    Obeys law (doc.removeAttribute owner a).2 := by
  unfold Document.removeAttribute
  split
  · exact h.dropAttr a
  · exact h

theorem insertAttribute (h : Obeys law doc) (owner : NodeId) (name value : String)
    (place : Place AttrId) : Obeys law (doc.insertAttribute owner name value place).2 := by
  obtain ⟨nameSlot, named, valueSlot, valued, -, hnamed, hvalued, hdone⟩ |
    ⟨nameSlot, named, -, hnamed, -, hdone⟩ | ⟨-, hdone⟩ :=
      doc.insertAttribute_cases owner name value place
  · have hlater : named.texts.Extends valued.texts := (Drawn.of_ownText hvalued).texts
    have hmade := ((h.drawn (.of_ownText hnamed)).drawn (.of_ownText hvalued)).allocAttr
    have hset := hmade.modifyAttr valued.allocAttr.1 fun r _ =>
      (⟨law.mono (SlotLaw.admits_ownText hnamed) hlater, SlotLaw.admits_ownText hvalued⟩ :
        law.AdmitsAttr _ { r with name := nameSlot, value := valueSlot })
    rw [hdone]
    exact hset.drawn (.linkAttr owner place _)
  · rw [hdone]
    exact h.drawn (.trans (.of_ownText hnamed) (.releaseText nameSlot))
  · rw [hdone]
    exact h

/-! ## Copies -/

theorem pushAttr (h : Obeys law doc) (owner : NodeId) (a : TreeAttribute) :
    Obeys law (Document.pushAttr owner doc a) := by
  let linked := doc.allocAttr.2.linkAttr owner .last doc.allocAttr.1
  have hlinked : Obeys law linked := h.allocAttr.drawn (.linkAttr owner .last _)
  have hvalued : Obeys law ((linked.ownText (a.name.getD "")).2.ownText (a.value.getD "")).2 :=
    hlinked.drawn (.trans (.ownText _) (.ownText _))
  exact hvalued.modifyAttr _ fun _ _ =>
    ⟨law.mono (SlotLaw.admits_own_getD _ _) (.own _ _), SlotLaw.admits_own_getD _ _⟩

theorem foldl_pushAttr (h : Obeys law doc) (owner : NodeId) (as : List TreeAttribute) :
    Obeys law (as.foldl (Document.pushAttr owner) doc) := by
  induction as generalizing doc with
  | nil => exact h
  | cons a as ih => exact ih (h.pushAttr owner a)

theorem buildNode (h : Obeys law doc) (l : TreeLabel) : Obeys law (doc.buildNode l).2 := by
  let made := (doc.allocNode l.kind).2
  have hvalued : Obeys law ((made.ownText (l.name.getD "")).2.ownText (l.value.getD "")).2 :=
    (h.allocNode l.kind).drawn (.trans (.ownText _) (.ownText _))
  exact Obeys.foldl_pushAttr (hvalued.modifyNode _ fun r _ => SlotLaw.admitsNode_own _ _ _ r) _ _

end Obeys

mutual

theorem Obeys.build {doc : Document} (h : Obeys law doc) (t : Tree) :
    Obeys law (doc.build t).2 := by
  match t with
  | .node l children => exact Obeys.buildBelow (h.buildNode l) (doc.buildNode l).1 children

theorem Obeys.buildBelow {doc : Document} (h : Obeys law doc) (parent : NodeId)
    (ts : List Tree) : Obeys law (Document.buildBelow doc parent ts) := by
  match ts with
  | [] => exact h
  | t :: ts =>
    exact Obeys.buildBelow ((Obeys.build h t).drawn (.link parent .last _)) parent ts

end

namespace Obeys

theorem insertTree (h : Obeys law doc) (parent : NodeId) (kind : NodeKind) (t : Tree)
    (place : Place NodeId) : Obeys law (doc.insertTree parent kind t place).2 := by
  unfold Document.insertTree
  split
  · exact (h.build t).linkAt parent place _
  · exact h

theorem copyTops (h : Obeys law doc) (source : Document) (cs : List NodeId) :
    Obeys law (doc.copyTops source cs) := by
  induction cs generalizing doc with
  | nil => exact h
  | cons c cs ih =>
    have hcopy := h.insertTree doc.root (source.kind c) (source.tree c) .last
    unfold Document.copyTops
    split
    · rename_i heq
      rw [insertCopyFrom] at heq
      rw [heq] at hcopy
      exact ih hcopy
    · rename_i heq
      rw [insertCopyFrom] at heq
      rw [heq] at hcopy
      exact hcopy

theorem withRoot (hnodes : doc.nodes.Sound) (hattrs : doc.attrs.Sound)
    (hnode : ∀ x, doc.node? x = none) (hattr : ∀ a, doc.attr? a = none) :
    Obeys law doc.withRoot := by
  have hdoc : Obeys law doc := by
    refine of_records hnodes hattrs (fun x r hr => ?_) fun a r hr => ?_
    · rw [hnode] at hr
      cases hr
    · rw [hattr] at hr
      cases hr
  have hmade := hdoc.allocNode .document
  exact of_records hmade.nodes hmade.attrs (fun _ _ hr => hmade.of_node hr)
    fun _ _ hr => hmade.of_attr hr

theorem new : Obeys law .new :=
  withRoot SlotStore.sound_empty SlotStore.sound_empty (fun _ => rfl) fun _ => rfl

theorem reset (doc : Document) : Obeys law doc.reset :=
  withRoot SlotStore.sound_clear SlotStore.sound_clear (fun _ => SlotStore.get?_clear _)
    fun _ => SlotStore.get?_clear _

end Obeys

end Document

/-! ## Loads -/

/-- A part of a piece of the loaded text that is left where it stands is admitted; a fresh text
always is. -/
def Conversion.Admitted (law : SlotLaw) (role : SlotRole) (target : LoadTarget) (s : TextStore)
    (raw : Span) : Conversion → Prop
  | .verbatim skipped piece =>
    law.Admits role s (TreeBuilder.rangeSlot target ⟨raw.start + skipped, piece⟩)
  | .fresh _ => True

/-- The ranges of the loaded text that an event leads to are admitted.  Nothing is asked of
white space that is trimmed, for it is dropped. -/
def LoadEvent.Admitted (law : SlotLaw) (target : LoadTarget) (s : TextStore) : LoadEvent → Prop
  | .text raw _ =>
    (raw.text.all isSpace = true → target.options.contains .trimPcdata = false) →
      ∀ kind, (convertPcdata target.options raw.text).Admitted law (.value kind) target s raw
  | .openElement name | .declaration name =>
    law.Admits .name s (TreeBuilder.rangeSlot target name)
  | .closeElement => True
  | .attribute name raw =>
    law.Admits .attrName s (TreeBuilder.rangeSlot target name) ∧
      ∀ value ∈ raw,
        (convertAttribute target.options value.text).Admitted law .attrValue target s value
  | .comment raw =>
    (TreeBuilder.sectionConversion target.options raw.text).Admitted law (.value .comment) target s
      raw
  | .cdata raw =>
    (TreeBuilder.sectionConversion target.options raw.text).Admitted law (.value .cdata) target s
      raw
  | .pi name value =>
    law.Admits .name s (TreeBuilder.rangeSlot target name) ∧
      ∀ text ∈ value, law.Admits (.value .pi) s (TreeBuilder.rangeSlot target text)
  | .doctype body => law.Admits (.value .doctype) s (TreeBuilder.rangeSlot target body)

/-- The document of a builder obeys a law, and the texts of a store are kept in it. -/
structure TreeBuilder.Obeys (law : SlotLaw) (s : TextStore) (b : TreeBuilder) : Prop where
  doc : b.doc.Obeys law
  texts : s.Extends b.doc.texts

namespace TreeBuilder.Obeys

open Document (texts_link texts_linkAttr)

variable {law : SlotLaw} {s : TextStore} {target : LoadTarget} {b : TreeBuilder}

/-- The document is changed, and every text is kept. -/
theorem withDoc (h : Obeys law s b) {doc : Document} (hdoc : doc.Obeys law)
    (htexts : b.doc.texts.Extends doc.texts) : Obeys law s { b with doc } :=
  ⟨hdoc, h.texts.trans htexts⟩

/-- The slot of a piece of the loaded text is admitted if its conversion is. -/
theorem conversionSlot (h : Obeys law s b) {raw : Span} {conversion : Conversion}
    {slot : TextSlot} {b' : TreeBuilder}
    (hslot : b.conversionSlot target raw conversion = (some slot, b')) :
    Obeys law s b' ∧ ∀ {role}, conversion.Admitted law role target s raw →
      law.Admits role b'.doc.texts slot := by
  cases conversion with
  | verbatim skipped piece =>
    obtain ⟨hsome, rfl⟩ := Prod.mk.inj hslot
    obtain rfl := Option.some.inj hsome
    exact ⟨h, fun hadmitted => law.mono hadmitted h.texts⟩
  | fresh text =>
    obtain ⟨hsome, rfl⟩ := Prod.mk.inj hslot
    exact ⟨h.withDoc (h.doc.drawn (.ownText _)) (.own _ _), fun _ => law.own _ hsome⟩

theorem push (h : Obeys law s b) (kind : NodeKind) {name value : TextSlot}
    (hname : law.Admits .name b.doc.texts name)
    (hvalue : law.Admits (.value kind) b.doc.texts value) :
    Obeys law s (b.push target kind name value).2 := by
  obtain ⟨doc, openNodes, owner⟩ := b
  have hsound := h.doc.nodes
  have hmade : ((doc.allocNode kind).2.modifyNode (doc.allocNode kind).1 fun r =>
      { r with name, value }).Obeys law := by
    refine (h.doc.allocNode kind).modifyNode _ fun r hr => ⟨hname, ?_⟩
    rw [Document.node?_allocNode hsound, if_pos rfl] at hr
    cases hr
    exact hvalue
  exact h.withDoc (hmade.drawn (.link _ .last _)) (by
    rw [texts_link]
    exact .refl _)

/-- The value of a node is replaced. -/
theorem joined (h : Obeys law s b) (id : NodeId) (value : String) :
    Obeys law s { b with doc := (b.doc.replaceValue id value).2 } := by
  refine h.withDoc (h.doc.replaceValue id value) ?_
  unfold Document.replaceValue
  split
  · refine Document.replaceText_induction (.refl _) fun slot owned howned => ?_
    exact (Document.Drawn.of_ownText howned).texts.trans (.release _ _)
  · exact .refl _

theorem modifyValue (h : Obeys law s b) (id : NodeId) {slot : TextSlot}
    (hslot : ∀ kind, law.Admits (.value kind) b.doc.texts slot) :
    Obeys law s { b with doc := b.doc.modifyNode id fun r => { r with value := slot } } :=
  h.withDoc (h.doc.modifyNode id fun r hr => ⟨(h.doc.of_node hr).name, hslot r.kind⟩) (.refl _)

theorem addText (h : Obeys law s b) {raw : Span} {closing : Bool}
    (he : (LoadEvent.text raw closing).Admitted law target s) :
    Obeys law s (b.addText target raw closing).2 := by
  have htrim : ¬ (raw.text.all isSpace && !b.keepsSpace target closing) = true →
      raw.text.all isSpace = true → target.options.contains .trimPcdata = false := by
    intro hkept hspace
    simp only [hspace, TreeBuilder.keepsSpace, Bool.true_and] at hkept
    cases htrim : target.options.contains .trimPcdata with
    | false => rfl
    | true => simp [htrim] at hkept
  refine addText_induction h ?_ (fun previous _ => h.joined previous) ?_
  · intro hkept _ slot b' hslot
    obtain ⟨hdone, hadmits⟩ := h.conversionSlot hslot
    exact hdone.modifyValue _ fun kind => hadmits (he (htrim hkept) kind)
  · intro hkept slot b' hslot
    obtain ⟨hdone, hadmits⟩ := h.conversionSlot hslot
    exact hdone.push .pcdata law.null (hadmits (he (htrim hkept) .pcdata))

theorem addSection (h : Obeys law s b) {kind : NodeKind} {raw : Span}
    (hraw : (sectionConversion target.options raw.text).Admitted law (.value kind) target s raw) :
    Obeys law s (b.addSection target kind raw).2 := by
  refine withSlot_induction h fun slot b' hslot => ?_
  obtain ⟨hdone, hadmits⟩ := h.conversionSlot hslot
  exact hdone.push kind law.null (hadmits hraw)

theorem addAttribute (h : Obeys law s b) {name : Span} {raw : Option Span}
    (he : (LoadEvent.attribute name raw).Admitted law target s) :
    Obeys law s (b.addAttribute target name raw).2 := by
  obtain ⟨hname, hraw⟩ := he
  have hlinked : Obeys law s
      { b with doc := b.doc.allocAttr.2.linkAttr b.owner .last b.doc.allocAttr.1 } :=
    h.withDoc (h.doc.allocAttr.drawn (.linkAttr _ .last _)) (by
      rw [texts_linkAttr]
      exact .refl _)
  have hnamed : Obeys law s
      { b with
        doc := (b.doc.allocAttr.2.linkAttr b.owner .last b.doc.allocAttr.1).modifyAttr
          b.doc.allocAttr.1 fun r => { r with name := TreeBuilder.rangeSlot target name } } :=
    hlinked.withDoc (hlinked.doc.modifyAttr _ fun _ hr =>
      ⟨law.mono hname hlinked.texts, (hlinked.doc.of_attr hr).value⟩) (.refl _)
  unfold TreeBuilder.addAttribute
  cases raw with
  | none => exact hnamed
  | some raw =>
    refine withSlot_induction hnamed fun slot b' hslot => ?_
    obtain ⟨hdone, hadmits⟩ := hnamed.conversionSlot hslot
    exact hdone.withDoc (hdone.doc.modifyAttr _ fun _ hr =>
      ⟨(hdone.doc.of_attr hr).name, hadmits (hraw raw rfl)⟩) (.refl _)

/-- Whatever an event says, its admitted ranges leave a document that obeys the law. -/
theorem add (h : Obeys law s b) {e : LoadEvent} (he : e.Admitted law target s) :
    Obeys law s (b.after target e) := by
  cases e with
  | text raw closing => exact h.addText he
  | openElement name =>
    have hpushed : Obeys law s
        (b.push target .element (TreeBuilder.rangeSlot target name) .null).2 :=
      h.push .element (law.mono he h.texts) law.null
    exact ⟨hpushed.doc, hpushed.texts⟩
  | closeElement => exact ⟨h.doc, h.texts⟩
  | «attribute» name raw => exact h.addAttribute he
  | comment raw => exact h.addSection he
  | cdata raw => exact h.addSection he
  | pi name value =>
    refine h.push .pi (law.mono he.1 h.texts) ?_
    cases value with
    | none => exact law.null
    | some value => exact law.mono (he.2 value rfl) h.texts
  | declaration name =>
    have hpushed : Obeys law s
        (b.push target .declaration (TreeBuilder.rangeSlot target name) .null).2 :=
      h.push .declaration (law.mono he h.texts) law.null
    exact ⟨hpushed.doc, hpushed.texts⟩
  | doctype body => exact h.push .doctype law.null (law.mono he h.texts)

theorem foldl_add (h : Obeys law s b) {es : List LoadEvent}
    (hes : ∀ e ∈ es, e.Admitted law target s) :
    Obeys law s (es.foldl (TreeBuilder.after target) b) := by
  induction es generalizing b with
  | nil => exact h
  | cons e es ih =>
    obtain ⟨he, hes⟩ := List.forall_mem_cons.1 hes
    exact ih (h.add he) hes

end TreeBuilder.Obeys

/-- An attribute may be left without its value. -/
theorem LoadEvent.Admitted.of_attribute {law : SlotLaw} {target : LoadTarget} {s : TextStore}
    {name : Span} {raw : Option Span} (h : (LoadEvent.attribute name raw).Admitted law target s) :
    (LoadEvent.attribute name none).Admitted law target s :=
  ⟨h.1, nofun⟩

/-- Every range that is read off a loaded text is admitted. -/
def SlotLaw.AdmitsLoads (law : SlotLaw) : Prop :=
  ∀ (s : TextStore) (base : NodeId) (text : String) (mode : ReaderMode),
    ∀ e ∈ (Transcript.ofText mode text.toList).events,
      e.Admitted law ⟨base, (s.addBuffer text).1, mode.options⟩ (s.addBuffer text).2

namespace Document

variable {law : SlotLaw} {doc : Document}

namespace Obeys

theorem loadBelow (h : Obeys law doc) (hloads : law.AdmitsLoads) (base : NodeId) (text : String)
    (options : ParseOptions) : Obeys law (doc.loadBelow base text options).2 := by
  let buffered : Document := { doc with texts := (doc.texts.addBuffer text).2 }
  have hbuffered : Obeys law buffered := h.drawn (.ofTexts (doc.texts.extends_addBuffer text).1)
  let mode : ReaderMode := ⟨options, buffered.kind base == .document⟩
  have hstart : TreeBuilder.Obeys law buffered.texts ⟨buffered, [], base⟩ := ⟨hbuffered, .refl _⟩
  refine loadBelow_induction fun es hes => ?_
  have hadmitted := hes.forall_mem (fun _ _ => .of_attribute) (hloads doc.texts base text mode)
  exact (hstart.foldl_add hadmitted).doc

/-- Every change leaves a document that obeys the law. -/
theorem apply (h : Obeys law doc) (hloads : law.AdmitsLoads) (c : Change) :
    Obeys law (doc.apply c).2 := by
  cases c with
  | loadString text options => exact (reset doc).loadBelow hloads _ text options
  | loadBytes bytes options encoding => exact (reset doc).loadBelow hloads _ _ options
  | loadFetched fetched options encoding =>
    cases fetched with
    | ok bytes => exact (reset doc.reset).loadBelow hloads _ _ options
    | error failure => exact reset doc
  | appendBytes parent bytes options encoding =>
    show Obeys law (doc.appendBytes parent bytes options encoding).2
    unfold Document.appendBytes
    split
    · exact (h.drawn .forgetOrder).loadBelow hloads parent _ options
    · exact h
  | reset => exact Obeys.reset doc
  | resetFrom source => exact (Obeys.reset doc).copyTops source _
  | insertChild parent kind place => exact h.insertChild parent kind place
  | insertElement parent name place => exact h.insertElement parent name place
  | insertCopy parent proto place => exact h.insertTree parent _ _ place
  | insertCopyFrom parent source proto place => exact h.insertTree parent _ _ place
  | insertMove parent moved place =>
    show Obeys law (doc.insertMove parent moved place).2
    unfold Document.insertMove
    split
    · exact (h.drawn (.unlink moved)).linkAt parent place moved
    · exact h
  | removeChild parent child => exact h.removeChild parent child
  | removeChildNamed parent name =>
    show Obeys law (doc.removeChildNamed parent name).2
    unfold Document.removeChildNamed
    split
    · exact h.removeChild parent _
    · exact h
  | removeChildren parent =>
    show Obeys law (doc.removeChildren parent).2
    unfold Document.removeChildren
    split
    · exact h.drawn (.foldl (fun _ c => .trans (.unlink c) (.freeSubtree c)) _ _)
    · exact h
  | insertAttribute owner name value place => exact h.insertAttribute owner name value place
  | setAttribute owner name value =>
    show Obeys law (doc.setAttribute owner name value).2
    unfold Document.setAttribute
    split
    · exact h.setAttrValue _ value
    · exact h.insertAttribute owner name value .last
  | insertAttributeCopy owner proto place =>
    show Obeys law (doc.insertAttributeCopy owner proto place).2
    unfold Document.insertAttributeCopy
    split
    · exact h.insertAttribute owner _ _ place
    · exact h
  | removeAttribute owner a => exact h.removeAttribute owner a
  | removeAttributeNamed owner name =>
    show Obeys law (doc.removeAttributeNamed owner name).2
    unfold Document.removeAttributeNamed
    split
    · exact h.removeAttribute owner _
    · exact h
  | removeAttributes owner =>
    show Obeys law (doc.removeAttributes owner).2
    unfold Document.removeAttributes
    split
    · exact h.drawn (.foldl (fun _ a => .trans (.unlinkAttr a) (.freeAttr a)) _ _)
    · exact h
  | setName id name => exact h.setName id name
  | setValue id value => exact h.setValue id value
  | setContent id text => exact h.setContent id text
  | setAttrName a name => exact h.setAttrName a name
  | setAttrValue a value => exact h.setAttrValue a value

end Obeys

/-- Whatever is done to a document, its slots obey the law. -/
theorem Reachable.obeys (h : Reachable doc) (hloads : law.AdmitsLoads) : doc.Obeys law := by
  induction h with
  | new => exact .new
  | change c _ _ ih _ => exact ih.apply hloads c
  | ranked _ ih => exact ih.drawn .withRanks

end Document

end XmlTree