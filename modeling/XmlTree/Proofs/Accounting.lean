/-
  Proofs/Accounting.lean --- every byte of copied text is held by one record or given back.

  WHAT THIS FILE IS FOR.  A text that is copied into a page belongs to the slot that it was
  copied for.  Wherever a slot of a record is replaced or a record is dropped, the slot that
  goes is given back, once.  So in every document the bytes written since it was emptied are
  the bytes that were given back and those that the slots of its records hold, and no byte
  is held by two of them.

  SLOTS IN THE HAND.  In the middle of an operation a slot may be in no record: it was made and
  is not yet written, or it was replaced and is not yet given back.  Such slots are loose.  An
  operation as a whole leaves the loose slots as it found them; that is what is composed.

  WHAT IS NOT ASKED.  Nothing here looks at the links between records, at kinds or at handles,
  for none of them decides what is given back.
-/
import XmlTree.Proofs.Adding
import XmlTree.Proofs.Holdings
import XmlTree.Proofs.TreeShape

set_option autoImplicit false

namespace XmlTree

/-- The slots of the record of a node. -/
def NodeRecord.slots (r : NodeRecord) : List TextSlot := [r.name, r.value]

/-- The slots of the record of an attribute. -/
def AttrRecord.slots (r : AttrRecord) : List TextSlot := [r.name, r.value]

namespace Document

variable {doc doc' doc'' : Document} {loose loose' : List TextSlot} {μ : PageRange → Nat}

/-- The slots of all nodes and attributes. -/
def heldSlots (doc : Document) : List TextSlot :=
  doc.nodes.records.flatMap NodeRecord.slots ++ doc.attrs.records.flatMap AttrRecord.slots

/-- The slots of the nodes, and those of the attributes, weigh what their records weigh. -/
theorem weight_heldSlots (doc : Document) :
    weight μ doc.heldSlots = (doc.nodes.records.map fun r => weight μ r.slots).sum +
      (doc.attrs.records.map fun r => weight μ r.slots).sum := by
  rw [heldSlots, weight_append, weight_flatMap, weight_flatMap]

/-- The pages are accounted for by the slots of all records together with some loose ones. -/
structure AccountedWith (doc : Document) (loose : List TextSlot) : Prop where
  nodes : doc.nodes.Sound
  attrs : doc.attrs.Sound
  texts : doc.texts.Accounts (loose ++ doc.heldSlots)

namespace AccountedWith

/-- Slots go over from records to loose ones, or the other way. -/
theorem shift (h : doc.AccountedWith loose) (hnodes : doc'.nodes.Sound) (hattrs : doc'.attrs.Sound)
    (htexts : doc'.texts = doc.texts)
    (heq : ∀ μ, weight μ loose' + weight μ doc'.heldSlots =
      weight μ loose + weight μ doc.heldSlots) : doc'.AccountedWith loose' where
  nodes := hnodes
  attrs := hattrs
  texts := by
    rw [htexts]
    exact h.texts.congr fun μ => by rw [weight_append, weight_append, heq]

/-- Loose slots that hold the same can be exchanged. -/
theorem loosely (h : doc.AccountedWith loose) (heq : ∀ μ, weight μ loose' = weight μ loose) :
    doc.AccountedWith loose' :=
  h.shift h.nodes h.attrs rfl fun μ => by rw [heq]

theorem dropNull (h : doc.AccountedWith (.null :: loose)) : doc.AccountedWith loose :=
  h.loosely fun μ => by rw [weight_cons, TextSlot.weigh_null, Nat.zero_add]

/-- A slot that holds no range of a page may be taken along. -/
theorem addUnheld (h : doc.AccountedWith loose) {slot : TextSlot} (hslot : slot.range? = none) :
    doc.AccountedWith (slot :: loose) :=
  h.loosely fun μ => by rw [weight_cons, TextSlot.weigh, hslot, Option.elim_none, Nat.zero_add]

/-- The slot of a copy is loose. -/
theorem ownText (h : doc.AccountedWith loose) (text : String) :
    (doc.ownText text).2.AccountedWith ((doc.ownText text).1.toList ++ loose) where
  nodes := h.nodes
  attrs := h.attrs
  texts := by
    rw [List.append_assoc]
    exact h.texts.own text

theorem of_ownText (h : doc.AccountedWith loose) {text : String} {slot : TextSlot}
    {owned : Document} (howned : doc.ownText text = (some slot, owned)) :
    owned.AccountedWith (slot :: loose) := by
  have hloose := h.ownText text
  rw [howned] at hloose
  exact hloose

/-- What stands for a text that may be too long is loose. -/
theorem ownText_getD (h : doc.AccountedWith loose) (text : String) :
    (doc.ownText text).2.AccountedWith ((doc.ownText text).1.getD .null :: loose) := by
  have hloose := h.ownText text
  cases hslot : (doc.ownText text).1 with
  | none =>
    rw [hslot] at hloose
    exact hloose.addUnheld rfl
  | some slot =>
    rw [hslot] at hloose
    exact hloose

theorem releaseText {slot : TextSlot} (h : doc.AccountedWith (slot :: loose)) :
    (doc.releaseText slot).AccountedWith loose :=
  ⟨h.nodes, h.attrs, h.texts.release⟩

/-- The slots of a node are exchanged with loose ones. -/
theorem modifyNode (h : doc.AccountedWith loose) {id : NodeId} {r : NodeRecord}
    (hr : doc.node? id = some r) {f : NodeRecord → NodeRecord}
    (heq : ∀ μ, weight μ loose' + weight μ (f r).slots = weight μ loose + weight μ r.slots) :
    (doc.modifyNode id f).AccountedWith loose' := by
  refine h.shift (h.nodes.modify _ _) h.attrs rfl fun μ => ?_
  have hsum := SlotStore.sum_modify hr (fun r => weight μ r.slots) f
  have hslots := heq μ
  rw [weight_heldSlots, weight_heldSlots, Document.modifyNode]
  dsimp only at hsum ⊢
  omega

/-- The slots of an attribute are exchanged with loose ones. -/
theorem modifyAttr (h : doc.AccountedWith loose) {id : AttrId} {r : AttrRecord}
    (hr : doc.attr? id = some r) {f : AttrRecord → AttrRecord}
    (heq : ∀ μ, weight μ loose' + weight μ (f r).slots = weight μ loose + weight μ r.slots) :
    (doc.modifyAttr id f).AccountedWith loose' := by
  refine h.shift h.nodes (h.attrs.modify _ _) rfl fun μ => ?_
  have hsum := SlotStore.sum_modify hr (fun r => weight μ r.slots) f
  have hslots := heq μ
  rw [weight_heldSlots, weight_heldSlots, Document.modifyAttr]
  dsimp only at hsum ⊢
  omega

/-- A node gets another name, and the old one is loose. -/
theorem setNodeName {slot : TextSlot} (h : doc.AccountedWith (slot :: loose)) {id : NodeId}
    {r : NodeRecord} (hr : doc.node? id = some r) :
    (doc.modifyNode id fun r => { r with name := slot }).AccountedWith (r.name :: loose) :=
  h.modifyNode hr fun μ => by
    simp only [NodeRecord.slots, weight_cons]
    omega

/-- A node gets another value, and the old one is loose. -/
theorem setNodeValue {slot : TextSlot} (h : doc.AccountedWith (slot :: loose)) {id : NodeId}
    {r : NodeRecord} (hr : doc.node? id = some r) :
    (doc.modifyNode id fun r => { r with value := slot }).AccountedWith (r.value :: loose) :=
  h.modifyNode hr fun μ => by
    simp only [NodeRecord.slots, weight_cons]
    omega

/-- A node without texts gets a name and a value. -/
theorem fillNode {name value : TextSlot} (h : doc.AccountedWith (value :: name :: loose))
    {id : NodeId} {r : NodeRecord} (hr : doc.node? id = some r) (hname : r.name = .null)
    (hvalue : r.value = .null) :
    (doc.modifyNode id fun r => { r with name, value }).AccountedWith loose :=
  h.modifyNode hr fun μ => by
    simp only [NodeRecord.slots, weight_cons, hname, hvalue, TextSlot.weigh_null]
    omega

theorem setAttrName {slot : TextSlot} (h : doc.AccountedWith (slot :: loose)) {a : AttrId}
    {r : AttrRecord} (hr : doc.attr? a = some r) :
    (doc.modifyAttr a fun r => { r with name := slot }).AccountedWith (r.name :: loose) :=
  h.modifyAttr hr fun μ => by
    simp only [AttrRecord.slots, weight_cons]
    omega

theorem setAttrValue {slot : TextSlot} (h : doc.AccountedWith (slot :: loose)) {a : AttrId}
    {r : AttrRecord} (hr : doc.attr? a = some r) :
    (doc.modifyAttr a fun r => { r with value := slot }).AccountedWith (r.value :: loose) :=
  h.modifyAttr hr fun μ => by
    simp only [AttrRecord.slots, weight_cons]
    omega

theorem fillAttr {name value : TextSlot} (h : doc.AccountedWith (value :: name :: loose))
    {a : AttrId} {r : AttrRecord} (hr : doc.attr? a = some r) (hname : r.name = .null)
    (hvalue : r.value = .null) :
    (doc.modifyAttr a fun r => { r with name, value }).AccountedWith loose :=
  h.modifyAttr hr fun μ => by
    simp only [AttrRecord.slots, weight_cons, hname, hvalue, TextSlot.weigh_null]
    omega

end AccountedWith

/-! ## Steps that leave the loose slots as they are -/

/-- Whatever slots are loose before are loose after. -/
structure Balanced (doc doc' : Document) : Prop where
  keeps : ∀ loose, doc.AccountedWith loose → doc'.AccountedWith loose

theorem AccountedWith.after (h : doc.AccountedWith loose) (hstep : Balanced doc doc') :
    doc'.AccountedWith loose :=
  hstep.keeps loose h

namespace Balanced

theorem refl (doc : Document) : Balanced doc doc := ⟨fun _ => id⟩

theorem trans (h : Balanced doc doc') (h' : Balanced doc' doc'') : Balanced doc doc'' :=
  ⟨fun _ hdoc => (hdoc.after h).after h'⟩

theorem foldl {α : Type} {f : Document → α → Document} (hf : ∀ doc a, Balanced doc (f doc a))
    (as : List α) (doc : Document) : Balanced doc (as.foldl f doc) := by
  induction as generalizing doc with
  | nil => exact refl doc
  | cons a as ih => exact (hf doc a).trans (ih (f doc a))

/-- The records and texts are the same. -/
theorem of_same (hnodes : doc'.nodes = doc.nodes) (hattrs : doc'.attrs = doc.attrs)
    (htexts : doc'.texts = doc.texts) : Balanced doc doc' where
  keeps _ h := h.shift (hnodes ▸ h.nodes) (hattrs ▸ h.attrs) htexts fun μ => by
    rw [heldSlots, heldSlots, hnodes, hattrs]

theorem forgetOrder : Balanced doc doc.forgetOrder := of_same rfl rfl rfl

theorem withRanks : Balanced doc doc.withRanks := by
  unfold Document.withRanks
  split
  · exact of_same rfl rfl rfl
  · exact refl doc

/-! Links write no slots. -/

theorem modifyNode (id : NodeId) {f : NodeRecord → NodeRecord} (hf : ∀ r, (f r).slots = r.slots) :
    Balanced doc (doc.modifyNode id f) where
  keeps _ h := h.shift (h.nodes.modify _ _) h.attrs rfl fun μ => by
    rw [weight_heldSlots, weight_heldSlots, Document.modifyNode]
    dsimp only
    rw [SlotStore.sum_modify_same (fun r => by rw [hf])]

theorem modifyAttr (a : AttrId) {f : AttrRecord → AttrRecord} (hf : ∀ r, (f r).slots = r.slots) :
    Balanced doc (doc.modifyAttr a f) where
  keeps _ h := h.shift h.nodes (h.attrs.modify _ _) rfl fun μ => by
    rw [weight_heldSlots, weight_heldSlots, Document.modifyAttr]
    dsimp only
    rw [SlotStore.sum_modify_same (fun r => by rw [hf])]

theorem setNext (parent previous next : Option NodeId) :
    Balanced doc (doc.setNext parent previous next) := by
  unfold Document.setNext
  split
  · exact modifyNode _ fun _ => rfl
  · exact modifyNode _ fun _ => rfl
  · exact refl doc

theorem setPrevious (parent previous next : Option NodeId) :
    Balanced doc (doc.setPrevious parent previous next) := by
  unfold Document.setPrevious
  split
  · exact modifyNode _ fun _ => rfl
  · exact modifyNode _ fun _ => rfl
  · exact refl doc

theorem link (parent : NodeId) (place : Place NodeId) (id : NodeId) :
    Balanced doc (doc.link parent place id) := by
  unfold Document.link
  have hplaced : Balanced doc (doc.modifyNode id fun r =>
      { r with parent := some parent, siblings := doc.gapAt parent place }) :=
    modifyNode id fun _ => rfl
  exact (hplaced.trans (setNext _ _ _)).trans (setPrevious _ _ _)

theorem unlink (id : NodeId) : Balanced doc (doc.unlink id) := by
  unfold Document.unlink
  split
  · exact ((setNext _ _ _).trans (setPrevious _ _ _)).trans (modifyNode _ fun _ => rfl)
  · exact refl doc

theorem setNextAttr (owner : Option NodeId) (previous next : Option AttrId) :
    Balanced doc (doc.setNextAttr owner previous next) := by
  unfold Document.setNextAttr
  split
  · exact modifyAttr _ fun _ => rfl
  · exact modifyNode _ fun _ => rfl
  · exact refl doc

theorem setPreviousAttr (owner : Option NodeId) (previous next : Option AttrId) :
    Balanced doc (doc.setPreviousAttr owner previous next) := by
  unfold Document.setPreviousAttr
  split
  · exact modifyAttr _ fun _ => rfl
  · exact modifyNode _ fun _ => rfl
  · exact refl doc

theorem linkAttr (owner : NodeId) (place : Place AttrId) (a : AttrId) :
    Balanced doc (doc.linkAttr owner place a) := by
  unfold Document.linkAttr
  have hplaced : Balanced doc (doc.modifyAttr a fun r =>
      { r with owner := some owner, neighbours := doc.attrGapAt owner place }) :=
    modifyAttr a fun _ => rfl
  exact (hplaced.trans (setNextAttr _ _ _)).trans (setPreviousAttr _ _ _)

theorem unlinkAttr (a : AttrId) : Balanced doc (doc.unlinkAttr a) := by
  unfold Document.unlinkAttr
  split
  · exact ((setNextAttr _ _ _).trans (setPreviousAttr _ _ _)).trans (modifyAttr _ fun _ => rfl)
  · exact refl doc

/-! A new record has no texts. -/

theorem allocNode (kind : NodeKind) : Balanced doc (doc.allocNode kind).2 where
  keeps _ h := h.shift (h.nodes.insert _) h.attrs rfl fun μ => by
    have hsum := SlotStore.sum_insert h.nodes (fun r => weight μ r.slots)
      (.detached kind doc.made)
    rw [weight_heldSlots, weight_heldSlots, Document.allocNode]
    dsimp only at hsum ⊢
    rw [hsum]
    rfl

theorem allocAttr : Balanced doc doc.allocAttr.2 where
  keeps _ h := h.shift h.nodes (h.attrs.insert _) rfl fun μ => by
    have hsum := SlotStore.sum_insert h.attrs (fun r => weight μ r.slots) .detached
    rw [weight_heldSlots, weight_heldSlots, Document.allocAttr]
    dsimp only at hsum ⊢
    rw [hsum]
    rfl

/-! What is dropped gives its texts back. -/

theorem freeAttr (a : AttrId) : Balanced doc (doc.freeAttr a) := by
  refine ⟨fun loose h => ?_⟩
  unfold Document.freeAttr
  split
  · rename_i r attrs hremove
    have hloose : ({ doc with attrs } : Document).AccountedWith (r.name :: r.value :: loose) :=
      h.shift h.nodes (h.attrs.remove? hremove) rfl fun μ => by
        have hsum := SlotStore.sum_remove hremove fun r => weight μ r.slots
        rw [weight_heldSlots, weight_heldSlots]
        simp only [AttrRecord.slots, weight_cons, weight_nil] at hsum ⊢
        omega
    exact hloose.releaseText.releaseText
  · exact h

theorem freeNode (id : NodeId) : Balanced doc (doc.freeNode id) := by
  refine ⟨fun loose h => ?_⟩
  unfold Document.freeNode
  dsimp only
  split
  · rename_i r nodes hremove
    have hloose : ({ doc with nodes } : Document).AccountedWith (r.name :: r.value :: loose) :=
      h.shift (h.nodes.remove? hremove) h.attrs rfl fun μ => by
        have hsum := SlotStore.sum_remove hremove fun r => weight μ r.slots
        rw [weight_heldSlots, weight_heldSlots]
        simp only [NodeRecord.slots, weight_cons, weight_nil] at hsum ⊢
        omega
    exact hloose.releaseText.releaseText.after (foldl (fun _ a => freeAttr a) _ _)
  · exact h

theorem freeSubtree (id : NodeId) : Balanced doc (doc.freeSubtree id) :=
  foldl (fun _ x => freeNode x) _ _

/-! ## Edits -/

/-- A copy is written where the slot stands that is given back. -/
theorem replaceText (text : String) {old : TextSlot} {put : TextSlot → Document → Document}
    (hput : ∀ slot owned, doc.ownText text = (some slot, owned) →
      ∀ loose, owned.AccountedWith (slot :: loose) → (put slot owned).AccountedWith (old :: loose)) :
    Balanced doc (doc.replaceText text old put).2 :=
  replaceText_induction (refl doc) fun slot owned howned =>
    ⟨fun loose h => (hput slot owned howned loose (h.of_ownText howned)).releaseText⟩

theorem replaceName (id : NodeId) (name : String) : Balanced doc (doc.replaceName id name).2 := by
  unfold Document.replaceName
  split
  · rename_i old hold
    refine replaceText name fun slot owned howned loose h => h.setNodeName ?_
    rwa [← node?_of_ownText howned] at hold
  · exact refl doc

theorem replaceValue (id : NodeId) (value : String) :
    Balanced doc (doc.replaceValue id value).2 := by
  unfold Document.replaceValue
  split
  · rename_i old hold
    refine replaceText value fun slot owned howned loose h => h.setNodeValue ?_
    rwa [← node?_of_ownText howned] at hold
  · exact refl doc

theorem setName (id : NodeId) (name : String) : Balanced doc (doc.setName id name).2 := by
  unfold Document.setName
  split
  · exact replaceName id name
  · exact refl doc

theorem setValue (id : NodeId) (value : String) : Balanced doc (doc.setValue id value).2 := by
  unfold Document.setValue
  split
  · exact replaceValue id value
  · exact refl doc

theorem setAttrName (a : AttrId) (name : String) : Balanced doc (doc.setAttrName a name).2 := by
  unfold Document.setAttrName
  split
  · rename_i old hold
    refine replaceText name fun slot owned howned loose h => h.setAttrName ?_
    rwa [← attr?_of_ownText howned] at hold
  · exact refl doc

theorem setAttrValue (a : AttrId) (value : String) : Balanced doc (doc.setAttrValue a value).2 := by
  unfold Document.setAttrValue
  split
  · rename_i old hold
    refine replaceText value fun slot owned howned loose h => h.setAttrValue ?_
    rwa [← attr?_of_ownText howned] at hold
  · exact refl doc

theorem linkAt (parent : NodeId) (place : Place NodeId) (id : NodeId) :
    Balanced doc (doc.linkAt parent place id) :=
  (link parent place id).trans forgetOrder

theorem insertChild (parent : NodeId) (kind : NodeKind) (place : Place NodeId) :
    Balanced doc (doc.insertChild parent kind place).2 := by
  unfold Document.insertChild
  split
  · refine Balanced.trans ?_ (linkAt parent place _)
    split
    · exact (allocNode kind).trans (replaceName _ _)
    · exact allocNode kind
  · exact refl doc

theorem setContent (id : NodeId) (text : String) : Balanced doc (doc.setContent id text).2 := by
  unfold Document.setContent
  split
  · split
    · exact replaceValue _ text
    · exact setValue _ text
  · have hchild : Balanced doc (doc.insertChild id .pcdata .last).2 := insertChild _ _ _
    split
    · rename_i heq
      rw [heq] at hchild
      exact hchild.trans (setValue _ text)
    · rename_i heq
      rw [heq] at hchild
      exact hchild

theorem drop (id : NodeId) : Balanced doc ((doc.unlink id).freeSubtree id) :=
  (unlink id).trans (freeSubtree id)

theorem dropAttr (a : AttrId) : Balanced doc ((doc.unlinkAttr a).freeAttr a) :=
  (unlinkAttr a).trans (freeAttr a)

theorem removeChild (parent child : NodeId) : Balanced doc (doc.removeChild parent child).2 := by
  unfold Document.removeChild
  split
  · exact drop child
  · exact refl doc

theorem insertElement (parent : NodeId) (name : String) (place : Place NodeId) :
    Balanced doc (doc.insertElement parent name place).2 := by
  refine insertElement_induction (insertChild _ _ _) (fun made id hmade => ?_)
    fun made id hmade => ?_
  · exact hmade.trans (setName id name)
  · exact hmade.trans (removeChild parent id)

theorem removeAttribute (owner : NodeId) (a : AttrId) :
    Balanced doc (doc.removeAttribute owner a).2 := by
  unfold Document.removeAttribute
  split
  · exact dropAttr a
  · exact refl doc

/-- A new attribute takes over a name and a value that were made before it.  A name that gets
no value beside it is given back. -/
theorem insertAttribute (owner : NodeId) (name value : String) (place : Place AttrId) :
    Balanced doc (doc.insertAttribute owner name value place).2 := by
  refine ⟨fun loose h => ?_⟩
  obtain ⟨nameSlot, named, valueSlot, valued, -, hnamed, hvalued, hdone⟩ |
    ⟨nameSlot, named, -, hnamed, -, hdone⟩ | ⟨-, hdone⟩ :=
      doc.insertAttribute_cases owner name value place
  · have howned := (h.of_ownText hnamed).of_ownText hvalued
    have hmade := howned.after allocAttr
    have hfilled := hmade.fillAttr (by rw [attr?_allocAttr howned.attrs, if_pos rfl]) rfl rfl
    rw [hdone]
    exact hfilled.after (linkAttr owner place _)
  · rw [hdone]
    exact (h.of_ownText hnamed).releaseText
  · rw [hdone]
    exact h

theorem pushAttr (owner : NodeId) (a : TreeAttribute) : Balanced doc (pushAttr owner doc a) := by
  refine ⟨fun loose h => ?_⟩
  obtain ⟨r, hr, hname, hvalue⟩ := exists_linked h.attrs owner
  have hlinked := (h.after allocAttr).after (linkAttr owner .last doc.allocAttr.1)
  exact ((hlinked.ownText_getD (a.name.getD "")).ownText_getD (a.value.getD "")).fillAttr hr hname
    hvalue

theorem buildNode (l : TreeLabel) : Balanced doc (doc.buildNode l).2 := by
  refine ⟨fun loose h => ?_⟩
  have hmade := h.after (allocNode l.kind)
  have hrecord : (doc.allocNode l.kind).2.node? (doc.allocNode l.kind).1 =
      some (.detached l.kind doc.made) := by
    rw [node?_allocNode h.nodes, if_pos rfl]
  have hfilled := ((hmade.ownText_getD (l.name.getD "")).ownText_getD (l.value.getD "")).fillNode
    hrecord rfl rfl
  exact hfilled.after (foldl (fun _ a => pushAttr _ a) l.attributes _)

end Balanced

mutual

theorem Balanced.build (doc : Document) (t : Tree) : Balanced doc (doc.build t).2 := by
  match t with
  | .node l children =>
    exact (Balanced.buildNode l).trans
      (Balanced.buildBelow (doc.buildNode l).2 (doc.buildNode l).1 children)

theorem Balanced.buildBelow (doc : Document) (parent : NodeId) (ts : List Tree) :
    Balanced doc (Document.buildBelow doc parent ts) := by
  match ts with
  | [] => exact .refl doc
  | t :: ts =>
    exact ((Balanced.build doc t).trans (.link parent .last _)).trans
      (Balanced.buildBelow _ parent ts)

end

namespace Balanced

theorem insertTree (parent : NodeId) (kind : NodeKind) (t : Tree) (place : Place NodeId) :
    Balanced doc (doc.insertTree parent kind t place).2 := by
  unfold Document.insertTree
  split
  · exact (build doc t).trans (linkAt parent place _)
  · exact refl doc

theorem copyTops (source : Document) (cs : List NodeId) :
    Balanced doc (doc.copyTops source cs) := by
  induction cs generalizing doc with
  | nil => exact refl doc
  | cons c cs ih =>
    have hcopy : Balanced doc (doc.insertCopyFrom doc.root source c .last).2 := insertTree _ _ _ _
    unfold Document.copyTops
    split
    · rename_i heq
      rw [heq] at hcopy
      exact hcopy.trans ih
    · rename_i heq
      rw [heq] at hcopy
      exact hcopy

end Balanced

end Document

/-! ## Loads -/

namespace TreeBuilder

open Document

variable {target : LoadTarget} {b : TreeBuilder} {loose : List TextSlot}

/-- The slot of a text that was converted is loose, and the records are untouched. -/
theorem accountedWith_conversionSlot (target : LoadTarget) (h : b.doc.AccountedWith loose)
    {raw : Span} {conversion : Conversion} {slot : TextSlot} {b' : TreeBuilder}
    (hslot : b.conversionSlot target raw conversion = (some slot, b')) :
    b'.doc.AccountedWith (slot :: loose) ∧ b'.doc.nodes = b.doc.nodes ∧
      b'.doc.attrs = b.doc.attrs := by
  cases conversion with
  | verbatim skipped piece =>
    obtain ⟨hsome, rfl⟩ := Prod.mk.inj hslot
    obtain rfl := Option.some.inj hsome
    exact ⟨h.addUnheld rfl, rfl, rfl⟩
  | fresh text =>
    obtain ⟨hsome, rfl⟩ := Prod.mk.inj hslot
    exact ⟨h.of_ownText (Prod.ext hsome rfl), rfl, rfl⟩

/-- A new node takes over its name and its value. -/
theorem accountedWith_push {name value : TextSlot}
    (h : b.doc.AccountedWith (value :: name :: loose)) (kind : NodeKind) :
    (b.push target kind name value).2.doc.AccountedWith loose := by
  obtain ⟨doc, openNodes, owner⟩ := b
  have hfilled := (h.after (.allocNode kind)).fillNode
    (by rw [node?_allocNode h.nodes, if_pos rfl]) rfl rfl
  exact hfilled.after (.link _ .last _)

/-- Text is embedded only where there is none yet. -/
theorem exists_of_embedsNext (h : b.embedsNext target = true) :
    ∃ r, b.doc.node? (b.cursor target) = some r ∧ r.value = .null := by
  rw [embedsNext, Bool.and_eq_true] at h
  have hempty := h.2
  split at hempty
  · rename_i r hr
    rw [Bool.and_eq_true] at hempty
    refine ⟨r, hr, ?_⟩
    cases hvalue : r.value with
    | null => rfl
    | _ => simp [hvalue, TextSlot.isNull] at hempty
  · cases hempty

theorem balanced_addText (raw : Span) (closing : Bool) :
    Balanced b.doc (b.addText target raw closing).2.doc := by
  refine ⟨fun loose h => ?_⟩
  refine addText_induction (P := fun b => b.doc.AccountedWith loose) h ?_ ?_ ?_
  · intro _ hembeds slot b' hslot
    obtain ⟨hloose, hnodes, -⟩ := accountedWith_conversionSlot target h hslot
    obtain ⟨r, hr, hnull⟩ := exists_of_embedsNext hembeds
    rw [node?, ← hnodes] at hr
    have hset := hloose.setNodeValue hr
    rw [hnull] at hset
    exact hset.dropNull
  · intro previous _ value
    exact h.after (.replaceValue previous value)
  · intro _ slot b' hslot
    exact accountedWith_push
      (accountedWith_conversionSlot target (h.addUnheld rfl) hslot).1 .pcdata

theorem balanced_addSection (kind : NodeKind) (raw : Span) :
    Balanced b.doc (b.addSection target kind raw).2.doc := by
  refine ⟨fun loose h => ?_⟩
  refine withSlot_induction h fun slot b' hslot => ?_
  exact accountedWith_push (accountedWith_conversionSlot target (h.addUnheld rfl) hslot).1 kind

/-- A range of the loaded text is the name, so that only the value may be a copy. -/
theorem balanced_addAttribute (name : Span) (raw : Option Span) :
    Balanced b.doc (b.addAttribute target name raw).2.doc := by
  refine ⟨fun loose h => ?_⟩
  obtain ⟨r, hr, hname, hvalue⟩ := exists_linked h.attrs b.owner
  have hlinked := (h.after .allocAttr).after (.linkAttr b.owner .last b.doc.allocAttr.1)
  have hunheld : (rangeSlot target name).range? = none := rfl
  have hnamed := (hlinked.addUnheld hunheld).setAttrName hr
  rw [hname] at hnamed
  unfold addAttribute
  cases raw with
  | none => exact hnamed.dropNull
  | some raw =>
    let named := (b.doc.allocAttr.2.linkAttr b.owner .last b.doc.allocAttr.1).modifyAttr
      b.doc.allocAttr.1 fun r => { r with name := rangeSlot target name }
    refine withSlot_induction (b := { b with doc := named }) hnamed.dropNull
      fun slot b' hslot => ?_
    obtain ⟨hloose, -, hattrs⟩ := accountedWith_conversionSlot (b := { b with doc := named }) target
      hnamed.dropNull hslot
    have hrecord : named.attr? b.doc.allocAttr.1 =
        some { r with name := rangeSlot target name } := by
      rw [attr?_modifyAttr, if_pos rfl, hr]
      rfl
    rw [attr?, ← hattrs] at hrecord
    have hset := hloose.setAttrValue hrecord
    rw [hvalue] at hset
    exact hset.dropNull

/-- Whatever an event says, the loose slots are as before. -/
theorem balanced_add (e : LoadEvent) : Balanced b.doc (b.after target e).doc := by
  have hpush : ∀ kind {name value : TextSlot}, name.range? = none → value.range? = none →
      Balanced b.doc (b.push target kind name value).2.doc := fun kind _ _ hname hvalue =>
    ⟨fun _ h => accountedWith_push ((h.addUnheld hname).addUnheld hvalue) kind⟩
  cases e with
  | text raw closing => exact balanced_addText raw closing
  | openElement name => exact hpush .element rfl rfl
  | closeElement => exact .refl _
  | «attribute» name raw => exact balanced_addAttribute name raw
  | comment raw => exact balanced_addSection .comment raw
  | cdata raw => exact balanced_addSection .cdata raw
  | pi name value => exact hpush .pi rfl (by cases value <;> rfl)
  | declaration name => exact hpush .declaration rfl rfl
  | doctype body => exact hpush .doctype rfl rfl

theorem balanced_foldl_add (target : LoadTarget) (es : List LoadEvent) :
    Balanced b.doc (es.foldl (after target) b).doc := by
  induction es generalizing b with
  | nil => exact .refl _
  | cons e es ih => exact (balanced_add e).trans ih

end TreeBuilder

namespace Document

variable {doc : Document}

namespace Balanced

theorem addBuffer (text : String) :
    Balanced doc { doc with texts := (doc.texts.addBuffer text).2 } :=
  ⟨fun _ h => ⟨h.nodes, h.attrs, h.texts.addBuffer text⟩⟩

theorem loadBelow (base : NodeId) (text : String) (options : ParseOptions) :
    Balanced doc (doc.loadBelow base text options).2 := by
  refine loadBelow_induction fun es _ => ?_
  exact (addBuffer text).trans (TreeBuilder.balanced_foldl_add (b := ⟨_, [], base⟩) _ es)

end Balanced

/-! ## All documents -/

/-- An emptied document has nothing to account for. -/
theorem accountedWith_withRoot (hnodes : doc.nodes.Sound) (hattrs : doc.attrs.Sound)
    (hnode : doc.nodes.records = []) (hattr : doc.attrs.records = [])
    (htexts : doc.texts = .empty) : doc.withRoot.AccountedWith [] := by
  have hempty : doc.heldSlots = [] := by rw [heldSlots, hnode, hattr]; rfl
  have hdoc : doc.AccountedWith [] :=
    ⟨hnodes, hattrs, by rw [hempty, htexts]; exact TextStore.Accounts.empty⟩
  exact (hdoc.after (.allocNode .document)).after (.of_same rfl rfl rfl)

theorem accountedWith_new : Document.new.AccountedWith [] :=
  accountedWith_withRoot SlotStore.sound_empty SlotStore.sound_empty rfl rfl rfl

theorem accountedWith_reset (doc : Document) : doc.reset.AccountedWith [] :=
  accountedWith_withRoot SlotStore.sound_clear SlotStore.sound_clear
    (SlotStore.records_clear _) (SlotStore.records_clear _) rfl

/-- Every change leaves the slots of all records to account for all pages. -/
theorem AccountedWith.apply (h : doc.AccountedWith []) (c : Change) :
    (doc.apply c).2.AccountedWith [] := by
  cases c with
  | loadString text options => exact (accountedWith_reset doc).after (.loadBelow _ text options)
  | loadBytes bytes options encoding =>
    exact (accountedWith_reset doc).after (.loadBelow _ _ options)
  | loadFetched fetched options encoding =>
    cases fetched with
    | ok bytes => exact (accountedWith_reset doc.reset).after (.loadBelow _ _ options)
    | error failure => exact accountedWith_reset doc
  | appendBytes parent bytes options encoding =>
    show (doc.appendBytes parent bytes options encoding).2.AccountedWith []
    unfold Document.appendBytes
    split
    · exact (h.after .forgetOrder).after (.loadBelow parent _ options)
    · exact h
  | reset => exact accountedWith_reset doc
  | resetFrom source => exact (accountedWith_reset doc).after (.copyTops source _)
  | insertChild parent kind place => exact h.after (.insertChild parent kind place)
  | insertElement parent name place => exact h.after (.insertElement parent name place)
  | insertCopy parent proto place => exact h.after (.insertTree parent _ _ place)
  | insertCopyFrom parent source proto place => exact h.after (.insertTree parent _ _ place)
  | insertMove parent moved place =>
    show (doc.insertMove parent moved place).2.AccountedWith []
    unfold Document.insertMove
    split
    · exact h.after ((Balanced.unlink moved).trans (.linkAt parent place moved))
    · exact h
  | removeChild parent child => exact h.after (.removeChild parent child)
  | removeChildNamed parent name =>
    show (doc.removeChildNamed parent name).2.AccountedWith []
    unfold Document.removeChildNamed
    split
    · exact h.after (.removeChild parent _)
    · exact h
  | removeChildren parent =>
    show (doc.removeChildren parent).2.AccountedWith []
    unfold Document.removeChildren
    split
    · exact h.after (.foldl (fun _ c => .drop c) _ _)
    · exact h
  | insertAttribute owner name value place =>
    exact h.after (.insertAttribute owner name value place)
  | setAttribute owner name value =>
    show (doc.setAttribute owner name value).2.AccountedWith []
    unfold Document.setAttribute
    split
    · exact h.after (.setAttrValue _ value)
    · exact h.after (.insertAttribute owner name value .last)
  | insertAttributeCopy owner proto place =>
    show (doc.insertAttributeCopy owner proto place).2.AccountedWith []
    unfold Document.insertAttributeCopy
    split
    · exact h.after (.insertAttribute owner _ _ place)
    · exact h
  | removeAttribute owner a => exact h.after (.removeAttribute owner a)
  | removeAttributeNamed owner name =>
    show (doc.removeAttributeNamed owner name).2.AccountedWith []
    unfold Document.removeAttributeNamed
    split
    · exact h.after (.removeAttribute owner _)
    · exact h
  | removeAttributes owner =>
    show (doc.removeAttributes owner).2.AccountedWith []
    unfold Document.removeAttributes
    split
    · exact h.after (.foldl (fun _ a => .dropAttr a) _ _)
    · exact h
  | setName id name => exact h.after (.setName id name)
  | setValue id value => exact h.after (.setValue id value)
  | setContent id text => exact h.after (.setContent id text)
  | setAttrName a name => exact h.after (.setAttrName a name)
  | setAttrValue a value => exact h.after (.setAttrValue a value)

theorem Reachable.accountedWith (h : Reachable doc) : doc.AccountedWith [] := by
  induction h with
  | new => exact accountedWith_new
  | change c _ _ ih _ => exact ih.apply c
  | ranked _ ih => exact ih.after .withRanks

/-- The pages hold the texts of the nodes and attributes and what was given back, each byte for
one slot at most. -/
structure Accounted (doc : Document) : Prop where
  /-- what was written is what is no longer used and what the slots hold -/
  total : doc.texts.written =
    doc.wastedBytes + ((heldRanges doc.heldSlots).map PageRange.length).sum
  /-- no byte of a page is held by two slots -/
  apart : (heldRanges doc.heldSlots).Pairwise fun r r' =>
    ∀ page byte, ¬ (r.Covers page byte ∧ r'.Covers page byte)
  /-- every range was written, and is not empty -/
  within : ∀ r ∈ heldRanges doc.heldSlots,
    0 < r.length ∧ r.start + r.length ≤ doc.texts.filled r.page

/-- Whatever is done to a document, its string storage is accounted for: no text that is no
longer used is left out of the count, none is counted that is still used or was counted before,
and no two records share one. -/
theorem reachable_accounted (h : Reachable doc) : doc.Accounted :=
  ⟨h.accountedWith.texts.total, h.accountedWith.texts.pairwise,
    fun _ => h.accountedWith.texts.within⟩

/-- Two elements are made, one of them is renamed and the other removed; an attribute is made and
set again. -/
def rewritten : List Change :=
  [.insertElement ⟨⟨0, 1⟩⟩ "first" .last, .insertElement ⟨⟨0, 1⟩⟩ "gone" .last,
    .insertAttribute ⟨⟨1, 1⟩⟩ "n" "old" .last, .setName ⟨⟨1, 1⟩⟩ "a",
    .removeChild ⟨⟨0, 1⟩⟩ ⟨⟨2, 1⟩⟩, .setAttribute ⟨⟨1, 1⟩⟩ "n" "newer"]

theorem accounted_rewritten :
    (new.applyAll rewritten).wastedBytes = 12 ∧
      heldRanges (new.applyAll rewritten).heldSlots = [⟨0, 13, 1⟩, ⟨0, 9, 1⟩, ⟨0, 14, 5⟩] ∧
      Accounted (new.applyAll rewritten) :=
  ⟨by decide +kernel, by decide +kernel,
    reachable_accounted (Reachable.new.applyAll (by decide))⟩

end Document

end XmlTree
