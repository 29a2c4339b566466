/-
  Proofs/Joining.lean --- two texts kept apart, and the two written as one.

  WHAT THIS FILE IS FOR.  A range of a loaded text is a number of bytes into it.  When two texts
  are loaded one after the other, a document refers to each of them by its number; when they are
  loaded as one, the ranges of the second begin as many bytes later as the first one has, and
  all ranges are of the one text.  Apart from that the records of both documents are the same.

  WHAT IS KEPT.  Slots are moved record by record, and each step that builds a document does the
  same to both.  A range reads the same in the joined text because it is held: it begins and
  ends between characters of its own text.
-/
import XmlTree.Document.Tree
import XmlTree.Proofs.SlotLaws

set_option autoImplicit false

namespace XmlTree

/-! ## Stores -/

namespace SlotStore

variable {α β : Type}

/-- The store with every record changed. -/
def map (f : α → β) (s : SlotStore α) : SlotStore β :=
  ⟨s.slots.map fun slot => ⟨slot.generation, slot.occupant.map f⟩, s.vacant, s.live⟩

variable {f : α → β} {s : SlotStore α}

theorem get?_map (h : Handle) : (s.map f).get? h = (s.get? h).map f := by
  simp only [map, get?, Array.getElem?_map]
  cases s.slots[h.index]? with
  | none => rfl
  | some slot =>
    simp only [Option.map_some]
    split <;> rfl

theorem slotCount_map : (s.map f).slotCount = s.slotCount := by
  simp [map, slotCount]

/-- A change at one place of an array, before or after one at every place. -/
theorem modify_map_array {γ δ : Type} {xs : Array γ} {F : γ → δ} {G : γ → γ} {G' : δ → δ}
    (hG : ∀ x, G' (F x) = F (G x)) (i : Nat) : (xs.map F).modify i G' = (xs.modify i G).map F := by
  refine Array.ext (by simp) fun j hj hj' => ?_
  simp only [Array.getElem_modify, Array.getElem_map]
  split
  · exact hG _
  · rfl

theorem insert_map (a : α) : (s.map f).insert (f a) = ((s.insert a).1, (s.insert a).2.map f) := by
  obtain ⟨slots, vacant, live⟩ := s
  cases vacant with
  | nil => simp [insert, map]
  | cons i rest =>
    simp only [insert, map, Array.getElem?_map, Option.map_map, Prod.mk.injEq, SlotStore.mk.injEq,
      and_true]
    refine ⟨?_, ?_⟩
    · cases slots[i]? <;> rfl
    · apply modify_map_array
      exact fun _ => rfl

theorem modify_map (h : Handle) {g : α → α} {g' : β → β} (hg : ∀ a, g' (f a) = f (g a)) :
    (s.map f).modify h g' = (s.modify h g).map f := by
  simp only [modify, map, SlotStore.mk.injEq, and_true]
  refine modify_map_array (fun slot => ?_) h.index
  obtain ⟨generation, occupant⟩ := slot
  cases occupant with
  | none => simp only [Option.map_none]; split <;> rfl
  | some a =>
    simp only [Option.map_some, hg]
    split <;> rfl

/-- A store without records has none to change. -/
theorem clear_map {f : α → α} : s.clear.map f = s.clear := by
  simp only [clear, map, Array.map_map, SlotStore.mk.injEq, and_true]
  refine congrArg (Array.map · s.slots) (funext fun slot => ?_)
  obtain ⟨generation, occupant⟩ := slot
  cases occupant <;> rfl

end SlotStore

/-! ## Texts -/

/-- Where a piece of the second of two texts stands in the joined text, whose first part has `k`
bytes. -/
def TextSlot.joined (k : Nat) : TextSlot → TextSlot
  | .source 1 start length => .source 0 (start + UInt32.ofNat k) length
  | slot => slot

theorem TextSlot.isNull_joined (k : Nat) (slot : TextSlot) :
    (slot.joined k).isNull = slot.isNull := by
  unfold joined
  split <;> rfl

variable {first second : String} {loaded : List String}

namespace TextStore

variable {s s' : TextStore} {slot : TextSlot} {text : String}

/-- The slot holds a text. -/
def Anchors (s : TextStore) (slot : TextSlot) : Prop := ∃ text, s.Holds slot text

theorem Holds.anchors (h : s.Holds slot text) : s.Anchors slot := ⟨text, h⟩

theorem anchors_null : s.Anchors .null := Holds.null.anchors

theorem anchors_own (s : TextStore) (h : (s.own text).1 = some slot) :
    (s.own text).2.Anchors slot :=
  (holds_own s h).anchors

/-- What was loaded into one store stands joined in the other, and the pages are the same. -/
structure Joined (first second : String) (loaded : List String) (s s' : TextStore) : Prop where
  buffers : s.buffers.toList = loaded
  loaded : loaded <+: [first, second]
  whole : s'.source? 0 = some (first ++ second)
  size : (first ++ second).utf8ByteSize < 2 ^ 32
  pages : s'.pages = s.pages

namespace Joined

theorem source_cases (h : Joined first second loaded s s') {buffer : Nat}
    (hsource : s.source? buffer = some text) :
    buffer = 0 ∧ text = first ∨ buffer = 1 ∧ text = second := by
  have hmem : [first, second][buffer]? = some text := by
    rw [source?, ← Array.getElem?_toList, h.buffers] at hsource
    obtain ⟨rest, hrest⟩ := h.loaded
    rw [← hrest, List.getElem?_append_left (List.getElem?_eq_some_iff.1 hsource).1, hsource]
  obtain _ | _ | buffer := buffer
  · exact .inl ⟨rfl, (Option.some.inj hmem).symm⟩
  · exact .inr ⟨rfl, (Option.some.inj hmem).symm⟩
  · cases hmem

/-- What a slot holds, the moved slot holds in the joined text. -/
theorem holds (h : Joined first second loaded s s') (hslot : s.Holds slot text) :
    s'.Holds (slot.joined first.utf8ByteSize) text := by
  have hsize := h.size
  rw [String.utf8ByteSize_append] at hsize
  cases hslot with
  | null => exact .null
  | @source buffer start length pre _ post hsource hstart hlength =>
    obtain ⟨rfl, htext⟩ | ⟨rfl, htext⟩ := h.source_cases hsource
    · have hwhole : s'.source? 0 = some (pre ++ text ++ (post ++ second)) := by
        rw [h.whole, ← htext, String.append_assoc]
      exact .source hwhole hstart hlength
    · have hwhole : s'.source? 0 = some (first ++ pre ++ text ++ post) := by
        rw [h.whole, ← htext]
        simp only [String.append_assoc]
      refine .source hwhole ?_ hlength
      have hpre : pre.utf8ByteSize ≤ second.utf8ByteSize := by
        rw [← htext, String.utf8ByteSize_append, String.utf8ByteSize_append]
        omega
      rw [String.utf8ByteSize_append, UInt32.toNat_add, UInt32.toNat_ofNat', hstart]
      omega
  | copied hpage htext hstart hlength =>
    rw [← h.pages] at hpage
    exact .copied hpage htext hstart hlength

theorem own (h : Joined first second loaded s s') (text : String) :
    (s'.own text).1 = (s.own text).1.map (TextSlot.joined first.utf8ByteSize) ∧
      Joined first second loaded (s.own text).2 (s'.own text).2 := by
  have hlast : s'.lastPage? text = s.lastPage? text := by simp only [lastPage?, h.pages]
  simp only [TextStore.own, copy, hlast, h.pages]
  split
  · exact ⟨rfl, h⟩
  · split
    · split
      · exact ⟨rfl, h.buffers, h.loaded, h.whole, h.size, rfl⟩
      · exact ⟨rfl, h.buffers, h.loaded, h.whole, h.size, rfl⟩
    · exact ⟨rfl, h⟩

theorem release (h : Joined first second loaded s s') (slot slot' : TextSlot) :
    Joined first second loaded (s.release slot) (s'.release slot') := by
  cases slot <;> cases slot' <;> exact ⟨h.buffers, h.loaded, h.whole, h.size, h.pages⟩

end Joined

end TextStore

/-! ## Documents -/

/-- The record with its texts where they stand in the joined text. -/
def NodeRecord.joined (k : Nat) (r : NodeRecord) : NodeRecord :=
  { r with name := r.name.joined k, value := r.value.joined k }

/-- The record with its texts where they stand in the joined text. -/
def AttrRecord.joined (k : Nat) (r : AttrRecord) : AttrRecord :=
  { r with name := r.name.joined k, value := r.value.joined k }

/-- A slot holds a text, whatever its role is. -/
def SlotLaw.anchored : SlotLaw where
  Admits _ s slot := s.Anchors slot
  null := TextStore.anchors_null
  own := TextStore.anchors_own
  mono h he := by
    obtain ⟨text, htext⟩ := h
    exact (he.holds htext).anchors

namespace Document

variable {doc doc' : Document} {k : Nat}

/-- Two documents are the same but for where their texts stand: those of the one are ranges of
texts that the other holds joined. -/
structure Joined (first second : String) (loaded : List String) (doc doc' : Document) : Prop where
  nodes : doc'.nodes = doc.nodes.map (NodeRecord.joined first.utf8ByteSize)
  attrs : doc'.attrs = doc.attrs.map (AttrRecord.joined first.utf8ByteSize)
  root : doc'.root = doc.root
  made : doc'.made = doc.made
  texts : doc.texts.Joined first second loaded doc'.texts
  anchored : doc.Obeys .anchored

namespace Joined

/-! ### What is read -/

theorem node?_eq (h : Joined first second loaded doc doc') (x : NodeId) :
    doc'.node? x = (doc.node? x).map (NodeRecord.joined first.utf8ByteSize) := by
  rw [node?, h.nodes, SlotStore.get?_map]
  rfl

theorem attr?_eq (h : Joined first second loaded doc doc') (a : AttrId) :
    doc'.attr? a = (doc.attr? a).map (AttrRecord.joined first.utf8ByteSize) := by
  rw [attr?, h.attrs, SlotStore.get?_map]
  rfl

theorem kind_eq (h : Joined first second loaded doc doc') (x : NodeId) :
    doc'.kind x = doc.kind x := by
  rw [kind, kind, h.node?_eq]
  cases doc.node? x <;> rfl

theorem firstChild?_eq (h : Joined first second loaded doc doc') (x : NodeId) :
    doc'.firstChild? x = doc.firstChild? x := by
  rw [firstChild?, firstChild?, h.node?_eq]
  cases doc.node? x <;> rfl

theorem lastChild?_eq (h : Joined first second loaded doc doc') (x : NodeId) :
    doc'.lastChild? x = doc.lastChild? x := by
  rw [lastChild?, lastChild?, h.node?_eq]
  cases doc.node? x <;> rfl

theorem lastAttribute?_eq (h : Joined first second loaded doc doc') (x : NodeId) :
    doc'.lastAttribute? x = doc.lastAttribute? x := by
  rw [lastAttribute?, lastAttribute?, h.node?_eq]
  cases doc.node? x <;> rfl

theorem textOf_eq (h : Joined first second loaded doc doc') {slot : TextSlot}
    (hslot : doc.texts.Anchors slot) :
    doc'.textOf (slot.joined first.utf8ByteSize) = doc.textOf slot := by
  obtain ⟨text, htext⟩ := hslot
  rw [textOf, textOf, htext.get_eq, (h.texts.holds htext).get_eq]

theorem textOf?_eq (h : Joined first second loaded doc doc') {slot : TextSlot}
    (hslot : doc.texts.Anchors slot) :
    doc'.textOf? (slot.joined first.utf8ByteSize) = doc.textOf? slot := by
  rw [textOf?, textOf?, h.textOf_eq hslot, TextSlot.isNull_joined]

theorem value_eq (h : Joined first second loaded doc doc') (x : NodeId) :
    doc'.value x = doc.value x := by
  rw [value, value, h.node?_eq]
  cases hr : doc.node? x with
  | none => rfl
  | some r => exact h.textOf_eq (h.anchored.of_node hr).value

theorem attrLabel_eq (h : Joined first second loaded doc doc') (a : AttrId) :
    doc'.attrLabel a = doc.attrLabel a := by
  rw [attrLabel, attrLabel, h.attr?_eq]
  cases hr : doc.attr? a with
  | none => rfl
  | some r =>
    obtain ⟨hname, hvalue⟩ := h.anchored.of_attr hr
    exact congrArg₂ TreeAttribute.mk (h.textOf?_eq hname) (h.textOf?_eq hvalue)

theorem children_eq (h : Joined first second loaded doc doc') (x : NodeId) :
    doc'.children x = doc.children x := by
  have hnext : doc'.nextSibling? = doc.nextSibling? := by
    funext y
    rw [nextSibling?, nextSibling?, h.node?_eq]
    cases doc.node? y <;> rfl
  rw [children, children, h.firstChild?_eq, hnext, h.nodes, SlotStore.slotCount_map]

theorem attributes_eq (h : Joined first second loaded doc doc') (x : NodeId) :
    doc'.attributes x = doc.attributes x := by
  have hnext : doc'.nextAttribute? = doc.nextAttribute? := by
    funext y
    rw [nextAttribute?, nextAttribute?, h.attr?_eq]
    cases doc.attr? y <;> rfl
  have hfirst : doc'.firstAttribute? x = doc.firstAttribute? x := by
    rw [firstAttribute?, firstAttribute?, h.node?_eq]
    cases doc.node? x <;> rfl
  rw [attributes, attributes, hfirst, hnext, h.attrs, SlotStore.slotCount_map]

theorem labelOf_eq (h : Joined first second loaded doc doc') (x : NodeId) :
    doc'.labelOf x = doc.labelOf x := by
  have hattributes :
      (doc'.attributes x).map doc'.attrLabel = (doc.attributes x).map doc.attrLabel := by
    rw [h.attributes_eq, funext h.attrLabel_eq]
  rw [labelOf, labelOf, h.node?_eq]
  cases hr : doc.node? x with
  | none => rfl
  | some r =>
    obtain ⟨hname, hvalue⟩ := h.anchored.of_node hr
    simp only [Option.map_some, hattributes]
    rw [show (r.joined first.utf8ByteSize).name = r.name.joined _ from rfl, h.textOf?_eq hname,
      show (r.joined first.utf8ByteSize).value = r.value.joined _ from rfl, h.textOf?_eq hvalue]
    rfl

/-- The same tree hangs below each node. -/
theorem tree_eq (h : Joined first second loaded doc doc') (x : NodeId) :
    doc'.tree x = doc.tree x := by
  have hdepth : ∀ depth x, doc'.treeUpTo depth x = doc.treeUpTo depth x := by
    intro depth
    induction depth with
    | zero => exact fun _ => rfl
    | succ depth ih =>
      intro x
      rw [treeUpTo, treeUpTo, h.labelOf_eq, h.children_eq, funext ih]
  rw [tree, tree, hdepth, walkLimit, walkLimit, h.nodes, SlotStore.slotCount_map]

/-! ### What is done -/

/-- A record is changed in the same way in both documents. -/
theorem modifyNode (h : Joined first second loaded doc doc') (x : NodeId)
    {f f' : NodeRecord → NodeRecord}
    (hf : ∀ r, f' (r.joined first.utf8ByteSize) = (f r).joined first.utf8ByteSize)
    (hheld : ∀ r, doc.node? x = some r → SlotLaw.anchored.AdmitsNode doc.texts (f r)) :
    Joined first second loaded (doc.modifyNode x f) (doc'.modifyNode x f') where
  nodes := by
    rw [Document.modifyNode, h.nodes]
    exact SlotStore.modify_map _ hf
  attrs := h.attrs
  root := h.root
  made := h.made
  texts := h.texts
  anchored := h.anchored.modifyNode x hheld

/-- Links are no texts. -/
theorem relink (h : Joined first second loaded doc doc') (x : NodeId)
    {f : NodeRecord → NodeRecord}
    (hf : ∀ r, f (r.joined first.utf8ByteSize) = (f r).joined first.utf8ByteSize ∧
      (f r).name = r.name ∧ (f r).value = r.value) :
    Joined first second loaded (doc.modifyNode x f) (doc'.modifyNode x f) := by
  refine h.modifyNode x (fun r => (hf r).1) fun r hr => ?_
  obtain ⟨hname, hvalue⟩ := h.anchored.of_node hr
  exact ⟨(hf r).2.1 ▸ hname, (hf r).2.2 ▸ hvalue⟩

theorem modifyAttr (h : Joined first second loaded doc doc') (a : AttrId)
    {f f' : AttrRecord → AttrRecord}
    (hf : ∀ r, f' (r.joined first.utf8ByteSize) = (f r).joined first.utf8ByteSize)
    (hheld : ∀ r, doc.attr? a = some r → SlotLaw.anchored.AdmitsAttr doc.texts (f r)) :
    Joined first second loaded (doc.modifyAttr a f) (doc'.modifyAttr a f') where
  nodes := h.nodes
  attrs := by
    rw [Document.modifyAttr, h.attrs]
    exact SlotStore.modify_map _ hf
  root := h.root
  made := h.made
  texts := h.texts
  anchored := h.anchored.modifyAttr a hheld

theorem relinkAttr (h : Joined first second loaded doc doc') (a : AttrId)
    {f : AttrRecord → AttrRecord}
    (hf : ∀ r, f (r.joined first.utf8ByteSize) = (f r).joined first.utf8ByteSize ∧
      (f r).name = r.name ∧ (f r).value = r.value) :
    Joined first second loaded (doc.modifyAttr a f) (doc'.modifyAttr a f) := by
  refine h.modifyAttr a (fun r => (hf r).1) fun r hr => ?_
  obtain ⟨hname, hvalue⟩ := h.anchored.of_attr hr
  exact ⟨(hf r).2.1 ▸ hname, (hf r).2.2 ▸ hvalue⟩

theorem allocNode (h : Joined first second loaded doc doc') (kind : NodeKind) :
    (doc'.allocNode kind).1 = (doc.allocNode kind).1 ∧
      Joined first second loaded (doc.allocNode kind).2 (doc'.allocNode kind).2 := by
  have hinsert : doc'.nodes.insert (.detached kind doc'.made) =
      ((doc.nodes.insert (.detached kind doc.made)).1,
        (doc.nodes.insert (.detached kind doc.made)).2.map (.joined first.utf8ByteSize)) := by
    rw [h.nodes, h.made]
    exact SlotStore.insert_map (f := NodeRecord.joined first.utf8ByteSize) (.detached kind doc.made)
  refine ⟨congrArg (fun found => (⟨found.1⟩ : NodeId)) hinsert, ?_⟩
  exact
  { nodes := congrArg Prod.snd hinsert
    attrs := h.attrs
    root := h.root
    made := congrArg Nat.succ h.made
    texts := h.texts
    anchored := h.anchored.allocNode kind }

theorem allocAttr (h : Joined first second loaded doc doc') :
    doc'.allocAttr.1 = doc.allocAttr.1 ∧
      Joined first second loaded doc.allocAttr.2 doc'.allocAttr.2 := by
  have hinsert : doc'.attrs.insert .detached = ((doc.attrs.insert .detached).1,
      (doc.attrs.insert .detached).2.map (.joined first.utf8ByteSize)) := by
    rw [h.attrs]
    exact SlotStore.insert_map (f := AttrRecord.joined first.utf8ByteSize) .detached
  refine ⟨congrArg (fun found => (⟨found.1⟩ : AttrId)) hinsert, ?_⟩
  exact
  { nodes := h.nodes
    attrs := congrArg Prod.snd hinsert
    root := h.root
    made := h.made
    texts := h.texts
    anchored := h.anchored.allocAttr }

theorem setNext (h : Joined first second loaded doc doc')
    (parent previous next : Option NodeId) :
    Joined first second loaded (doc.setNext parent previous next)
      (doc'.setNext parent previous next) := by
  unfold Document.setNext
  split
  · exact h.relink _ fun _ => ⟨rfl, rfl, rfl⟩
  · exact h.relink _ fun _ => ⟨rfl, rfl, rfl⟩
  · exact h

theorem setPrevious (h : Joined first second loaded doc doc')
    (parent previous next : Option NodeId) :
    Joined first second loaded (doc.setPrevious parent previous next)
      (doc'.setPrevious parent previous next) := by
  unfold Document.setPrevious
  split
  · exact h.relink _ fun _ => ⟨rfl, rfl, rfl⟩
  · exact h.relink _ fun _ => ⟨rfl, rfl, rfl⟩
  · exact h

theorem link (h : Joined first second loaded doc doc') (parent id : NodeId) :
    Joined first second loaded (doc.link parent .last id) (doc'.link parent .last id) := by
  simp only [Document.link, gapAt, h.lastChild?_eq]
  refine (setNext ?_ _ _ _).setPrevious _ _ _
  exact h.relink id fun _ => ⟨rfl, rfl, rfl⟩

theorem setNextAttr (h : Joined first second loaded doc doc') (owner : Option NodeId)
    (previous next : Option AttrId) :
    Joined first second loaded (doc.setNextAttr owner previous next)
      (doc'.setNextAttr owner previous next) := by
  unfold Document.setNextAttr
  split
  · exact h.relinkAttr _ fun _ => ⟨rfl, rfl, rfl⟩
  · exact h.relink _ fun _ => ⟨rfl, rfl, rfl⟩
  · exact h

theorem setPreviousAttr (h : Joined first second loaded doc doc') (owner : Option NodeId)
    (previous next : Option AttrId) :
    Joined first second loaded (doc.setPreviousAttr owner previous next)
      (doc'.setPreviousAttr owner previous next) := by
  unfold Document.setPreviousAttr
  split
  · exact h.relinkAttr _ fun _ => ⟨rfl, rfl, rfl⟩
  · exact h.relink _ fun _ => ⟨rfl, rfl, rfl⟩
  · exact h

theorem linkAttr (h : Joined first second loaded doc doc') (owner : NodeId) (a : AttrId) :
    Joined first second loaded (doc.linkAttr owner .last a) (doc'.linkAttr owner .last a) := by
  simp only [Document.linkAttr, attrGapAt, h.lastAttribute?_eq]
  refine (setNextAttr ?_ _ _ _).setPreviousAttr _ _ _
  exact h.relinkAttr a fun _ => ⟨rfl, rfl, rfl⟩

/-- Texts are added to the same pages. -/
theorem ownText (h : Joined first second loaded doc doc') (text : String) :
    (doc'.ownText text).1 = (doc.ownText text).1.map (TextSlot.joined first.utf8ByteSize) ∧
      Joined first second loaded (doc.ownText text).2 (doc'.ownText text).2 := by
  obtain ⟨hslot, htexts⟩ := h.texts.own text
  exact ⟨hslot, h.nodes, h.attrs, h.root, h.made, htexts, h.anchored.drawn (.ownText text)⟩

theorem releaseText (h : Joined first second loaded doc doc') (slot slot' : TextSlot) :
    Joined first second loaded (doc.releaseText slot) (doc'.releaseText slot') :=
  ⟨h.nodes, h.attrs, h.root, h.made, h.texts.release slot slot',
    h.anchored.drawn (.releaseText slot)⟩

/-- A text is replaced in both documents, or in neither. -/
theorem replaceValue (h : Joined first second loaded doc doc') (x : NodeId) (value : String) :
    (doc'.replaceValue x value).1 = (doc.replaceValue x value).1 ∧
      Joined first second loaded (doc.replaceValue x value).2 (doc'.replaceValue x value).2 := by
  simp only [Document.replaceValue, h.node?_eq]
  cases doc.node? x with
  | none => exact ⟨rfl, h⟩
  | some old =>
    dsimp only [Option.map_some]
    obtain ⟨hslot, howned⟩ := h.ownText value
    obtain ⟨slot, owned, hown, -, hdone⟩ | ⟨hdone, hlong⟩ := doc.replaceText_cases value old.value
      fun slot doc => doc.modifyNode x fun r => { r with value := slot }
    · have hown' : doc'.ownText value = (some (slot.joined first.utf8ByteSize), _) :=
        Prod.ext (by rw [hslot, hown]; rfl) rfl
      rw [hown] at howned
      rw [hdone, replaceText, hown']
      refine ⟨rfl, Joined.releaseText (howned.modifyNode x ?_ fun r hr => ?_) _ _⟩
      · exact fun _ => rfl
      · exact ⟨(howned.anchored.of_node hr).name, SlotLaw.admits_ownText hown⟩
    · obtain ⟨-, -, -, hshort, -⟩ | ⟨hdone', -⟩ := doc'.replaceText_cases value
        (old.value.joined first.utf8ByteSize)
        fun slot doc => doc.modifyNode x fun r => { r with value := slot }
      · exact absurd hshort hlong
      · rw [hdone, NodeRecord.joined, hdone']
        exact ⟨rfl, h⟩

/-! ### What is loaded -/

/-- An empty document into which the first text, or both as one, are to be loaded. -/
theorem start (into : Document) (hsize : (first ++ second).utf8ByteSize < 2 ^ 32) :
    Joined first second [first]
      { into.reset with texts := (into.reset.texts.addBuffer first).2 }
      { into.reset with texts := (into.reset.texts.addBuffer (first ++ second)).2 } := by
  let cleared : Document :=
    ⟨into.nodes.clear, into.attrs.clear, into.texts.clear, into.root, 0, false, none⟩
  have hreset : into.reset.Obeys .anchored := .reset into
  exact
  { nodes := by
      have hinsert := SlotStore.insert_map (f := NodeRecord.joined first.utf8ByteSize)
        (s := cleared.nodes) (.detached .document 0)
      rw [SlotStore.clear_map] at hinsert
      exact congrArg Prod.snd hinsert
    attrs := SlotStore.clear_map.symm
    root := rfl
    made := rfl
    texts :=
      { buffers := rfl
        loaded := ⟨[second], rfl⟩
        whole := rfl
        size := hsize
        pages := rfl }
    anchored := hreset.drawn (.ofTexts (into.reset.texts.extends_addBuffer first).1) }

/-- The second text is loaded behind what the first one has given. -/
theorem loadSecond (h : Joined first second [first] doc doc') :
    Joined first second [first, second]
      { doc.forgetOrder with texts := (doc.texts.addBuffer second).2 } doc' where
  nodes := h.nodes
  attrs := h.attrs
  root := h.root
  made := h.made
  texts :=
    { buffers := by rw [TextStore.addBuffer, Array.toList_push, h.texts.buffers]; rfl
      loaded := ⟨[], rfl⟩
      whole := h.texts.whole
      size := h.texts.size
      pages := h.texts.pages }
  anchored :=
    (h.anchored.drawn .forgetOrder).drawn (.ofTexts (doc.texts.extends_addBuffer second).1)

end Joined

end Document

end XmlTree
