/-
  Proofs/Refusals.lean --- edits that are not carried out, and handles that lead nowhere.

  WHAT THIS FILE IS FOR.  An edit that answers no handle, or false, has left the document as
  it was: not only its tree, but its records, its texts and the space they take, its numbering
  and its ranks.  And a handle that leads to no record reads as nothing, whatever is asked
  about it, and every edit it is given to is refused.

  TEXTS THAT ARE TOO LONG.  A text of 2³² bytes or more is refused where it is copied, and an
  edit of several steps may have begun by then.  A new element is removed again, and the name
  of a new attribute is given back, so that only space is lost; but a child that was made for a
  text stays.

  STRANGERS.  A handle of another document is nothing here only if no record here has its slot
  and its generation.  Nothing in the handle tells the two apart when there is one.
-/
import XmlTree.Proofs.DocumentOrder
import XmlTree.Proofs.Refinement

set_option autoImplicit false

namespace XmlTree

@[simp] theorem Outcome.refused_node {id : Option NodeId} :
    (Outcome.node id).refused = true ↔ id = none := by
  cases id <;> simp [refused]

@[simp] theorem Outcome.refused_attr {id : Option AttrId} :
    (Outcome.attr id).refused = true ↔ id = none := by
  cases id <;> simp [refused]

@[simp] theorem Outcome.refused_done {accepted : Bool} :
    (Outcome.done accepted).refused = true ↔ accepted = false := by
  cases accepted <;> simp [refused]

namespace Change

/-- The edit is given the handle of a node: for the node that it changes or takes, below which or
beside which it puts something. -/
def GivenNode (id : NodeId) : Change → Prop
  | insertChild parent _ place | insertElement parent _ place | insertCopyFrom parent _ _ place =>
    parent = id ∨ place.reference? = some id
  | insertCopy parent x place | insertMove parent x place =>
    (parent = id ∨ place.reference? = some id) ∨ x = id
  | removeChild parent child => parent = id ∨ child = id
  | removeChildNamed x _ | removeChildren x | insertAttribute x _ _ _ | setAttribute x _ _
  | insertAttributeCopy x _ _ | removeAttribute x _ | removeAttributeNamed x _
  | removeAttributes x | setName x _ | setValue x _ | setContent x _ => x = id
  | _ => False

/-- The edit is given the handle of an attribute. -/
def GivenAttr (a : AttrId) : Change → Prop
  | insertAttribute _ _ _ place => place.reference? = some a
  | insertAttributeCopy _ proto place => proto = a ∨ place.reference? = some a
  | removeAttribute _ x | setAttrName x _ | setAttrValue x _ => x = a
  | _ => False

end Change

namespace Document

variable {doc doc' doc'' : Document} {α : Type} {no : α} {parent owner id : NodeId}
  {name value : String}

/-! ## What is seen of a document -/

/-- The same is seen of two documents: what stands under every handle, how many nodes and
attributes there are, and how nodes compare. -/
structure SeenAlike (doc doc' : Document) : Prop where
  view : doc'.view = doc.view
  nodeCount : doc'.nodeCount = doc.nodeCount
  attributeCount : doc'.attributeCount = doc.attributeCount
  order : ∀ a b, doc.contains a = true → doc.contains b = true →
    doc'.compareOrder a b = doc.compareOrder a b

theorem contains_of_view (hview : doc'.view = doc.view) (x : NodeId) :
    doc'.contains x = doc.contains x := by
  rw [Bool.eq_iff_iff, ← not_iff_not, Bool.not_eq_true, Bool.not_eq_true, ← node_view_eq_none,
    ← node_view_eq_none, hview]

/-- What stands under the handle of a node has its kind and its children. -/
theorem kind_of_view (hview : doc'.view = doc.view) {x : NodeId} (hx : doc.contains x = true) :
    doc'.kind x = doc.kind x ∧ doc'.children x = doc.children x := by
  obtain ⟨n, hn, hkind, hchildren, -⟩ := node_view_of_contains hx
  obtain ⟨n', hn', hkind', hchildren', -⟩ :=
    node_view_of_contains ((contains_of_view hview x).trans hx)
  rw [hview, hn] at hn'
  obtain rfl := Option.some.inj hn'
  exact ⟨hkind'.symm.trans hkind, hchildren'.symm.trans hchildren⟩

/-- The walk goes along what stands under the handles. -/
theorem Whole.preorder_of_view (h : Whole doc) (h' : Whole doc') (hview : doc'.view = doc.view) :
    doc'.preorder = doc.preorder := by
  have hwhole' := h'
  obtain ⟨lay, hrooted⟩ := h
  obtain ⟨lay', hrooted'⟩ := h'
  have hchildren (x : NodeId) : doc'.children x = doc.children x := by
    cases hx : doc.contains x with
    | true => exact (kind_of_view hview hx).2
    | false =>
      rw [(hrooted.toLaidOut.lists_of_not_contains hx).1,
        (hrooted'.toLaidOut.lists_of_not_contains ((contains_of_view hview x).trans hx)).1]
  have hroot : doc.root = doc'.root :=
    hwhole'.eq_root ((kind_of_view hview hrooted.contains_root).1.trans hrooted.root_kind)
  refine List.Sublist.antisymm (hrooted.preorder_sublist hrooted' hroot.symm fun x => ?_)
    (hrooted'.preorder_sublist hrooted hroot fun x => ?_)
  · rw [hchildren]
  · rw [hchildren]

/-- Nodes compare by where the walk comes to them. -/
theorem Reachable.compareOrder_of_view (h : Reachable doc) (h' : Reachable doc')
    (hview : doc'.view = doc.view) {a b : NodeId} (ha : doc.contains a = true)
    (hb : doc.contains b = true) : doc'.compareOrder a b = doc.compareOrder a b := by
  rw [(reachable_inDocumentOrder h).comparison a b ha hb,
    (reachable_inDocumentOrder h').comparison a b ((contains_of_view hview a).trans ha)
      ((contains_of_view hview b).trans hb), h.whole.preorder_of_view h'.whole hview]

/-! ## An element that is removed again -/

/-- As many records, and the same texts. -/
structure SameAmount (doc doc' : Document) : Prop where
  nodeCount : doc'.nodeCount = doc.nodeCount
  attributeCount : doc'.attributeCount = doc.attributeCount
  texts : doc'.texts = doc.texts

namespace SameAmount

theorem refl (doc : Document) : SameAmount doc doc := ⟨rfl, rfl, rfl⟩

theorem trans (h : SameAmount doc doc') (h' : SameAmount doc' doc'') : SameAmount doc doc'' :=
  ⟨h'.nodeCount.trans h.nodeCount, h'.attributeCount.trans h.attributeCount,
    h'.texts.trans h.texts⟩

theorem modifyNode (id : NodeId) (f : NodeRecord → NodeRecord) :
    SameAmount doc (doc.modifyNode id f) := ⟨rfl, rfl, rfl⟩

theorem setNext (parent previous next : Option NodeId) :
    SameAmount doc (doc.setNext parent previous next) := by
  unfold Document.setNext
  split
  · exact modifyNode _ _
  · exact modifyNode _ _
  · exact refl doc

theorem setPrevious (parent previous next : Option NodeId) :
    SameAmount doc (doc.setPrevious parent previous next) := by
  unfold Document.setPrevious
  split
  · exact modifyNode _ _
  · exact modifyNode _ _
  · exact refl doc

theorem linkAt (parent : NodeId) (place : Place NodeId) (id : NodeId) :
    SameAmount doc (doc.linkAt parent place id) := by
  have hlinked : SameAmount doc (doc.link parent place id) :=
    ((modifyNode _ _).trans (setNext _ _ _)).trans (setPrevious _ _ _)
  exact ⟨hlinked.nodeCount, hlinked.attributeCount, hlinked.texts⟩

theorem unlink (id : NodeId) : SameAmount doc (doc.unlink id) := by
  unfold Document.unlink
  split
  · exact ((setNext _ _ _).trans (setPrevious _ _ _)).trans (modifyNode _ _)
  · exact refl doc

end SameAmount

/-- A node without texts, children and attributes. -/
structure BlankRecord (r : NodeRecord) : Prop where
  name : r.name = .null
  value : r.value = .null
  children : r.children = .empty
  attributes : r.attributes = .empty

/-- Putting a node at a place of another one leaves it blank. -/
theorem exists_blank_linkAt {r : NodeRecord} (hr : doc.node? id = some r) (hblank : BlankRecord r)
    (hne : parent ≠ id) (place : Place NodeId) :
    ∃ r', (doc.linkAt parent place id).node? id = some r' ∧ r'.parent = some parent ∧
      BlankRecord r' := by
  refine ⟨_, (node?_link parent place id id).trans (congrArg _ hr), if_pos rfl, ?_⟩
  exact ⟨hblank.name, hblank.value, (if_neg hne).trans hblank.children, hblank.attributes⟩

/-- Taking it from there does, too. -/
theorem exists_blank_unlink {r : NodeRecord} (hr : doc.node? id = some r) (hblank : BlankRecord r)
    (hparent : r.parent = some parent) (hne : parent ≠ id) :
    ∃ r', (doc.unlink id).node? id = some r' ∧ BlankRecord r' := by
  refine ⟨_, (node?_unlink hr id).trans (congrArg _ hr), ?_⟩
  have hup : r.parent ≠ some id := by
    rw [hparent]
    exact fun heq => hne (Option.some.inj heq)
  exact ⟨hblank.name, hblank.value, (if_neg hup).trans hblank.children, hblank.attributes⟩

/-- With a blank node one record goes, and nothing else changes. -/
theorem freeSubtree_of_blank {r : NodeRecord} (hr : doc.node? id = some r)
    (hblank : BlankRecord r) :
    ∃ nodes, doc.freeSubtree id = { doc with nodes } ∧ nodes.size = doc.nodeCount - 1 := by
  have hchildren : doc.children id = [] := by
    rw [children, firstChild?_eq, childEnds, hr, Option.elim_some, hblank.children]
    exact chain_none _ _
  have hattributes : doc.attributes id = [] := by
    rw [attributes, firstAttribute?_eq, attributeEnds, hr, Option.elim_some, hblank.attributes]
    exact chain_none _ _
  have hwalk : doc.mirroredSubtree id = [id] := by
    have hindex : id.handle.index < doc.walkLimit := SlotStore.index_lt_of_get? hr
    obtain ⟨limit, hlimit⟩ := Nat.exists_eq_add_one_of_ne_zero (Nat.ne_zero_of_lt hindex)
    rw [mirroredSubtree, hlimit, walk, hchildren]
    cases limit <;> rfl
  obtain ⟨nodes, hremove⟩ := SlotStore.remove?_of_get? hr
  refine ⟨nodes, ?_, SlotStore.size_of_remove? hremove⟩
  rw [freeSubtree, hwalk, List.foldl_cons, List.foldl_nil, freeNode, hremove]
  simp only [hattributes, hblank.name, hblank.value]
  rfl

/-- An element that is made and removed again is not seen. -/
theorem Whole.removeNewElement (h : Whole doc) (hlegible : Legible doc) {place : Place NodeId}
    {made : Document} (hmade : doc.insertChild parent .element place = (some id, made)) :
    (made.removeChild parent id).2.view = doc.view ∧
      SameAmount doc (made.removeChild parent id).2 := by
  obtain ⟨hthere, hparent, hview⟩ := h.view_removeNewChild hlegible hmade
  refine ⟨hview, ?_⟩
  have hdone : made.removeChild parent id = (true, (made.unlink id).freeSubtree id) := by
    rw [Document.removeChild, if_pos (by simp [hthere, hparent])]
  rw [hdone]
  have haccepts := (h.view_of_insertChild hlegible hmade).1
  obtain ⟨lay, hrooted⟩ := h
  have hnodes := hrooted.toLaidOut.nodes
  let fresh := (doc.allocNode .element).2
  obtain ⟨hid, rfl⟩ : (doc.allocNode .element).1 = id ∧ fresh.linkAt parent place id = made := by
    rw [Document.insertChild, if_pos haccepts] at hmade
    obtain ⟨hid, hdoc⟩ := Prod.mk.inj hmade
    obtain rfl := Option.some.inj hid
    exact ⟨rfl, hdoc⟩
  have hnone : doc.node? id = none := by
    rw [← hid]
    exact SlotStore.get?_insert_fresh hnodes _
  have hne : parent ≠ id := by
    rintro rfl
    obtain ⟨r, hr⟩ := contains_iff.1 (accepts_iff.1 haccepts).2.1
    rw [hnone] at hr
    cases hr
  have hfresh : fresh.node? id = some (.detached .element doc.made) := by
    rw [node?_allocNode hnodes, if_pos hid.symm]
  obtain ⟨r, hr, hup, hblank⟩ := exists_blank_linkAt hfresh ⟨rfl, rfl, rfl, rfl⟩ hne place
  obtain ⟨r', hr', hblank'⟩ := exists_blank_unlink hr hblank hup hne
  obtain ⟨nodes, hfree, hsize⟩ := freeSubtree_of_blank hr' hblank'
  have hsame : SameAmount fresh ((fresh.linkAt parent place id).unlink id) :=
    (SameAmount.linkAt parent place id).trans (.unlink id)
  have hmore : fresh.nodeCount = doc.nodeCount + 1 := SlotStore.size_insert _
  rw [hfree]
  refine ⟨?_, hsame.attributeCount, hsame.texts⟩
  show nodes.size = doc.nodeCount
  rw [hsize, hsame.nodeCount, hmore, Nat.add_sub_cancel]

/-- A new element gets every name that is not too long. -/
theorem Whole.size_of_unnamed (h : Whole doc) (hlegible : Legible doc) {place : Place NodeId}
    {made : Document} (hmade : doc.insertChild parent .element place = (some id, made))
    (hunnamed : (made.setName id name).1 = false) : ¬ name.utf8ByteSize < 2 ^ 32 := by
  intro hshort
  have helement := (h.view_of_insertChild hlegible hmade).2.1
  have hlegible' := hlegible.insertChild parent .element place
  obtain ⟨lay, hlaid⟩ := h.insertChild parent .element place
  rw [hmade] at hlegible' hlaid
  have hset := (hlaid.toLaidOut.view_setName hlegible' (by rw [helement]; rfl) hshort).1
  rw [hunnamed] at hset
  cases hset

/-! ## Refused edits -/

/-- What a refused edit leaves behind that was given a text of 2³² bytes or more.  Such a text
is refused where it is copied, and by then the edit may have begun. -/
inductive LeftBehind (doc : Document) : Change → Document → Prop
  /-- an element was made, and removed again for want of its name -/
  | element {parent : NodeId} {name : String} {place : Place NodeId} {after : Document}
      (hlong : ¬ name.utf8ByteSize < 2 ^ 32) (hseen : SeenAlike doc after)
      (hwasted : after.wastedBytes = doc.wastedBytes) :
      LeftBehind doc (.insertElement parent name place) after
  /-- the name of an attribute was copied, and its space given back for want of the value -/
  | attributeName {owner : NodeId} {name value : String} {place : Place AttrId} {after : Document}
      (hlong : ¬ value.utf8ByteSize < 2 ^ 32) (hseen : SeenAlike doc after)
      (hwasted : after.wastedBytes = doc.wastedBytes + name.utf8ByteSize) :
      LeftBehind doc (.insertAttribute owner name value place) after
  | newAttributeName {owner : NodeId} {name value : String} {after : Document}
      (hlong : ¬ value.utf8ByteSize < 2 ^ 32) (hnone : doc.attributeNamed? owner name = none)
      (hseen : SeenAlike doc after)
      (hwasted : after.wastedBytes = doc.wastedBytes + name.utf8ByteSize) :
      LeftBehind doc (.setAttribute owner name value) after
  /-- a child was made for a text, and it stays -/
  | child {id child : NodeId} {text : String} {after : Document}
      (hlong : ¬ text.utf8ByteSize < 2 ^ 32) (hnone : doc.textHolder? id = none)
      (hmade : doc.insertChild id .pcdata .last = (some child, after)) :
      LeftBehind doc (.setContent id text) after

/-- An edit that answers `no` leaves the document as it is. -/
def Spares (no : α) (doc : Document) (result : α × Document) : Prop :=
  result.1 = no → result.2 = doc

namespace Spares

theorem not_done : Spares no doc (no, doc) := fun _ => rfl

theorem done {result : α × Document} (h : result.1 ≠ no) : Spares no doc result :=
  fun hno => absurd hno h

/-- An edit that checks first and then never answers `no`. -/
theorem guard {checks : Bool} {result : α × Document} (h : result.1 ≠ no) :
    Spares no doc (if checks then result else (no, doc)) := by
  cases checks with
  | false => exact not_done
  | true => exact done h

theorem insertChild {kind : NodeKind} {place : Place NodeId} :
    Spares none doc (doc.insertChild parent kind place) :=
  guard (Option.some_ne_none _)

theorem insertTree {kind : NodeKind} {tree : Tree} {place : Place NodeId} :
    Spares none doc (doc.insertTree parent kind tree place) :=
  guard (Option.some_ne_none _)

theorem insertMove {moved : NodeId} {place : Place NodeId} :
    Spares none doc (doc.insertMove parent moved place) :=
  guard (Option.some_ne_none _)

theorem removeChild {child : NodeId} : Spares false doc (doc.removeChild parent child) :=
  guard Bool.false_ne_true.symm

theorem removeChildNamed : Spares false doc (doc.removeChildNamed parent name) := by
  unfold Document.removeChildNamed
  split
  · exact removeChild
  · exact not_done

theorem removeChildren : Spares false doc (doc.removeChildren parent) :=
  guard Bool.false_ne_true.symm

/-- The texts of an attribute are short enough to be copied. -/
theorem insertAttributeCopy {proto : AttrId} {place : Place AttrId} :
    Spares none doc (doc.insertAttributeCopy owner proto place) := by
  unfold Document.insertAttributeCopy
  split
  · intro hno
    obtain ⟨_, _, _, _, -, -, -, hdone⟩ | ⟨_, _, -, -, hlong, -⟩ | ⟨-, hdone⟩ :=
      doc.insertAttribute_cases owner (doc.attrName proto) (doc.attrValue proto) place
    · rw [hdone] at hno
      cases hno
    · have hshort : (doc.attrValue proto).utf8ByteSize < 2 ^ 32 := by
        unfold Document.attrValue
        cases doc.attr? proto with
        | some r => exact doc.texts.size_get_lt r.value
        | none => exact (by decide : 0 < 2 ^ 32)
      exact absurd hshort hlong
    · rw [hdone]
  · exact not_done

theorem setAttrName {a : AttrId} : Spares false doc (doc.setAttrName a name) := by
  unfold Document.setAttrName
  split
  · exact replaceText_of_false
  · exact not_done

theorem setAttrValue {a : AttrId} : Spares false doc (doc.setAttrValue a value) := by
  unfold Document.setAttrValue
  split
  · exact replaceText_of_false
  · exact not_done

theorem removeAttribute {a : AttrId} : Spares false doc (doc.removeAttribute owner a) :=
  guard Bool.false_ne_true.symm

theorem removeAttributeNamed : Spares false doc (doc.removeAttributeNamed owner name) := by
  unfold Document.removeAttributeNamed
  split
  · exact removeAttribute
  · exact not_done

theorem removeAttributes : Spares false doc (doc.removeAttributes owner) :=
  guard Bool.false_ne_true.symm

theorem setName : Spares false doc (doc.setName id name) := setName_of_false

theorem setValue : Spares false doc (doc.setValue id value) := setValue_of_false

end Spares

/-! Some edits have begun when they copy a text. -/

theorem Reachable.seenAlike (h : Reachable doc) (h' : Reachable doc')
    (hview : doc'.view = doc.view) (hnodes : doc'.nodeCount = doc.nodeCount)
    (hattrs : doc'.attributeCount = doc.attributeCount) : SeenAlike doc doc' :=
  ⟨hview, hnodes, hattrs, fun _ _ ha hb => h.compareOrder_of_view h' hview ha hb⟩

theorem Reachable.insertElement_refused (h : Reachable doc) {place : Place NodeId}
    (hno : (doc.insertElement parent name place).1 = none) :
    (doc.insertElement parent name place).2 = doc ∨
      doc.LeftBehind (.insertElement parent name place)
        (doc.insertElement parent name place).2 := by
  have hafter : Reachable (doc.insertElement parent name place).2 :=
    .change (.insertElement parent name place) h fun _ hs => by cases hs
  obtain ⟨_, _, _, -, -, hdone⟩ | ⟨id, made, hmade, hunnamed, hdone⟩ | ⟨made, hmade, hdone⟩ :=
    doc.insertElement_cases parent name place
  · rw [hdone] at hno
    cases hno
  · rw [hdone] at hafter ⊢
    obtain ⟨hview, hsame⟩ := h.whole.removeNewElement h.legible hmade
    have hlong := h.whole.size_of_unnamed h.legible hmade (congrArg Prod.fst hunnamed)
    exact .inr (.element hlong (h.seenAlike hafter hview hsame.nodeCount hsame.attributeCount)
      (congrArg TextStore.wasted hsame.texts))
  · rw [hdone]
    exact .inl (insertChild_of_none hmade)

/-- An attribute is not made if it has no place, or if its name or its value is too long. -/
theorem Reachable.insertAttribute_refused (h : Reachable doc) {place : Place AttrId}
    (hno : (doc.insertAttribute owner name value place).1 = none) :
    let after := (doc.insertAttribute owner name value place).2
    after = doc ∨ ¬ value.utf8ByteSize < 2 ^ 32 ∧ SeenAlike doc after ∧
      after.wastedBytes = doc.wastedBytes + name.utf8ByteSize := by
  intro after
  have hafter : Reachable after :=
    .change (.insertAttribute owner name value place) h fun _ hs => by cases hs
  obtain ⟨_, _, _, _, -, -, -, hdone⟩ | ⟨slot, named, -, hnamed, hlong, hdone⟩ | ⟨-, hdone⟩ :=
    doc.insertAttribute_cases owner name value place
  · rw [hdone] at hno
    cases hno
  · right
    have heq : after = named.releaseText slot := congrArg Prod.snd hdone
    rw [heq] at hafter ⊢
    have hview : (named.releaseText slot).view = doc.view :=
      (view_releaseText named slot).trans (h.legible.view_of_ownText hnamed)
    obtain ⟨hslot, rfl⟩ := eq_of_ownText hnamed
    exact ⟨hlong, h.seenAlike hafter hview rfl rfl, doc.texts.wasted_release_own hslot⟩
  · exact .inl (congrArg Prod.snd hdone)

theorem Reachable.setAttribute_refused (h : Reachable doc)
    (hno : (doc.setAttribute owner name value).1 = none) :
    (doc.setAttribute owner name value).2 = doc ∨
      doc.LeftBehind (.setAttribute owner name value) (doc.setAttribute owner name value).2 := by
  cases hnamed : doc.attributeNamed? owner name with
  | some a =>
    simp only [Document.setAttribute, hnamed] at hno ⊢
    have hspared : Spares false doc (doc.setAttrValue a value) := .setAttrValue
    exact .inl (hspared (by simpa using hno))
  | none =>
    have hdone :
        doc.setAttribute owner name value = doc.insertAttribute owner name value .last := by
      rw [Document.setAttribute, hnamed]
    rw [hdone] at hno ⊢
    obtain heq | ⟨hlong, hseen, hwasted⟩ := h.insertAttribute_refused hno
    · exact .inl heq
    · exact .inr (.newAttributeName hlong hnamed hseen hwasted)

theorem Whole.setContent_refused (h : Whole doc) (hlegible : Legible doc)
    (hno : (doc.setContent id value).1 = false) :
    (doc.setContent id value).2 = doc ∨
      doc.LeftBehind (.setContent id value) (doc.setContent id value).2 := by
  cases hholder : doc.textHolder? id with
  | some holder =>
    rw [setContent_eq_of_textHolder? hholder] at hno ⊢
    exact .inl (replaceValue_of_false hno)
  | none =>
    by_cases haccepts : doc.accepts id .pcdata .last = true
    · by_cases hshort : value.utf8ByteSize < 2 ^ 32
      · obtain ⟨_, _, -, -, -, hset, -⟩ :=
          h.view_setNewContent hlegible hholder haccepts hshort
        rw [hset] at hno
        cases hno
      · obtain ⟨child, made, hmade, -⟩ := h.view_insertChild hlegible haccepts
        rw [setContent_of_long hshort hholder hmade]
        exact .inr (.child hshort hholder hmade)
    · left
      simp only [Document.setContent, hholder, insertChild_of_not_accepts haccepts]

/-- Whatever was done to a document, an edit of it that answers no handle or false, for whatever
reason, has left it as it was in all respects, unless a text of 2³² bytes or more came after a
step that was done. -/
theorem reachable_refused (h : Reachable doc) (c : Change)
    (hrefused : (doc.apply c).1.refused = true) :
    (doc.apply c).2 = doc ∨ doc.LeftBehind c (doc.apply c).2 := by
  cases c with
  | loadString _ _ | loadBytes _ _ _ | loadFetched _ _ _ | appendBytes _ _ _ _ | reset
  | resetFrom _ => cases hrefused
  | insertChild _ _ _ => exact .inl (Spares.insertChild (Outcome.refused_node.1 hrefused))
  | insertElement _ _ _ => exact h.insertElement_refused (Outcome.refused_node.1 hrefused)
  | insertCopy _ _ _ | insertCopyFrom _ _ _ _ =>
    exact .inl (Spares.insertTree (Outcome.refused_node.1 hrefused))
  | insertMove _ _ _ => exact .inl (Spares.insertMove (Outcome.refused_node.1 hrefused))
  | removeChild _ _ => exact .inl (Spares.removeChild (Outcome.refused_done.1 hrefused))
  | removeChildNamed _ _ => exact .inl (Spares.removeChildNamed (Outcome.refused_done.1 hrefused))
  | removeChildren _ => exact .inl (Spares.removeChildren (Outcome.refused_done.1 hrefused))
  | insertAttribute _ _ _ _ =>
    obtain heq | ⟨hlong, hseen, hwasted⟩ :=
      h.insertAttribute_refused (Outcome.refused_attr.1 hrefused)
    · exact .inl heq
    · exact .inr (.attributeName hlong hseen hwasted)
  | setAttribute _ _ _ => exact h.setAttribute_refused (Outcome.refused_attr.1 hrefused)
  | insertAttributeCopy _ _ _ =>
    exact .inl (Spares.insertAttributeCopy (Outcome.refused_attr.1 hrefused))
  | removeAttribute _ _ => exact .inl (Spares.removeAttribute (Outcome.refused_done.1 hrefused))
  | removeAttributeNamed _ _ =>
    exact .inl (Spares.removeAttributeNamed (Outcome.refused_done.1 hrefused))
  | removeAttributes _ => exact .inl (Spares.removeAttributes (Outcome.refused_done.1 hrefused))
  | setName _ _ => exact .inl (Spares.setName (Outcome.refused_done.1 hrefused))
  | setValue _ _ => exact .inl (Spares.setValue (Outcome.refused_done.1 hrefused))
  | setContent _ _ => exact h.whole.setContent_refused h.legible (Outcome.refused_done.1 hrefused)
  | setAttrName _ _ => exact .inl (Spares.setAttrName (Outcome.refused_done.1 hrefused))
  | setAttrValue _ _ => exact .inl (Spares.setAttrValue (Outcome.refused_done.1 hrefused))

/-- A node is not moved below itself, and nothing has changed when it was asked for. -/
theorem refused_shuffled :
    ((new.applyAll shuffled).apply (.insertMove ⟨⟨3, 1⟩⟩ ⟨⟨1, 1⟩⟩ .last)).1.refused = true ∧
      ((new.applyAll shuffled).apply (.insertMove ⟨⟨3, 1⟩⟩ ⟨⟨1, 1⟩⟩ .last)).2 =
        new.applyAll shuffled := by
  have hrefused : ((new.applyAll shuffled).apply
      (.insertMove ⟨⟨3, 1⟩⟩ ⟨⟨1, 1⟩⟩ .last)).1.refused = true := by
    decide +kernel
  obtain heq | hleft := reachable_refused (Reachable.new.applyAll (by decide)) _ hrefused
  · exact ⟨hrefused, heq⟩
  · cases hleft

/-! ## Handles that lead nowhere -/

/-- What a handle that leads to no node reads as. -/
structure NullNode (doc : Document) (id : NodeId) : Prop where
  contains : doc.contains id = false
  kind : doc.kind id = .null
  name : doc.name id = ""
  value : doc.value id = ""
  parent? : doc.parent? id = none
  firstChild? : doc.firstChild? id = none
  lastChild? : doc.lastChild? id = none
  nextSibling? : doc.nextSibling? id = none
  previousSibling? : doc.previousSibling? id = none
  children : doc.children id = []
  followingSiblings : doc.followingSiblings id = []
  precedingSiblings : doc.precedingSiblings id = []
  firstAttribute? : doc.firstAttribute? id = none
  lastAttribute? : doc.lastAttribute? id = none
  attributes : doc.attributes id = []
  ancestors : doc.ancestors id = []
  descendants : doc.descendants id = []
  tree : doc.tree id = .node ⟨.null, none, none, []⟩ []
  hasName : ∀ name, doc.hasName name id = false
  childNamed? : ∀ name, doc.childNamed? id name = none
  nextSiblingNamed? : ∀ name, doc.nextSiblingNamed? id name = none
  previousSiblingNamed? : ∀ name, doc.previousSiblingNamed? id name = none
  attributeNamed? : ∀ name, doc.attributeNamed? id name = none
  attributeValue? : ∀ name, doc.attributeValue? id name = none
  findChild? : ∀ p, doc.findChild? id p = none
  findDescendant? : ∀ p, doc.findDescendant? id p = none
  findAttribute? : ∀ p, doc.findAttribute? id p = none
  childWithAttribute? : ∀ name attr value, doc.childWithAttribute? id name attr value = none
  anyChildWithAttribute? : ∀ attr value, doc.anyChildWithAttribute? id attr value = none
  childValue : doc.childValue id = ""
  childValueNamed : ∀ name, doc.childValueNamed id name = ""
  textHolder? : doc.textHolder? id = none
  content : doc.content id = ""
  sourceOffset? : doc.sourceOffset? id = none
  path : ∀ delimiter, doc.path id delimiter = ""
  nodeAtPath? : ∀ path delimiter, doc.nodeAtPath? id path delimiter = none
  childIndex? : doc.childIndex? id = none
  address? : doc.address? id = none

/-- What a handle that leads to no attribute reads as. -/
structure NullAttr (doc : Document) (a : AttrId) : Prop where
  containsAttr : doc.containsAttr a = false
  attrName : doc.attrName a = ""
  attrValue : doc.attrValue a = ""
  owner? : doc.owner? a = none
  nextAttribute? : doc.nextAttribute? a = none
  previousAttribute? : doc.previousAttribute? a = none
  attrSiblings : doc.attrSiblings a = []
  attrPosition : doc.attrPosition a = 0
  attrIndex? : doc.attrIndex? a = none
  attrLabel : doc.attrLabel a = ⟨none, none⟩

/-- A handle that leads to no node is nothing to every function that reads documents. -/
theorem nullNode_of_not_contains (hid : doc.contains id = false) : NullNode doc id := by
  have hnode : doc.node? id = none := by simpa [contains] using hid
  have hparent : doc.parent? id = none := by rw [parent?, hnode]; rfl
  have hfirst : doc.firstChild? id = none := by rw [firstChild?, hnode]; rfl
  have hnext : doc.nextSibling? id = none := by rw [nextSibling?, hnode]; rfl
  have hprevious : doc.previousSibling? id = none := by rw [previousSibling?, hnode]; rfl
  have hfirstAttribute : doc.firstAttribute? id = none := by rw [firstAttribute?, hnode]; rfl
  have hchildren : doc.children id = [] := by rw [children, hfirst, chain_none]
  have hfollowing : doc.followingSiblings id = [] := by rw [followingSiblings, hnext, chain_none]
  have hpreceding : doc.precedingSiblings id = [] := by
    rw [precedingSiblings, hprevious, chain_none]
  have hattributes : doc.attributes id = [] := by rw [attributes, hfirstAttribute, chain_none]
  have hdescendants : doc.descendants id = [] := by
    rw [descendants, hfirst, chain_none]
  have hattributeNamed : ∀ name, doc.attributeNamed? id name = none := fun name => by
    rw [attributeNamed?, hattributes, List.find?_nil]
  have hchildNamed : ∀ name, doc.childNamed? id name = none := fun name => by
    rw [childNamed?, hchildren, List.find?_nil]
  have hholder : doc.textHolder? id = none := by rw [textHolder?, hnode]
  exact
    { contains := hid
      kind := by rw [kind, hnode]; rfl
      name := by rw [name, hnode]; rfl
      value := by rw [value, hnode]; rfl
      parent? := hparent
      firstChild? := hfirst
      lastChild? := by rw [lastChild?, hnode]; rfl
      nextSibling? := hnext
      previousSibling? := hprevious
      children := hchildren
      followingSiblings := hfollowing
      precedingSiblings := hpreceding
      firstAttribute? := hfirstAttribute
      lastAttribute? := by rw [lastAttribute?, hnode]; rfl
      attributes := hattributes
      ancestors := by
        rw [ancestors]
        cases doc.walkLimit with
        | zero => rfl
        | succ limit => rw [ancestorsUpTo, hparent]
      descendants := hdescendants
      tree := by
        rw [tree]
        cases doc.walkLimit with
        | zero => rfl
        | succ depth => rw [treeUpTo, labelOf, hnode, hchildren, List.map_nil]
      hasName := fun name => by rw [hasName, hnode]
      childNamed? := hchildNamed
      nextSiblingNamed? := fun name => by rw [nextSiblingNamed?, hfollowing, List.find?_nil]
      previousSiblingNamed? := fun name => by
        rw [previousSiblingNamed?, hpreceding, List.find?_nil]
      attributeNamed? := hattributeNamed
      attributeValue? := fun name => by rw [attributeValue?, hattributeNamed]; rfl
      findChild? := fun p => by rw [findChild?, hchildren, List.find?_nil]
      findDescendant? := fun p => by rw [findDescendant?, hdescendants, List.find?_nil]
      findAttribute? := fun p => by rw [findAttribute?, hattributes, List.find?_nil]
      childWithAttribute? := fun name attr value => by
        rw [childWithAttribute?, childrenNamed, hchildren, List.filter_nil, List.find?_nil]
      anyChildWithAttribute? := fun attr value => by
        rw [anyChildWithAttribute?, hchildren, List.find?_nil]
      childValue := by rw [childValue, hnode]
      childValueNamed := fun name => by rw [childValueNamed, hchildNamed]; rfl
      textHolder? := hholder
      content := by rw [content, hholder]; rfl
      sourceOffset? := by rw [sourceOffset?, hnode]
      path := fun delimiter => by rw [path, hid]; rfl
      nodeAtPath? := fun steps delimiter => by rw [nodeAtPath?, hid]; rfl
      childIndex? := by rw [childIndex?, hparent]; rfl
      address? := by rw [address?, hid]; rfl }

/-- A handle that leads to no attribute is nothing either. -/
theorem nullAttr_of_not_containsAttr {a : AttrId} (ha : doc.containsAttr a = false) :
    NullAttr doc a := by
  have hattr : doc.attr? a = none := by simpa [containsAttr] using ha
  have howner : doc.owner? a = none := by rw [owner?, hattr]; rfl
  have hsiblings : doc.attrSiblings a = [] := by rw [attrSiblings, howner]; rfl
  exact
    { containsAttr := ha
      attrName := by rw [attrName, hattr]; rfl
      attrValue := by rw [attrValue, hattr]; rfl
      owner? := howner
      nextAttribute? := by rw [nextAttribute?, hattr]; rfl
      previousAttribute? := by rw [previousAttribute?, hattr]; rfl
      attrSiblings := hsiblings
      attrPosition := by rw [attrPosition, hsiblings]; rfl
      attrIndex? := by rw [attrIndex?, howner]; rfl
      attrLabel := by rw [attrLabel, hattr]; rfl }

/-! Edits that are given such a handle are refused. -/

theorem NullNode.accepts_eq_false (h : NullNode doc id) {kind : NodeKind} {place : Place NodeId}
    (hgiven : parent = id ∨ place.reference? = some id) :
    doc.accepts parent kind place = false := by
  rw [Bool.eq_false_iff, ne_eq, accepts_iff]
  rintro ⟨-, hparent, href⟩
  obtain rfl | hplace := hgiven
  · rw [h.contains] at hparent
    cases hparent
  · have := href id hplace
    rw [h.parent?] at this
    cases this

/-- Nothing is put anywhere that is no node. -/
theorem accepts_null {place : Place NodeId} : doc.accepts parent .null place = false := by
  rw [Bool.eq_false_iff, ne_eq, accepts_iff]
  rintro ⟨hallowed, -⟩
  cases hkind : doc.kind parent <;> simp [hkind, NodeKind.allowsChild] at hallowed

theorem insertAttribute_of_kind {place : Place AttrId}
    (hkind : (doc.kind owner).hasAttributes = false) :
    doc.insertAttribute owner name value place = (none, doc) := by
  rw [insertAttribute, hkind]
  rfl

/-- An edit that is given the handle of no node is not carried out. -/
theorem NullNode.refused (h : NullNode doc id) {c : Change} (hc : c.GivenNode id) :
    (doc.apply c).1.refused = true ∧ (doc.apply c).2 = doc := by
  have hkind : (doc.kind id).hasAttributes = false := by rw [h.kind]; rfl
  cases c with
  | loadString _ _ | loadBytes _ _ _ | loadFetched _ _ _ | appendBytes _ _ _ _ | reset
  | resetFrom _ | setAttrName _ _ | setAttrValue _ _ => cases hc
  | insertChild parent kind place =>
    simp [apply, insertChild, h.accepts_eq_false hc]
  | insertElement parent name place =>
    simp [apply, insertElement, insertChild, h.accepts_eq_false hc]
  | insertCopy parent proto place =>
    obtain hc | rfl := hc
    · simp [apply, insertCopy, insertTree, h.accepts_eq_false hc]
    · simp [apply, insertCopy, insertTree, h.kind, accepts_null]
  | insertCopyFrom parent source proto place =>
    simp [apply, insertCopyFrom, insertTree, h.accepts_eq_false hc]
  | insertMove parent moved place =>
    obtain hc | rfl := hc
    · simp [apply, insertMove, h.accepts_eq_false hc]
    · simp [apply, insertMove, h.kind, accepts_null]
  | removeChild parent child =>
    obtain rfl | rfl := hc
    · simp [apply, removeChild, h.contains]
    · simp [apply, removeChild, h.parent?]
  | removeChildNamed parent name =>
    obtain rfl := hc
    simp [apply, removeChildNamed, h.childNamed?]
  | removeChildren parent =>
    obtain rfl := hc
    simp [apply, removeChildren, h.contains]
  | insertAttribute owner name value place =>
    obtain rfl := hc
    simp [apply, insertAttribute_of_kind hkind]
  | setAttribute owner name value =>
    obtain rfl := hc
    simp [apply, setAttribute, h.attributeNamed?, insertAttribute_of_kind hkind]
  | insertAttributeCopy owner proto place =>
    obtain rfl := hc
    simp only [apply, insertAttributeCopy, insertAttribute_of_kind hkind]
    split <;> exact ⟨rfl, rfl⟩
  | removeAttribute owner a =>
    obtain rfl := hc
    simp [apply, removeAttribute, h.contains]
  | removeAttributeNamed owner name =>
    obtain rfl := hc
    simp [apply, removeAttributeNamed, h.attributeNamed?]
  | removeAttributes owner =>
    obtain rfl := hc
    simp [apply, removeAttributes, h.contains]
  | setName x name =>
    obtain rfl := hc
    simp [apply, setName, h.kind, NodeKind.hasName]
  | setValue x value =>
    obtain rfl := hc
    simp [apply, setValue, h.kind, NodeKind.hasValue]
  | setContent x text =>
    obtain rfl := hc
    simp [apply, setContent, h.textHolder?, insertChild, h.accepts_eq_false (.inl rfl)]

/-- An edit that is given the handle of no attribute is not carried out. -/
theorem NullAttr.refused {a : AttrId} (h : NullAttr doc a) {c : Change} (hc : c.GivenAttr a) :
    (doc.apply c).1.refused = true ∧ (doc.apply c).2 = doc := by
  have hattr : doc.attr? a = none := by simpa [Document.containsAttr] using h.containsAttr
  have hplace {owner : NodeId} {place : Place AttrId} (href : place.reference? = some a) :
      doc.attrPlaceOk owner place = false := by
    simp [attrPlaceOk, href, h.owner?]
  cases c with
  | insertAttribute owner name value place =>
    simp [apply, insertAttribute, hplace hc]
  | insertAttributeCopy owner proto place =>
    obtain rfl | hc := hc
    · simp [apply, insertAttributeCopy, h.containsAttr]
    · simp only [apply, insertAttributeCopy, insertAttribute, hplace hc, Bool.and_false]
      split <;> exact ⟨rfl, rfl⟩
  | removeAttribute owner x =>
    obtain rfl := hc
    simp [apply, removeAttribute, h.owner?]
  | setAttrName x name =>
    obtain rfl := hc
    simp [apply, setAttrName, hattr]
  | setAttrValue x value =>
    obtain rfl := hc
    simp [apply, setAttrValue, hattr]
  | _ => cases hc

/-- A handle that leads to no record of a document, stale or of another document, is nothing to
all that reads, every edit that it is given to is refused and changes nothing, and no text is
loaded below it. -/
theorem null_of_lost (doc : Document) :
    (∀ id, doc.contains id = false →
      NullNode doc id ∧
        (∀ c : Change, c.GivenNode id →
          (doc.apply c).1.refused = true ∧ (doc.apply c).2 = doc) ∧
        ∀ bytes options encoding,
          doc.appendBytes id bytes options encoding = (⟨.appendInvalidRoot, 0, encoding⟩, doc)) ∧
      ∀ a, doc.containsAttr a = false →
        NullAttr doc a ∧
          ∀ c : Change, c.GivenAttr a →
            (doc.apply c).1.refused = true ∧ (doc.apply c).2 = doc := by
  refine ⟨fun id hid => ?_, fun a ha => ?_⟩
  · have hnull := nullNode_of_not_contains hid
    refine ⟨hnull, fun c hc => hnull.refused hc, fun bytes options encoding => ?_⟩
    rw [appendBytes, hnull.kind]
    rfl
  · have hnull := nullAttr_of_not_containsAttr ha
    exact ⟨hnull, fun c hc => hnull.refused hc⟩

/-- The fourth element of one document, taken to another one that never had so many nodes. -/
theorem null_shuffled :
    (new.applyAll
        [.insertElement ⟨⟨0, 1⟩⟩ "a" .last, .insertElement ⟨⟨1, 1⟩⟩ "b" .last,
          .insertElement ⟨⟨1, 1⟩⟩ "c" .last, .insertElement ⟨⟨1, 1⟩⟩ "d" .last]).name
        ⟨⟨4, 1⟩⟩ = "d" ∧
      NullNode (new.applyAll shuffled) ⟨⟨4, 1⟩⟩ ∧
      ((new.applyAll shuffled).apply (.insertMove ⟨⟨1, 1⟩⟩ ⟨⟨4, 1⟩⟩ .first)).2 =
        new.applyAll shuffled := by
  have hnone : (new.applyAll shuffled).contains ⟨⟨4, 1⟩⟩ = false := by decide +kernel
  obtain ⟨hnull, hedits, -⟩ := (null_of_lost (new.applyAll shuffled)).1 ⟨⟨4, 1⟩⟩ hnone
  exact ⟨by decide +kernel, hnull, (hedits (.insertMove ⟨⟨1, 1⟩⟩ ⟨⟨4, 1⟩⟩ .first) (Or.inr rfl)).2⟩

/-- The first elements of two documents have the same handle. -/
example :
    (new.apply (.insertElement ⟨⟨0, 1⟩⟩ "a" .last)).1 = .node (some ⟨⟨1, 1⟩⟩) ∧
      (new.apply (.insertElement ⟨⟨0, 1⟩⟩ "b" .last)).2.name ⟨⟨1, 1⟩⟩ = "b" := by
  decide +kernel

end Document

end XmlTree
