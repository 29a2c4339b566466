/-
  Proofs/Keeping.lean --- what each step keeps while a document grows.

  WHAT THIS FILE IS FOR.  Trees are built record by record.  A new record, a new text and the
  texts of a new record leave everything that was there as it was; a link changes one list,
  that of the node that it puts something below.  So what stood somewhere before still does,
  unless something was put into it, and the subtree of a node is read as it was.
-/
import XmlTree.Proofs.Legibility
import XmlTree.Proofs.Showing

set_option autoImplicit false

namespace XmlTree

namespace Document

variable {doc doc' made : Document} {lay lay' : Layout} {Fed Dressed : NodeId → Prop}

/-! ## Lists -/

/-- Documents of one layout have the same lists. -/
theorem LaidOut.lists_eq (h : LaidOut doc lay) (h' : LaidOut doc' lay) (x : NodeId) :
    doc'.children x = doc.children x ∧ doc'.attributes x = doc.attributes x := by
  rw [h.children_eq, h'.children_eq, h.attributes_eq, h'.attributes_eq]
  exact ⟨rfl, rfl⟩

/-- Links are all that lists are read from. -/
theorem SameShape.children_eq (h : SameShape doc doc') (x : NodeId) :
    doc'.children x = doc.children x := by
  have hnext : doc'.nextSibling? = doc.nextSibling? := by
    funext y
    rw [nextSibling?_eq, nextSibling?_eq, h.besides_eq]
  rw [children, children, hnext, firstChild?_eq, firstChild?_eq, h.childEnds_eq, h.nodeSlots]

theorem SameShape.attributes_eq (h : SameShape doc doc') (x : NodeId) :
    doc'.attributes x = doc.attributes x := by
  have hnext : doc'.nextAttribute? = doc.nextAttribute? := by
    funext y
    rw [nextAttribute?_eq, nextAttribute?_eq, h.attrBesides_eq]
  rw [attributes, attributes, hnext, firstAttribute?_eq, firstAttribute?_eq, h.attributeEnds_eq,
    h.attrSlots]

/-! ## New texts and records -/

/-- More texts change nothing that is read off. -/
theorem kept_ofTexts {texts : TextStore} (h : doc.texts.Extends texts) :
    Kept doc { doc with texts } Fed Dressed where
  texts := h
  node hr := ⟨_, hr, rfl, rfl, rfl⟩
  attr hr := ⟨_, hr, rfl, rfl⟩
  children _ _ := rfl
  attributes _ _ := rfl

/-- A new node changes nothing that is read off. -/
theorem LaidOut.kept_allocNode (h : LaidOut doc lay) (kind : NodeKind) :
    Kept doc (doc.allocNode kind).2 Fed Dressed where
  texts := .refl _
  node {x r} hr := by
    have hx : x ≠ (doc.allocNode kind).1 := by
      rintro rfl
      rw [allocNode_fresh h.nodes] at hr
      cases hr
    rw [node?_allocNode h.nodes, if_neg hx]
    exact ⟨r, hr, rfl, rfl, rfl⟩
  attr hr := ⟨_, hr, rfl, rfl⟩
  children {x} _ _ := (h.lists_eq (h.allocNode kind) x).1
  attributes {x} _ _ := (h.lists_eq (h.allocNode kind) x).2

theorem LaidOut.kept_allocAttr (h : LaidOut doc lay) : Kept doc doc.allocAttr.2 Fed Dressed where
  texts := .refl _
  node hr := ⟨_, hr, rfl, rfl, rfl⟩
  attr {a r} hr := by
    have ha : a ≠ doc.allocAttr.1 := by
      rintro rfl
      rw [allocAttr_fresh h.attrs] at hr
      cases hr
    rw [attr?_allocAttr h.attrs, if_neg ha]
    exact ⟨r, hr, rfl, rfl⟩
  children {x} _ _ := (h.lists_eq h.allocAttr x).1
  attributes {x} _ _ := (h.lists_eq h.allocAttr x).2

/-- A new node may get its texts. -/
theorem Kept.modifyNode (h : Kept doc doc' Fed Dressed) {id : NodeId}
    (hfresh : doc.node? id = none) {f : NodeRecord → NodeRecord} (hf : ∀ r, (f r).bare = r.bare) :
    Kept doc (doc'.modifyNode id f) Fed Dressed where
  texts := h.texts
  node {x r} hr := by
    obtain ⟨r', hr', hsame⟩ := h.node hr
    have hx : x ≠ id := by
      rintro rfl
      rw [hfresh] at hr
      cases hr
    refine ⟨r', ?_, hsame⟩
    rw [node?_modifyNode, if_neg hx, hr']
  attr := h.attr
  children hx hnot := (SameShape.modifyNode id hf).children_eq _ |>.trans (h.children hx hnot)
  attributes hx hnot :=
    (SameShape.modifyNode id hf).attributes_eq _ |>.trans (h.attributes hx hnot)

/-- A new attribute may get its texts. -/
theorem Kept.modifyAttr (h : Kept doc doc' Fed Dressed) {a : AttrId}
    (hfresh : doc.attr? a = none) {f : AttrRecord → AttrRecord} (hf : ∀ r, (f r).bare = r.bare) :
    Kept doc (doc'.modifyAttr a f) Fed Dressed where
  texts := h.texts
  node := h.node
  attr {x r} hr := by
    obtain ⟨r', hr', hsame⟩ := h.attr hr
    have hx : x ≠ a := by
      rintro rfl
      rw [hfresh] at hr
      cases hr
    refine ⟨r', ?_, hsame⟩
    rw [attr?_modifyAttr, if_neg hx, hr']
  children hx hnot := (SameShape.modifyAttr a hf).children_eq _ |>.trans (h.children hx hnot)
  attributes hx hnot :=
    (SameShape.modifyAttr a hf).attributes_eq _ |>.trans (h.attributes hx hnot)

/-! ## Links -/

/-- A node is put at a place among the children of another one, and that is all. -/
theorem LaidOut.kept_link (h : LaidOut doc lay) {parent id : NodeId} {place : Place NodeId}
    (hlinked : LaidOut (doc.link parent place id)
      (lay.withChildren parent (place.insert id (lay.children parent)))) :
    Kept doc (doc.link parent place id) (· = parent) (fun _ => False) ∧
      (doc.link parent place id).children parent = place.insert id (doc.children parent) := by
  have hlists : ∀ x, (doc.link parent place id).children x =
      Function.update lay.children parent (place.insert id (lay.children parent)) x :=
    hlinked.children_eq
  refine ⟨⟨?_, fun {x r} hr => ?_, fun {a r} hr => ?_, fun {x} _ hx => ?_, fun {x} _ _ => ?_⟩, ?_⟩
  · rw [texts_link]
    exact .refl _
  · rw [node?_link, hr]
    exact ⟨_, rfl, rfl, rfl, rfl⟩
  · rw [attr?_link]
    exact ⟨r, hr, rfl, rfl⟩
  · rw [hlists, Function.update_of_ne hx, h.children_eq]
  · rw [hlinked.attributes_eq, h.attributes_eq]
    rfl
  · rw [hlists, Function.update_self, h.children_eq]

/-- An attribute is put at a place among those of a node, and that is all. -/
theorem LaidOut.kept_linkAttr (h : LaidOut doc lay) {owner : NodeId} {a : AttrId}
    {place : Place AttrId}
    (hlinked : LaidOut (doc.linkAttr owner place a)
      (lay.withAttributes owner (place.insert a (lay.attributes owner)))) :
    Kept doc (doc.linkAttr owner place a) (fun _ => False) (· = owner) ∧
      (doc.linkAttr owner place a).attributes owner = place.insert a (doc.attributes owner) := by
  have hlists : ∀ x, (doc.linkAttr owner place a).attributes x =
      Function.update lay.attributes owner (place.insert a (lay.attributes owner)) x :=
    hlinked.attributes_eq
  refine ⟨⟨?_, fun {x r} hr => ?_, fun {y r} hr => ?_, fun {x} _ _ => ?_, fun {x} _ hx => ?_⟩, ?_⟩
  · rw [texts_linkAttr]
    exact .refl _
  · rw [node?_linkAttr, hr]
    exact ⟨_, rfl, rfl, rfl, rfl⟩
  · rw [attr?_linkAttr, hr]
    exact ⟨_, rfl, rfl, rfl⟩
  · rw [hlinked.children_eq, h.children_eq]
    rfl
  · rw [hlists, Function.update_of_ne hx, h.attributes_eq]
  · rw [hlists, Function.update_self, h.attributes_eq]

/-- A new attribute is put at the end of those of a node. -/
theorem LaidOut.kept_addAttr (h : LaidOut doc lay) {owner : NodeId}
    (howns : (doc.kind owner).hasAttributes = true) :
    let linked := doc.allocAttr.2.linkAttr owner .last doc.allocAttr.1
    Kept doc linked (fun _ => False) (· = owner) ∧
      linked.attributes owner = doc.attributes owner ++ [doc.allocAttr.1] := by
  have hlinked := h.laidOut_addAttr owner .last (.refl doc.allocAttr.2) howns
    (by simp [Place.reference?])
  obtain ⟨hkept, hlist⟩ := h.allocAttr.kept_linkAttr hlinked
  refine ⟨h.kept_allocAttr.trans_same hkept, hlist.trans ?_⟩
  rw [(h.lists_eq h.allocAttr owner).2]
  rfl

/-! ## Reading -/

/-- A text that was kept reads as it did. -/
theorem textOf?_extends {slot : TextSlot} (h : doc.texts.Legible slot)
    (he : doc.texts.Extends doc'.texts) : doc'.textOf? slot = doc.textOf? slot := by
  rw [textOf?, textOf?, textOf, textOf, h.get_eq he]

namespace Kept

/-- What may be fed or dressed may be said of more nodes. -/
theorem mono {Fed' Dressed' : NodeId → Prop} (h : Kept doc doc' Fed Dressed)
    (hfed : ∀ {x}, Fed x → Fed' x) (hdressed : ∀ {x}, Dressed x → Dressed' x) :
    Kept doc doc' Fed' Dressed' where
  texts := h.texts
  node := h.node
  attr := h.attr
  children hx hnot := h.children hx fun hf => hnot (hfed hf)
  attributes hx hnot := h.attributes hx fun hd => hnot (hdressed hd)

/-- The attributes of a node read as they did. -/
theorem map_attrLabel (h : Kept doc doc' Fed Dressed) (hlaid : LaidOut doc lay)
    (hlegible : Legible doc) (x : NodeId) :
    (doc.attributes x).map doc'.attrLabel = (doc.attributes x).map doc.attrLabel := by
  refine List.map_congr_left fun a ha => ?_
  obtain ⟨r, hr⟩ := containsAttr_iff.1 (containsAttr_of_owner? (hlaid.mem_attributes.1 ha))
  obtain ⟨r', hr', hname, hvalue⟩ := h.attr hr
  simp only [attrLabel, hr, hr', Option.elim_some, hname, hvalue,
    textOf?_extends (hlegible.slots (.attrName hr)) h.texts,
    textOf?_extends (hlegible.slots (.attrValue hr)) h.texts]

/-- A node reads as it did, apart from the list of its attributes. -/
theorem labelOf_dressed (h : Kept doc doc' Fed Dressed) (hlegible : Legible doc) {x : NodeId}
    (hx : doc.contains x = true) :
    doc'.labelOf x =
      { doc.labelOf x with attributes := (doc'.attributes x).map doc'.attrLabel } := by
  obtain ⟨r, hr⟩ := contains_iff.1 hx
  obtain ⟨r', hr', hkind, hname, hvalue⟩ := h.node hr
  simp only [labelOf, hr, hr', hkind, hname, hvalue,
    textOf?_extends (hlegible.slots (.name hr)) h.texts,
    textOf?_extends (hlegible.slots (.value hr)) h.texts]

/-- A node that was not dressed reads as it did. -/
theorem labelOf_eq (h : Kept doc doc' Fed Dressed) (hlaid : LaidOut doc lay)
    (hlegible : Legible doc) {x : NodeId} (hx : doc.contains x = true) (hnot : ¬ Dressed x) :
    doc'.labelOf x = doc.labelOf x := by
  obtain ⟨r, hr⟩ := contains_iff.1 hx
  rw [h.labelOf_dressed hlegible hx, h.attributes hx hnot, h.map_attrLabel hlaid hlegible x]
  simp only [labelOf, hr]

/-- A subtree reads as it did if nothing was put into it. -/
theorem tree_eq (h : Kept doc doc' Fed Dressed) (hlaid : LaidOut doc lay)
    (hlaid' : LaidOut doc' lay') (hlegible : Legible doc) {id : NodeId}
    (hid : doc.contains id = true)
    (hout : ∀ x, Below doc.parent? id x → ¬ Fed x ∧ ¬ Dressed x) : doc'.tree id = doc.tree id := by
  obtain ⟨o, rfl, ho⟩ := hlaid.forest.exists_outline id
  induction ho with
  | @node id os hhere _ ih =>
    obtain ⟨hfed, hdressed⟩ := hout id .self
    rw [Outline.top] at hid ⊢
    rw [hlaid.tree_eq hid, hlaid'.tree_eq (h.contains hid),
      h.labelOf_eq hlaid hlegible hid hdressed, h.children hid hfed]
    refine congrArg (Tree.node _) (List.map_congr_left fun c hc => ?_)
    have hparent : doc.parent? c = some id := hlaid.mem_children.1 hc
    rw [hhere] at hc
    obtain ⟨o, ho, rfl⟩ := List.mem_map.1 hc
    exact ih o ho (contains_of_parent? hparent) fun x hx =>
      hout x ((Below.step hparent .self).trans hx)

/-- What a node has below it reads as it did if only its own list was changed. -/
theorem map_tree {parent : NodeId} (h : Kept doc doc' (· = parent) (fun _ => False))
    (hlaid : LaidOut doc lay) (hlaid' : LaidOut doc' lay') (hlegible : Legible doc) :
    (doc.children parent).map doc'.tree = (doc.children parent).map doc.tree := by
  refine List.map_congr_left fun c hc => ?_
  have hparent : doc.parent? c = some parent := hlaid.mem_children.1 hc
  refine h.tree_eq hlaid hlaid' hlegible (contains_of_parent? hparent) fun x hx => ⟨?_, id⟩
  rintro rfl
  exact Below.not_parent hlaid.acyclic hparent hx

end Kept

end Document

end XmlTree
