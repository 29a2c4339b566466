/-
  Proofs/Linking.lean --- putting in and taking out keep the invariant.

  WHAT THIS FILE IS FOR.  Each step of an edit is shown to keep `LaidOut`, with the
  layout changed at one node: a list gets one member more, or one less.  For each step it
  is said first what is read off the document afterwards.
-/
import XmlTree.Proofs.Layout

set_option autoImplicit false

namespace XmlTree

namespace Document

variable {doc doc' : Document} {lay : Layout}

/-! ## What is read off after a link -/

section Link

variable (parent : NodeId) (place : Place NodeId) {id : NodeId}

theorem kind_link (y : NodeId) : (doc.link parent place id).kind y = doc.kind y := by
  simp only [kind, node?_link]
  cases doc.node? y <;> rfl

theorem contains_link (y : NodeId) : (doc.link parent place id).contains y = doc.contains y := by
  simp [contains, node?_link]

theorem attributeEnds_link (y : NodeId) :
    (doc.link parent place id).attributeEnds y = doc.attributeEnds y := by
  simp only [attributeEnds, node?_link]
  cases doc.node? y <;> rfl

theorem attrBesides_link (y : AttrId) :
    (doc.link parent place id).attrBesides y = doc.attrBesides y := by
  rw [attrBesides, attr?_link, attrBesides]

theorem owner?_link (y : AttrId) : (doc.link parent place id).owner? y = doc.owner? y := by
  rw [owner?, attr?_link, owner?]

theorem containsAttr_link (y : AttrId) :
    (doc.link parent place id).containsAttr y = doc.containsAttr y := by
  rw [containsAttr, attr?_link, containsAttr]

theorem parent?_link (hid : doc.contains id = true) (y : NodeId) :
    (doc.link parent place id).parent? y = if y = id then some parent else doc.parent? y := by
  obtain ⟨r, hr⟩ := contains_iff.1 hid
  simp only [parent?, node?_link]
  by_cases h : y = id
  · simp [h, hr]
  · cases hy : doc.node? y <;> simp [h]

theorem childEnds_link {parent : NodeId} (hparent : doc.contains parent = true) (y : NodeId) :
    (doc.link parent place id).childEnds y =
      if y = parent then
        (doc.childEnds y).around (doc.gapAt parent place) (some id) (some id)
      else doc.childEnds y := by
  obtain ⟨r, hr⟩ := contains_iff.1 hparent
  simp only [childEnds, node?_link]
  by_cases h : y = parent
  · simp [h, hr]
  · cases hy : doc.node? y <;> simp [h, Ne.symm h]

theorem besides_link {y : NodeId} (hy : doc.contains y = true) :
    (doc.link parent place id).besides y =
      (if y = id then doc.gapAt parent place else doc.besides y).around
        (doc.gapAt parent place) (some id) (some id) y := by
  obtain ⟨r, hr⟩ := contains_iff.1 hy
  simp [besides, node?_link, hr]

theorem gapAt_eq : doc.gapAt parent place = place.gap (doc.childEnds parent) doc.besides := by
  cases place <;>
    simp [gapAt, Place.gap, firstChild?_eq, lastChild?_eq, nextSibling?_eq, previousSibling?_eq]

end Link

/-! ## What is read off after an unlink -/

section Unlink

variable {id : NodeId} (hid : doc.contains id = true)
include hid

theorem kind_unlink (y : NodeId) : (doc.unlink id).kind y = doc.kind y := by
  obtain ⟨r, hr⟩ := contains_iff.1 hid
  simp only [kind, node?_unlink hr]
  cases doc.node? y <;> rfl

theorem contains_unlink (y : NodeId) : (doc.unlink id).contains y = doc.contains y := by
  obtain ⟨r, hr⟩ := contains_iff.1 hid
  simp [contains, node?_unlink hr]

theorem attributeEnds_unlink (y : NodeId) :
    (doc.unlink id).attributeEnds y = doc.attributeEnds y := by
  obtain ⟨r, hr⟩ := contains_iff.1 hid
  simp only [attributeEnds, node?_unlink hr]
  cases doc.node? y <;> rfl

theorem parent?_unlink (y : NodeId) :
    (doc.unlink id).parent? y = if y = id then none else doc.parent? y := by
  obtain ⟨r, hr⟩ := contains_iff.1 hid
  simp only [parent?, node?_unlink hr]
  by_cases h : y = id
  · simp [h, hr]
  · cases hy : doc.node? y <;> simp [h]

theorem childEnds_unlink {p : NodeId} (hp : doc.parent? id = some p)
    (hcontains : doc.contains p = true) (y : NodeId) :
    (doc.unlink id).childEnds y =
      if y = p then
        (doc.childEnds y).around (doc.besides id) (doc.besides id).previous
          (doc.besides id).next
      else doc.childEnds y := by
  obtain ⟨r, hr⟩ := contains_iff.1 hid
  obtain ⟨s, hs⟩ := contains_iff.1 hcontains
  have hrp : r.parent = some p := by simpa [parent?, hr] using hp
  simp only [childEnds, besides, node?_unlink hr, hrp]
  by_cases h : y = p
  · simp [h, hr, hs]
  · cases hy : doc.node? y <;> simp [h, Ne.symm h]

theorem besides_unlink {y : NodeId} (hy : doc.contains y = true) (hne : y ≠ id) :
    (doc.unlink id).besides y =
      (doc.besides y).around (doc.besides id) (doc.besides id).previous
        (doc.besides id).next y := by
  obtain ⟨r, hr⟩ := contains_iff.1 hid
  obtain ⟨s, hs⟩ := contains_iff.1 hy
  simp [besides, node?_unlink hr, hr, hs, hne]

theorem besides_unlink_self : (doc.unlink id).besides id = .none := by
  obtain ⟨r, hr⟩ := contains_iff.1 hid
  simp [besides, node?_unlink hr, hr]

omit hid in
theorem attrBesides_unlink (y : AttrId) :
    (doc.unlink id).attrBesides y = doc.attrBesides y := by
  rw [attrBesides, attr?_unlink, attrBesides]

omit hid in
theorem owner?_unlink (y : AttrId) : (doc.unlink id).owner? y = doc.owner? y := by
  rw [owner?, attr?_unlink, owner?]

omit hid in
theorem containsAttr_unlink (y : AttrId) :
    (doc.unlink id).containsAttr y = doc.containsAttr y := by
  rw [containsAttr, attr?_unlink, containsAttr]

end Unlink

/-! ## Children -/

namespace LaidOut

/-- A node that stands nowhere may be put below any other that does not stand below
it. -/
theorem link (h : LaidOut doc lay) (parent id : NodeId) (place : Place NodeId)
    (hparent : doc.contains parent = true) (hid : doc.contains id = true)
    (htop : doc.parent? id = none) (hnot : ¬ Below doc.parent? id parent)
    (hallowed : (doc.kind parent).allowsChild (doc.kind id) = true)
    (href : ∀ r, place.reference? = some r → doc.parent? r = some parent) :
    LaidOut (doc.link parent place id)
      (lay.withChildren parent (place.insert id (lay.children parent))) where
  nodes := (SameSlots.link parent place id).nodes h.nodes
  attrs := (SameSlots.link parent place id).attrs h.attrs
  childLists := by
    refine h.childLists.insert htop href (gapAt_eq parent place) (parent?_link parent place hid)
      ?_ (fun y hy => ?_) (childEnds_link place hparent)
    · rw [besides_link parent place hid, if_pos rfl]
    · have hne : y ≠ id := fun heq => by simp [heq, htop] at hy
      obtain ⟨p, hp⟩ := Option.isSome_iff_exists.1 hy
      rw [besides_link parent place (contains_of_parent? hp), if_neg hne]
  attrLists := h.attrLists.congr (attributeEnds_link parent place) (owner?_link parent place)
    fun y _ => attrBesides_link parent place y
  allowed {c p} hp := by
    rw [parent?_link parent place hid] at hp
    rw [kind_link, kind_link]
    split at hp
    · rename_i hc
      cases hp
      exact hc ▸ hallowed
    · exact h.allowed hp
  owns hp := by
    rw [owner?_link] at hp
    rw [kind_link]
    exact h.owns hp
  acyclic := h.acyclic.link hnot (parent?_link parent place hid)
  apart {y} hy := by
    rw [parent?_link parent place hid] at hy
    split at hy
    · cases hy
    · rename_i hne
      cases hlive : doc.contains y with
      | false => exact besides_of_not_contains (by rw [contains_link, hlive])
      | true =>
        rw [besides_link parent place hlive, if_neg hne, Neighbours.around_of_ne, h.apart hy]
        intro hgap
        rw [gapAt_eq] at hgap
        rw [h.childLists.holder?_of_gap href hgap] at hy
        cases hy

/-- A child may be taken from its parent. -/
theorem unlink (h : LaidOut doc lay) {p id : NodeId} (hp : doc.parent? id = some p) :
    LaidOut (doc.unlink id) (lay.withChildren p ((lay.children p).erase id)) := by
  have hid : doc.contains id = true := contains_of_parent? hp
  exact
  { nodes := (SameSlots.unlink id).nodes h.nodes
    attrs := (SameSlots.unlink id).attrs h.attrs
    childLists := by
      refine h.childLists.remove hp rfl (parent?_unlink hid) (fun y hne hy => ?_)
        (childEnds_unlink hid hp (h.contains_parent hp))
      obtain ⟨q, hq⟩ := Option.isSome_iff_exists.1 hy
      exact besides_unlink hid (contains_of_parent? hq) hne
    attrLists := h.attrLists.congr (attributeEnds_unlink hid) owner?_unlink
      fun y _ => attrBesides_unlink y
    allowed := by
      intro c q hq
      rw [parent?_unlink hid] at hq
      rw [kind_unlink hid, kind_unlink hid]
      split at hq
      · cases hq
      · exact h.allowed hq
    owns := by
      intro a q hq
      rw [owner?_unlink] at hq
      rw [kind_unlink hid]
      exact h.owns hq
    acyclic := h.acyclic.mono fun {c q} hq => by
      rw [parent?_unlink hid] at hq
      split at hq
      · cases hq
      · exact hq
    apart := fun {y} hy => by
      rw [parent?_unlink hid] at hy
      split at hy
      · rename_i heq
        rw [heq, besides_unlink_self hid]
      · rename_i hne
        cases hlive : doc.contains y with
        | false => exact besides_of_not_contains (by rw [contains_unlink hid, hlive])
        | true =>
          rw [besides_unlink hid hlive hne, Neighbours.around_of_ne, h.apart hy]
          intro hbeside
          rw [h.childLists.holder?_of_near hp hbeside] at hy
          cases hy }

end LaidOut

/-! ## What is read off after attributes were linked or unlinked -/

section LinkAttr

variable (owner : NodeId) (place : Place AttrId) {id : AttrId}

theorem kind_linkAttr (y : NodeId) : (doc.linkAttr owner place id).kind y = doc.kind y := by
  simp only [kind, node?_linkAttr]
  cases doc.node? y <;> rfl

theorem contains_linkAttr (y : NodeId) :
    (doc.linkAttr owner place id).contains y = doc.contains y := by
  simp [contains, node?_linkAttr]

theorem parent?_linkAttr (y : NodeId) :
    (doc.linkAttr owner place id).parent? y = doc.parent? y := by
  simp only [parent?, node?_linkAttr]
  cases doc.node? y <;> rfl

theorem childEnds_linkAttr (y : NodeId) :
    (doc.linkAttr owner place id).childEnds y = doc.childEnds y := by
  simp only [childEnds, node?_linkAttr]
  cases doc.node? y <;> rfl

theorem besides_linkAttr (y : NodeId) :
    (doc.linkAttr owner place id).besides y = doc.besides y := by
  simp only [besides, node?_linkAttr]
  cases doc.node? y <;> rfl

theorem containsAttr_linkAttr (y : AttrId) :
    (doc.linkAttr owner place id).containsAttr y = doc.containsAttr y := by
  simp [containsAttr, attr?_linkAttr]

theorem owner?_linkAttr (hid : doc.containsAttr id = true) (y : AttrId) :
    (doc.linkAttr owner place id).owner? y = if y = id then some owner else doc.owner? y := by
  obtain ⟨r, hr⟩ := containsAttr_iff.1 hid
  simp only [owner?, attr?_linkAttr]
  by_cases h : y = id
  · simp [h, hr]
  · cases hy : doc.attr? y <;> simp [h]

theorem attributeEnds_linkAttr {owner : NodeId} (howner : doc.contains owner = true)
    (y : NodeId) :
    (doc.linkAttr owner place id).attributeEnds y =
      if y = owner then
        (doc.attributeEnds y).around (doc.attrGapAt owner place) (some id) (some id)
      else doc.attributeEnds y := by
  obtain ⟨r, hr⟩ := contains_iff.1 howner
  simp only [attributeEnds, node?_linkAttr]
  by_cases h : y = owner
  · simp [h, hr]
  · cases hy : doc.node? y <;> simp [h, Ne.symm h]

theorem attrBesides_linkAttr {y : AttrId} (hy : doc.containsAttr y = true) :
    (doc.linkAttr owner place id).attrBesides y =
      (if y = id then doc.attrGapAt owner place else doc.attrBesides y).around
        (doc.attrGapAt owner place) (some id) (some id) y := by
  obtain ⟨r, hr⟩ := containsAttr_iff.1 hy
  simp [attrBesides, attr?_linkAttr, hr]

theorem attrGapAt_eq :
    doc.attrGapAt owner place = place.gap (doc.attributeEnds owner) doc.attrBesides := by
  cases place <;>
    simp [attrGapAt, Place.gap, firstAttribute?_eq, lastAttribute?_eq, nextAttribute?_eq,
      previousAttribute?_eq]

end LinkAttr

section UnlinkAttr

variable {id : AttrId} (hid : doc.containsAttr id = true)
include hid

theorem kind_unlinkAttr (y : NodeId) : (doc.unlinkAttr id).kind y = doc.kind y := by
  obtain ⟨r, hr⟩ := containsAttr_iff.1 hid
  simp only [kind, node?_unlinkAttr hr]
  cases doc.node? y <;> rfl

theorem contains_unlinkAttr (y : NodeId) : (doc.unlinkAttr id).contains y = doc.contains y := by
  obtain ⟨r, hr⟩ := containsAttr_iff.1 hid
  simp [contains, node?_unlinkAttr hr]

theorem parent?_unlinkAttr (y : NodeId) : (doc.unlinkAttr id).parent? y = doc.parent? y := by
  obtain ⟨r, hr⟩ := containsAttr_iff.1 hid
  simp only [parent?, node?_unlinkAttr hr]
  cases doc.node? y <;> rfl

theorem childEnds_unlinkAttr (y : NodeId) :
    (doc.unlinkAttr id).childEnds y = doc.childEnds y := by
  obtain ⟨r, hr⟩ := containsAttr_iff.1 hid
  simp only [childEnds, node?_unlinkAttr hr]
  cases doc.node? y <;> rfl

theorem besides_unlinkAttr (y : NodeId) : (doc.unlinkAttr id).besides y = doc.besides y := by
  obtain ⟨r, hr⟩ := containsAttr_iff.1 hid
  simp only [besides, node?_unlinkAttr hr]
  cases doc.node? y <;> rfl

theorem containsAttr_unlinkAttr (y : AttrId) :
    (doc.unlinkAttr id).containsAttr y = doc.containsAttr y := by
  obtain ⟨r, hr⟩ := containsAttr_iff.1 hid
  simp [containsAttr, attr?_unlinkAttr hr]

theorem owner?_unlinkAttr (y : AttrId) :
    (doc.unlinkAttr id).owner? y = if y = id then none else doc.owner? y := by
  obtain ⟨r, hr⟩ := containsAttr_iff.1 hid
  simp only [owner?, attr?_unlinkAttr hr]
  by_cases h : y = id
  · simp [h, hr]
  · cases hy : doc.attr? y <;> simp [h]

theorem attributeEnds_unlinkAttr {p : NodeId} (hp : doc.owner? id = some p)
    (hcontains : doc.contains p = true) (y : NodeId) :
    (doc.unlinkAttr id).attributeEnds y =
      if y = p then
        (doc.attributeEnds y).around (doc.attrBesides id) (doc.attrBesides id).previous
          (doc.attrBesides id).next
      else doc.attributeEnds y := by
  obtain ⟨r, hr⟩ := containsAttr_iff.1 hid
  obtain ⟨s, hs⟩ := contains_iff.1 hcontains
  have hrp : r.owner = some p := by simpa [owner?, hr] using hp
  simp only [attributeEnds, attrBesides, node?_unlinkAttr hr, hrp]
  by_cases h : y = p
  · simp [h, hr, hs]
  · cases hy : doc.node? y <;> simp [h, Ne.symm h]

theorem attrBesides_unlinkAttr {y : AttrId} (hy : doc.containsAttr y = true) (hne : y ≠ id) :
    (doc.unlinkAttr id).attrBesides y =
      (doc.attrBesides y).around (doc.attrBesides id) (doc.attrBesides id).previous
        (doc.attrBesides id).next y := by
  obtain ⟨r, hr⟩ := containsAttr_iff.1 hid
  obtain ⟨s, hs⟩ := containsAttr_iff.1 hy
  simp [attrBesides, attr?_unlinkAttr hr, hr, hs, hne]

end UnlinkAttr

/-! ## Attributes -/

namespace LaidOut

/-- An attribute that belongs to nobody may be put among those of an element or a
declaration. -/
theorem linkAttr (h : LaidOut doc lay) (owner : NodeId) (id : AttrId) (place : Place AttrId)
    (howns : (doc.kind owner).hasAttributes = true) (hid : doc.containsAttr id = true)
    (hfree : doc.owner? id = none)
    (href : ∀ r, place.reference? = some r → doc.owner? r = some owner) :
    LaidOut (doc.linkAttr owner place id)
      (lay.withAttributes owner (place.insert id (lay.attributes owner))) where
  nodes := (SameSlots.linkAttr owner place id).nodes h.nodes
  attrs := (SameSlots.linkAttr owner place id).attrs h.attrs
  childLists := h.childLists.congr (childEnds_linkAttr owner place)
    (parent?_linkAttr owner place) fun y _ => besides_linkAttr owner place y
  attrLists := by
    have howner : doc.contains owner = true := by
      refine contains_of_kind_ne fun hkind => ?_
      rw [hkind] at howns
      exact absurd howns (by decide)
    refine h.attrLists.insert hfree href (attrGapAt_eq owner place)
      (owner?_linkAttr owner place hid) ?_ (fun y hy => ?_) (attributeEnds_linkAttr place howner)
    · rw [attrBesides_linkAttr owner place hid, if_pos rfl]
    · have hne : y ≠ id := fun heq => by simp [heq, hfree] at hy
      obtain ⟨p, hp⟩ := Option.isSome_iff_exists.1 hy
      rw [attrBesides_linkAttr owner place (containsAttr_of_owner? hp), if_neg hne]
  allowed {c p} hp := by
    rw [parent?_linkAttr] at hp
    rw [kind_linkAttr, kind_linkAttr]
    exact h.allowed hp
  owns {a p} hp := by
    rw [owner?_linkAttr owner place hid] at hp
    rw [kind_linkAttr]
    split at hp
    · cases hp
      exact howns
    · exact h.owns hp
  acyclic := h.acyclic.congr (parent?_linkAttr owner place)
  apart {x} hx := by
    rw [parent?_linkAttr] at hx
    rw [besides_linkAttr, h.apart hx]

/-- An attribute may be taken from its owner. -/
theorem unlinkAttr (h : LaidOut doc lay) {p : NodeId} {id : AttrId}
    (hp : doc.owner? id = some p) :
    LaidOut (doc.unlinkAttr id) (lay.withAttributes p ((lay.attributes p).erase id)) := by
  have hid : doc.containsAttr id = true := containsAttr_of_owner? hp
  exact
  { nodes := (SameSlots.unlinkAttr id).nodes h.nodes
    attrs := (SameSlots.unlinkAttr id).attrs h.attrs
    childLists := h.childLists.congr (childEnds_unlinkAttr hid) (parent?_unlinkAttr hid)
      fun y _ => besides_unlinkAttr hid y
    attrLists := by
      refine h.attrLists.remove hp rfl (owner?_unlinkAttr hid) (fun y hne hy => ?_)
        (attributeEnds_unlinkAttr hid hp (h.contains_owner hp))
      obtain ⟨q, hq⟩ := Option.isSome_iff_exists.1 hy
      exact attrBesides_unlinkAttr hid (containsAttr_of_owner? hq) hne
    allowed := by
      intro c q hq
      rw [parent?_unlinkAttr hid] at hq
      rw [kind_unlinkAttr hid, kind_unlinkAttr hid]
      exact h.allowed hq
    owns := by
      intro a q hq
      rw [owner?_unlinkAttr hid] at hq
      rw [kind_unlinkAttr hid]
      split at hq
      · cases hq
      · exact h.owns hq
    acyclic := h.acyclic.congr (parent?_unlinkAttr hid)
    apart := fun {x} hx => by
      rw [parent?_unlinkAttr hid] at hx
      rw [besides_unlinkAttr hid, h.apart hx] }

end LaidOut

/-! ## New nodes and attributes -/

section Alloc

theorem contains_allocNode (h : doc.nodes.Sound) (kind : NodeKind) (y : NodeId) :
    (doc.allocNode kind).2.contains y = (y = (doc.allocNode kind).1 || doc.contains y) := by
  rw [contains, node?_allocNode h]
  by_cases hy : y = (doc.allocNode kind).1 <;> simp [hy, contains]

theorem kind_allocNode (h : doc.nodes.Sound) (kind : NodeKind) (y : NodeId) :
    (doc.allocNode kind).2.kind y =
      if y = (doc.allocNode kind).1 then kind else doc.kind y := by
  rw [Document.kind, node?_allocNode h]
  by_cases hy : y = (doc.allocNode kind).1 <;> simp [hy, NodeRecord.detached, Document.kind]

/-- What is none for a handle that leads to nothing and none for a new node is as it
was. -/
theorem elim_allocNode {β : Type} (h : doc.nodes.Sound) (kind : NodeKind) (y : NodeId) {b : β}
    {f : NodeRecord → β} (hf : f (.detached kind doc.made) = b) :
    ((doc.allocNode kind).2.node? y).elim b f = (doc.node? y).elim b f := by
  rw [node?_allocNode h]
  by_cases hy : y = (doc.allocNode kind).1
  · rw [if_pos hy, hy, allocNode_fresh h]
    exact hf
  · rw [if_neg hy]

theorem parent?_allocNode (h : doc.nodes.Sound) (kind : NodeKind) (y : NodeId) :
    (doc.allocNode kind).2.parent? y = doc.parent? y := by
  rw [parent?_eq_elim, parent?_eq_elim]
  exact elim_allocNode h kind y rfl

theorem containsAttr_allocAttr (h : doc.attrs.Sound) (y : AttrId) :
    doc.allocAttr.2.containsAttr y = (y = doc.allocAttr.1 || doc.containsAttr y) := by
  rw [containsAttr, attr?_allocAttr h]
  by_cases hy : y = doc.allocAttr.1 <;> simp [hy, containsAttr]

/-- What is none for a handle that leads to nothing and none for a new attribute is as
it was. -/
theorem elim_allocAttr {β : Type} (h : doc.attrs.Sound) (y : AttrId) {b : β}
    {f : AttrRecord → β} (hf : f .detached = b) :
    (doc.allocAttr.2.attr? y).elim b f = (doc.attr? y).elim b f := by
  rw [attr?_allocAttr h]
  by_cases hy : y = doc.allocAttr.1
  · rw [if_pos hy, hy, allocAttr_fresh h]
    exact hf
  · rw [if_neg hy]

theorem owner?_allocAttr (h : doc.attrs.Sound) (y : AttrId) :
    doc.allocAttr.2.owner? y = doc.owner? y := by
  rw [owner?_eq_elim, owner?_eq_elim]
  exact elim_allocAttr h y rfl

end Alloc

namespace LaidOut

/-- A new node has no children and stands nowhere. -/
theorem allocNode (h : LaidOut doc lay) (kind : NodeKind) :
    LaidOut (doc.allocNode kind).2 lay where
  nodes := h.nodes.insert _
  attrs := h.attrs
  childLists := h.childLists.congr (fun y => elim_allocNode h.nodes kind y rfl)
    (parent?_allocNode h.nodes kind) fun y _ => elim_allocNode h.nodes kind y rfl
  attrLists := h.attrLists.congr (fun y => elim_allocNode h.nodes kind y rfl)
    (fun _ => rfl) fun _ _ => rfl
  allowed {c p} hp := by
    rw [parent?_allocNode h.nodes] at hp
    have hold : ∀ {x}, doc.contains x = true → x ≠ (doc.allocNode kind).1 := by
      intro x hx heq
      simp [contains, heq, allocNode_fresh h.nodes] at hx
    rw [kind_allocNode h.nodes, kind_allocNode h.nodes, if_neg (hold (contains_of_parent? hp)),
      if_neg (hold (h.contains_parent hp))]
    exact h.allowed hp
  owns {a p} hp := by
    have hold : p ≠ (doc.allocNode kind).1 := by
      intro heq
      have hp' := h.contains_owner (a := a) hp
      simp [contains, heq, allocNode_fresh h.nodes] at hp'
    rw [kind_allocNode h.nodes, if_neg hold]
    exact h.owns hp
  acyclic := h.acyclic.congr (parent?_allocNode h.nodes kind)
  apart {x} hx := by
    rw [parent?_allocNode h.nodes] at hx
    have hsame : (doc.allocNode kind).2.besides x = doc.besides x :=
      elim_allocNode h.nodes kind x rfl
    rw [hsame, h.apart hx]

/-- A new attribute belongs to nobody. -/
theorem allocAttr (h : LaidOut doc lay) : LaidOut doc.allocAttr.2 lay where
  nodes := h.nodes
  attrs := h.attrs.insert _
  childLists := h.childLists
  attrLists := h.attrLists.congr (fun _ => rfl) (owner?_allocAttr h.attrs)
    fun y _ => elim_allocAttr h.attrs y rfl
  allowed := h.allowed
  owns {a p} hp := by
    rw [owner?_allocAttr h.attrs] at hp
    exact h.owns hp
  acyclic := h.acyclic
  apart := h.apart

end LaidOut

end Document

end XmlTree
