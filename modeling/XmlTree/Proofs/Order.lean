/-
  Proofs/Order.lean --- what is known about the order of nodes stays right.

  WHAT THIS FILE IS FOR.  A document knows the order of its nodes in one of two ways: by
  their serial numbers, until nodes are put somewhere, and by a table of ranks that was
  made since then.  Both are right as long as they grow along the walk.  Putting a node
  somewhere forgets both.  What is left are edits of texts and attributes, which do not
  touch the walk, and removals, after which the walk is part of what it was.
-/
import XmlTree.Proofs.Editing
import XmlTree.Proofs.Outline
import XmlTree.Proofs.Ranks

set_option autoImplicit false

namespace XmlTree

/-- Where a node stands and when it was made. -/
def NodeRecord.placed (r : NodeRecord) :
    Option NodeId × Neighbours NodeId × Ends NodeId × Nat :=
  (r.parent, r.siblings, r.children, r.serial)

namespace Document

variable {doc doc' source : Document} {lay : Layout}

/-- How many nodes were made before a node. -/
def serial? (doc : Document) (id : NodeId) : Option Nat := (doc.node? id).map (·.serial)

/-! ## The same order -/

/-- The nodes stand as they stood, and the same is known about their order. -/
structure SameOrder (doc doc' : Document) : Prop where
  root : doc'.root = doc.root
  nodeSlots : doc'.nodes.slotCount = doc.nodes.slotCount
  made : doc'.made = doc.made
  reordered : doc'.reordered = doc.reordered
  knownRanks : doc'.knownRanks = doc.knownRanks
  placed : ∀ x, (doc'.node? x).map NodeRecord.placed = (doc.node? x).map NodeRecord.placed

namespace SameOrder

theorem of_slots (hslots : SameSlots doc doc')
    (hplaced : ∀ x, (doc'.node? x).map NodeRecord.placed = (doc.node? x).map NodeRecord.placed) :
    SameOrder doc doc' :=
  ⟨hslots.root, hslots.nodeSlots, hslots.made, hslots.reordered, hslots.knownRanks, hplaced⟩

theorem sameShape (h : SameShape doc doc') : SameOrder doc doc' := by
  refine of_slots h.toSameSlots fun x => ?_
  have hbare : ∀ o : Option NodeRecord,
      o.map NodeRecord.placed = (o.map NodeRecord.bare).map NodeRecord.placed := by
    intro o
    rw [Option.map_map]
    rfl
  rw [hbare, h.node x, ← hbare]

theorem allocAttr : SameOrder doc doc.allocAttr.2 := ⟨rfl, rfl, rfl, rfl, rfl, fun _ => rfl⟩

theorem linkAttr (owner : NodeId) (place : Place AttrId) (id : AttrId) :
    SameOrder doc (doc.linkAttr owner place id) := by
  refine of_slots (.linkAttr owner place id) fun x => ?_
  rw [node?_linkAttr, Option.map_map]
  rfl

theorem unlinkAttr (id : AttrId) : SameOrder doc (doc.unlinkAttr id) := by
  refine of_slots (.unlinkAttr id) fun x => ?_
  cases hid : doc.attr? id with
  | none => rw [Document.unlinkAttr, hid]
  | some r =>
    rw [node?_unlinkAttr hid, Option.map_map]
    rfl

theorem freeAttr (id : AttrId) : SameOrder doc (doc.freeAttr id) :=
  of_slots (.freeAttr id) fun x => by rw [node?_freeAttr]

/-! What is read off a record apart from texts and attributes is the same. -/

theorem map_eq {β : Type} (h : SameOrder doc doc') (x : NodeId) (f : NodeRecord → β)
    (g : Option NodeId × Neighbours NodeId × Ends NodeId × Nat → β)
    (hf : ∀ r, f r = g r.placed) : (doc'.node? x).map f = (doc.node? x).map f := by
  have hmap : ∀ o : Option NodeRecord, o.map f = (o.map NodeRecord.placed).map g := by
    intro o
    rw [Option.map_map]
    exact congrArg (fun k => Option.map k o) (funext hf)
  rw [hmap, hmap (doc.node? x), h.placed x]

theorem serial?_eq (h : SameOrder doc doc') (x : NodeId) : doc'.serial? x = doc.serial? x :=
  h.map_eq x _ (fun p => p.2.2.2) fun _ => rfl

theorem parent?_eq (h : SameOrder doc doc') (x : NodeId) : doc'.parent? x = doc.parent? x := by
  have hmap := h.map_eq x (·.parent) (fun p => p.1) fun _ => rfl
  rw [parent?_eq_elim, parent?_eq_elim]
  cases hx : doc.node? x <;> cases hx' : doc'.node? x <;> simp_all

theorem children_eq (h : SameOrder doc doc') (p : NodeId) : doc'.children p = doc.children p := by
  have hfirst : doc'.firstChild? p = doc.firstChild? p := by
    have hmap := h.map_eq p (·.children) (fun p => p.2.2.1) fun _ => rfl
    rw [firstChild?, firstChild?]
    cases hx : doc.node? p <;> cases hx' : doc'.node? p <;> simp_all
  have hnext : doc'.nextSibling? = doc.nextSibling? := by
    funext x
    have hmap := h.map_eq x (·.siblings) (fun p => p.2.1) fun _ => rfl
    rw [nextSibling?, nextSibling?]
    cases hx : doc.node? x <;> cases hx' : doc'.node? x <;> simp_all
  rw [children, children, hfirst, hnext, h.nodeSlots]

theorem preorder_eq (h : SameOrder doc doc') : doc'.preorder = doc.preorder := by
  rw [preorder, subtree, preorderOf, funext h.children_eq, walkLimit, h.nodeSlots, h.root]
  rfl

end SameOrder

/-! ## What is known is right -/

/-- Serial numbers grow along the walk as long as they are used, and kept ranks do. -/
structure Timely (doc : Document) : Prop where
  serials : doc.reordered = false → Increasing doc.serial? doc.preorder ∧
    ∀ x n, doc.serial? x = some n → n < doc.made
  kept : ∀ t, doc.knownRanks = some t → Increasing t.rank? doc.preorder

namespace Timely

theorem sameOrder (h : Timely doc) (hsame : SameOrder doc doc') : Timely doc' where
  serials hreordered := by
    rw [hsame.reordered] at hreordered
    obtain ⟨hincreasing, hlt⟩ := h.serials hreordered
    rw [hsame.preorder_eq, funext hsame.serial?_eq, hsame.made]
    exact ⟨hincreasing, hlt⟩
  kept t ht := by
    rw [hsame.knownRanks] at ht
    rw [hsame.preorder_eq]
    exact h.kept t ht

theorem sameShape (h : Timely doc) (hsame : SameShape doc doc') : Timely doc' :=
  h.sameOrder (.sameShape hsame)

/-- After nodes were put somewhere, nothing is known. -/
theorem forgotten (doc : Document) : Timely doc.forgetOrder where
  serials hreordered := by cases hreordered
  kept t ht := by cases ht

theorem withRanks (h : Timely doc) (hwhole : Whole doc) : Timely doc.withRanks := by
  unfold Document.withRanks
  split
  · rename_i hreordered
    refine ⟨fun hfalse => ?_, fun t ht => ?_⟩
    · rw [hreordered] at hfalse
      cases hfalse
    · cases ht
      have hcurrent : Increasing doc.currentRanks.rank? doc.preorder := by
        unfold currentRanks
        cases hknown : doc.knownRanks with
        | none =>
          obtain ⟨lay, hrooted⟩ := hwhole
          exact hrooted.ranks_increasing
        | some t => exact h.kept t hknown
      exact hcurrent
  · exact h

/-! ### Putting nodes somewhere -/

theorem insertChild (h : Timely doc) (parent : NodeId) (kind : NodeKind)
    (place : Place NodeId) : Timely (doc.insertChild parent kind place).2 := by
  unfold Document.insertChild
  split
  · exact forgotten _
  · exact h

theorem setContent (h : Timely doc) (id : NodeId) (text : String) :
    Timely (doc.setContent id text).2 := by
  unfold Document.setContent
  split
  · split
    · exact h.sameShape (.replaceValue _ _)
    · exact h.sameShape (.setValue _ _)
  · have hchild := h.insertChild id .pcdata .last
    split
    · rename_i heq
      rw [heq] at hchild
      exact hchild.sameShape (.setValue _ _)
    · rename_i heq
      rw [heq] at hchild
      exact hchild

theorem insertTree (h : Timely doc) (parent : NodeId) (kind : NodeKind) (tree : Tree)
    (place : Place NodeId) : Timely (doc.insertTree parent kind tree place).2 := by
  unfold Document.insertTree
  split
  · exact forgotten _
  · exact h

theorem copyTops (h : Timely doc) (cs : List NodeId) : Timely (doc.copyTops source cs) := by
  induction cs generalizing doc with
  | nil => exact h
  | cons c cs ih =>
    have hcopy : Timely (doc.insertCopyFrom doc.root source c .last).2 :=
      h.insertTree _ _ _ _
    unfold Document.copyTops
    split
    · rename_i heq
      rw [heq] at hcopy
      exact ih hcopy
    · rename_i heq
      rw [heq] at hcopy
      exact hcopy

theorem insertMove (h : Timely doc) (parent moved : NodeId) (place : Place NodeId) :
    Timely (doc.insertMove parent moved place).2 := by
  unfold Document.insertMove
  split
  · exact forgotten _
  · exact h

/-! ### Attributes -/

theorem insertAttribute (h : Timely doc) (owner : NodeId) (name value : String)
    (place : Place AttrId) : Timely (doc.insertAttribute owner name value place).2 := by
  obtain ⟨nameSlot, named, valueSlot, valued, -, hnamed, hvalued, hdone⟩ |
    ⟨nameSlot, named, -, hnamed, -, hdone⟩ | ⟨-, hdone⟩ :=
      doc.insertAttribute_cases owner name value place
  · have htexts : Timely valued := (h.sameShape (.of_ownText hnamed)).sameShape (.of_ownText hvalued)
    have hsame : SameShape valued.allocAttr.2 (valued.allocAttr.2.modifyAttr valued.allocAttr.1
        fun r => { r with name := nameSlot, value := valueSlot }) := .modifyAttr _ fun _ => rfl
    rw [hdone]
    exact ((htexts.sameOrder .allocAttr).sameShape hsame).sameOrder (.linkAttr _ _ _)
  · rw [hdone]
    exact h.sameShape ((SameShape.of_ownText hnamed).trans (.releaseText nameSlot))
  · rw [hdone]
    exact h

theorem insertAttributeCopy (h : Timely doc) (owner : NodeId) (proto : AttrId)
    (place : Place AttrId) : Timely (doc.insertAttributeCopy owner proto place).2 := by
  unfold Document.insertAttributeCopy
  split
  · exact h.insertAttribute _ _ _ _
  · exact h

theorem setAttribute (h : Timely doc) (owner : NodeId) (name value : String) :
    Timely (doc.setAttribute owner name value).2 := by
  unfold Document.setAttribute
  split
  · exact h.sameShape (.setAttrValue _ _)
  · exact h.insertAttribute _ _ _ _

theorem dropAttr (h : Timely doc) (a : AttrId) : Timely ((doc.unlinkAttr a).freeAttr a) :=
  (h.sameOrder (.unlinkAttr a)).sameOrder (.freeAttr a)

theorem removeAttribute (h : Timely doc) (owner : NodeId) (a : AttrId) :
    Timely (doc.removeAttribute owner a).2 := by
  unfold Document.removeAttribute
  split
  · exact h.dropAttr a
  · exact h

theorem removeAttributeNamed (h : Timely doc) (owner : NodeId) (name : String) :
    Timely (doc.removeAttributeNamed owner name).2 := by
  unfold Document.removeAttributeNamed
  split
  · exact h.removeAttribute _ _
  · exact h

theorem removeAttributes (h : Timely doc) (owner : NodeId) :
    Timely (doc.removeAttributes owner).2 := by
  have hfold : ∀ (as : List AttrId) {doc : Document}, Timely doc →
      Timely (as.foldl (fun doc a => (doc.unlinkAttr a).freeAttr a) doc) := by
    intro as
    induction as with
    | nil => exact fun h => h
    | cons a as ih => exact fun h => ih (h.dropAttr a)
  unfold Document.removeAttributes
  split
  · exact hfold _ h
  · exact h

end Timely

/-! ## Removals -/

/-- Each node keeps some of its children when a child is taken out and dropped, and nodes
keep their serial numbers. -/
theorem LaidOut.drop_sublist (h : LaidOut doc lay) {p c : NodeId} (hp : doc.parent? c = some p) :
    SameSlots doc ((doc.unlink c).freeSubtree c) ∧
      (∀ x, (((doc.unlink c).freeSubtree c).children x).Sublist (doc.children x)) ∧
      ∀ x n, ((doc.unlink c).freeSubtree c).serial? x = some n → doc.serial? x = some n := by
  have hid : doc.contains c = true := contains_of_parent? hp
  obtain ⟨r, hr⟩ := contains_iff.1 hid
  have hlaid := h.unlink hp
  obtain ⟨gone, -, hd, hlaid'⟩ := hlaid.freeSubtree (by rwa [contains_unlink hid])
    (by rw [parent?_unlink hid, if_pos rfl])
  refine ⟨(SameSlots.unlink c).trans hd.toSameSlots, fun x => ?_, fun x n hn => ?_⟩
  · rw [hlaid'.children_eq, h.children_eq]
    simp only [Layout.without, Layout.withChildren]
    split
    · exact List.nil_sublist _
    · by_cases hx : x = p
      · rw [hx, Function.update_self]
        exact List.erase_sublist
      · rw [Function.update_of_ne hx]
  · rw [serial?, hd.node] at hn
    split at hn
    · cases hn
    · rw [node?_unlink hr, Option.map_map] at hn
      exact hn

/-- The walk of a document after a removal is part of the walk before. -/
theorem Rooted.preorder_sublist {lay' : Layout} (h : Rooted doc lay) (h' : Rooted doc' lay')
    (hroot : doc'.root = doc.root)
    (hsub : ∀ x, (doc'.children x).Sublist (doc.children x)) :
    doc'.preorder.Sublist doc.preorder := by
  obtain ⟨o, htop, ho⟩ := h.forest.exists_outline doc.root
  obtain ⟨o', htop', ho'⟩ := h'.forest.exists_outline doc'.root
  rw [h.preorder_eq_flatten ho htop, h'.preorder_eq_flatten ho' htop']
  exact ho.flatten_sublist ho' (by rw [htop, htop', hroot]) hsub

namespace Timely

theorem drop (h : Timely doc) (hwhole : Whole doc) {p c : NodeId}
    (hp : doc.parent? c = some p) : Timely ((doc.unlink c).freeSubtree c) := by
  obtain ⟨lay', hrooted'⟩ := (hwhole.drop hp).1
  obtain ⟨lay, hrooted⟩ := hwhole
  obtain ⟨hslots, hsub, hserial⟩ := hrooted.toLaidOut.drop_sublist hp
  have hwalk := hrooted.preorder_sublist hrooted' hslots.root hsub
  refine ⟨fun hreordered => ?_, fun t ht => ?_⟩
  · rw [hslots.reordered] at hreordered
    obtain ⟨hincreasing, hlt⟩ := h.serials hreordered
    refine ⟨(hincreasing.sublist hwalk).congr fun x hx => ?_, fun x n hn => ?_⟩
    · obtain ⟨r, hr⟩ := contains_iff.1 (hrooted'.mem_preorder.1 hx)
      have hn : ((doc.unlink c).freeSubtree c).serial? x = some r.serial := by
        rw [serial?, hr]
        rfl
      rw [hn, hserial x _ hn]
    · rw [hslots.made]
      exact hlt x n (hserial x n hn)
  · rw [hslots.knownRanks] at ht
    exact (h.kept t ht).sublist hwalk

theorem removeChild (h : Timely doc) (hwhole : Whole doc) (parent child : NodeId) :
    Timely (doc.removeChild parent child).2 := by
  unfold Document.removeChild
  split
  · rename_i hchecks
    simp only [Bool.and_eq_true, beq_iff_eq] at hchecks
    exact h.drop hwhole hchecks.2
  · exact h

theorem insertElement (h : Timely doc) (hwhole : Whole doc) (parent : NodeId) (name : String)
    (place : Place NodeId) : Timely (doc.insertElement parent name place).2 := by
  have hboth : Timely (doc.insertElement parent name place).2 ∧
      Whole (doc.insertElement parent name place).2 := by
    refine insertElement_induction
      ⟨h.insertChild parent .element place, hwhole.insertChild parent .element place⟩ ?_ ?_
    · rintro made id ⟨hmade, hwhole⟩
      exact ⟨hmade.sameShape (.setName _ _), hwhole.sameShape (.setName _ _)⟩
    · rintro made id ⟨hmade, hwhole⟩
      exact ⟨hmade.removeChild hwhole parent id, hwhole.removeChild parent id⟩
  exact hboth.1

theorem removeChildNamed (h : Timely doc) (hwhole : Whole doc) (parent : NodeId)
    (name : String) : Timely (doc.removeChildNamed parent name).2 := by
  unfold Document.removeChildNamed
  split
  · exact h.removeChild hwhole _ _
  · exact h

theorem foldl_drop (h : Timely doc) (hwhole : Whole doc) {p : NodeId} {cs : List NodeId}
    (hnodup : cs.Nodup) (hcs : ∀ c ∈ cs, doc.parent? c = some p) :
    Timely (cs.foldl (fun doc c => (doc.unlink c).freeSubtree c) doc) := by
  induction cs generalizing doc with
  | nil => exact h
  | cons c cs ih =>
    obtain ⟨hc, hrest⟩ := List.nodup_cons.1 hnodup
    have hp := hcs c (by simp)
    obtain ⟨hwhole', hsame⟩ := hwhole.drop hp
    refine ih (h.drop hwhole hp) hwhole' hrest fun x hx => hsame x (hcs x (by simp [hx])) ?_
    rintro rfl
    exact hc hx

theorem removeChildren (h : Timely doc) (hwhole : Whole doc) (parent : NodeId) :
    Timely (doc.removeChildren parent).2 := by
  unfold Document.removeChildren
  split
  · obtain ⟨lay, hrooted⟩ := id hwhole
    exact h.foldl_drop hwhole (hrooted.forest.nodup parent) fun c hc =>
      hrooted.mem_children.1 hc
  · exact h

end Timely

end Document

end XmlTree
