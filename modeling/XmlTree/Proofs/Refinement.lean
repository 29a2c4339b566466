/-
  Proofs/Refinement.lean --- the linked records refine the ordered tree.

  WHAT THIS FILE IS FOR.  An edit checks its handles, takes its steps, and answers.  Here
  each edit is matched with what it does to the view: if it is carried out, the view is what
  the edit of views says and nothing else has changed; if it is refused, nothing has.

  WHATEVER THE HANDLES.  The arguments of an edit may be stale, come from another document,
  or name the same node twice; what is said here is said of all of them.
-/
import XmlTree.Proofs.Viewing

set_option autoImplicit false

namespace XmlTree

namespace Document

variable {doc doc' : Document} {lay lay' : Layout} {id parent owner : NodeId} {a : AttrId}

/-! ## Handles and places -/

/-- A place among the children of a node is one in the list that is viewed. -/
theorem LaidOut.within_children (h : LaidOut doc lay) {place : Place NodeId}
    (href : ∀ r, place.reference? = some r → doc.parent? r = some parent) :
    place.Within (doc.children parent) :=
  fun r hr => h.mem_children.2 (href r hr)

theorem LaidOut.within_attributes (h : LaidOut doc lay) {place : Place AttrId}
    (href : ∀ r, place.reference? = some r → doc.owner? r = some owner) :
    place.Within (doc.attributes owner) :=
  fun r hr => h.mem_attributes.2 (href r hr)

/-! ## New nodes -/

/-- A new node is put at a place. -/
theorem Whole.view_insertChild (h : Whole doc) (hlegible : Legible doc) {kind : NodeKind}
    {place : Place NodeId} (haccepts : doc.accepts parent kind place = true) :
    ∃ id made, doc.insertChild parent kind place = (some id, made) ∧ made.kind id = kind ∧
      doc.view.node id = none ∧ made.view = (doc.view.addNode id
        (.leaf kind (if kind = .declaration then "xml" else "") "")).attach parent place id := by
  obtain ⟨hallowed, -, href⟩ := accepts_iff.1 haccepts
  obtain ⟨lay, hrooted⟩ := h
  have hlaid := hrooted.toLaidOut
  let id := (doc.allocNode kind).1
  let made := (doc.allocNode kind).2
  let named := if kind = .declaration then (made.replaceName id "xml").2 else made
  have hsame : SameShape made named := by
    show SameShape made (if kind = .declaration then (made.replaceName id "xml").2 else made)
    split
    · exact .replaceName id "xml"
    · exact .refl made
  have hview : named.view =
      doc.view.addNode id (.leaf kind (if kind = .declaration then "xml" else "") "") := by
    show (if kind = .declaration then (made.replaceName id "xml").2 else made).view = _
    split
    · obtain ⟨-, hnamed⟩ := (hlaid.allocNode kind).view_replaceName (hlegible.allocNode kind) id
        (show "xml".utf8ByteSize < 2 ^ 32 by decide)
      rw [hnamed, hlaid.view_allocNode, TreeView.modify_addNode]
      rfl
    · exact hlaid.view_allocNode kind
  have hnamed : LaidOut named lay := (hlaid.allocNode kind).sameShape hsame
  have hsprout := hlaid.sprout hsame
  have hlinked := hsprout.laidOut_link hlaid hnamed parent place hallowed href
  refine ⟨id, named.linkAt parent place id, ?_, ?_, node_view_allocNode hlaid.nodes kind, ?_⟩
  · rw [Document.insertChild, if_pos haccepts]
  · exact (kind_link parent place id).trans hsprout.kind_eq
  · rw [← hview, ← hnamed.view_link hlinked]
    rfl

theorem insertChild_of_not_accepts {kind : NodeKind} {place : Place NodeId}
    (h : ¬ doc.accepts parent kind place = true) :
    doc.insertChild parent kind place = (none, doc) := by
  rw [insertChild, if_neg h]

theorem insertChild_of_none {kind : NodeKind} {place : Place NodeId} {made : Document}
    (h : doc.insertChild parent kind place = (none, made)) : made = doc := by
  unfold insertChild at h
  split at h
  · cases h
  · cases h
    rfl

/-- A node was made because it was accepted, and it is a leaf at its place. -/
theorem Whole.view_of_insertChild (h : Whole doc) (hlegible : Legible doc) {kind : NodeKind}
    {place : Place NodeId} {made : Document}
    (hmade : doc.insertChild parent kind place = (some id, made)) :
    doc.accepts parent kind place = true ∧ made.kind id = kind ∧ doc.view.node id = none ∧
      made.view = (doc.view.addNode id
        (.leaf kind (if kind = .declaration then "xml" else "") "")).attach parent place id := by
  by_cases haccepts : doc.accepts parent kind place = true
  · obtain ⟨id', made', heq, hkind, hnew, hview⟩ := h.view_insertChild hlegible haccepts
    obtain ⟨hid, rfl⟩ := Prod.mk.inj (hmade.symm.trans heq)
    obtain rfl := Option.some.inj hid
    exact ⟨haccepts, hkind, hnew, hview⟩
  · rw [insertChild_of_not_accepts haccepts] at hmade
    cases hmade

theorem Whole.edited_insertChild (h : Whole doc) (hlegible : Legible doc) (parent : NodeId)
    (kind : NodeKind) (place : Place NodeId) :
    doc.view.Edited (.insertChild parent kind place)
      (.node (doc.insertChild parent kind place).1) (doc.insertChild parent kind place).2.view := by
  by_cases haccepts : doc.accepts parent kind place = true
  · obtain ⟨hallowed, hparent, href⟩ := accepts_iff.1 haccepts
    obtain ⟨id, made, heq, -, hnew, hview⟩ := h.view_insertChild hlegible haccepts
    obtain ⟨n, hn, hkind, hchildren, -⟩ := node_view_of_contains hparent
    obtain ⟨lay, hrooted⟩ := h
    rw [heq, hview]
    exact .insertChild hn (hkind ▸ hallowed)
      (hchildren ▸ hrooted.toLaidOut.within_children href) hnew
  · rw [insertChild_of_not_accepts haccepts]
    exact .refused rfl

/-- A new node that is removed again leaves what is seen as it was. -/
theorem Whole.view_removeNewChild (h : Whole doc) (hlegible : Legible doc) {kind : NodeKind}
    {place : Place NodeId} {made : Document}
    (hmade : doc.insertChild parent kind place = (some id, made)) :
    made.contains parent = true ∧ made.parent? id = some parent ∧
      (made.removeChild parent id).2.view = doc.view := by
  obtain ⟨haccepts, -, hnew, hview⟩ := h.view_of_insertChild hlegible hmade
  have hwhole := h.insertChild parent kind place
  have hlegible' := hlegible.insertChild parent kind place
  rw [hmade] at hwhole hlegible'
  obtain ⟨-, hparent, -⟩ := accepts_iff.1 haccepts
  obtain ⟨n, hn, -, hchildren, -⟩ := node_view_of_contains hparent
  obtain ⟨lay, hrooted⟩ := h
  obtain ⟨lay', hrooted'⟩ := hwhole
  have habsent : ¬ doc.contains id = true := by
    rw [node_view_eq_none.1 hnew]
    exact Bool.false_ne_true
  have hne : parent ≠ id := by
    rintro rfl
    exact habsent hparent
  have hlifted : made.parent? id = some parent := by
    rw [← parent?_view, hview, TreeView.parent?]
    simp [TreeView.attach, TreeView.addNode]
  have hnode : made.view.node parent = some { n with children := place.insert id n.children } := by
    rw [hview]
    simp [TreeView.attach, TreeView.addNode, hne, hn]
  have hkept : made.contains parent = true := hrooted'.contains_parent hlifted
  refine ⟨hkept, hlifted, ?_⟩
  have hnodup : (place.insert id n.children).Nodup := by
    obtain ⟨n', hn', -, hchildren', -⟩ := node_view_of_contains hkept
    obtain rfl := Option.some.inj (hnode.symm.trans hn')
    rw [show place.insert id n.children = made.children parent from hchildren']
    exact hrooted'.forest.nodup parent
  have hdone : made.removeChild parent id = (true, (made.unlink id).freeSubtree id) := by
    rw [Document.removeChild, if_pos (by simp [hkept, hlifted])]
  have hgone := hrooted'.toLaidOut.removal_drop hlegible' hlifted
  rw [hdone]
  rw [hview] at hgone
  refine hgone.eq_of_leaf hn hnew hnodup ?_ ?_ ?_
  · intro hmem
    rw [hchildren, hrooted.mem_children] at hmem
    exact habsent (contains_of_parent? hmem)
  · intro x hx
    rw [parent?_view] at hx
    exact habsent (hrooted.contains_parent hx)
  · intro a ha
    rw [owner?_view] at ha
    exact habsent (hrooted.contains_owner ha)

theorem Whole.edited_insertElement (h : Whole doc) (hlegible : Legible doc) (parent : NodeId)
    (name : String) (place : Place NodeId) :
    doc.view.Edited (.insertElement parent name place)
      (.node (doc.insertElement parent name place).1)
      (doc.insertElement parent name place).2.view := by
  have hwhole := h.insertChild parent .element place
  have hlegible' := hlegible.insertChild parent .element place
  obtain ⟨id, made, named, hmade, hnamed, hdone⟩ | ⟨id, made, hmade, -, hdone⟩ |
    ⟨made, hmade, hdone⟩ := doc.insertElement_cases parent name place
  · rw [hmade] at hwhole hlegible'
    obtain ⟨haccepts, helement, hnew, hview⟩ := h.view_of_insertChild hlegible hmade
    obtain ⟨hallowed, hparent, href⟩ := accepts_iff.1 haccepts
    obtain ⟨n, hn, hkind, hchildren, -⟩ := node_view_of_contains hparent
    obtain ⟨lay', hlaid⟩ := hwhole
    obtain ⟨lay, hrooted⟩ := h
    have hnames : (made.kind id).hasName = true := by
      rw [helement]
      rfl
    have hshort : name.utf8ByteSize < 2 ^ 32 := by
      by_contra hlong
      rw [setName_of_long hlong] at hnamed
      cases hnamed
    have hview' := (hlaid.toLaidOut.view_setName hlegible' hnames hshort).2
    rw [hnamed, hview,
      TreeView.modify_attach _ _ _ _ (fun _ => name) NodeView.value fun _ _ _ => ⟨rfl, rfl⟩,
      TreeView.modify_addNode] at hview'
    rw [hdone, hview']
    exact .insertElement hn (hkind ▸ hallowed)
      (hchildren ▸ hrooted.toLaidOut.within_children href) hnew
  · rw [hdone, (h.view_removeNewChild hlegible hmade).2.2]
    exact .refused rfl
  · have hkept : made = doc := insertChild_of_none hmade
    rw [hdone, hkept]
    exact .refused rfl

/-! ## Copies -/

/-- A copy is built outside of the tree and then put at its place. -/
theorem Whole.view_insertTree (h : Whole doc) (hlegible : Legible doc) {kind : NodeKind}
    {tree : Tree} {place : Place NodeId} (haccepts : doc.accepts parent kind place = true)
    (htree : kind ≠ .null → tree.Lawful ∧ tree.label.kind = kind) :
    ∃ id w, (doc.insertTree parent kind tree place).1 = some id ∧ doc.view.Sprouts w id ∧
      (doc.insertTree parent kind tree place).2.view = w.attach parent place id := by
  obtain ⟨hallowed, -, href⟩ := accepts_iff.1 haccepts
  have hkind : kind ≠ .null := by
    rintro rfl
    simp [NodeKind.allowsChild] at hallowed
  obtain ⟨hlawful, hlabel⟩ := htree hkind
  obtain ⟨lay, hrooted⟩ := h
  have hsprout := hrooted.toLaidOut.build tree hlawful
  obtain ⟨lay', hbuilt⟩ := hsprout.laid
  obtain ⟨hwithin, -⟩ :=
    hrooted.toLaidOut.within_build hlegible (.refl doc.view) tree hlawful
  have hlinked := hsprout.laidOut_link hrooted.toLaidOut hbuilt parent place
    (by rwa [hlabel]) href
  rw [Document.insertTree, if_pos haccepts]
  exact ⟨_, _, rfl, hsprout.sprouts hrooted.toLaidOut hwithin, hbuilt.view_link hlinked⟩

theorem insertTree_of_not_accepts {kind : NodeKind} {tree : Tree} {place : Place NodeId}
    (h : ¬ doc.accepts parent kind place = true) :
    doc.insertTree parent kind tree place = (none, doc) := by
  rw [Document.insertTree, if_neg h]

theorem Whole.edited_insertCopyFrom (h : Whole doc) (hlegible : Legible doc) {source : Document}
    (hsource : Whole source) (parent proto : NodeId) (place : Place NodeId) :
    doc.view.Edited (.insertCopyFrom parent source proto place)
      (.node (doc.insertCopyFrom parent source proto place).1)
      (doc.insertCopyFrom parent source proto place).2.view := by
  rw [Document.insertCopyFrom]
  by_cases haccepts : doc.accepts parent (source.kind proto) place = true
  · obtain ⟨-, hparent, href⟩ := accepts_iff.1 haccepts
    obtain ⟨id, w, heq, hsprouts, hview⟩ :=
      h.view_insertTree hlegible haccepts hsource.lawful_tree
    obtain ⟨n, hn, -, hchildren, -⟩ := node_view_of_contains hparent
    obtain ⟨lay, hrooted⟩ := h
    rw [heq, hview]
    exact .insertCopyFrom hn (hchildren ▸ hrooted.toLaidOut.within_children href) hsprouts
  · rw [insertTree_of_not_accepts haccepts]
    exact .refused rfl

theorem Whole.edited_insertCopy (h : Whole doc) (hlegible : Legible doc)
    (parent proto : NodeId) (place : Place NodeId) :
    doc.view.Edited (.insertCopy parent proto place)
      (.node (doc.insertCopy parent proto place).1)
      (doc.insertCopy parent proto place).2.view := by
  rw [Document.insertCopy]
  by_cases haccepts : doc.accepts parent (doc.kind proto) place = true
  · obtain ⟨-, hparent, href⟩ := accepts_iff.1 haccepts
    obtain ⟨id, w, heq, hsprouts, hview⟩ := h.view_insertTree hlegible haccepts h.lawful_tree
    obtain ⟨n, hn, -, hchildren, -⟩ := node_view_of_contains hparent
    obtain ⟨lay, hrooted⟩ := h
    rw [heq, hview]
    exact .insertCopy hn (hchildren ▸ hrooted.toLaidOut.within_children href) hsprouts
  · rw [insertTree_of_not_accepts haccepts]
    exact .refused rfl

/-! ## Moves -/

/-- The place of a move is one among the children without the moved one, also when it is
moved within one list. -/
theorem Whole.edited_insertMove (h : Whole doc) (parent moved : NodeId) (place : Place NodeId) :
    doc.view.Edited (.insertMove parent moved place)
      (.node (doc.insertMove parent moved place).1)
      (doc.insertMove parent moved place).2.view := by
  obtain ⟨lay, hrooted⟩ := h
  rcases hrooted.insertMove_cases parent moved place with
    hrefused | ⟨old, hold, hparent, hallowed, href, hnot, hdone⟩
  · rw [hrefused]
    exact .refused rfl
  · have hlinked := hrooted.toLaidOut.move hold hparent hallowed href hnot
    have hview : ((doc.unlink moved).linkAt parent place moved).view =
        (doc.view.detach old moved).attach parent place moved := by
      rw [← hrooted.toLaidOut.view_unlink hold]
      exact (hrooted.toLaidOut.unlink hold).view_link hlinked
    obtain ⟨n, hn, -, hchildren, -⟩ := node_view_of_contains hparent
    rw [hdone, hview]
    refine .insertMove hn ?_ ?_ fun r hr => ?_
    · rw [parent?_view, hold]
    · rwa [parent?_view]
    · obtain ⟨hrparent, hne⟩ := href r hr
      rw [hchildren]
      exact (List.mem_erase_of_ne hne).2 (hrooted.mem_children.2 hrparent)

/-! ## Removals -/

theorem Whole.edited_removeChild (h : Whole doc) (hlegible : Legible doc)
    (parent child : NodeId) :
    doc.view.Edited (.removeChild parent child) (.done (doc.removeChild parent child).1)
      (doc.removeChild parent child).2.view := by
  unfold Document.removeChild
  split
  · rename_i hchecks
    simp only [Bool.and_eq_true, beq_iff_eq] at hchecks
    obtain ⟨lay, hrooted⟩ := h
    refine .removeChild ?_ (hrooted.toLaidOut.removal_drop hlegible hchecks.2)
    rw [parent?_view, hchecks.2]
  · exact .refused rfl

/-- A node that has a name at all has it also in the view. -/
theorem hasName_eq {name : String} (hname : name ≠ "") (x : NodeId) :
    doc.hasName name x = (doc.name x == name) := by
  unfold hasName Document.name
  cases hr : doc.node? x with
  | none => simpa using hname.symm
  | some r =>
    cases hslot : r.name with
    | null => simpa [textOf, TextStore.get, TextSlot.isNull, hslot] using hname.symm
    | source _ _ _ => simp [TextSlot.isNull, hslot]
    | copied _ => simp [TextSlot.isNull, hslot]

theorem name_of_hasName {name : String} {x : NodeId} (h : doc.hasName name x = true) :
    doc.name x = name := by
  unfold hasName at h
  unfold Document.name
  cases hr : doc.node? x with
  | none => simp [hr] at h
  | some r =>
    simp only [hr, Bool.and_eq_true, beq_iff_eq] at h
    exact h.2

theorem Whole.edited_removeChildNamed (h : Whole doc) (hlegible : Legible doc)
    (parent : NodeId) (name : String) :
    doc.view.Edited (.removeChildNamed parent name) (.done (doc.removeChildNamed parent name).1)
      (doc.removeChildNamed parent name).2.view := by
  unfold Document.removeChildNamed
  split
  · rename_i child hchild
    obtain ⟨lay, hrooted⟩ := h
    have hfind : (doc.children parent).find? (doc.hasName name) = some child := hchild
    have hmem : child ∈ doc.children parent := List.mem_of_find?_eq_some hfind
    have hp : doc.parent? child = some parent := hrooted.mem_children.1 hmem
    have hparent : doc.contains parent = true := hrooted.contains_parent hp
    have hdone : doc.removeChild parent child =
        (true, (doc.unlink child).freeSubtree child) := by
      rw [Document.removeChild, if_pos (by simp [hparent, hp])]
    obtain ⟨n, hn, -, hchildren, -⟩ := node_view_of_contains hparent
    rw [hdone]
    refine .removeChildNamed hn (hchildren ▸ hmem) ?_ (fun hname => ?_)
      (hrooted.toLaidOut.removal_drop hlegible hp)
    · rw [name_view, name_of_hasName (List.find?_some hfind)]
    · rw [name_view, hchildren, ← funext (hasName_eq hname), hfind]
  · exact .refused rfl

theorem Whole.edited_removeChildren (h : Whole doc) (hlegible : Legible doc) (parent : NodeId) :
    doc.view.Edited (.removeChildren parent) (.done (doc.removeChildren parent).1)
      (doc.removeChildren parent).2.view := by
  unfold Document.removeChildren
  split
  · rename_i hparent
    obtain ⟨lay, hrooted⟩ := id h
    obtain ⟨n, hn, -, hchildren, -⟩ := node_view_of_contains hparent
    refine .removeChildren hn ?_
    rw [hchildren]
    exact h.removal_foldl hlegible (hrooted.forest.nodup parent)
      fun c hc => hrooted.mem_children.1 hc
  · exact .refused rfl

/-! ## Attributes -/

/-- A new attribute is put at a place, or its name or its value is too long. -/
theorem Whole.view_insertAttribute (h : Whole doc) (hlegible : Legible doc)
    (howns : (doc.kind owner).hasAttributes = true) {place : Place AttrId}
    (hplace : doc.attrPlaceOk owner place = true) (name value : String) :
    (∃ a made, doc.insertAttribute owner name value place = (some a, made) ∧
      doc.view.attr a = none ∧ made.view = doc.view.insertAttr owner place a name value) ∨
      ∃ made, doc.insertAttribute owner name value place = (none, made) ∧ made.view = doc.view := by
  obtain ⟨nameSlot, named, valueSlot, valued, -, hnamed, hvaluedText, hdone⟩ |
    ⟨nameSlot, named, -, hnamed, -, hdone⟩ | ⟨-, hdone⟩ :=
      doc.insertAttribute_cases owner name value place
  rotate_left
  · exact .inr ⟨_, hdone, (view_releaseText named nameSlot).trans (hlegible.view_of_ownText hnamed)⟩
  · exact .inr ⟨_, hdone, rfl⟩
  left
  obtain ⟨lay, hrooted⟩ := h
  let a := valued.allocAttr.1
  let texts := fun r : AttrRecord => { r with name := nameSlot, value := valueSlot }
  have htexts : SameShape doc valued :=
    (SameShape.of_ownText hnamed).trans (.of_ownText hvaluedText)
  have hvalued : LaidOut valued lay := hrooted.toLaidOut.sameShape htexts
  have hview : valued.view = doc.view :=
    ((hlegible.drawn (.of_ownText hnamed)).view_of_ownText hvaluedText).trans
      (hlegible.view_of_ownText hnamed)
  have hfresh : doc.view.attr a = none := by
    rw [← hview]
    exact attr_view_allocAttr hvalued.attrs
  have hname : valued.texts.get nameSlot = name := by
    obtain ⟨hslot, rfl⟩ := eq_of_ownText hnamed
    obtain ⟨-, rfl⟩ := eq_of_ownText hvaluedText
    exact ((TextStore.Extends.own _ value).holds (doc.texts.holds_own hslot)).get_eq
  have hmade : (valued.allocAttr.2.modifyAttr a texts).view =
      doc.view.addAttr a ⟨name, value, none⟩ := by
    have hset := hvalued.allocAttr.view_modifyAttr (a := a) (f := texts)
      (g := fun r => { r with name, value }) (fun _ => rfl) fun r => ?_
    · rw [hset, hvalued.view_allocAttr, hview, TreeView.modifyAttr_addAttr]
    · show (⟨valued.texts.get nameSlot, valued.texts.get valueSlot, r.owner⟩ : AttrView) =
        ⟨name, value, r.owner⟩
      rw [hname, get_of_ownText hvaluedText]
  have hsame : SameShape valued.allocAttr.2 (valued.allocAttr.2.modifyAttr a texts) :=
    .modifyAttr a fun _ => rfl
  have hlinked := hvalued.laidOut_addAttr owner place hsame (by rwa [htexts.kind_eq])
    fun r hr => by
      rw [htexts.owner?_eq]
      exact attrPlaceOk_iff.1 hplace r hr
  refine ⟨a, (valued.allocAttr.2.modifyAttr a texts).linkAttr owner place a, hdone, hfresh, ?_⟩
  rw [(hvalued.allocAttr.sameShape hsame).view_linkAttr hlinked, hmade]
  rfl

theorem insertAttribute_of_not {place : Place AttrId} (h : ¬ ((doc.kind owner).hasAttributes &&
    doc.attrPlaceOk owner place) = true) (name value : String) :
    doc.insertAttribute owner name value place = (none, doc) := by
  rw [Document.insertAttribute, if_neg h]

theorem Whole.edited_insertAttribute (h : Whole doc) (hlegible : Legible doc) (owner : NodeId)
    (name value : String) (place : Place AttrId) :
    doc.view.Edited (.insertAttribute owner name value place)
      (.attr (doc.insertAttribute owner name value place).1)
      (doc.insertAttribute owner name value place).2.view := by
  by_cases hchecks : ((doc.kind owner).hasAttributes && doc.attrPlaceOk owner place) = true
  · obtain ⟨howns, hplace⟩ := Bool.and_eq_true_iff.1 hchecks
    obtain ⟨a, made, heq, hnew, hview⟩ | ⟨made, heq, hview⟩ :=
      h.view_insertAttribute hlegible howns hplace name value
    · obtain ⟨n, hn, hkind, -, hattributes⟩ :=
        node_view_of_contains (contains_of_hasAttributes howns)
      obtain ⟨lay, hrooted⟩ := h
      rw [heq, hview]
      exact .insertAttribute hn (hkind ▸ howns)
        (hattributes ▸ hrooted.toLaidOut.within_attributes (attrPlaceOk_iff.1 hplace)) hnew
    · rw [heq, hview]
      exact .refused rfl
  · rw [insertAttribute_of_not hchecks]
    exact .refused rfl

theorem Whole.edited_insertAttributeCopy (h : Whole doc) (hlegible : Legible doc)
    (owner : NodeId) (proto : AttrId) (place : Place AttrId) :
    doc.view.Edited (.insertAttributeCopy owner proto place)
      (.attr (doc.insertAttributeCopy owner proto place).1)
      (doc.insertAttributeCopy owner proto place).2.view := by
  unfold Document.insertAttributeCopy
  split
  · rename_i hproto
    by_cases hchecks : ((doc.kind owner).hasAttributes && doc.attrPlaceOk owner place) = true
    · obtain ⟨howns, hplace⟩ := Bool.and_eq_true_iff.1 hchecks
      obtain ⟨a, made, heq, hnew, hview⟩ | ⟨made, heq, hview⟩ := h.view_insertAttribute hlegible
        howns hplace (doc.attrName proto) (doc.attrValue proto)
      · obtain ⟨n, hn, hkind, -, hattributes⟩ :=
          node_view_of_contains (contains_of_hasAttributes howns)
        obtain ⟨lay, hrooted⟩ := h
        rw [heq, hview]
        exact .insertAttributeCopy (if_pos hproto) hn (hkind ▸ howns)
          (hattributes ▸ hrooted.toLaidOut.within_attributes (attrPlaceOk_iff.1 hplace)) hnew
      · rw [heq, hview]
        exact .refused rfl
    · rw [insertAttribute_of_not hchecks]
      exact .refused rfl
  · exact .refused rfl

/-- The first attribute with a name is one of the node that it is looked for at. -/
theorem LaidOut.of_attributeNamed? (h : LaidOut doc lay) {name : String}
    (ha : doc.attributeNamed? owner name = some a) :
    doc.owner? a = some owner ∧ ∃ n, doc.view.node owner = some n ∧
      n.attributes.find? (fun a => doc.view.attrName a == name) = some a := by
  have hfind : (doc.attributes owner).find? (fun a => doc.attrName a == name) = some a := ha
  have howner : doc.owner? a = some owner :=
    h.mem_attributes.1 (List.mem_of_find?_eq_some hfind)
  obtain ⟨n, hn, -, -, hattributes⟩ := node_view_of_contains (h.contains_owner howner)
  refine ⟨howner, n, hn, ?_⟩
  rw [attrName_view, hattributes, hfind]

theorem Whole.edited_setAttribute (h : Whole doc) (hlegible : Legible doc) (owner : NodeId)
    (name value : String) :
    doc.view.Edited (.setAttribute owner name value) (.attr (doc.setAttribute owner name value).1)
      (doc.setAttribute owner name value).2.view := by
  unfold Document.setAttribute
  split
  · rename_i a ha
    obtain ⟨lay, hrooted⟩ := h
    obtain ⟨howner, n, hn, hfirst⟩ := hrooted.toLaidOut.of_attributeNamed? ha
    by_cases hshort : value.utf8ByteSize < 2 ^ 32
    · obtain ⟨hdone, hview⟩ := hrooted.toLaidOut.view_setAttrValue hlegible
        (containsAttr_of_owner? howner) hshort
      simp only [hdone, hview]
      exact .setAttribute hn hfirst
    · rw [setAttrValue_of_long hshort]
      exact .refused rfl
  · rename_i hnone
    by_cases hchecks : ((doc.kind owner).hasAttributes && doc.attrPlaceOk owner .last) = true
    · obtain ⟨howns, hplace⟩ := Bool.and_eq_true_iff.1 hchecks
      obtain ⟨a, made, heq, hnew, hview⟩ | ⟨made, heq, hview⟩ :=
        h.view_insertAttribute hlegible howns hplace name value
      · obtain ⟨n, hn, hkind, -, hattributes⟩ :=
          node_view_of_contains (contains_of_hasAttributes howns)
        rw [heq, hview]
        refine .setNewAttribute hn (hkind ▸ howns) ?_ hnew
        rw [attrName_view, hattributes]
        exact hnone
      · rw [heq, hview]
        exact .refused rfl
    · rw [insertAttribute_of_not hchecks]
      exact .refused rfl

theorem Whole.edited_removeAttribute (h : Whole doc) (hlegible : Legible doc) (owner : NodeId)
    (a : AttrId) :
    doc.view.Edited (.removeAttribute owner a) (.done (doc.removeAttribute owner a).1)
      (doc.removeAttribute owner a).2.view := by
  unfold Document.removeAttribute
  split
  · rename_i hchecks
    simp only [Bool.and_eq_true, beq_iff_eq] at hchecks
    obtain ⟨howner, ha⟩ := hchecks
    obtain ⟨lay, hrooted⟩ := h
    obtain ⟨n, hn, -, -, hattributes⟩ := node_view_of_contains howner
    rw [hrooted.toLaidOut.view_dropAttr hlegible ha]
    exact .removeAttribute hn (hattributes ▸ hrooted.mem_attributes.2 ha)
  · exact .refused rfl

theorem Whole.edited_removeAttributeNamed (h : Whole doc) (hlegible : Legible doc)
    (owner : NodeId) (name : String) :
    doc.view.Edited (.removeAttributeNamed owner name)
      (.done (doc.removeAttributeNamed owner name).1)
      (doc.removeAttributeNamed owner name).2.view := by
  unfold Document.removeAttributeNamed
  split
  · rename_i a ha
    obtain ⟨lay, hrooted⟩ := h
    obtain ⟨howner, n, hn, hfirst⟩ := hrooted.toLaidOut.of_attributeNamed? ha
    have hdone : doc.removeAttribute owner a = (true, (doc.unlinkAttr a).freeAttr a) := by
      rw [Document.removeAttribute, if_pos (by simp [hrooted.contains_owner howner, howner])]
    rw [hdone, hrooted.toLaidOut.view_dropAttr hlegible howner]
    exact .removeAttributeNamed hn hfirst
  · exact .refused rfl

theorem Whole.edited_removeAttributes (h : Whole doc) (hlegible : Legible doc)
    (owner : NodeId) :
    doc.view.Edited (.removeAttributes owner) (.done (doc.removeAttributes owner).1)
      (doc.removeAttributes owner).2.view := by
  unfold Document.removeAttributes
  split
  · rename_i howner
    obtain ⟨lay, hrooted⟩ := id h
    obtain ⟨n, hn, -, -, hattributes⟩ := node_view_of_contains howner
    have hnodup : (doc.attributes owner).Nodup := by
      rw [hrooted.attributes_eq]
      exact hrooted.attrLists.nodup owner
    rw [h.view_foldl_dropAttr hlegible hnodup fun a ha => hrooted.mem_attributes.1 ha,
      ← hattributes]
    exact .removeAttributes hn
  · exact .refused rfl

/-! ## Texts -/

theorem Whole.edited_setName (h : Whole doc) (hlegible : Legible doc) (id : NodeId)
    (name : String) :
    doc.view.Edited (.setName id name) (.done (doc.setName id name).1)
      (doc.setName id name).2.view := by
  by_cases hshort : name.utf8ByteSize < 2 ^ 32
  · by_cases hname : (doc.kind id).hasName = true
    · obtain ⟨lay, hrooted⟩ := h
      obtain ⟨n, hn, hkind, -⟩ := node_view_of_contains (contains_of_hasName hname)
      obtain ⟨hdone, hview⟩ := hrooted.toLaidOut.view_setName hlegible hname hshort
      rw [hdone, hview]
      exact .setName hn (hkind ▸ hname)
    · rw [Document.setName, if_neg hname]
      exact .refused rfl
  · rw [setName_of_long hshort]
    exact .refused rfl

theorem Whole.edited_setValue (h : Whole doc) (hlegible : Legible doc) (id : NodeId)
    (value : String) :
    doc.view.Edited (.setValue id value) (.done (doc.setValue id value).1)
      (doc.setValue id value).2.view := by
  by_cases hshort : value.utf8ByteSize < 2 ^ 32
  · by_cases hvalue : (doc.kind id).hasValue = true
    · obtain ⟨lay, hrooted⟩ := h
      obtain ⟨n, hn, hkind, -⟩ := node_view_of_contains (contains_of_hasValue hvalue)
      obtain ⟨hdone, hview⟩ := hrooted.toLaidOut.view_setValue hlegible hvalue hshort
      rw [hdone, hview]
      exact .setValue hn (hkind ▸ hvalue)
    · rw [Document.setValue, if_neg hvalue]
      exact .refused rfl
  · rw [setValue_of_long hshort]
    exact .refused rfl

theorem Whole.edited_setAttrName (h : Whole doc) (hlegible : Legible doc) (a : AttrId)
    (name : String) :
    doc.view.Edited (.setAttrName a name) (.done (doc.setAttrName a name).1)
      (doc.setAttrName a name).2.view := by
  by_cases hshort : name.utf8ByteSize < 2 ^ 32
  · by_cases ha : doc.containsAttr a = true
    · obtain ⟨lay, hrooted⟩ := h
      obtain ⟨hdone, hview⟩ := hrooted.toLaidOut.view_setAttrName hlegible ha hshort
      rw [hdone, hview]
      exact .setAttrName (if_pos ha)
    · have hnone : doc.attr? a = none := by simpa [containsAttr] using ha
      rw [Document.setAttrName, hnone]
      exact .refused rfl
  · rw [setAttrName_of_long hshort]
    exact .refused rfl

theorem Whole.edited_setAttrValue (h : Whole doc) (hlegible : Legible doc) (a : AttrId)
    (value : String) :
    doc.view.Edited (.setAttrValue a value) (.done (doc.setAttrValue a value).1)
      (doc.setAttrValue a value).2.view := by
  by_cases hshort : value.utf8ByteSize < 2 ^ 32
  · by_cases ha : doc.containsAttr a = true
    · obtain ⟨lay, hrooted⟩ := h
      obtain ⟨hdone, hview⟩ := hrooted.toLaidOut.view_setAttrValue hlegible ha hshort
      rw [hdone, hview]
      exact .setAttrValue (if_pos ha)
    · have hnone : doc.attr? a = none := by simpa [containsAttr] using ha
      rw [Document.setAttrValue, hnone]
      exact .refused rfl
  · rw [setAttrValue_of_long hshort]
    exact .refused rfl

/-- The text of a node stands in the node itself or in one of its children. -/
theorem of_textHolder? {holder : NodeId} (h : doc.textHolder? id = some holder) :
    doc.contains id = true ∧ (holder = id ∨ holder ∈ doc.children id) := by
  unfold textHolder? at h
  split at h
  · rename_i r hr
    refine ⟨contains_iff.2 ⟨r, hr⟩, ?_⟩
    split at h
    · exact .inl (Option.some.inj h).symm
    · exact .inr (List.mem_of_find?_eq_some h)
  · cases h

theorem ne_element_of_isText {kind : NodeKind} (h : kind.isText = true) : kind ≠ .element := by
  rintro rfl
  cases h

/-- A text is held by character data, or by an element itself. -/
theorem kind_textHolder? {holder : NodeId} (h : doc.textHolder? id = some holder) :
    (doc.kind holder).isText = true ∨ doc.kind holder = .element ∧ holder = id := by
  unfold textHolder? at h
  split at h
  · rename_i r hr
    have hkind : doc.kind id = r.kind := by
      rw [kind, hr]
      rfl
    split at h
    · rename_i hholds
      cases h
      rw [Bool.or_eq_true, Bool.and_eq_true] at hholds
      rw [hkind]
      exact hholds.imp_right fun helement => ⟨of_decide_eq_true helement.1, rfl⟩
    · exact .inl (List.find?_some (p := fun c => (doc.kind c).isText) h)
  · cases h

/-- The text of a node is replaced where it stands. -/
theorem setContent_eq_of_textHolder? {holder : NodeId} (h : doc.textHolder? id = some holder)
    (text : String) : doc.setContent id text = doc.replaceValue holder text := by
  rw [setContent, h]
  rcases kind_textHolder? h with htext | ⟨helement, -⟩
  · have hne : doc.kind holder ≠ .element := ne_element_of_isText htext
    have hvalue : (doc.kind holder).hasValue = true := by
      cases hkind : doc.kind holder <;> simp_all [NodeKind.isText, NodeKind.hasValue]
    simp only [if_neg hne, setValue, hvalue, if_true]
  · simp only [if_pos helement]

/-- A child that was made for a text stays if the text is too long. -/
theorem setContent_of_long {text : String} (hlong : ¬ text.utf8ByteSize < 2 ^ 32)
    (hnone : doc.textHolder? id = none) {child : NodeId} {made : Document}
    (hmade : doc.insertChild id .pcdata .last = (some child, made)) :
    doc.setContent id text = (false, made) := by
  simp only [Document.setContent, hnone, hmade]
  exact setValue_of_long hlong child

/-- A node without a text gets a child for it. -/
theorem Whole.view_setNewContent (h : Whole doc) (hlegible : Legible doc)
    (hnone : doc.textHolder? id = none) (haccepts : doc.accepts id .pcdata .last = true)
    {text : String} (hshort : text.utf8ByteSize < 2 ^ 32) :
    ∃ child made, doc.insertChild id .pcdata .last = (some child, made) ∧ Whole made ∧
      Legible made ∧ doc.setContent id text = (true, (made.replaceValue child text).2) ∧
      doc.view.node child = none ∧ (made.replaceValue child text).2.view =
        (doc.view.addNode child (.leaf .pcdata "" text)).attach id .last child := by
  have hwhole := h.insertChild id .pcdata .last
  have hlegible' := hlegible.insertChild id .pcdata .last
  obtain ⟨child, made, heq, hpcdata, hnew, hview⟩ := h.view_insertChild hlegible haccepts
  rw [heq] at hwhole hlegible'
  have hchild : made.contains child = true := contains_of_hasValue (by rw [hpcdata]; rfl)
  have hwhole' := hwhole
  obtain ⟨lay, hmade⟩ := hwhole'
  obtain ⟨hset, hview'⟩ := hmade.toLaidOut.view_replaceValue hlegible' child hshort
  rw [hchild] at hset
  refine ⟨child, made, heq, hwhole, hlegible', ?_, hnew, ?_⟩
  · simp only [Document.setContent, hnone, heq]
    rw [Document.setValue, if_pos (by rw [hpcdata]; rfl)]
    exact Prod.ext hset rfl
  · rw [hview', hview,
      TreeView.modify_attach _ _ _ _ NodeView.name (fun _ => text) fun _ _ _ => ⟨rfl, rfl⟩,
      TreeView.modify_addNode]
    rfl

theorem Whole.edited_setContent (h : Whole doc) (hlegible : Legible doc) (id : NodeId)
    (text : String) :
    doc.view.Edited (.setContent id text) (.done (doc.setContent id text).1)
      (doc.setContent id text).2.view := by
  cases hholder : doc.textHolder? id with
  | some holder =>
    obtain ⟨hid, hwhere⟩ := of_textHolder? hholder
    obtain ⟨n, hn, -, hchildren, -⟩ := node_view_of_contains hid
    obtain ⟨lay, hrooted⟩ := h
    rw [setContent_eq_of_textHolder? hholder]
    by_cases hshort : text.utf8ByteSize < 2 ^ 32
    · have hthere : doc.contains holder = true := by
        obtain rfl | hmem := hwhere
        · exact hid
        · exact contains_of_parent? (hrooted.mem_children.1 hmem)
      obtain ⟨hset, hview⟩ := hrooted.toLaidOut.view_replaceValue hlegible holder hshort
      rw [hset, hthere, hview]
      exact .setContent hn (hchildren ▸ hwhere)
    · rw [replaceValue_of_long hshort]
      exact .refused rfl
  | none =>
    by_cases haccepts : doc.accepts id .pcdata .last = true
    · obtain ⟨hallowed, hid, -⟩ := accepts_iff.1 haccepts
      obtain ⟨n, hn, hkind, -⟩ := node_view_of_contains hid
      by_cases hshort : text.utf8ByteSize < 2 ^ 32
      · obtain ⟨child, made, -, -, -, hset, hnew, hview⟩ :=
          h.view_setNewContent hlegible hholder haccepts hshort
        rw [hset, hview]
        exact .setNewContent hn (hkind ▸ hallowed) hnew
      · obtain ⟨child, made, heq, -, hnew, hview⟩ := h.view_insertChild hlegible haccepts
        rw [setContent_of_long hshort hholder heq, hview]
        exact .refusedContent hn (hkind ▸ hallowed) hnew hshort
    · simp only [Document.setContent, hholder, insertChild_of_not_accepts haccepts]
      exact .refused rfl

/-! ## Every edit -/

/-- Every edit of a whole document does to its view what the edit of views says. -/
theorem Whole.edited (h : Whole doc) (hlegible : Legible doc) (c : Change)
    (hedit : c.isEdit = true) (hsource : ∀ s, c.source? = some s → Whole s) :
    doc.view.Edited c (doc.apply c).1 (doc.apply c).2.view := by
  cases c with
  | loadString _ _ | loadBytes _ _ _ | loadFetched _ _ _ | appendBytes _ _ _ _ | reset
  | resetFrom _ => cases hedit
  | insertChild parent kind place => exact h.edited_insertChild hlegible parent kind place
  | insertElement parent name place => exact h.edited_insertElement hlegible parent name place
  | insertCopy parent proto place => exact h.edited_insertCopy hlegible parent proto place
  | insertCopyFrom parent source proto place =>
    exact h.edited_insertCopyFrom hlegible (hsource source rfl) parent proto place
  | insertMove parent moved place => exact h.edited_insertMove parent moved place
  | removeChild parent child => exact h.edited_removeChild hlegible parent child
  | removeChildNamed parent name => exact h.edited_removeChildNamed hlegible parent name
  | removeChildren parent => exact h.edited_removeChildren hlegible parent
  | insertAttribute owner name value place =>
    exact h.edited_insertAttribute hlegible owner name value place
  | setAttribute owner name value => exact h.edited_setAttribute hlegible owner name value
  | insertAttributeCopy owner proto place =>
    exact h.edited_insertAttributeCopy hlegible owner proto place
  | removeAttribute owner a => exact h.edited_removeAttribute hlegible owner a
  | removeAttributeNamed owner name => exact h.edited_removeAttributeNamed hlegible owner name
  | removeAttributes owner => exact h.edited_removeAttributes hlegible owner
  | setName id name => exact h.edited_setName hlegible id name
  | setValue id value => exact h.edited_setValue hlegible id value
  | setContent id text => exact h.edited_setContent hlegible id text
  | setAttrName a name => exact h.edited_setAttrName hlegible a name
  | setAttrValue a value => exact h.edited_setAttrValue hlegible a value

/-- Whatever was done to a document before, its linked records refine the ordered tree. -/
theorem reachable_refines (h : Reachable doc) (c : Change) (hedit : c.isEdit = true)
    (hsource : ∀ s, c.source? = some s → Reachable s) :
    doc.view.Edited c (doc.apply c).1 (doc.apply c).2.view :=
  h.whole.edited h.legible c hedit fun s hs => (hsource s hs).whole

/-- The last child is moved before the first one, within one list. -/
theorem refines_shuffled :
    ((new.applyAll shuffled).apply (.insertMove ⟨⟨1, 1⟩⟩ ⟨⟨2, 2⟩⟩ (.before ⟨⟨3, 1⟩⟩))).2.children
        ⟨⟨1, 1⟩⟩ = [⟨⟨2, 2⟩⟩, ⟨⟨3, 1⟩⟩] ∧
      (new.applyAll shuffled).view.Edited (.insertMove ⟨⟨1, 1⟩⟩ ⟨⟨2, 2⟩⟩ (.before ⟨⟨3, 1⟩⟩))
        (.node (some ⟨⟨2, 2⟩⟩))
        ((new.applyAll shuffled).apply
          (.insertMove ⟨⟨1, 1⟩⟩ ⟨⟨2, 2⟩⟩ (.before ⟨⟨3, 1⟩⟩))).2.view := by
  have houtcome : ((new.applyAll shuffled).apply
      (.insertMove ⟨⟨1, 1⟩⟩ ⟨⟨2, 2⟩⟩ (.before ⟨⟨3, 1⟩⟩))).1 = .node (some ⟨⟨2, 2⟩⟩) := by
    decide +kernel
  refine ⟨by decide +kernel, ?_⟩
  rw [← houtcome]
  exact reachable_refines (Reachable.new.applyAll (by decide)) _ rfl fun s hs => by cases hs

end Document

end XmlTree
