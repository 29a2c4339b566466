/-
  Proofs/Duplicating.lean --- a copy reads as its pattern.

  WHAT THIS FILE IS FOR.  A copy is built node by node from a value, and what stands of it so
  far stays while the rest is built.  So the value is what is read off the copy in the end,
  with one exception: an empty text is kept as none at all.

  WHAT CAN BE COPIED.  A text that is too long would not be kept.  The texts that are read off
  a document are never that long, so every value that is copied can be.

  WHAT IS NOT TOUCHED.  Nothing that was there before is part of what is built, so the pattern
  may stand above the place where its copy goes; the copy has the pattern as it was.
-/
import XmlTree.Proofs.Editing
import XmlTree.Proofs.Filling
import XmlTree.Proofs.Keeping
import XmlTree.Proofs.Writing
import XmlTree.Save.Save

set_option autoImplicit false

namespace XmlTree

/-! ## Copied values -/

/-- A text as a copy has it: nothing in place of the empty one. -/
def copiedText (text : Option String) : Option String := if text = some "" then none else text

/-- An attribute as a copy has it. -/
def TreeAttribute.copied (a : TreeAttribute) : TreeAttribute :=
  ⟨copiedText a.name, copiedText a.value⟩

/-- A node as a copy has it. -/
def TreeLabel.copied (l : TreeLabel) : TreeLabel :=
  ⟨l.kind, copiedText l.name, copiedText l.value, l.attributes.map TreeAttribute.copied⟩

mutual

/-- A tree as a copy of it reads. -/
def Tree.copied : Tree → Tree
  | .node l children => .node l.copied (Tree.allCopied children)

/-- Trees side by side as copies of them read. -/
def Tree.allCopied : List Tree → List Tree
  | [] => []
  | t :: ts => t.copied :: Tree.allCopied ts

end

theorem Tree.allCopied_eq_map (ts : List Tree) : Tree.allCopied ts = ts.map Tree.copied := by
  induction ts with
  | nil => rfl
  | cons t ts ih => rw [Tree.allCopied, ih, List.map_cons]

theorem copiedText_getD (text : Option String) : (copiedText text).getD "" = text.getD "" := by
  unfold copiedText
  split
  · rename_i hempty
    rw [hempty]
    rfl
  · rfl

theorem TextStore.isNull_own {s : TextStore} {text : String} {slot : TextSlot}
    (h : (s.own text).1 = some slot) : slot.isNull = text.isEmpty := by
  unfold TextStore.own at h
  split at h
  · rename_i hempty
    cases h
    rw [hempty]
    rfl
  · rename_i hempty
    split at h
    · cases h
      rw [Bool.eq_false_of_not_eq_true hempty]
      rfl
    · cases h

/-! ## Values that can be copied -/

/-- None of the texts of a node is too long to be copied. -/
structure TreeLabel.Copyable (l : TreeLabel) : Prop where
  name : l.nameText.utf8ByteSize < 2 ^ 32
  value : l.valueText.utf8ByteSize < 2 ^ 32
  attributes : ∀ a ∈ l.attributes,
    a.nameText.utf8ByteSize < 2 ^ 32 ∧ a.valueText.utf8ByteSize < 2 ^ 32

namespace Document

variable {doc doc' source : Document} {lay : Layout}

/-- A text that is read is not too long to be copied. -/
theorem size_textOf?_lt (doc : Document) (slot : TextSlot) :
    ((doc.textOf? slot).getD "").utf8ByteSize < 2 ^ 32 := by
  unfold textOf?
  split
  · decide
  · exact doc.texts.size_get_lt slot

theorem copyable_labelOf (doc : Document) (id : NodeId) : (doc.labelOf id).Copyable := by
  have hempty : "".utf8ByteSize < 2 ^ 32 := by decide
  unfold labelOf
  cases doc.node? id with
  | none => exact ⟨hempty, hempty, List.forall_mem_nil _⟩
  | some r =>
    refine ⟨doc.size_textOf?_lt r.name, doc.size_textOf?_lt r.value, fun a ha => ?_⟩
    obtain ⟨attr, -, rfl⟩ := List.mem_map.1 ha
    unfold attrLabel
    cases doc.attr? attr with
    | none => exact ⟨hempty, hempty⟩
    | some r => exact ⟨doc.size_textOf?_lt r.name, doc.size_textOf?_lt r.value⟩

/-- A subtree of a document can be copied. -/
theorem copyable_tree (doc : Document) (id : NodeId) : (doc.tree id).All TreeLabel.Copyable :=
  all_tree doc.copyable_labelOf ⟨by decide, by decide, List.forall_mem_nil _⟩ id

/-- A text that is kept for a copy reads as a copied text. -/
theorem textOf?_of_ownText {text : String} {slot : TextSlot} {owned : Document}
    (h : doc.ownText text = (some slot, owned)) :
    owned.textOf? slot = copiedText (some text) := by
  obtain ⟨hslot, rfl⟩ := eq_of_ownText h
  have hget := (doc.texts.holds_own hslot).get_eq
  unfold textOf? textOf ownText
  rw [TextStore.isNull_own hslot, hget]
  simp [copiedText]

theorem textOf?_ownText {text : Option String} (hshort : (text.getD "").utf8ByteSize < 2 ^ 32) :
    (doc.ownText (text.getD "")).2.textOf? ((doc.ownText (text.getD "")).1.getD .null) =
      copiedText text := by
  obtain ⟨slot, owned, howned, -⟩ | ⟨-, hlong⟩ := doc.ownText_cases (text.getD "")
  · rw [howned]
    refine (textOf?_of_ownText howned).trans ?_
    cases text with
    | none => rfl
    | some text => rfl
  · exact absurd hshort hlong

/-- A name and a value that are kept one after the other read as copied texts. -/
theorem textOf?_ownTexts (doc : Document) {name value : Option String}
    (hname : (name.getD "").utf8ByteSize < 2 ^ 32)
    (hvalue : (value.getD "").utf8ByteSize < 2 ^ 32) :
    let named := (doc.ownText (name.getD "")).2
    let valued := (named.ownText (value.getD "")).2
    valued.textOf? ((doc.ownText (name.getD "")).1.getD .null) = copiedText name ∧
      valued.textOf? ((named.ownText (value.getD "")).1.getD .null) = copiedText value := by
  intro named valued
  refine ⟨?_, textOf?_ownText hvalue⟩
  have hreads : named.textOf? ((doc.ownText (name.getD "")).1.getD .null) = copiedText name :=
    textOf?_ownText hname
  have hlegible : named.texts.Legible ((doc.ownText (name.getD "")).1.getD .null) :=
    @SlotLaw.admits_own_getD .legible .name _ _
  rw [← hreads]
  exact textOf?_extends hlegible (.own named.texts _)

/-! ## Nodes -/

/-- An attribute of a copy is the last one of its node and reads as its pattern. -/
theorem LaidOut.pushAttr_reads (h : LaidOut doc lay) {owner : NodeId}
    (howns : (doc.kind owner).hasAttributes = true) {a : TreeAttribute}
    (ha : a.nameText.utf8ByteSize < 2 ^ 32 ∧ a.valueText.utf8ByteSize < 2 ^ 32) :
    Kept doc (Document.pushAttr owner doc a) (fun _ => False) (· = owner) ∧
      ∃ id, (Document.pushAttr owner doc a).attributes owner = doc.attributes owner ++ [id] ∧
        (Document.pushAttr owner doc a).attrLabel id = a.copied := by
  let id := doc.allocAttr.1
  let linked := doc.allocAttr.2.linkAttr owner .last id
  let named := (linked.ownText (a.name.getD "")).2
  let valued := (named.ownText (a.value.getD "")).2
  obtain ⟨hkept, hlist⟩ := h.kept_addAttr howns
  have htexts : Kept doc valued (fun _ => False) (· = owner) :=
    (hkept.trans_same (kept_ofTexts (.own _ _))).trans_same (kept_ofTexts (.own _ _))
  have hsame : SameShape linked (Document.pushAttr owner doc a) :=
    ((SameShape.ownText linked (a.name.getD "")).trans
      (SameShape.ownText named (a.value.getD ""))).trans (SameShape.modifyAttr id fun _ => rfl)
  refine ⟨htexts.modifyAttr (allocAttr_fresh h.attrs) fun _ => rfl, id,
    (hsame.attributes_eq owner).trans hlist, ?_⟩
  have hthere : valued.containsAttr id = true := by
    show linked.containsAttr id = true
    rw [containsAttr_linkAttr, containsAttr_allocAttr h.attrs]
    simp [id]
  obtain ⟨r, hr⟩ := containsAttr_iff.1 hthere
  have hrecord : (Document.pushAttr owner doc a).attr? id =
      some { r with
        name := (linked.ownText (a.name.getD "")).1.getD .null
        value := (named.ownText (a.value.getD "")).1.getD .null } := by
    show (valued.modifyAttr id _).attr? id = _
    rw [attr?_modifyAttr, if_pos rfl, hr]
    rfl
  obtain ⟨hname, hvalue⟩ := linked.textOf?_ownTexts ha.1 ha.2
  rw [attrLabel, hrecord]
  exact congrArg₂ TreeAttribute.mk hname hvalue

theorem LaidOut.foldl_pushAttr_reads (h : LaidOut doc lay) (hlegible : Legible doc)
    (owner : NodeId) (as : List TreeAttribute)
    (has : ∀ a ∈ as, a.nameText.utf8ByteSize < 2 ^ 32 ∧ a.valueText.utf8ByteSize < 2 ^ 32)
    (howns : as ≠ [] → (doc.kind owner).hasAttributes = true) :
    let done := as.foldl (Document.pushAttr owner) doc
    Kept doc done (fun _ => False) (· = owner) ∧
      (done.attributes owner).map done.attrLabel =
        (doc.attributes owner).map doc.attrLabel ++ as.map TreeAttribute.copied := by
  induction as generalizing doc lay with
  | nil => exact ⟨.refl doc, (List.append_nil _).symm⟩
  | cons a as ih =>
    have hkind := howns (by simp)
    obtain ⟨ha, has⟩ := List.forall_mem_cons.1 has
    obtain ⟨⟨lay', hlaid⟩, hgrown⟩ := h.pushAttr hkind a
    obtain ⟨hkept, id, hlist, hlabel⟩ := h.pushAttr_reads hkind ha
    obtain ⟨hkept', hlabels⟩ := ih hlaid (hlegible.pushAttr owner a) has fun _ => by
      rwa [hgrown.kind (contains_of_hasAttributes hkind)]
    refine ⟨hkept.trans_same hkept', hlabels.trans ?_⟩
    rw [hlist, List.map_append, hkept.map_attrLabel h hlegible, List.map_singleton, hlabel,
      List.append_assoc]
    rfl

/-- A new node with its texts, before it gets attributes. -/
def nameNode (doc : Document) (label : TreeLabel) : NodeId × Document :=
  let (id, doc) := doc.allocNode label.kind
  let (name, doc) := doc.ownText (label.name.getD "")
  let (value, doc) := doc.ownText (label.value.getD "")
  (id, doc.modifyNode id fun r =>
    { r with name := name.getD .null, value := value.getD .null })

theorem LaidOut.nameNode (h : LaidOut doc lay) (label : TreeLabel) :
    LaidOut (doc.nameNode label).2 lay :=
  (h.allocNode label.kind).sameShape (((SameShape.ownText _ _).trans (SameShape.ownText _ _)).trans
    (SameShape.modifyNode _ fun _ => rfl))

theorem Legible.nameNode (h : Legible doc) (label : TreeLabel) :
    Legible (doc.nameNode label).2 :=
  Obeys.modifyNode (((Obeys.allocNode h label.kind).drawn (.ownText _)).drawn (.ownText _)) _
    fun r _ => SlotLaw.admitsNode_own _ _ _ r

/-- A new node reads as copies of its texts. -/
theorem LaidOut.nameNode_reads (h : LaidOut doc lay) {label : TreeLabel}
    (hcopyable : label.Copyable) :
    let id := (doc.nameNode label).1
    let named := (doc.nameNode label).2
    Kept doc named (fun _ => False) (fun _ => False) ∧ doc.contains id = false ∧
      named.contains id = true ∧ named.attributes id = [] ∧ named.children id = [] ∧
      named.labelOf id = ⟨label.kind, copiedText label.name, copiedText label.value, []⟩ := by
  intro id done
  let made := (doc.allocNode label.kind).2
  let named := (made.ownText (label.name.getD "")).2
  let valued := (named.ownText (label.value.getD "")).2
  have hfresh : doc.node? id = none := allocNode_fresh h.nodes label.kind
  have hnone : doc.contains id = false := by
    rw [contains, hfresh]
    rfl
  have hkept : Kept doc valued (fun _ => False) (fun _ => False) :=
    ((h.kept_allocNode label.kind).trans_same (kept_ofTexts (.own _ _))).trans_same
      (kept_ofTexts (.own _ _))
  have hmade : valued.node? id = some (.detached label.kind doc.made) :=
    (node?_allocNode h.nodes label.kind id).trans (if_pos rfl)
  have hset : ∀ f, (valued.modifyNode id f).node? id = some (f (.detached label.kind doc.made)) :=
    fun f => by
      rw [node?_modifyNode, if_pos rfl, hmade]
      rfl
  have hrecord : done.node? id =
      some { NodeRecord.detached label.kind doc.made with
        name := (made.ownText (label.name.getD "")).1.getD .null
        value := (named.ownText (label.value.getD "")).1.getD .null } :=
    hset fun r => { r with
      name := (made.ownText (label.name.getD "")).1.getD .null
      value := (named.ownText (label.value.getD "")).1.getD .null }
  obtain ⟨hchildren, hattributes⟩ := h.lists_of_not_contains hnone
  obtain ⟨hsameChildren, hsameAttributes⟩ := h.lists_eq (h.nameNode label) id
  obtain ⟨hname, hvalue⟩ := made.textOf?_ownTexts hcopyable.name hcopyable.value
  refine ⟨hkept.modifyNode hfresh fun _ => rfl, hnone, contains_iff.2 ⟨_, hrecord⟩,
    hsameAttributes.trans hattributes, hsameChildren.trans hchildren, ?_⟩
  rw [labelOf, hrecord, hsameAttributes, hattributes]
  exact congrArg₂ (fun name value => TreeLabel.mk label.kind name value []) hname hvalue

/-- A node of a copy reads as its pattern, and nothing stands below it. -/
theorem LaidOut.buildNode_reads (h : LaidOut doc lay) (hlegible : Legible doc) {label : TreeLabel}
    (hcopyable : label.Copyable)
    (howns : label.attributes ≠ [] → label.kind.hasAttributes = true) :
    let id := (doc.buildNode label).1
    let done := (doc.buildNode label).2
    Kept doc done (fun _ => False) (fun _ => False) ∧ doc.contains id = false ∧
      done.labelOf id = label.copied ∧ done.children id = [] := by
  intro id done
  obtain ⟨hnamed, hnone, hid, hattributes, hchildren, hlabel⟩ := h.nameNode_reads hcopyable
  have hkind : (doc.nameNode label).2.kind (doc.nameNode label).1 = label.kind := by
    rw [← kind_labelOf, hlabel]
  obtain ⟨hkept, hlabels⟩ := (h.nameNode label).foldl_pushAttr_reads (hlegible.nameNode label) id
    label.attributes hcopyable.attributes fun hne => by
      rw [show (doc.nameNode label).2.kind id = label.kind from hkind]
      exact howns hne
  have hkept' : Kept doc done (fun _ => False) (fun _ => False) :=
    hnamed.trans hkept (fun _ h => h) fun {x} hx hd => by
      rw [show x = id from hd, show doc.contains id = false from hnone] at hx
      cases hx
  refine ⟨hkept', hnone, ?_, (hkept.children hid fun h => h).trans hchildren⟩
  rw [show (doc.nameNode label).2.attributes id = [] from hattributes, List.map_nil,
    List.nil_append] at hlabels
  refine (hkept.labelOf_dressed (hlegible.nameNode label) hid).trans ?_
  rw [hlabel]
  exact congrArg (TreeLabel.mk label.kind (copiedText label.name) (copiedText label.value)) hlabels

/-! ## Trees -/

/-- What is new is put at a place below a node that was there, and reads as it did. -/
theorem Sprouted.link_reads {made : Document} {id : NodeId} {kind : NodeKind}
    (hsprout : Sprouted doc made id kind) (h : LaidOut doc lay) (hlegible : Legible made)
    (hkept : Kept doc made (fun _ => False) (fun _ => False)) (parent : NodeId)
    (place : Place NodeId) (hallowed : (doc.kind parent).allowsChild kind = true)
    (href : ∀ r, place.reference? = some r → doc.parent? r = some parent) :
    let linked := made.link parent place id
    (∃ lay', LaidOut linked lay') ∧ Kept doc linked (· = parent) (fun _ => False) ∧
      linked.children parent = place.insert id (doc.children parent) ∧
      linked.tree id = made.tree id := by
  intro linked
  have hparent : doc.contains parent = true :=
    contains_of_kind_ne (kind_ne_null_of_allowsChild hallowed)
  obtain ⟨layMade, hmade⟩ := hsprout.laid
  have hlinked := hsprout.laidOut_link h hmade parent place hallowed href
  obtain ⟨hlink, hlist⟩ := hmade.kept_link hlinked
  refine ⟨⟨_, hlinked⟩, (hkept.mono (fun h => h.elim) fun h => h).trans_same hlink,
    hlist.trans (congrArg _ (hkept.children hparent fun h => h)), ?_⟩
  refine hlink.tree_eq hmade hlinked hlegible hsprout.contains fun x hx => ⟨?_, fun h => h⟩
  -- the node that was there does not stand below one that was not
  rintro rfl
  exact hsprout.grown.not_below h (hsprout.grown.fresh (by simp)) hparent hx

mutual

/-- What is built from a value reads as a copy of it, and nothing that was there is touched. -/
theorem LaidOut.build_reads {doc : Document} {lay : Layout} (h : LaidOut doc lay)
    (hlegible : Legible doc) (t : Tree) (ht : t.Lawful) (hcopyable : t.All TreeLabel.Copyable) :
    Kept doc (doc.build t).2 (fun _ => False) (fun _ => False) ∧
      (doc.build t).2.tree (doc.build t).1 = t.copied := by
  match t, ht, hcopyable with
  | .node label children, .node howns hallowed hbelow, .node hcopyable hcopyableBelow =>
    have hnode := h.buildNode label howns
    obtain ⟨lay', hlaid⟩ := hnode.laid
    obtain ⟨hkept, hnone, hlabel, hempty⟩ := h.buildNode_reads hlegible hcopyable howns
    have hkinds : ∀ t ∈ children,
        ((doc.buildNode label).2.kind (doc.buildNode label).1).allowsChild t.label.kind = true :=
      fun t ht => by
        rw [hnode.kind_eq]
        exact hallowed t ht
    obtain ⟨⟨layDone, hdone⟩, -⟩ := hlaid.buildBelow (doc.buildNode label).1 children hbelow hkinds
    obtain ⟨hkept', htrees⟩ := LaidOut.buildBelow_reads hlaid (hlegible.buildNode label)
      hnode.contains children hbelow hcopyableBelow hkinds
    rw [hempty, List.map_nil, List.nil_append] at htrees
    refine ⟨hkept.trans hkept' (fun {x} hx hfed => ?_) (fun _ h => h), ?_⟩
    · rw [show x = (doc.buildNode label).1 from hfed, hnone] at hx
      cases hx
    · rw [Tree.copied, Tree.allCopied_eq_map, ← htrees, ← hlabel,
        ← hkept'.labelOf_eq hlaid (hlegible.buildNode label) hnode.contains (fun h => h)]
      exact hdone.tree_eq (hkept'.contains hnode.contains)

/-- What is built at the end of the children of a node reads as copies, and only this node gets
other children. -/
theorem LaidOut.buildBelow_reads {doc : Document} {lay : Layout} (h : LaidOut doc lay)
    (hlegible : Legible doc) {parent : NodeId} (hparent : doc.contains parent = true)
    (ts : List Tree) (hts : ∀ t ∈ ts, t.Lawful) (hcopyable : ∀ t ∈ ts, t.All TreeLabel.Copyable)
    (hallowed : ∀ t ∈ ts, (doc.kind parent).allowsChild t.label.kind = true) :
    let done := Document.buildBelow doc parent ts
    Kept doc done (· = parent) (fun _ => False) ∧
      (done.children parent).map done.tree =
        (doc.children parent).map doc.tree ++ ts.map Tree.copied := by
  match ts with
  | [] => exact ⟨.refl doc, (List.append_nil _).symm⟩
  | t :: ts =>
    obtain ⟨ht, hrest⟩ := List.forall_mem_cons.1 hts
    obtain ⟨hcopyablet, hcopyablerest⟩ := List.forall_mem_cons.1 hcopyable
    obtain ⟨hallowedt, hallowedrest⟩ := List.forall_mem_cons.1 hallowed
    let id := (doc.build t).1
    let linked := (doc.build t).2.link parent .last id
    have hsprout := h.build t ht
    obtain ⟨hbuilt, htree⟩ := LaidOut.build_reads h hlegible t ht hcopyablet
    obtain ⟨⟨layLinked, hlinked⟩, hkept, hlist, hid⟩ := hsprout.link_reads h (hlegible.build t)
      hbuilt parent .last hallowedt (by simp [Place.reference?])
    obtain ⟨hkept', htrees⟩ := LaidOut.buildBelow_reads hlinked
      ((hlegible.build t).drawn (.link parent .last id)) (hkept.contains hparent) ts hrest
      hcopyablerest fun t ht => by
        rw [(hsprout.grown.link hsprout.contains).kind hparent]
        exact hallowedrest t ht
    refine ⟨hkept.trans_same hkept', htrees.trans ?_⟩
    have hlist' : linked.children parent = doc.children parent ++ [id] := hlist
    rw [hlist', List.map_append, hkept.map_tree h hlinked hlegible, List.map_singleton,
      show linked.tree id = t.copied from hid.trans htree, List.append_assoc]
    rfl

end

/-! ## Copies below a node -/

/-- Forgetting the document order changes nothing that is read off. -/
theorem kept_forgetOrder {Fed Dressed : NodeId → Prop} :
    Kept doc doc.forgetOrder Fed Dressed where
  texts := .refl _
  node hr := ⟨_, hr, rfl, rfl, rfl⟩
  attr hr := ⟨_, hr, rfl, rfl⟩
  children _ _ := rfl
  attributes _ _ := rfl

theorem LaidOut.tree_forgetOrder (h : LaidOut doc lay) (hlegible : Legible doc) {id : NodeId}
    (hid : doc.contains id = true) : doc.forgetOrder.tree id = doc.tree id :=
  have hkept : Kept doc doc.forgetOrder (fun _ => False) (fun _ => False) := kept_forgetOrder
  hkept.tree_eq h h.forgetOrder hlegible hid fun _ _ => ⟨fun h => h, fun h => h⟩

/-- Where a value may go, a copy of it is put, and nothing else is touched. -/
theorem LaidOut.insertTree_reads (h : LaidOut doc lay) (hlegible : Legible doc) {t : Tree}
    (ht : t.Lawful) (hcopyable : t.All TreeLabel.Copyable) {parent : NodeId}
    {place : Place NodeId} (haccepts : doc.accepts parent t.label.kind place = true) :
    ∃ id done, doc.insertTree parent t.label.kind t place = (some id, done) ∧
      Kept doc done (· = parent) (fun _ => False) ∧ done.contains id = true ∧
      done.children parent = place.insert id (doc.children parent) ∧ done.tree id = t.copied := by
  obtain ⟨hallowed, -, href⟩ := accepts_iff.1 haccepts
  obtain ⟨hbuilt, htree⟩ := h.build_reads hlegible t ht hcopyable
  have hsprout := h.build t ht
  obtain ⟨⟨layLinked, hlinked⟩, hkept, hlist, hid⟩ :=
    hsprout.link_reads h (hlegible.build t) hbuilt parent place hallowed href
  have hthere : ((doc.build t).2.link parent place (doc.build t).1).contains (doc.build t).1 =
      true := by
    rw [contains_link, hsprout.contains]
  refine ⟨(doc.build t).1, (doc.build t).2.linkAt parent place (doc.build t).1, if_pos haccepts,
    hkept.trans_same kept_forgetOrder, hthere, hlist, ?_⟩
  exact (hlinked.tree_forgetOrder ((hlegible.build t).drawn (.link parent place _)) hthere).trans
    (hid.trans htree)

/-! ## Copies of whole documents -/

/-- The kinds of the children of a node are those of the trees there. -/
theorem LaidOut.map_kind_children (h : LaidOut doc lay) {id : NodeId}
    (hid : doc.contains id = true) :
    (doc.children id).map doc.kind = (doc.tree id).children.map fun t => t.label.kind := by
  rw [h.tree_eq hid, Tree.children, List.map_map]
  refine List.map_congr_left fun c hc => ?_
  exact (h.lawful_tree (contains_of_parent? (h.mem_children.1 hc))).2.symm

/-- The nodes at the top of a document are copied one after the other to the top of another
one. -/
theorem Whole.copyTops_reads (h : Whole doc) (hlegible : Legible doc) {laySource : Layout}
    (hsource : Rooted source laySource) (cs : List NodeId)
    (hcs : ∀ c ∈ cs, source.parent? c = some source.root) :
    let done := doc.copyTops source cs
    Kept doc done (· = doc.root) (fun _ => False) ∧
      (done.children doc.root).map done.tree =
        (doc.children doc.root).map doc.tree ++ cs.map fun c => (source.tree c).copied := by
  induction cs generalizing doc with
  | nil => exact ⟨.refl doc, (List.append_nil _).symm⟩
  | cons c cs ih =>
    obtain ⟨hc, hrest⟩ := List.forall_mem_cons.1 hcs
    obtain ⟨lay, hrooted⟩ := id h
    obtain ⟨hlawful, hkind⟩ := hsource.lawful_tree (contains_of_parent? hc)
    have hallowed : NodeKind.document.allowsChild (source.kind c) = true := by
      rw [← hsource.root_kind]
      exact hsource.allowed hc
    have haccepts : doc.accepts doc.root (source.tree c).label.kind .last = true := by
      rw [hkind, accepts_iff, hrooted.root_kind]
      exact ⟨hallowed, hrooted.contains_root, by simp [Place.reference?]⟩
    obtain ⟨id, next, hinsert, hkept, -, hlist, hid⟩ :=
      hrooted.insertTree_reads hlegible hlawful (source.copyable_tree c) haccepts
    have hcopy : doc.insertCopyFrom doc.root source c .last = (some id, next) := by
      rw [Document.insertCopyFrom, ← hkind, hinsert]
    have hwhole : Whole next := by
      have hdone := h.insertCopyFrom doc.root ⟨laySource, hsource⟩ c .last
      rwa [hcopy] at hdone
    have hnext : Legible next := by
      have hdone := Obeys.insertTree hlegible doc.root (source.kind c) (source.tree c) .last
      rwa [show doc.insertTree doc.root _ _ .last = (some id, next) from hcopy] at hdone
    -- the document node is still the only one of its kind
    have hroot : doc.root = next.root :=
      hwhole.eq_root ((hkept.kind hrooted.contains_root).trans hrooted.root_kind)
    obtain ⟨hkept', htrees⟩ := ih hwhole hnext hrest
    obtain ⟨layNext, hlaid⟩ := hwhole
    rw [Document.copyTops, hcopy]
    rw [← hroot] at hkept' htrees
    refine ⟨hkept.trans_same hkept', htrees.trans ?_⟩
    rw [show next.children doc.root = doc.children doc.root ++ [id] from hlist, List.map_append,
      hkept.map_tree hrooted.toLaidOut hlaid.toLaidOut hlegible, List.map_singleton, hid,
      List.append_assoc]
    rfl

/-- A document that is replaced by another one has copies of what stands there at the top. -/
theorem Whole.tree_resetFrom (hsource : Whole source) (doc : Document) :
    (doc.resetFrom source).tree (doc.resetFrom source).root =
      .node bareRoot (Tree.allCopied (source.tree source.root).children) := by
  obtain ⟨laySource, hrooted⟩ := hsource
  have hstart : Whole doc.reset := whole_reset doc
  have hlegible : Legible doc.reset := Obeys.reset doc
  obtain ⟨hkept, htrees⟩ := hstart.copyTops_reads hlegible hrooted
    (source.children source.root) fun c hc => hrooted.mem_children.1 hc
  have hdone : Whole (doc.resetFrom source) := Whole.resetFrom doc ⟨laySource, hrooted⟩
  obtain ⟨lay, hlaid⟩ := id hstart
  have hroot : doc.reset.root = (doc.resetFrom source).root :=
    hdone.eq_root ((hkept.kind hlaid.contains_root).trans hlaid.root_kind)
  obtain ⟨layDone, hdone⟩ := hdone
  obtain ⟨hchildren, hattributes⟩ := lists_root_reset doc
  have hlabel : (doc.resetFrom source).labelOf doc.reset.root = bareRoot := by
    refine (hkept.labelOf_eq hlaid.toLaidOut hlegible hlaid.contains_root fun h => h).trans ?_
    rw [labelOf, node?_root_reset, hattributes]
    rfl
  rw [hchildren, List.map_nil, List.nil_append] at htrees
  rw [← hroot, hdone.tree_eq (hkept.contains hlaid.contains_root), hlabel,
    hrooted.tree_eq hrooted.contains_root, Tree.children, Tree.allCopied_eq_map, List.map_map]
  exact congrArg (Tree.node bareRoot) htrees

/-- Whether there is a declaration is told by the trees at the top. -/
theorem Whole.hasDeclaration_eq (h : Whole doc) :
    doc.hasDeclaration = (((doc.tree doc.root).children.map fun t => t.label.kind).find?
      (fun k => k == .declaration || k == .element) == some .declaration) := by
  obtain ⟨lay, hrooted⟩ := h
  rw [hasDeclaration, hrooted.map_kind_children hrooted.contains_root]

theorem Whole.hasDeclaration_resetFrom (hsource : Whole source) (doc : Document) :
    (doc.resetFrom source).hasDeclaration = source.hasDeclaration := by
  have hkind : (fun t => t.label.kind) ∘ Tree.copied = fun t => t.label.kind := by
    funext t
    cases t
    rw [Function.comp_apply, Tree.copied]
    rfl
  rw [(Whole.resetFrom doc hsource).hasDeclaration_eq, hsource.hasDeclaration_eq,
    hsource.tree_resetFrom, Tree.children, Tree.allCopied_eq_map, List.map_map, hkind]

end Document

end XmlTree
