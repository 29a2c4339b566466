/-
  Proofs/Viewing.lean --- what the steps of an edit do to the view.

  WHAT THIS FILE IS FOR.  Linking a record puts its handle into a plain list, and writing a
  slot writes the text that it reads as.  The links of other records are written too, but
  what is read off them is as it was: each step changes the view at the handles that it is
  about, and nowhere else.

  THE TWO INVARIANTS.  The records spell a layout, so that the lists that are read are known,
  and every slot leads to a text, so that keeping another one does not change what it reads.
-/
import XmlTree.Proofs.Legibility
import XmlTree.Proofs.TreeShape
import XmlTree.Proofs.TreeView

set_option autoImplicit false

namespace XmlTree

/-! ## Reading records -/

/-- What the record of a node reads as. -/
def NodeRecord.view (r : NodeRecord) (texts : TextStore) (children : List NodeId)
    (attributes : List AttrId) : NodeView :=
  ⟨r.kind, texts.get r.name, texts.get r.value, r.parent, children, attributes⟩

/-- What the record of an attribute reads as. -/
def AttrRecord.view (r : AttrRecord) (texts : TextStore) : AttrView :=
  ⟨texts.get r.name, texts.get r.value, r.owner⟩

namespace Document

variable {doc doc' : Document} {lay lay' : Layout} {id parent owner : NodeId} {a : AttrId}

theorem node_view (doc : Document) (x : NodeId) :
    doc.view.node x =
      (doc.node? x).map fun r => r.view doc.texts (doc.children x) (doc.attributes x) := by
  cases hr : doc.node? x <;>
    simp [view, contains, kind, name, value, Document.parent?, hr, NodeRecord.view, textOf]

theorem attr_view (doc : Document) (a : AttrId) :
    doc.view.attr a = (doc.attr? a).map fun r => r.view doc.texts := by
  cases hr : doc.attr? a <;>
    simp [view, containsAttr, attrName, attrValue, Document.owner?, hr, AttrRecord.view, textOf]

theorem parent?_view (doc : Document) : doc.view.parent? = doc.parent? := by
  funext x
  rw [TreeView.parent?, node_view, Document.parent?]
  cases doc.node? x <;> rfl

theorem owner?_view (doc : Document) : doc.view.owner? = doc.owner? := by
  funext a
  rw [TreeView.owner?, attr_view, Document.owner?]
  cases doc.attr? a <;> rfl

theorem name_view (doc : Document) : doc.view.name = doc.name := by
  funext x
  rw [TreeView.name, node_view, Document.name]
  cases doc.node? x <;> rfl

theorem attrName_view (doc : Document) : doc.view.attrName = doc.attrName := by
  funext a
  rw [TreeView.attrName, attr_view, Document.attrName]
  cases doc.attr? a <;> rfl

theorem node_view_eq_none : doc.view.node id = none ↔ doc.contains id = false := by
  rw [node_view, Option.map_eq_none_iff, contains, Option.isSome_eq_false_iff,
    Option.isNone_iff_eq_none]

theorem attr_view_eq_none : doc.view.attr a = none ↔ doc.containsAttr a = false := by
  rw [attr_view, Option.map_eq_none_iff, containsAttr, Option.isSome_eq_false_iff,
    Option.isNone_iff_eq_none]

/-- What stands under the handle of a node that is there. -/
theorem node_view_of_contains (h : doc.contains id = true) :
    ∃ n, doc.view.node id = some n ∧ n.kind = doc.kind id ∧ n.children = doc.children id ∧
      n.attributes = doc.attributes id :=
  ⟨_, if_pos h, rfl, rfl, rfl⟩

namespace LaidOut

/-- The lists that are read are those of the layout. -/
theorem node_view (h : LaidOut doc lay) (x : NodeId) :
    doc.view.node x =
      (doc.node? x).map fun r => r.view doc.texts (lay.children x) (lay.attributes x) := by
  rw [Document.node_view, h.children_eq, h.attributes_eq]

/-- The record of a node is changed, and what it reads as with it. -/
theorem node_view_map (h : LaidOut doc lay) (h' : LaidOut doc' lay') {x : NodeId}
    {f : NodeRecord → NodeRecord} {g : NodeView → NodeView}
    (hnode : doc'.node? x = (doc.node? x).map f)
    (hview : ∀ r, doc.node? x = some r →
      (f r).view doc'.texts (lay'.children x) (lay'.attributes x) =
        g (r.view doc.texts (lay.children x) (lay.attributes x))) :
    doc'.view.node x = (doc.view.node x).map g := by
  rw [h'.node_view, h.node_view, hnode, Option.map_map, Option.map_map]
  exact Option.map_congr hview

/-! ## Links -/

/-- Linking a node puts its handle into a list, and that is all. -/
theorem view_link (h : LaidOut doc lay) {place : Place NodeId}
    (hlinked : LaidOut (doc.link parent place id)
      (lay.withChildren parent (place.insert id (lay.children parent)))) :
    (doc.link parent place id).view = doc.view.attach parent place id := by
  ext1
  · funext x
    refine h.node_view_map hlinked (node?_link parent place id x) fun r _ => ?_
    simp only [NodeRecord.view, texts_link, Layout.withChildren, Function.update_apply]
    by_cases hx : x = parent
    · subst hx
      rfl
    · simp only [hx, if_false]
  · funext a
    rw [attr_view, attr?_link, texts_link]
    exact (attr_view doc a).symm

/-- Unlinking a node takes its handle out of its list, and that is all. -/
theorem view_unlink (h : LaidOut doc lay) (hp : doc.parent? id = some parent) :
    (doc.unlink id).view = doc.view.detach parent id := by
  obtain ⟨old, hold⟩ := contains_iff.1 (contains_of_parent? hp)
  ext1
  · funext x
    refine h.node_view_map (h.unlink hp) (node?_unlink hold x) fun r _ => ?_
    simp only [NodeRecord.view, texts_unlink, Layout.withChildren, Function.update_apply]
    by_cases hx : x = parent
    · subst hx
      rfl
    · simp only [hx, if_false]
  · funext a
    rw [attr_view, attr?_unlink, texts_unlink]
    exact (attr_view doc a).symm

/-- Linking an attribute puts its handle into a list, and that is all. -/
theorem view_linkAttr (h : LaidOut doc lay) {place : Place AttrId}
    (hlinked : LaidOut (doc.linkAttr owner place a)
      (lay.withAttributes owner (place.insert a (lay.attributes owner)))) :
    (doc.linkAttr owner place a).view = doc.view.attachAttr owner place a := by
  ext1
  · funext x
    refine h.node_view_map hlinked (node?_linkAttr owner place a x) fun r _ => ?_
    simp only [NodeRecord.view, texts_linkAttr, Layout.withAttributes, Function.update_apply]
    by_cases hx : x = owner
    · subst hx
      rfl
    · simp only [hx, if_false]
  · funext y
    simp only [TreeView.attachAttr, attr_view, attr?_linkAttr, texts_linkAttr, Option.map_map]
    rfl

end LaidOut

/-! ## New records -/

namespace LaidOut

/-- A new node stands nowhere and has nothing. -/
theorem view_allocNode (h : LaidOut doc lay) (kind : NodeKind) :
    (doc.allocNode kind).2.view =
      doc.view.addNode (doc.allocNode kind).1 (.leaf kind "" "") := by
  ext1
  · funext x
    rw [(h.allocNode kind).node_view, node?_allocNode h.nodes]
    by_cases hx : x = (doc.allocNode kind).1
    · have hfresh : doc.contains x = false := by
        rw [contains, hx, allocNode_fresh h.nodes]
        rfl
      obtain ⟨hchildren, hattributes⟩ := h.lists_of_not_contains hfresh
      rw [h.children_eq] at hchildren
      rw [h.attributes_eq] at hattributes
      simp only [TreeView.addNode, hx, if_true] at hchildren hattributes ⊢
      rw [hchildren, hattributes]
      rfl
    · simp only [TreeView.addNode, hx, if_false, h.node_view]
      rfl
  · rfl

theorem view_allocAttr (h : LaidOut doc lay) :
    doc.allocAttr.2.view = doc.view.addAttr doc.allocAttr.1 ⟨"", "", none⟩ := by
  ext1
  · funext x
    exact (h.allocAttr.node_view x).trans (h.node_view x).symm
  · funext y
    rw [attr_view, attr?_allocAttr h.attrs]
    by_cases hy : y = doc.allocAttr.1
    · simp only [TreeView.addAttr, hy, if_true]
      rfl
    · simp only [TreeView.addAttr, hy, if_false, attr_view]
      rfl

/-! ## Texts -/

/-- The texts of a node are changed. -/
theorem view_modifyNode (h : LaidOut doc lay) {f : NodeRecord → NodeRecord}
    {g : NodeView → NodeView} (hf : ∀ r, (f r).bare = r.bare)
    (hview : ∀ (r : NodeRecord) cs as, (f r).view doc.texts cs as = g (r.view doc.texts cs as)) :
    (doc.modifyNode id f).view = doc.view.modify id g := by
  have hlaid := h.sameShape (.modifyNode id hf)
  ext1
  · funext x
    refine h.node_view_map hlaid (node?_modifyNode_map id x f) fun r _ => ?_
    by_cases hx : x = id
    · simp only [hx, if_true]
      exact hview r _ _
    · simp only [hx, if_false]
      rfl
  · rfl

theorem view_modifyAttr (h : LaidOut doc lay) {f : AttrRecord → AttrRecord}
    {g : AttrView → AttrView} (hf : ∀ r, (f r).bare = r.bare)
    (hview : ∀ r : AttrRecord, (f r).view doc.texts = g (r.view doc.texts)) :
    (doc.modifyAttr a f).view = doc.view.modifyAttr a g := by
  have hlaid := h.sameShape (.modifyAttr a hf)
  ext1
  · funext x
    exact (hlaid.node_view x).trans (h.node_view x).symm
  · funext y
    simp only [TreeView.modifyAttr, attr_view, attr?_modifyAttr_map, Option.map_map]
    refine congrArg (fun k => Option.map k (doc.attr? y)) (funext fun r => ?_)
    by_cases hy : y = a
    · simp only [Function.comp_apply, hy, if_true]
      exact hview r
    · simp only [Function.comp_apply, hy, if_false]
      rfl

end LaidOut

/-- Other texts are kept, and every slot that stands in a record reads as it did. -/
theorem view_ofTexts {texts : TextStore}
    (hsame : ∀ {role slot}, doc.Uses role slot → texts.get slot = doc.texts.get slot) :
    view { doc with texts } = doc.view := by
  ext1
  · funext x
    rw [node_view, node_view]
    refine Option.map_congr fun r hr => ?_
    simp only [NodeRecord.view, hsame (.name hr), hsame (.value hr)]
    rfl
  · funext y
    rw [attr_view, attr_view]
    refine Option.map_congr fun r hr => ?_
    simp only [AttrRecord.view, hsame (.attrName hr), hsame (.attrValue hr)]

/-- Keeping another text changes nothing that is read. -/
theorem Legible.view_ownText (h : Legible doc) (text : String) :
    (doc.ownText text).2.view = doc.view :=
  view_ofTexts fun huse => (h.slots huse).get_eq (.own doc.texts text)

/-- Nor does giving one back. -/
theorem view_releaseText (doc : Document) (slot : TextSlot) :
    (doc.releaseText slot).view = doc.view :=
  view_ofTexts fun {_ slot'} _ => doc.texts.get_release slot slot'

section

variable {text : String} {slot : TextSlot} {owned : Document}

/-- A text of its own reads as what was kept. -/
theorem get_of_ownText (h : doc.ownText text = (some slot, owned)) :
    owned.texts.get slot = text := by
  obtain ⟨hslot, rfl⟩ := eq_of_ownText h
  exact (doc.texts.holds_own hslot).get_eq

theorem Legible.view_of_ownText (hlegible : Legible doc)
    (h : doc.ownText text = (some slot, owned)) : owned.view = doc.view := by
  obtain ⟨-, rfl⟩ := eq_of_ownText h
  exact hlegible.view_ownText text

/-- A text that is not too long takes the place of another one. -/
theorem Legible.view_replaceText (hlegible : Legible doc) (hshort : text.utf8ByteSize < 2 ^ 32)
    {old : TextSlot} {put : TextSlot → Document → Document} {f : TreeView → TreeView}
    (hput : ∀ slot owned, doc.ownText text = (some slot, owned) →
      (put slot owned).view = f owned.view) :
    (doc.replaceText text old put).1 = true ∧
      (doc.replaceText text old put).2.view = f doc.view := by
  obtain ⟨slot, owned, howned, -, hdone⟩ | ⟨-, hlong⟩ := doc.replaceText_cases text old put
  · rw [hdone]
    refine ⟨rfl, ?_⟩
    rw [view_releaseText, hput slot owned howned, hlegible.view_of_ownText howned]
  · exact absurd hshort hlong

end

namespace LaidOut

variable {name value : String}

theorem view_replaceName (h : LaidOut doc lay) (hlegible : Legible doc) (id : NodeId)
    (hshort : name.utf8ByteSize < 2 ^ 32) :
    (doc.replaceName id name).1 = doc.contains id ∧
      (doc.replaceName id name).2.view = doc.view.modify id fun n => { n with name } := by
  unfold Document.replaceName
  rw [contains]
  cases hold : doc.node? id with
  | none =>
    refine ⟨rfl, (TreeView.modify_eq_self ?_).symm⟩
    rw [Document.node_view, hold]
    rfl
  | some old =>
    refine hlegible.view_replaceText (f := fun v => v.modify id fun n => { n with name }) hshort
      fun slot owned howned => ?_
    refine LaidOut.view_modifyNode (h.sameShape (.of_ownText howned)) (fun _ => rfl)
      fun r cs as => ?_
    simp only [NodeRecord.view, get_of_ownText howned]

theorem view_replaceValue (h : LaidOut doc lay) (hlegible : Legible doc) (id : NodeId)
    (hshort : value.utf8ByteSize < 2 ^ 32) :
    (doc.replaceValue id value).1 = doc.contains id ∧
      (doc.replaceValue id value).2.view = doc.view.modify id fun n => { n with value } := by
  unfold Document.replaceValue
  rw [contains]
  cases hold : doc.node? id with
  | none =>
    refine ⟨rfl, (TreeView.modify_eq_self ?_).symm⟩
    rw [Document.node_view, hold]
    rfl
  | some old =>
    refine hlegible.view_replaceText (f := fun v => v.modify id fun n => { n with value }) hshort
      fun slot owned howned => ?_
    refine LaidOut.view_modifyNode (h.sameShape (.of_ownText howned)) (fun _ => rfl)
      fun r cs as => ?_
    simp only [NodeRecord.view, get_of_ownText howned]

theorem view_setName (h : LaidOut doc lay) (hlegible : Legible doc)
    (hname : (doc.kind id).hasName = true) (hshort : name.utf8ByteSize < 2 ^ 32) :
    (doc.setName id name).1 = true ∧
      (doc.setName id name).2.view = doc.view.modify id fun n => { n with name } := by
  rw [setName, if_pos hname, ← contains_of_hasName hname]
  exact h.view_replaceName hlegible id hshort

theorem view_setValue (h : LaidOut doc lay) (hlegible : Legible doc)
    (hvalue : (doc.kind id).hasValue = true) (hshort : value.utf8ByteSize < 2 ^ 32) :
    (doc.setValue id value).1 = true ∧
      (doc.setValue id value).2.view = doc.view.modify id fun n => { n with value } := by
  rw [setValue, if_pos hvalue, ← contains_of_hasValue hvalue]
  exact h.view_replaceValue hlegible id hshort

theorem view_setAttrName (h : LaidOut doc lay) (hlegible : Legible doc)
    (ha : doc.containsAttr a = true) (hshort : name.utf8ByteSize < 2 ^ 32) :
    (doc.setAttrName a name).1 = true ∧
      (doc.setAttrName a name).2.view = doc.view.modifyAttr a fun r => { r with name } := by
  obtain ⟨old, hold⟩ := containsAttr_iff.1 ha
  rw [setAttrName, hold]
  refine hlegible.view_replaceText (f := fun v => v.modifyAttr a fun r => { r with name }) hshort
    fun slot owned howned => ?_
  refine LaidOut.view_modifyAttr (h.sameShape (.of_ownText howned)) (fun _ => rfl) fun r => ?_
  simp only [AttrRecord.view, get_of_ownText howned]

theorem view_setAttrValue (h : LaidOut doc lay) (hlegible : Legible doc)
    (ha : doc.containsAttr a = true) (hshort : value.utf8ByteSize < 2 ^ 32) :
    (doc.setAttrValue a value).1 = true ∧
      (doc.setAttrValue a value).2.view = doc.view.modifyAttr a fun r => { r with value } := by
  obtain ⟨old, hold⟩ := containsAttr_iff.1 ha
  rw [setAttrValue, hold]
  refine hlegible.view_replaceText (f := fun v => v.modifyAttr a fun r => { r with value }) hshort
    fun slot owned howned => ?_
  refine LaidOut.view_modifyAttr (h.sameShape (.of_ownText howned)) (fun _ => rfl) fun r => ?_
  simp only [AttrRecord.view, get_of_ownText howned]

end LaidOut

/-! ## Dropping -/

/-- What is not given another slot reads as it did. -/
theorem Legible.get_eq (h : Legible doc) (hd : Drawn doc doc') {role : SlotRole}
    {slot : TextSlot} (huse : doc.Uses role slot) : doc'.texts.get slot = doc.texts.get slot :=
  (h.slots huse).get_eq hd.texts

/-- Taking a node out does not change what stands below it. -/
theorem below_unlink (hid : doc.contains id = true) {x : NodeId} :
    Below (doc.unlink id).parent? id x ↔ Below doc.parent? id x := by
  have hparent := parent?_unlink hid
  constructor
  · intro h
    refine h.mono fun {y p} hp => ?_
    rw [hparent] at hp
    split at hp
    · cases hp
    · exact hp
  · intro h
    induction h with
    | self => exact .self
    | @step y p hp _ ih =>
      by_cases hy : y = id
      · rw [hy]
        exact .self
      · refine .step ?_ ih
        rw [hparent, if_neg hy, hp]

namespace LaidOut

/-- A child is taken away with all that stands below it, and nothing else is touched. -/
theorem removal_drop (h : LaidOut doc lay) (hlegible : Legible doc) {child : NodeId}
    (hp : doc.parent? child = some parent) :
    doc.view.Removal parent [child] ((doc.unlink child).freeSubtree child).view := by
  have hid : doc.contains child = true := contains_of_parent? hp
  obtain ⟨old, hold⟩ := contains_iff.1 hid
  have hlaid := h.unlink hp
  obtain ⟨gone, hmem, hd, hlaid'⟩ := hlaid.freeSubtree (by rwa [contains_unlink hid])
    (by rw [parent?_unlink hid, if_pos rfl])
  have hdrawn : Drawn doc ((doc.unlink child).freeSubtree child) :=
    (Drawn.unlink child).trans (.freeSubtree child)
  have hgone : ∀ x, x ∈ gone ↔ Below doc.view.parent? child x := by
    intro x
    rw [hmem, below_unlink hid, parent?_view]
  have hattr : ∀ a, ((doc.unlink child).freeSubtree child).attr? a =
      if ∃ p ∈ gone, doc.view.owner? a = some p then none else doc.attr? a := by
    intro a
    rw [hd.attr, attr?_unlink, owner?_unlink, owner?_view]
  refine ⟨fun {c x} hc hx => ?_, fun {x} hx => ?_, fun {c p a} hc hpx ha => ?_,
    fun {a} ha => ?_⟩
  · obtain rfl := List.mem_singleton.1 hc
    rw [Document.node_view, hd.node, if_pos ((hgone x).2 hx)]
    rfl
  · have hxgone : x ∉ gone := fun hmem => hx child (by simp) ((hgone x).1 hmem)
    have hne : x ≠ child := fun heq => hxgone ((hgone x).2 (heq ▸ .self))
    have hnode := (hd.node x).trans (if_neg hxgone)
    rw [node?_unlink hold] at hnode
    refine h.node_view_map hlaid' hnode fun r hr => ?_
    have herase := erase_eq_filter_notMem (x := child) (h.childLists.nodup parent)
    simp only [NodeRecord.view, hlegible.get_eq hdrawn (.name hr),
      hlegible.get_eq hdrawn (.value hr), Layout.without, Layout.withChildren, hxgone, if_false,
      Function.update_apply, hne, herase]
    by_cases hx : x = parent
    · subst hx
      rfl
    · simp only [hx, if_false]
  · obtain rfl := List.mem_singleton.1 hc
    rw [attr_view, hattr, if_pos ⟨p, (hgone p).2 hpx, ha⟩]
    rfl
  · have hkept : ¬ ∃ p ∈ gone, doc.view.owner? a = some p := by
      rintro ⟨p, hpgone, hpa⟩
      exact ha p hpa child (by simp) ((hgone p).1 hpgone)
    rw [attr_view, attr_view, hattr, if_neg hkept]
    refine Option.map_congr fun r hr => ?_
    simp only [AttrRecord.view, hlegible.get_eq hdrawn (.attrName hr),
      hlegible.get_eq hdrawn (.attrValue hr)]

/-- An attribute is taken away, and nothing else is touched. -/
theorem view_dropAttr (h : LaidOut doc lay) (hlegible : Legible doc)
    (ha : doc.owner? a = some owner) :
    ((doc.unlinkAttr a).freeAttr a).view = doc.view.dropAttr owner a := by
  have hid : doc.containsAttr a = true := containsAttr_of_owner? ha
  obtain ⟨old, hold⟩ := containsAttr_iff.1 hid
  have hfree : (doc.unlinkAttr a).owner? a = none := by rw [owner?_unlinkAttr hid, if_pos rfl]
  have hlaid := (h.unlinkAttr ha).freeAttr hfree
  have hdrawn : Drawn doc ((doc.unlinkAttr a).freeAttr a) :=
    (Drawn.unlinkAttr a).trans (.freeAttr a)
  ext1
  · funext x
    have hnode := (node?_freeAttr a x).trans (node?_unlinkAttr hold x)
    refine h.node_view_map hlaid hnode fun r hr => ?_
    simp only [NodeRecord.view, hlegible.get_eq hdrawn (.name hr),
      hlegible.get_eq hdrawn (.value hr), Layout.withAttributes, Function.update_apply]
    by_cases hx : x = owner
    · subst hx
      rfl
    · simp only [hx, if_false]
  · funext y
    rw [attr_view, attr?_freeAttr]
    by_cases hy : y = a
    · simp only [TreeView.dropAttr, hy, if_true]
      rfl
    · simp only [TreeView.dropAttr, hy, if_false, attr_view]
      rw [attr?_unlinkAttr hold, Option.map_map]
      refine Option.map_congr fun r hr => ?_
      simp only [Function.comp_apply, AttrRecord.view, hlegible.get_eq hdrawn (.attrName hr),
        hlegible.get_eq hdrawn (.attrValue hr), hy, if_false]

end LaidOut

/-- Children of one node are taken away one after the other. -/
theorem Whole.removal_foldl (h : Whole doc) (hlegible : Legible doc) {cs : List NodeId}
    (hnodup : cs.Nodup) (hcs : ∀ c ∈ cs, doc.parent? c = some parent) :
    doc.view.Removal parent cs
      (cs.foldl (fun doc c => (doc.unlink c).freeSubtree c) doc).view := by
  induction cs generalizing doc with
  | nil => exact .nil _ _
  | cons c cs ih =>
    obtain ⟨hc, hrest⟩ := List.nodup_cons.1 hnodup
    obtain ⟨hcparent, hcs⟩ := List.forall_mem_cons.1 hcs
    have hne : ∀ d ∈ cs, d ≠ c := by
      rintro d hd rfl
      exact hc hd
    obtain ⟨hwhole, hsame⟩ := h.drop hcparent
    obtain ⟨lay, hrooted⟩ := h
    have hlater := ih hwhole (hlegible.drop c) hrest fun d hd =>
      hsame d (hcs d hd) (hne d hd)
    refine (hrooted.toLaidOut.removal_drop hlegible hcparent).cons hlater fun d hd x hx => ?_
    rw [parent?_view] at hx ⊢
    exact Below.disjoint hrooted.acyclic (hcs d hd) hcparent (hne d hd) hx

/-- Attributes of one node are taken away one after the other. -/
theorem Whole.view_foldl_dropAttr (h : Whole doc) (hlegible : Legible doc) {as : List AttrId}
    (hnodup : as.Nodup) (has : ∀ a ∈ as, doc.owner? a = some owner) :
    (as.foldl (fun doc a => (doc.unlinkAttr a).freeAttr a) doc).view =
      as.foldl (fun v a => v.dropAttr owner a) doc.view := by
  induction as generalizing doc with
  | nil => rfl
  | cons a as ih =>
    obtain ⟨ha, hrest⟩ := List.nodup_cons.1 hnodup
    obtain ⟨haowner, has⟩ := List.forall_mem_cons.1 has
    obtain ⟨hwhole, hsame⟩ := h.dropAttr haowner
    obtain ⟨lay, hrooted⟩ := h
    rw [List.foldl_cons, List.foldl_cons, ← hrooted.toLaidOut.view_dropAttr hlegible haowner]
    refine ih hwhole (hlegible.dropAttr a) hrest fun b hb => ?_
    have hne : b ≠ a := by
      rintro rfl
      exact ha hb
    rw [hsame b hne, has b hb]

/-! ## Copies -/

theorem node_view_allocNode (h : doc.nodes.Sound) (kind : NodeKind) :
    doc.view.node (doc.allocNode kind).1 = none := by
  rw [node_view, allocNode_fresh h]
  rfl

theorem attr_view_allocAttr (h : doc.attrs.Sound) : doc.view.attr doc.allocAttr.1 = none := by
  rw [attr_view, allocAttr_fresh h]
  rfl

section Copies

variable {v : TreeView} {kind : NodeKind}

/-- The texts of a new node are changed. -/
theorem LaidOut.within_modifyNode (h : LaidOut doc lay) (hv : v.Within doc.view)
    (hid : v.node id = none) {f : NodeRecord → NodeRecord} (hf : ∀ r, (f r).bare = r.bare) :
    v.Within (doc.modifyNode id f).view := by
  refine hv.of_new (fun x hx => ?_) fun _ _ => rfl
  have hne : x ≠ id := fun heq => hx (heq ▸ hid)
  rw [(h.sameShape (.modifyNode id hf)).node_view, h.node_view, node?_modifyNode, if_neg hne]
  rfl

theorem LaidOut.within_modifyAttr (h : LaidOut doc lay) (hv : v.Within doc.view)
    (ha : v.attr a = none) {f : AttrRecord → AttrRecord} (hf : ∀ r, (f r).bare = r.bare) :
    v.Within (doc.modifyAttr a f).view := by
  refine hv.of_new (fun x _ => ?_) fun y hy => ?_
  · exact ((h.sameShape (.modifyAttr a hf)).node_view x).trans (h.node_view x).symm
  · have hne : y ≠ a := fun heq => hy (heq ▸ ha)
    rw [attr_view, attr_view, attr?_modifyAttr, if_neg hne]
    rfl

/-- Two texts are kept one after the other, and nothing that is read changes. -/
theorem Legible.view_ownTexts (h : Legible doc) (name value : String) :
    ((doc.ownText name).2.ownText value).2.view = doc.view :=
  ((h.drawn (.ownText name)).view_ownText value).trans (h.view_ownText name)

/-- An attribute of a copy is new, and so is its owner. -/
theorem LaidOut.within_pushAttr (h : LaidOut doc lay) (hlegible : Legible doc)
    (hv : v.Within doc.view) (howner : v.node owner = none)
    (howns : (doc.kind owner).hasAttributes = true) (a : TreeAttribute) :
    v.Within (Document.pushAttr owner doc a).view := by
  let linked := doc.allocAttr.2.linkAttr owner .last doc.allocAttr.1
  have hlinked := h.laidOut_addAttr owner .last (.refl doc.allocAttr.2) howns
    (by simp [Place.reference?])
  have hlegible' : Legible linked := hlegible.allocAttr.drawn (.linkAttr owner .last _)
  have hfresh : v.attr doc.allocAttr.1 = none := hv.attr_eq_none (attr_view_allocAttr h.attrs)
  have hv' : v.Within linked.view := by
    rw [h.allocAttr.view_linkAttr hlinked, h.view_allocAttr]
    exact (hv.addAttr hfresh _).attachAttr howner hfresh .last
  have hvalued := hlinked.sameShape ((SameShape.ownText linked (a.name.getD "")).trans
    (.ownText _ (a.value.getD "")))
  rw [← hlegible'.view_ownTexts (a.name.getD "") (a.value.getD "")] at hv'
  exact hvalued.within_modifyAttr hv' hfresh fun _ => rfl

theorem LaidOut.within_foldl_pushAttr (h : LaidOut doc lay) (hlegible : Legible doc)
    (hv : v.Within doc.view) (howner : v.node owner = none) (as : List TreeAttribute)
    (howns : as ≠ [] → (doc.kind owner).hasAttributes = true) :
    v.Within (as.foldl (Document.pushAttr owner) doc).view := by
  induction as generalizing doc lay with
  | nil => exact hv
  | cons a as ih =>
    have hkind := howns (by simp)
    obtain ⟨⟨lay', hlaid⟩, hgrown⟩ := h.pushAttr hkind a
    refine ih hlaid (hlegible.pushAttr owner a)
      (h.within_pushAttr hlegible hv howner hkind a) fun _ => ?_
    rwa [hgrown.kind (contains_of_hasAttributes hkind)]

/-- The node that a copy begins with is new. -/
theorem LaidOut.within_buildNode (h : LaidOut doc lay) (hlegible : Legible doc)
    (hv : v.Within doc.view) (label : TreeLabel)
    (howns : label.attributes ≠ [] → label.kind.hasAttributes = true) :
    v.Within (doc.buildNode label).2.view ∧ v.node (doc.buildNode label).1 = none := by
  let made := (doc.allocNode label.kind).2
  let named := (made.ownText (label.name.getD "")).2
  let valued := (named.ownText (label.value.getD "")).2
  let done := valued.modifyNode (doc.allocNode label.kind).1 fun r =>
    { r with
      name := (made.ownText (label.name.getD "")).1.getD .null
      value := (named.ownText (label.value.getD "")).1.getD .null }
  have hmade : Legible made := hlegible.allocNode label.kind
  have hfresh : v.node (doc.allocNode label.kind).1 = none :=
    hv.node_eq_none (node_view_allocNode h.nodes label.kind)
  have hv' : v.Within valued.view := by
    rw [hmade.view_ownTexts, h.view_allocNode]
    exact hv.addNode hfresh _
  have htexts : SameShape made valued := (SameShape.ownText made _).trans (.ownText named _)
  have hvalued : LaidOut valued lay := (h.allocNode label.kind).sameShape htexts
  have hset : SameShape valued done := .modifyNode _ fun _ => rfl
  have hlegible' : Legible done :=
    (hmade.drawn (.trans (.ownText _) (.ownText _))).modifyNode _ fun r _ =>
      SlotLaw.admitsNode_own _ _ _ r
  have hkind : done.kind (doc.allocNode label.kind).1 = label.kind := by
    rw [hset.kind_eq, htexts.kind_eq, kind_allocNode h.nodes, if_pos rfl]
  refine ⟨(hvalued.sameShape hset).within_foldl_pushAttr hlegible'
    (hvalued.within_modifyNode hv' hfresh fun _ => rfl) hfresh label.attributes fun hne => ?_,
    hfresh⟩
  rw [hkind]
  exact howns hne

mutual

/-- What was there is not touched while a copy is built. -/
theorem LaidOut.within_build {doc : Document} {lay : Layout} (h : LaidOut doc lay)
    (hlegible : Legible doc) (hv : v.Within doc.view) (t : Tree) (ht : t.Lawful) :
    v.Within (doc.build t).2.view ∧ v.node (doc.build t).1 = none := by
  match t, ht with
  | .node label children, .node howns hallowed hbelow =>
    have hnode := h.buildNode label howns
    obtain ⟨lay', hlaid⟩ := hnode.laid
    obtain ⟨hv', hfresh⟩ := h.within_buildNode hlegible hv label howns
    refine ⟨LaidOut.within_buildBelow hlaid (hlegible.buildNode label) hv' hfresh children hbelow
      fun t ht => ?_, hfresh⟩
    rw [hnode.kind_eq]
    exact hallowed t ht

/-- Copies that are put below a node that is new. -/
theorem LaidOut.within_buildBelow {doc : Document} {lay : Layout} (h : LaidOut doc lay)
    (hlegible : Legible doc) (hv : v.Within doc.view) {parent : NodeId}
    (hparent : v.node parent = none) (ts : List Tree) (hts : ∀ t ∈ ts, t.Lawful)
    (hallowed : ∀ t ∈ ts, (doc.kind parent).allowsChild t.label.kind = true) :
    v.Within (Document.buildBelow doc parent ts).view := by
  match ts with
  | [] => exact hv
  | t :: ts =>
    obtain ⟨ht, hrest⟩ := List.forall_mem_cons.1 hts
    obtain ⟨hallowedt, hallowedrest⟩ := List.forall_mem_cons.1 hallowed
    have hlive : doc.contains parent = true :=
      contains_of_kind_ne (kind_ne_null_of_allowsChild hallowedt)
    have hsprout := h.build t ht
    obtain ⟨lay', hbuilt⟩ := hsprout.laid
    obtain ⟨hv', hfresh⟩ := LaidOut.within_build h hlegible hv t ht
    have hlinked := hsprout.laidOut_link h hbuilt parent .last hallowedt
      (by simp [Place.reference?])
    have hgrown : Grown doc ((doc.build t).2.link parent .last (doc.build t).1) [] :=
      hsprout.grown.link hsprout.contains
    refine LaidOut.within_buildBelow hlinked ((hlegible.build t).drawn (.link parent .last _)) ?_
      hparent ts hrest fun t ht => ?_
    · rw [hbuilt.view_link hlinked]
      exact hv'.attach hparent hfresh .last
    · rw [hgrown.kind hlive]
      exact hallowedrest t ht

end

/-- The lists of a node that was there are as they were. -/
theorem lists_of_within (hw : doc.view.Within doc'.view) (hid : doc.contains id = true) :
    doc'.children id = doc.children id ∧ doc'.attributes id = doc.attributes id := by
  obtain ⟨n, hn, -, hchildren, hattributes⟩ := node_view_of_contains hid
  have hid' : doc'.contains id = true := by
    cases hc : doc'.contains id with
    | true => rfl
    | false =>
      have hnone := hw.node hn
      rw [node_view_eq_none.2 hc] at hnone
      cases hnone
  obtain ⟨n', hn', -, hchildren', hattributes'⟩ := node_view_of_contains hid'
  obtain rfl : n = n' := Option.some.inj ((hw.node hn).symm.trans hn')
  exact ⟨hchildren'.symm.trans hchildren, hattributes'.symm.trans hattributes⟩

/-- All that is new hangs below the new node. -/
theorem Sprouted.below (h : Sprouted doc doc' id kind) (hdoc : LaidOut doc lay)
    (hdoc' : LaidOut doc' lay') (hw : doc.view.Within doc'.view) {x : NodeId}
    (hnew : doc.contains x = false) (hx : doc'.contains x = true) :
    Below doc'.parent? id x := by
  obtain ⟨depth, hdepth⟩ := hdoc'.acyclic
  induction hn : depth x using Nat.strongRecOn generalizing x with
  | ind n ih =>
    cases hp : doc'.parent? x with
    | none =>
      obtain rfl := List.mem_singleton.1 (h.grown.placed hx hnew hp)
      exact .self
    | some p =>
      refine .step hp (ih (depth p) (hn ▸ hdepth hp) ?_ (hdoc'.contains_parent hp) rfl)
      -- a node that was there has no new child
      cases hold : doc.contains p with
      | false => rfl
      | true =>
        have hmem := hdoc'.mem_children.2 hp
        rw [(lists_of_within hw hold).1, hdoc.mem_children] at hmem
        rw [contains_of_parent? hmem] at hnew
        cases hnew

/-- What is built outside of the tree, as it is viewed. -/
theorem Sprouted.sprouts (h : Sprouted doc doc' id kind) (hdoc : LaidOut doc lay)
    (hw : doc.view.Within doc'.view) : doc.view.Sprouts doc'.view id := by
  obtain ⟨lay', hdoc'⟩ := h.laid
  have hlive : ∀ x, doc'.view.node x ≠ none → doc'.contains x = true := fun x hx => by
    simpa [node_view_eq_none] using hx
  refine ⟨hw, node_view_eq_none.2 (h.grown.fresh (by simp)), ?_, fun {x} hnew hx => ?_,
    fun {a} hnew ha => ?_⟩
  · exact ⟨_, if_pos h.contains, h.top⟩
  · rw [parent?_view]
    exact h.below hdoc hdoc' hw (node_view_eq_none.1 hnew) (hlive x hx)
  · have ha' : doc'.containsAttr a = true := by simpa [attr_view_eq_none] using ha
    obtain ⟨p, hp⟩ := h.grown.owned ha' (attr_view_eq_none.1 hnew)
    rw [parent?_view, owner?_view]
    refine ⟨p, hp, h.below hdoc hdoc' hw ?_ (hdoc'.contains_owner hp)⟩
    -- a node that was there has no new attribute
    cases hold : doc.contains p with
    | false => rfl
    | true =>
      have hmem := hdoc'.mem_attributes.2 hp
      rw [(lists_of_within hw hold).2, hdoc.mem_attributes] at hmem
      rw [attr_view_eq_none, containsAttr_of_owner? hmem] at hnew
      cases hnew

end Copies

end Document

end XmlTree
