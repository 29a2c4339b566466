/-
  Proofs/Built.lean --- documents that edits build from nothing.

  WHAT THIS FILE IS FOR.  A load may embed a text in an element, and such a text is not
  read back as what it was.  Edits do not: they give a name only to nodes whose kind has a
  name, and a value only to nodes whose kind has one.  So the tree of a document that was
  built by edits alone is unadorned.

  HOW IT IS SHOWN.  Most edits only rearrange or drop records and leave the kind, name and
  value of what stays as they were.  The few that write a text look at the kind first.
-/
import XmlTree.Proofs.Canonical
import XmlTree.Proofs.TreeShape

set_option autoImplicit false

namespace XmlTree

/-- A record that has a name and a value only if its kind has one. -/
def NodeRecord.Unadorned (r : NodeRecord) : Prop :=
  (r.kind.hasName = false → r.name = .null) ∧ (r.kind.hasValue = false → r.value = .null)

/-- Changes that read a text. -/
def Change.isLoad : Change → Bool
  | loadString .. | loadBytes .. | loadFetched .. | appendBytes .. => true
  | _ => false

namespace Document

variable {doc doc' doc'' source : Document}

/-- A document that edits lead to from the new one, without any load; documents that
something is copied from were built so themselves. -/
inductive Built : Document → Prop where
  | new : Built .new
  | change {doc : Document} (c : Change) (before : Built doc) (edit : c.isLoad = false)
      (source : ∀ s, c.source? = some s → Built s) : Built (doc.apply c).2
  | ranked {doc : Document} (before : Built doc) : Built doc.withRanks

theorem Built.reachable (h : Built doc) : Reachable doc := by
  induction h with
  | new => exact .new
  | change c _ _ _ ih ihsource => exact .change c ih ihsource
  | ranked _ ih => exact .ranked ih

/-! ## Records that stay as they were -/

/-- Every record has the kind, name and value that it had before. -/
structure Narrowed (doc doc' : Document) : Prop where
  sound : doc.nodes.Sound → doc'.nodes.Sound
  node : ∀ {x r'}, doc'.node? x = some r' →
    ∃ r, doc.node? x = some r ∧ r'.kind = r.kind ∧ r'.name = r.name ∧ r'.value = r.value

namespace Narrowed

/-- The node records are the same. -/
theorem of_nodes (h : doc'.nodes = doc.nodes) : Narrowed doc doc' where
  sound hsound := h ▸ hsound
  node {x r'} hr := by
    rw [node?, h] at hr
    exact ⟨r', hr, rfl, rfl, rfl⟩

theorem refl (doc : Document) : Narrowed doc doc := of_nodes rfl

theorem ownText (text : String) : Narrowed doc (doc.ownText text).2 := of_nodes rfl

theorem of_ownText {text : String} {slot : TextSlot} {owned : Document}
    (h : doc.ownText text = (some slot, owned)) : Narrowed doc owned := by
  obtain ⟨-, rfl⟩ := eq_of_ownText h
  exact ownText text

theorem releaseText (slot : TextSlot) : Narrowed doc (doc.releaseText slot) := of_nodes rfl

theorem allocAttr : Narrowed doc doc.allocAttr.2 := of_nodes rfl

theorem modifyAttr (id : AttrId) (f : AttrRecord → AttrRecord) :
    Narrowed doc (doc.modifyAttr id f) := of_nodes rfl

theorem forgetOrder : Narrowed doc doc.forgetOrder := of_nodes rfl

theorem trans (h : Narrowed doc doc') (h' : Narrowed doc' doc'') : Narrowed doc doc'' where
  sound := h'.sound ∘ h.sound
  node hr := by
    obtain ⟨r', hr', hkind', hname', hvalue'⟩ := h'.node hr
    obtain ⟨r, hr, hkind, hname, hvalue⟩ := h.node hr'
    exact ⟨r, hr, hkind'.trans hkind, hname'.trans hname, hvalue'.trans hvalue⟩

/-- Records are changed one by one, and not their kind, name and value. -/
theorem of_map (hslots : SameSlots doc doc') {f : NodeId → NodeRecord → NodeRecord}
    (hnode : ∀ x, doc'.node? x = (doc.node? x).map (f x))
    (hf : ∀ x r, (f x r).kind = r.kind ∧ (f x r).name = r.name ∧ (f x r).value = r.value) :
    Narrowed doc doc' where
  sound := hslots.nodes
  node {x r'} hr := by
    rw [hnode, Option.map_eq_some_iff] at hr
    obtain ⟨r, hr, rfl⟩ := hr
    exact ⟨r, hr, hf x r⟩

theorem link (parent : NodeId) (place : Place NodeId) (id : NodeId) :
    Narrowed doc (doc.link parent place id) :=
  of_map (.link parent place id) (node?_link parent place id) fun _ _ => ⟨rfl, rfl, rfl⟩

theorem unlink (id : NodeId) : Narrowed doc (doc.unlink id) := by
  cases hold : doc.node? id with
  | none =>
    have hsame : doc.unlink id = doc := by rw [Document.unlink, hold]
    rw [hsame]
    exact refl doc
  | some old => exact of_map (.unlink id) (node?_unlink hold) fun _ _ => ⟨rfl, rfl, rfl⟩

theorem linkAttr (owner : NodeId) (place : Place AttrId) (id : AttrId) :
    Narrowed doc (doc.linkAttr owner place id) :=
  of_map (.linkAttr owner place id) (node?_linkAttr owner place id) fun _ _ => ⟨rfl, rfl, rfl⟩

theorem unlinkAttr (id : AttrId) : Narrowed doc (doc.unlinkAttr id) := by
  cases hold : doc.attr? id with
  | none =>
    have hsame : doc.unlinkAttr id = doc := by rw [Document.unlinkAttr, hold]
    rw [hsame]
    exact refl doc
  | some old => exact of_map (.unlinkAttr id) (node?_unlinkAttr hold) fun _ _ => ⟨rfl, rfl, rfl⟩

theorem freeAttr (a : AttrId) : Narrowed doc (doc.freeAttr a) where
  sound := (SameSlots.freeAttr a).nodes
  node {x r'} hr := by
    rw [node?_freeAttr] at hr
    exact ⟨r', hr, rfl, rfl, rfl⟩

/-- Steps that narrow narrow one after the other. -/
theorem foldl {α : Type} {f : Document → α → Document}
    (hf : ∀ doc a, Narrowed doc (f doc a)) (as : List α) (doc : Document) :
    Narrowed doc (as.foldl f doc) := by
  induction as generalizing doc with
  | nil => exact refl doc
  | cons a as ih => exact (hf doc a).trans (ih (f doc a))

theorem freeNode (id : NodeId) : Narrowed doc (doc.freeNode id) := by
  unfold Document.freeNode
  simp only
  split
  · rename_i r nodes hremove
    have hdropped : Narrowed doc { doc with nodes } :=
      { sound := fun hsound => hsound.remove? hremove
        node := fun {x r'} hr => by
          have hget := (SlotStore.get?_of_remove? hremove).2 x.handle
          have hr' : nodes.get? x.handle = some r' := hr
          rw [hget] at hr'
          split at hr'
          · cases hr'
          · exact ⟨r', hr', rfl, rfl, rfl⟩ }
    refine hdropped.trans (.trans (of_nodes ?_) (foldl (fun _ a => freeAttr a) _ _))
    rfl
  · exact refl doc

theorem freeSubtree (id : NodeId) : Narrowed doc (doc.freeSubtree id) :=
  foldl (fun _ x => freeNode x) _ _

theorem drop (id : NodeId) : Narrowed doc ((doc.unlink id).freeSubtree id) :=
  (unlink id).trans (freeSubtree id)

theorem dropAttr (a : AttrId) : Narrowed doc ((doc.unlinkAttr a).freeAttr a) :=
  (unlinkAttr a).trans (freeAttr a)

end Narrowed

/-! ## Tidy documents -/

/-- No record has a name or a value that its kind has not. -/
structure Tidy (doc : Document) : Prop where
  sound : doc.nodes.Sound
  unadorned : ∀ {x r}, doc.node? x = some r → r.Unadorned

namespace Tidy

theorem narrowed (h : Tidy doc) (hn : Narrowed doc doc') : Tidy doc' where
  sound := hn.sound h.sound
  unadorned {x r'} hr := by
    obtain ⟨r, hr, hkind, hname, hvalue⟩ := hn.node hr
    rw [NodeRecord.Unadorned, hkind, hname, hvalue]
    exact h.unadorned hr

/-- The record of one node is changed. -/
theorem modifyNode (h : Tidy doc) (id : NodeId) {f : NodeRecord → NodeRecord}
    (hf : ∀ r, doc.node? id = some r → (f r).Unadorned) : Tidy (doc.modifyNode id f) where
  sound := h.sound.modify _ _
  unadorned {x r'} hr := by
    rw [node?_modifyNode_map, Option.map_eq_some_iff] at hr
    obtain ⟨r, hr, rfl⟩ := hr
    split
    · rename_i hx
      exact hf r (hx ▸ hr)
    · exact h.unadorned hr

theorem allocNode (h : Tidy doc) (kind : NodeKind) : Tidy (doc.allocNode kind).2 where
  sound := h.sound.insert _
  unadorned {x r} hr := by
    rw [node?_allocNode h.sound] at hr
    split at hr
    · obtain rfl := Option.some.inj hr
      exact ⟨fun _ => rfl, fun _ => rfl⟩
    · exact h.unadorned hr

theorem kind_eq {id : NodeId} {r : NodeRecord} (hr : doc.node? id = some r) :
    doc.kind id = r.kind := by
  rw [Document.kind, hr]
  rfl

theorem replaceName (h : Tidy doc) {id : NodeId} (hkind : (doc.kind id).hasName = true)
    (name : String) : Tidy (doc.replaceName id name).2 := by
  unfold Document.replaceName
  split
  · refine replaceText_induction h fun slot owned howned => ?_
    have hsame := node?_of_ownText howned id
    refine Tidy.narrowed (Tidy.modifyNode (h.narrowed (.of_ownText howned)) id
      fun r hr => ⟨fun hnone => ?_, ?_⟩) (.releaseText _)
    · have hnone : r.kind.hasName = false := hnone
      rw [hsame] at hr
      rw [kind_eq hr, hnone] at hkind
      cases hkind
    · rw [hsame] at hr
      exact (h.unadorned hr).2
  · exact h

theorem replaceValue (h : Tidy doc) {id : NodeId} (hkind : (doc.kind id).hasValue = true)
    (value : String) : Tidy (doc.replaceValue id value).2 := by
  unfold Document.replaceValue
  split
  · refine replaceText_induction h fun slot owned howned => ?_
    have hsame := node?_of_ownText howned id
    refine Tidy.narrowed (Tidy.modifyNode (h.narrowed (.of_ownText howned)) id
      fun r hr => ⟨?_, fun hnone => ?_⟩) (.releaseText _)
    · rw [hsame] at hr
      exact (h.unadorned hr).1
    · have hnone : r.kind.hasValue = false := hnone
      rw [hsame] at hr
      rw [kind_eq hr, hnone] at hkind
      cases hkind
  · exact h

theorem setName (h : Tidy doc) (id : NodeId) (name : String) : Tidy (doc.setName id name).2 := by
  unfold Document.setName
  split
  · rename_i hkind
    exact h.replaceName hkind name
  · exact h

theorem setValue (h : Tidy doc) (id : NodeId) (value : String) :
    Tidy (doc.setValue id value).2 := by
  unfold Document.setValue
  split
  · rename_i hkind
    exact h.replaceValue hkind value
  · exact h

/-! ## Reading a subtree -/

theorem textOf?_null : doc.textOf? .null = none := rfl

/-- What is read off a tidy document is unadorned. -/
theorem unadorned_treeUpTo (h : Tidy doc) (depth : Nat) (id : NodeId) :
    (doc.treeUpTo depth id).Unadorned := by
  induction depth generalizing id with
  | zero => exact .node (fun _ => rfl) (fun _ => rfl) (by simp)
  | succ depth ih =>
    refine .node (fun hkind => ?_) (fun hkind => ?_) fun t ht => ?_
    · unfold labelOf at hkind ⊢
      cases hr : doc.node? id with
      | none => rfl
      | some r =>
        simp only [hr] at hkind ⊢
        rw [(h.unadorned hr).1 hkind, textOf?_null]
    · unfold labelOf at hkind ⊢
      cases hr : doc.node? id with
      | none => rfl
      | some r =>
        simp only [hr] at hkind ⊢
        rw [(h.unadorned hr).2 hkind, textOf?_null]
    · obtain ⟨c, -, rfl⟩ := List.mem_map.1 ht
      exact ih c

theorem unadorned_tree (h : Tidy doc) (id : NodeId) : (doc.tree id).Unadorned :=
  h.unadorned_treeUpTo _ id

/-! ## Copies -/

theorem pushAttr (h : Tidy doc) (owner : NodeId) (a : TreeAttribute) :
    Tidy (Document.pushAttr owner doc a) := by
  let linked := doc.allocAttr.2.linkAttr owner .last doc.allocAttr.1
  have hlinked : Narrowed doc linked := Narrowed.allocAttr.trans (.linkAttr owner .last _)
  have htexts : Narrowed linked (Document.pushAttr owner doc a) :=
    ((Narrowed.ownText (a.name.getD "")).trans (Narrowed.ownText (a.value.getD ""))).trans
      (Narrowed.modifyAttr _ _)
  exact h.narrowed (hlinked.trans htexts)

theorem foldl_pushAttr (h : Tidy doc) (owner : NodeId) (as : List TreeAttribute) :
    Tidy (as.foldl (Document.pushAttr owner) doc) := by
  induction as generalizing doc with
  | nil => exact h
  | cons a as ih => exact ih (h.pushAttr owner a)

theorem buildNode (h : Tidy doc) {l : TreeLabel}
    (hname : l.kind.hasName = false → l.name = none)
    (hvalue : l.kind.hasValue = false → l.value = none) : Tidy (doc.buildNode l).2 := by
  let made := (doc.allocNode l.kind).2
  let named := (made.ownText (l.name.getD "")).2
  let valued := (named.ownText (l.value.getD "")).2
  have hmade : Tidy made := h.allocNode l.kind
  have hvalued : Tidy valued := hmade.narrowed (.trans (.ownText _) (.ownText _))
  have hkind : ∀ r, valued.node? (doc.allocNode l.kind).1 = some r → r.kind = l.kind := by
    intro r hr
    have hr' : made.node? (doc.allocNode l.kind).1 = some r := hr
    rw [node?_allocNode h.sound, if_pos rfl] at hr'
    obtain rfl := Option.some.inj hr'
    rfl
  refine Tidy.foldl_pushAttr (hvalued.modifyNode _ fun r hr => ⟨fun hnone => ?_, fun hnone => ?_⟩)
    _ _
  · have hnone : r.kind.hasName = false := hnone
    rw [hkind r hr] at hnone
    show (made.ownText (l.name.getD "")).1.getD .null = .null
    rw [hname hnone]
    rfl
  · have hnone : r.kind.hasValue = false := hnone
    rw [hkind r hr] at hnone
    show (named.ownText (l.value.getD "")).1.getD .null = .null
    rw [hvalue hnone]
    rfl

end Tidy

mutual

/-- An unadorned tree is built from tidy records. -/
theorem Tidy.build {doc : Document} (h : Tidy doc) (t : Tree) (ht : t.Unadorned) :
    Tidy (doc.build t).2 := by
  match t, ht with
  | .node l children, .node hname hvalue hbelow =>
    exact Tidy.buildBelow (h.buildNode hname hvalue) (doc.buildNode l).1 children hbelow

theorem Tidy.buildBelow {doc : Document} (h : Tidy doc) (parent : NodeId) (ts : List Tree)
    (hts : ∀ t ∈ ts, t.Unadorned) : Tidy (Document.buildBelow doc parent ts) := by
  match ts with
  | [] => exact h
  | t :: ts =>
    obtain ⟨ht, hrest⟩ := List.forall_mem_cons.1 hts
    exact Tidy.buildBelow ((Tidy.build h t ht).narrowed (.link parent .last _)) parent ts hrest

end

namespace Tidy

theorem insertTree (h : Tidy doc) (parent : NodeId) (kind : NodeKind) {t : Tree}
    (ht : t.Unadorned) (place : Place NodeId) : Tidy (doc.insertTree parent kind t place).2 := by
  unfold Document.insertTree
  split
  · exact (h.build t ht).narrowed (.trans (.link parent place _) .forgetOrder)
  · exact h

theorem insertCopyFrom (h : Tidy doc) (hsource : Tidy source) (parent proto : NodeId)
    (place : Place NodeId) : Tidy (doc.insertCopyFrom parent source proto place).2 :=
  h.insertTree parent _ (hsource.unadorned_tree proto) place

theorem copyTops (h : Tidy doc) (hsource : Tidy source) (cs : List NodeId) :
    Tidy (doc.copyTops source cs) := by
  induction cs generalizing doc with
  | nil => exact h
  | cons c cs ih =>
    have hcopy := h.insertCopyFrom hsource doc.root c .last
    unfold Document.copyTops
    split
    · rename_i heq
      rw [heq] at hcopy
      exact ih hcopy
    · rename_i heq
      rw [heq] at hcopy
      exact hcopy

/-! ## Edits -/

theorem withRoot (hsound : doc.nodes.Sound) (hnode : ∀ x, doc.node? x = none) :
    Tidy doc.withRoot := by
  have hdoc : Tidy doc := ⟨hsound, fun {x r} hr => by
    rw [hnode] at hr
    cases hr⟩
  exact (hdoc.allocNode .document).narrowed (.of_nodes rfl)

theorem reset (doc : Document) : Tidy doc.reset :=
  withRoot SlotStore.sound_clear fun _ => SlotStore.get?_clear _

/-- A new node is of the kind that was asked for, and it is tidy. -/
theorem insertChild (h : Tidy doc) (parent : NodeId) (kind : NodeKind) (place : Place NodeId) :
    Tidy (doc.insertChild parent kind place).2 ∧
      ∀ id, (doc.insertChild parent kind place).1 = some id →
        (doc.insertChild parent kind place).2.kind id = kind := by
  unfold Document.insertChild
  split
  · let made := (doc.allocNode kind).2
    have hmade : Tidy made := h.allocNode kind
    have hkind : made.kind (doc.allocNode kind).1 = kind := by
      rw [kind_allocNode h.sound, if_pos rfl]
    have hnamed : Tidy (if kind = .declaration then
        (made.replaceName (doc.allocNode kind).1 "xml").2 else made) := by
      split
      · rename_i hdeclaration
        refine hmade.replaceName ?_ _
        rw [hkind, hdeclaration]
        rfl
      · exact hmade
    refine ⟨hnamed.narrowed (.trans (.link parent place _) .forgetOrder), fun id hid => ?_⟩
    obtain rfl := Option.some.inj hid
    refine (kind_link parent place _).trans ?_
    split
    · rw [(SameShape.replaceName _ _).kind_eq]
      exact hkind
    · exact hkind
  · exact ⟨h, fun id hid => by cases hid⟩

theorem removeChild (h : Tidy doc) (parent child : NodeId) :
    Tidy (doc.removeChild parent child).2 := by
  unfold Document.removeChild
  split
  · exact h.narrowed (.drop child)
  · exact h

theorem insertElement (h : Tidy doc) (parent : NodeId) (name : String) (place : Place NodeId) :
    Tidy (doc.insertElement parent name place).2 :=
  insertElement_induction (h.insertChild parent .element place).1
    (fun _ id hmade => hmade.setName id name) fun _ id hmade => hmade.removeChild parent id

/-- No text is embedded in an element. -/
theorem kind_textHolder? (h : Tidy doc) {id holder : NodeId}
    (hholder : doc.textHolder? id = some holder) : (doc.kind holder).isText = true := by
  unfold textHolder? at hholder
  split at hholder
  · rename_i r hr
    split at hholder
    · rename_i hown
      obtain rfl := Option.some.inj hholder
      rw [kind_eq hr]
      rcases Bool.or_eq_true_iff.1 hown with htext | hembedded
      · exact htext
      · simp only [Bool.and_eq_true, decide_eq_true_eq] at hembedded
        have hnull := (h.unadorned hr).2 (by rw [hembedded.1]; rfl)
        rw [hnull] at hembedded
        cases hembedded.2
    · have htext := List.find?_some (p := fun c => (doc.kind c).isText) hholder
      exact htext
  · cases hholder

theorem setContent (h : Tidy doc) (id : NodeId) (text : String) :
    Tidy (doc.setContent id text).2 := by
  unfold Document.setContent
  split
  · rename_i holder hholder
    split
    · rename_i helement
      have htext := h.kind_textHolder? hholder
      rw [helement] at htext
      cases htext
    · exact h.setValue holder text
  · obtain ⟨hchild, -⟩ := h.insertChild id .pcdata .last
    split
    · rename_i heq
      rw [heq] at hchild
      exact hchild.setValue _ text
    · rename_i heq
      rw [heq] at hchild
      exact hchild

theorem insertAttribute (h : Tidy doc) (owner : NodeId) (name value : String)
    (place : Place AttrId) : Tidy (doc.insertAttribute owner name value place).2 := by
  obtain ⟨nameSlot, named, valueSlot, valued, -, hnamed, hvalued, hdone⟩ |
    ⟨nameSlot, named, -, hnamed, -, hdone⟩ | ⟨-, hdone⟩ :=
      doc.insertAttribute_cases owner name value place
  · have howned : Narrowed doc valued := (Narrowed.of_ownText hnamed).trans (.of_ownText hvalued)
    rw [hdone]
    exact h.narrowed (howned.trans
      ((Narrowed.allocAttr.trans (.modifyAttr _ _)).trans (.linkAttr owner place _)))
  · rw [hdone]
    exact h.narrowed ((Narrowed.of_ownText hnamed).trans (.releaseText nameSlot))
  · rw [hdone]
    exact h

theorem setAttrName (h : Tidy doc) (id : AttrId) (name : String) :
    Tidy (doc.setAttrName id name).2 := by
  unfold Document.setAttrName
  split
  · refine replaceText_induction h fun slot owned howned => ?_
    exact h.narrowed (((Narrowed.of_ownText howned).trans (.modifyAttr id _)).trans
      (.releaseText _))
  · exact h

theorem setAttrValue (h : Tidy doc) (id : AttrId) (value : String) :
    Tidy (doc.setAttrValue id value).2 := by
  unfold Document.setAttrValue
  split
  · refine replaceText_induction h fun slot owned howned => ?_
    exact h.narrowed (((Narrowed.of_ownText howned).trans (.modifyAttr id _)).trans
      (.releaseText _))
  · exact h

theorem removeAttribute (h : Tidy doc) (owner : NodeId) (a : AttrId) :
    Tidy (doc.removeAttribute owner a).2 := by
  unfold Document.removeAttribute
  split
  · exact h.narrowed (.dropAttr a)
  · exact h

/-- Every edit keeps the document tidy, if what it copies from is tidy. -/
theorem apply (h : Tidy doc) (c : Change) (hedit : c.isLoad = false)
    (hsource : ∀ s, c.source? = some s → Tidy s) : Tidy (doc.apply c).2 := by
  cases c with
  | loadString _ _ | loadBytes _ _ _ | loadFetched _ _ _ | appendBytes _ _ _ _ => cases hedit
  | reset => exact Tidy.reset doc
  | resetFrom source => exact (Tidy.reset doc).copyTops (hsource source rfl) _
  | insertChild parent kind place => exact (h.insertChild parent kind place).1
  | insertElement parent name place => exact h.insertElement parent name place
  | insertCopy parent proto place => exact h.insertCopyFrom h parent proto place
  | insertCopyFrom parent source proto place =>
    exact h.insertCopyFrom (hsource source rfl) parent proto place
  | insertMove parent moved place =>
    show Tidy (doc.insertMove parent moved place).2
    unfold Document.insertMove
    split
    · exact h.narrowed ((Narrowed.unlink moved).trans
        (.trans (.link parent place moved) .forgetOrder))
    · exact h
  | removeChild parent child => exact h.removeChild parent child
  | removeChildNamed parent name =>
    show Tidy (doc.removeChildNamed parent name).2
    unfold Document.removeChildNamed
    split
    · exact h.removeChild parent _
    · exact h
  | removeChildren parent =>
    show Tidy (doc.removeChildren parent).2
    unfold Document.removeChildren
    split
    · exact h.narrowed (.foldl (fun _ c => .drop c) _ _)
    · exact h
  | insertAttribute owner name value place => exact h.insertAttribute owner name value place
  | setAttribute owner name value =>
    show Tidy (doc.setAttribute owner name value).2
    unfold Document.setAttribute
    split
    · exact h.setAttrValue _ value
    · exact h.insertAttribute owner name value .last
  | insertAttributeCopy owner proto place =>
    show Tidy (doc.insertAttributeCopy owner proto place).2
    unfold Document.insertAttributeCopy
    split
    · exact h.insertAttribute owner _ _ place
    · exact h
  | removeAttribute owner a => exact h.removeAttribute owner a
  | removeAttributeNamed owner name =>
    show Tidy (doc.removeAttributeNamed owner name).2
    unfold Document.removeAttributeNamed
    split
    · exact h.removeAttribute owner _
    · exact h
  | removeAttributes owner =>
    show Tidy (doc.removeAttributes owner).2
    unfold Document.removeAttributes
    split
    · exact h.narrowed (.foldl (fun _ a => .dropAttr a) _ _)
    · exact h
  | setName id name => exact h.setName id name
  | setValue id value => exact h.setValue id value
  | setContent id text => exact h.setContent id text
  | setAttrName id name => exact h.setAttrName id name
  | setAttrValue id value => exact h.setAttrValue id value

theorem withRanks (h : Tidy doc) : Tidy doc.withRanks := by
  unfold Document.withRanks
  split
  · exact h.narrowed (.of_nodes rfl)
  · exact h

end Tidy

theorem Built.tidy (h : Built doc) : Tidy doc := by
  induction h with
  | new => exact .withRoot SlotStore.sound_empty fun _ => rfl
  | change c _ hedit _ ih ihsource => exact ih.apply c hedit ihsource
  | ranked _ ih => exact ih.withRanks

/-- Changes that read no text build what they lead to from what was built. -/
theorem Built.applyAll (h : Built doc) {changes : List Change}
    (hedits : ∀ c ∈ changes, c.isLoad = false ∧ c.source? = none) :
    Built (doc.applyAll changes) := by
  induction changes generalizing doc with
  | nil => exact h
  | cons c cs ih =>
    obtain ⟨⟨hedit, hsource⟩, hrest⟩ := List.forall_mem_cons.1 hedits
    have hstep : Built (doc.apply c).2 :=
      .change c h hedit fun s hs => by
        rw [hsource] at hs
        cases hs
    exact ih hstep hrest

end Document

end XmlTree
