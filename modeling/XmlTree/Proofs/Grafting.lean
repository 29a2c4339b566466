/-
  Proofs/Grafting.lean --- a copy of a subtree stands alone.

  WHAT THIS FILE IS FOR.  A copy goes to a place below a node of the document, which may stand
  below the pattern of the copy.  It reads as the pattern did before; its nodes and attributes
  are new; its texts are its own; and nothing else changes but the children of the one node.

  WHERE THE PATTERN COMES FROM makes no difference.  The subtree of another document is copied
  like one of this document, so what is said of the one is said of both.

  TEXTS OF ITS OWN.  The records that were there before may go on reading ranges of a loaded
  text.  Of the new ones every slot is null or a copy: what is made at first has none, and
  what is written into it was kept just before.
-/
import XmlTree.Proofs.Duplicating
import XmlTree.Proofs.Refinement

set_option autoImplicit false

namespace XmlTree

/-! ## Reading a copy -/

theorem TreeAttribute.plain_copied (a : TreeAttribute) : a.copied.plain = a.plain := by
  simp only [plain, copied, nameText, valueText, copiedText_getD]

theorem TreeLabel.plain_copied (l : TreeLabel) : l.copied.plain = l.plain := by
  simp only [plain, copied, nameText, valueText, copiedText_getD, List.map_map,
    Function.comp_def, TreeAttribute.plain_copied]

mutual

/-- A copy has the kinds, names, values and attributes of its pattern. -/
theorem Tree.plain_copied (t : Tree) : t.copied.plain = t.plain := by
  match t with
  | .node l children =>
    rw [Tree.copied, Tree.plain, Tree.plain, TreeLabel.plain_copied,
      Tree.allPlain_allCopied children]

theorem Tree.allPlain_allCopied (ts : List Tree) :
    Tree.allPlain (Tree.allCopied ts) = Tree.allPlain ts := by
  match ts with
  | [] => rfl
  | t :: ts =>
    rw [Tree.allCopied, Tree.allPlain, Tree.allPlain, Tree.plain_copied t,
      Tree.allPlain_allCopied ts]

end

/-! ## Texts of new records -/

/-- A text that was kept is no range of a loaded text. -/
theorem TextStore.isBorrowed_own (s : TextStore) (text : String) :
    ((s.own text).1.getD .null).isBorrowed = false := by
  unfold own
  split
  · rfl
  · split
    · rfl
    · rfl

/-- Neither the name nor the value of a node is a range of a loaded text. -/
def NodeRecord.OwnsTexts (r : NodeRecord) : Prop :=
  r.name.isBorrowed = false ∧ r.value.isBorrowed = false

/-- Neither the name nor the value of an attribute is a range of a loaded text. -/
def AttrRecord.OwnsTexts (r : AttrRecord) : Prop :=
  r.name.isBorrowed = false ∧ r.value.isBorrowed = false

namespace Document

variable {doc doc' doc'' source : Document} {lay : Layout}

/-- What is there now and was not before has texts of its own. -/
structure NewOwnsTexts (doc doc' : Document) : Prop where
  nodes : doc'.nodes.Sound
  attrs : doc'.attrs.Sound
  node : ∀ {x r}, doc'.node? x = some r → doc.contains x = false → r.OwnsTexts
  attr : ∀ {a r}, doc'.attr? a = some r → doc.containsAttr a = false → r.OwnsTexts

namespace NewOwnsTexts

theorem refl (hnodes : doc.nodes.Sound) (hattrs : doc.attrs.Sound) : NewOwnsTexts doc doc where
  nodes := hnodes
  attrs := hattrs
  node hr hnew := by
    rw [contains_iff.2 ⟨_, hr⟩] at hnew
    cases hnew
  attr hr hnew := by
    rw [containsAttr_iff.2 ⟨_, hr⟩] at hnew
    cases hnew

/-- Records keep their slots. -/
theorem of_records (h : NewOwnsTexts doc doc') (hslots : SameSlots doc' doc'')
    (hnode : ∀ {x r'}, doc''.node? x = some r' →
      ∃ r, doc'.node? x = some r ∧ r'.name = r.name ∧ r'.value = r.value)
    (hattr : ∀ {a r'}, doc''.attr? a = some r' →
      ∃ r, doc'.attr? a = some r ∧ r'.name = r.name ∧ r'.value = r.value) :
    NewOwnsTexts doc doc'' where
  nodes := hslots.nodes h.nodes
  attrs := hslots.attrs h.attrs
  node hr hnew := by
    obtain ⟨r, hr, hname, hvalue⟩ := hnode hr
    rw [NodeRecord.OwnsTexts, hname, hvalue]
    exact h.node hr hnew
  attr hr hnew := by
    obtain ⟨r, hr, hname, hvalue⟩ := hattr hr
    rw [AttrRecord.OwnsTexts, hname, hvalue]
    exact h.attr hr hnew

theorem ownText (h : NewOwnsTexts doc doc') (text : String) :
    NewOwnsTexts doc (doc'.ownText text).2 :=
  ⟨h.nodes, h.attrs, h.node, h.attr⟩

theorem link (h : NewOwnsTexts doc doc') (parent : NodeId) (place : Place NodeId) (id : NodeId) :
    NewOwnsTexts doc (doc'.link parent place id) := by
  refine h.of_records (.link parent place id) (fun {x r'} hr => ?_) fun {a r'} hr => ?_
  · rw [node?_link, Option.map_eq_some_iff] at hr
    obtain ⟨r, hr, rfl⟩ := hr
    exact ⟨r, hr, rfl, rfl⟩
  · rw [attr?_link] at hr
    exact ⟨r', hr, rfl, rfl⟩

theorem linkAttr (h : NewOwnsTexts doc doc') (owner : NodeId) (place : Place AttrId)
    (id : AttrId) : NewOwnsTexts doc (doc'.linkAttr owner place id) := by
  refine h.of_records (.linkAttr owner place id) (fun {x r'} hr => ?_) fun {a r'} hr => ?_
  · rw [node?_linkAttr, Option.map_eq_some_iff] at hr
    obtain ⟨r, hr, rfl⟩ := hr
    exact ⟨r, hr, rfl, rfl⟩
  · rw [attr?_linkAttr, Option.map_eq_some_iff] at hr
    obtain ⟨r, hr, rfl⟩ := hr
    exact ⟨r, hr, rfl, rfl⟩

/-- A new node has no texts. -/
theorem allocNode (h : NewOwnsTexts doc doc') (kind : NodeKind) :
    NewOwnsTexts doc (doc'.allocNode kind).2 where
  nodes := h.nodes.insert _
  attrs := h.attrs
  node hr hnew := by
    rw [node?_allocNode h.nodes] at hr
    split at hr
    · cases hr
      exact ⟨rfl, rfl⟩
    · exact h.node hr hnew
  attr := h.attr

/-- A new attribute has no texts. -/
theorem allocAttr (h : NewOwnsTexts doc doc') : NewOwnsTexts doc doc'.allocAttr.2 where
  nodes := h.nodes
  attrs := h.attrs.insert _
  node := h.node
  attr hr hnew := by
    rw [attr?_allocAttr h.attrs] at hr
    split at hr
    · cases hr
      exact ⟨rfl, rfl⟩
    · exact h.attr hr hnew

/-- A record is given texts of its own. -/
theorem modifyNode (h : NewOwnsTexts doc doc') (id : NodeId) {f : NodeRecord → NodeRecord}
    (hf : ∀ r, (f r).OwnsTexts) : NewOwnsTexts doc (doc'.modifyNode id f) where
  nodes := h.nodes.modify _ _
  attrs := h.attrs
  node {x r'} hr hnew := by
    rw [node?_modifyNode_map, Option.map_eq_some_iff] at hr
    obtain ⟨r, hr, rfl⟩ := hr
    split
    · exact hf r
    · exact h.node hr hnew
  attr := h.attr

theorem modifyAttr (h : NewOwnsTexts doc doc') (id : AttrId) {f : AttrRecord → AttrRecord}
    (hf : ∀ r, (f r).OwnsTexts) : NewOwnsTexts doc (doc'.modifyAttr id f) where
  nodes := h.nodes
  attrs := h.attrs.modify _ _
  node := h.node
  attr {a r'} hr hnew := by
    rw [attr?_modifyAttr_map, Option.map_eq_some_iff] at hr
    obtain ⟨r, hr, rfl⟩ := hr
    split
    · exact hf r
    · exact h.attr hr hnew

theorem pushAttr (h : NewOwnsTexts doc doc') (owner : NodeId) (a : TreeAttribute) :
    NewOwnsTexts doc (Document.pushAttr owner doc' a) :=
  (((h.allocAttr.linkAttr owner .last _).ownText _).ownText _).modifyAttr _ fun _ =>
    ⟨TextStore.isBorrowed_own _ _, TextStore.isBorrowed_own _ _⟩

theorem foldl_pushAttr (h : NewOwnsTexts doc doc') (owner : NodeId) (as : List TreeAttribute) :
    NewOwnsTexts doc (as.foldl (Document.pushAttr owner) doc') := by
  induction as generalizing doc' with
  | nil => exact h
  | cons a as ih => exact ih (h.pushAttr owner a)

theorem buildNode (h : NewOwnsTexts doc doc') (l : TreeLabel) :
    NewOwnsTexts doc (doc'.buildNode l).2 :=
  ((((h.allocNode l.kind).ownText _).ownText _).modifyNode _ fun _ =>
    ⟨TextStore.isBorrowed_own _ _, TextStore.isBorrowed_own _ _⟩).foldl_pushAttr _ _

end NewOwnsTexts

mutual

/-- What is built from a value has texts of its own. -/
theorem NewOwnsTexts.build {doc doc' : Document} (h : NewOwnsTexts doc doc') (t : Tree) :
    NewOwnsTexts doc (doc'.build t).2 := by
  match t with
  | .node l children => exact NewOwnsTexts.buildBelow (h.buildNode l) (doc'.buildNode l).1 children

theorem NewOwnsTexts.buildBelow {doc doc' : Document} (h : NewOwnsTexts doc doc')
    (parent : NodeId) (ts : List Tree) :
    NewOwnsTexts doc (Document.buildBelow doc' parent ts) := by
  match ts with
  | [] => exact h
  | t :: ts =>
    exact NewOwnsTexts.buildBelow ((NewOwnsTexts.build h t).link parent .last _) parent ts

end

/-! ## What is new -/

/-- The attributes of what is new are those that are new. -/
theorem Grown.mem_attributes {tops : List NodeId} (hgrown : Grown doc doc' tops)
    (h : LaidOut doc lay) {lay' : Layout} (h' : LaidOut doc' lay') {Fed : NodeId → Prop}
    (hkept : Kept doc doc' Fed fun _ => False) (a : AttrId) :
    (∃ x, (doc'.contains x = true ∧ doc.contains x = false) ∧ a ∈ doc'.attributes x) ↔
      doc'.containsAttr a = true ∧ doc.containsAttr a = false := by
  constructor
  · rintro ⟨x, ⟨-, hnew⟩, ha⟩
    have howner := h'.mem_attributes.1 ha
    refine ⟨containsAttr_of_owner? howner, ?_⟩
    by_contra hold
    rw [hgrown.owner? (Bool.eq_true_of_not_eq_false hold)] at howner
    rw [h.contains_owner howner] at hnew
    cases hnew
  · rintro ⟨ha, hnew⟩
    obtain ⟨p, hp⟩ := hgrown.owned ha hnew
    refine ⟨p, ⟨h'.contains_owner hp, ?_⟩, h'.mem_attributes.2 hp⟩
    -- a node that was there has no new attribute
    by_contra hold
    have hmem := h'.mem_attributes.2 hp
    rw [hkept.attributes (Bool.eq_true_of_not_eq_false hold) fun h => h, h.mem_attributes] at hmem
    rw [containsAttr_of_owner? hmem] at hnew
    cases hnew

end Document

end XmlTree
