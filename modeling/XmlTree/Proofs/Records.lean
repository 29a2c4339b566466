/-
  Proofs/Records.lean --- which records the steps of edits change.

  WHAT THIS FILE IS FOR.  Every edit is made of a few steps on records.  For each step
  it is said here what a handle leads to afterwards, as a function of what it led to
  before.  All that is proved about edits rests on these equations, and nothing later
  unfolds a step.

  SAME SHAPE.  Most steps change texts only.  Two documents have the same shape when
  every handle leads to the same record in both, apart from texts.
-/
import XmlTree.Document.Copy
import XmlTree.Document.Content
import XmlTree.Proofs.Slots
import XmlTree.Proofs.Texts
import XmlTree.Proofs.LinkedList

set_option autoImplicit false

namespace XmlTree

/-- A node without its texts. -/
def NodeRecord.bare (r : NodeRecord) : NodeRecord := { r with name := .null, value := .null }

/-- An attribute without its texts. -/
def AttrRecord.bare (r : AttrRecord) : AttrRecord := { r with name := .null, value := .null }

namespace Document

variable {doc doc' doc'' : Document}

/-! ## Changing one record -/

@[simp] theorem node?_modifyNode (id x : NodeId) (f : NodeRecord → NodeRecord) :
    (doc.modifyNode id f).node? x = if x = id then (doc.node? x).map f else doc.node? x := by
  simp only [node?, modifyNode, SlotStore.get?_modify]
  by_cases h : x = id
  · subst h
    simp
  · have hh : x.handle ≠ id.handle := fun heq => h (by cases x; cases id; simp_all)
    simp [h, hh]

@[simp] theorem attr?_modifyAttr (id x : AttrId) (f : AttrRecord → AttrRecord) :
    (doc.modifyAttr id f).attr? x = if x = id then (doc.attr? x).map f else doc.attr? x := by
  simp only [attr?, modifyAttr, SlotStore.get?_modify]
  by_cases h : x = id
  · subst h
    simp
  · have hh : x.handle ≠ id.handle := fun heq => h (by cases x; cases id; simp_all)
    simp [h, hh]

@[simp] theorem attr?_modifyNode (id : NodeId) (x : AttrId) (f : NodeRecord → NodeRecord) :
    (doc.modifyNode id f).attr? x = doc.attr? x := rfl

@[simp] theorem node?_modifyAttr (id : AttrId) (x : NodeId) (f : AttrRecord → AttrRecord) :
    (doc.modifyAttr id f).node? x = doc.node? x := rfl

/-! ## What is read off a record -/

/-- The ends of the list of children. -/
def childEnds (doc : Document) (id : NodeId) : Ends NodeId :=
  (doc.node? id).elim .empty (·.children)

/-- The siblings beside a node. -/
def besides (doc : Document) (id : NodeId) : Neighbours NodeId :=
  (doc.node? id).elim .none (·.siblings)

/-- The ends of the list of attributes. -/
def attributeEnds (doc : Document) (id : NodeId) : Ends AttrId :=
  (doc.node? id).elim .empty (·.attributes)

/-- The attributes beside an attribute. -/
def attrBesides (doc : Document) (id : AttrId) : Neighbours AttrId :=
  (doc.attr? id).elim .none (·.neighbours)

theorem parent?_eq_elim (id : NodeId) :
    doc.parent? id = (doc.node? id).elim none (·.parent) := by
  simp only [parent?]
  cases doc.node? id <;> rfl

theorem owner?_eq_elim (id : AttrId) : doc.owner? id = (doc.attr? id).elim none (·.owner) := by
  simp only [owner?]
  cases doc.attr? id <;> rfl

theorem firstChild?_eq (id : NodeId) : doc.firstChild? id = (doc.childEnds id).first := by
  simp only [firstChild?, childEnds]
  cases doc.node? id <;> rfl

theorem lastChild?_eq (id : NodeId) : doc.lastChild? id = (doc.childEnds id).last := by
  simp only [lastChild?, childEnds]
  cases doc.node? id <;> rfl

theorem nextSibling?_eq (id : NodeId) : doc.nextSibling? id = (doc.besides id).next := by
  simp only [nextSibling?, besides]
  cases doc.node? id <;> rfl

theorem previousSibling?_eq (id : NodeId) :
    doc.previousSibling? id = (doc.besides id).previous := by
  simp only [previousSibling?, besides]
  cases doc.node? id <;> rfl

theorem firstAttribute?_eq (id : NodeId) :
    doc.firstAttribute? id = (doc.attributeEnds id).first := by
  simp only [firstAttribute?, attributeEnds]
  cases doc.node? id <;> rfl

theorem lastAttribute?_eq (id : NodeId) :
    doc.lastAttribute? id = (doc.attributeEnds id).last := by
  simp only [lastAttribute?, attributeEnds]
  cases doc.node? id <;> rfl

theorem nextAttribute?_eq (id : AttrId) : doc.nextAttribute? id = (doc.attrBesides id).next := by
  simp only [nextAttribute?, attrBesides]
  cases doc.attr? id <;> rfl

theorem previousAttribute?_eq (id : AttrId) :
    doc.previousAttribute? id = (doc.attrBesides id).previous := by
  simp only [previousAttribute?, attrBesides]
  cases doc.attr? id <;> rfl

theorem contains_iff {id : NodeId} : doc.contains id = true ↔ ∃ r, doc.node? id = some r := by
  rw [contains, Option.isSome_iff_exists]

theorem containsAttr_iff {id : AttrId} :
    doc.containsAttr id = true ↔ ∃ r, doc.attr? id = some r := by
  rw [containsAttr, Option.isSome_iff_exists]

theorem contains_of_parent? {c p : NodeId} (h : doc.parent? c = some p) :
    doc.contains c = true := by
  unfold parent? at h
  cases hc : doc.node? c with
  | none => simp [hc] at h
  | some r => simp [contains, hc]

theorem containsAttr_of_owner? {a : AttrId} {p : NodeId} (h : doc.owner? a = some p) :
    doc.containsAttr a = true := by
  unfold owner? at h
  cases ha : doc.attr? a with
  | none => simp [ha] at h
  | some r => simp [containsAttr, ha]

theorem contains_of_kind_ne {id : NodeId} (h : doc.kind id ≠ .null) : doc.contains id = true := by
  unfold kind at h
  cases hid : doc.node? id with
  | none => simp [hid] at h
  | some r => simp [contains, hid]

/-- What is true of a kind, and not of no kind, is said of a node that is there. -/
theorem contains_of_kind {p : NodeKind → Bool} (hp : p .null = false) {id : NodeId}
    (h : p (doc.kind id) = true) : doc.contains id = true :=
  contains_of_kind_ne fun hnull => by
    rw [hnull, hp] at h
    cases h

theorem contains_of_hasName {id : NodeId} (h : (doc.kind id).hasName = true) :
    doc.contains id = true := contains_of_kind rfl h

theorem contains_of_hasValue {id : NodeId} (h : (doc.kind id).hasValue = true) :
    doc.contains id = true := contains_of_kind rfl h

theorem contains_of_hasChildren {id : NodeId} (h : (doc.kind id).hasChildren = true) :
    doc.contains id = true := contains_of_kind rfl h

theorem contains_of_hasAttributes {id : NodeId} (h : (doc.kind id).hasAttributes = true) :
    doc.contains id = true := contains_of_kind rfl h

/-! ## Linking and unlinking -/

/-- One change for every record, told apart by its handle. -/
theorem node?_modifyNode_map (id x : NodeId) (f : NodeRecord → NodeRecord) :
    (doc.modifyNode id f).node? x = (doc.node? x).map fun r => if x = id then f r else r := by
  rw [node?_modifyNode]
  by_cases h : x = id <;> simp [h]

theorem attr?_modifyAttr_map (id x : AttrId) (f : AttrRecord → AttrRecord) :
    (doc.modifyAttr id f).attr? x = (doc.attr? x).map fun r => if x = id then f r else r := by
  rw [attr?_modifyAttr]
  by_cases h : x = id <;> simp [h]

theorem node?_setNext (parent previous next : Option NodeId) (y : NodeId) :
    (doc.setNext parent previous next).node? y =
      (doc.node? y).map fun r =>
        { r with
          siblings := ⟨r.siblings.previous, if previous = some y then next else r.siblings.next⟩
          children := if parent = some y then
              ⟨if previous = none then next else r.children.first, r.children.last⟩
            else r.children } := by
  cases previous with
  | some p =>
    rw [setNext, node?_modifyNode_map]
    refine congrArg (fun g => Option.map g (doc.node? y)) (funext fun r => ?_)
    by_cases h : y = p
    · simp [h]
    · simp [h, Ne.symm h]
  | none =>
    cases parent with
    | some q =>
      rw [setNext, node?_modifyNode_map]
      refine congrArg (fun g => Option.map g (doc.node? y)) (funext fun r => ?_)
      by_cases h : y = q
      · simp [h]
      · simp [h, Ne.symm h]
    | none => simp [setNext]

theorem node?_setPrevious (parent previous next : Option NodeId) (y : NodeId) :
    (doc.setPrevious parent previous next).node? y =
      (doc.node? y).map fun r =>
        { r with
          siblings := ⟨if next = some y then previous else r.siblings.previous, r.siblings.next⟩
          children := if parent = some y then
              ⟨r.children.first, if next = none then previous else r.children.last⟩
            else r.children } := by
  cases next with
  | some n =>
    rw [setPrevious, node?_modifyNode_map]
    refine congrArg (fun g => Option.map g (doc.node? y)) (funext fun r => ?_)
    by_cases h : y = n
    · simp [h]
    · simp [h, Ne.symm h]
  | none =>
    cases parent with
    | some q =>
      rw [setPrevious, node?_modifyNode_map]
      refine congrArg (fun g => Option.map g (doc.node? y)) (funext fun r => ?_)
      by_cases h : y = q
      · simp [h]
      · simp [h, Ne.symm h]
    | none => simp [setPrevious]

/-- Changing the members beside a gap, or the ends of the list of `parent` where the gap
has none. -/
theorem node?_setBeside (parent : Option NodeId) (gap : Neighbours NodeId)
    (previous next : Option NodeId) (y : NodeId) :
    ((doc.setNext parent gap.previous next).setPrevious parent previous gap.next).node? y =
      (doc.node? y).map fun r =>
        { r with
          siblings := r.siblings.around gap previous next y
          children := if parent = some y then r.children.around gap previous next
            else r.children } := by
  rw [node?_setPrevious, node?_setNext, Option.map_map]
  refine congrArg (fun g => Option.map g (doc.node? y)) (funext fun r => ?_)
  by_cases h : parent = some y <;> simp [h, Neighbours.around, Ends.around]

theorem attr?_setBeside (parent : Option NodeId) (gap : Neighbours NodeId)
    (previous next : Option NodeId) (y : AttrId) :
    ((doc.setNext parent gap.previous next).setPrevious parent previous gap.next).attr? y =
      doc.attr? y := by
  obtain ⟨p, n⟩ := gap
  cases p <;> cases n <;> cases parent <;> rfl

/-- What a handle leads to after a node was put below `parent`. -/
theorem node?_link (parent : NodeId) (place : Place NodeId) (id y : NodeId) :
    (doc.link parent place id).node? y =
      (doc.node? y).map fun r =>
        { r with
          parent := if y = id then some parent else r.parent
          siblings := (if y = id then doc.gapAt parent place else r.siblings).around
            (doc.gapAt parent place) (some id) (some id) y
          children := if parent = y then
              r.children.around (doc.gapAt parent place) (some id) (some id)
            else r.children } := by
  have hsteps := (doc.modifyNode id fun r =>
    { r with parent := some parent, siblings := doc.gapAt parent place }).node?_setBeside
      (some parent) (doc.gapAt parent place) (some id) (some id) y
  refine hsteps.trans ?_
  rw [node?_modifyNode]
  by_cases hy : y = id
  · simp only [hy, if_true, Option.map_map, Option.some.injEq]
    rfl
  · simp only [hy, if_false, Option.some.injEq]

theorem attr?_link (parent : NodeId) (place : Place NodeId) (id : NodeId) (y : AttrId) :
    (doc.link parent place id).attr? y = doc.attr? y :=
  attr?_setBeside _ (doc.gapAt parent place) _ _ y

/-- What a handle leads to after a node was taken from its parent. -/
theorem node?_unlink {id : NodeId} {old : NodeRecord} (hold : doc.node? id = some old)
    (y : NodeId) :
    (doc.unlink id).node? y =
      (doc.node? y).map fun r =>
        { r with
          parent := if y = id then none else r.parent
          siblings := if y = id then .none
            else r.siblings.around old.siblings old.siblings.previous old.siblings.next y
          children := if old.parent = some y then
              r.children.around old.siblings old.siblings.previous old.siblings.next
            else r.children } := by
  have hsteps := doc.node?_setBeside old.parent old.siblings old.siblings.previous
    old.siblings.next y
  simp only [unlink, hold]
  rw [node?_modifyNode, hsteps]
  by_cases hy : y = id
  · simp only [hy, if_true, Option.map_map]
    rfl
  · simp only [hy, if_false]

theorem attr?_unlink (id : NodeId) (y : AttrId) : (doc.unlink id).attr? y = doc.attr? y := by
  unfold unlink
  split
  · rename_i old _
    exact attr?_setBeside _ old.siblings _ _ y
  · rfl

/-- Changing the attributes beside a gap, or the ends of the list of `owner` where the
gap has none. -/
theorem attr?_setBesideAttr (owner : Option NodeId) (gap : Neighbours AttrId)
    (previous next : Option AttrId) (y : AttrId) :
    ((doc.setNextAttr owner gap.previous next).setPreviousAttr owner previous gap.next).attr? y =
      (doc.attr? y).map fun r =>
        { r with neighbours := r.neighbours.around gap previous next y } := by
  have hnext : ∀ r : AttrRecord, ∀ p : AttrId, (if y = p then
      { r with neighbours := { r.neighbours with next } } else r) =
      { r with neighbours := ⟨r.neighbours.previous,
        if some p = some y then next else r.neighbours.next⟩ } := fun r p => by
    by_cases h : y = p
    · simp [h]
    · simp [h, Ne.symm h]
  have hprevious : ∀ r : AttrRecord, ∀ n : AttrId, (if y = n then
      { r with neighbours := { r.neighbours with previous } } else r) =
      { r with neighbours := ⟨if some n = some y then previous else r.neighbours.previous,
        r.neighbours.next⟩ } := fun r n => by
    by_cases h : y = n
    · simp [h]
    · simp [h, Ne.symm h]
  obtain ⟨p, n⟩ := gap
  cases p <;> cases n <;> cases owner <;>
    simp [setNextAttr, setPreviousAttr, attr?_modifyAttr_map, hnext, hprevious,
      Neighbours.around, Function.comp_def, -attr?_modifyAttr]

theorem node?_setBesideAttr (owner : Option NodeId) (gap : Neighbours AttrId)
    (previous next : Option AttrId) (y : NodeId) :
    ((doc.setNextAttr owner gap.previous next).setPreviousAttr owner previous gap.next).node? y =
      (doc.node? y).map fun r =>
        { r with
          attributes := if owner = some y then r.attributes.around gap previous next
            else r.attributes } := by
  obtain ⟨p, n⟩ := gap
  cases owner with
  | none => cases p <;> cases n <;> simp [setNextAttr, setPreviousAttr]
  | some o =>
    by_cases h : y = o
    · cases p <;> cases n <;>
        simp [setNextAttr, setPreviousAttr, node?_modifyNode_map, Ends.around, h,
          Function.comp_def, -node?_modifyNode]
    · cases p <;> cases n <;> simp [setNextAttr, setPreviousAttr, h, Ne.symm h]

/-- What a handle leads to after an attribute was put among those of `owner`. -/
theorem attr?_linkAttr (owner : NodeId) (place : Place AttrId) (id y : AttrId) :
    (doc.linkAttr owner place id).attr? y =
      (doc.attr? y).map fun r =>
        { r with
          owner := if y = id then some owner else r.owner
          neighbours := (if y = id then doc.attrGapAt owner place else r.neighbours).around
            (doc.attrGapAt owner place) (some id) (some id) y } := by
  have hsteps := (doc.modifyAttr id fun r =>
    { r with owner := some owner, neighbours := doc.attrGapAt owner place }).attr?_setBesideAttr
      (some owner) (doc.attrGapAt owner place) (some id) (some id) y
  refine hsteps.trans ?_
  rw [attr?_modifyAttr]
  by_cases hy : y = id
  · simp only [hy, if_true, Option.map_map]
    rfl
  · simp only [hy, if_false]

theorem node?_linkAttr (owner : NodeId) (place : Place AttrId) (id : AttrId) (y : NodeId) :
    (doc.linkAttr owner place id).node? y =
      (doc.node? y).map fun r =>
        { r with
          attributes := if owner = y then
              r.attributes.around (doc.attrGapAt owner place) (some id) (some id)
            else r.attributes } := by
  have hsteps := (doc.modifyAttr id fun r =>
    { r with owner := some owner, neighbours := doc.attrGapAt owner place }).node?_setBesideAttr
      (some owner) (doc.attrGapAt owner place) (some id) (some id) y
  refine hsteps.trans ?_
  simp only [node?_modifyAttr, Option.some.injEq]

/-- What a handle leads to after an attribute was taken from its owner. -/
theorem attr?_unlinkAttr {id : AttrId} {old : AttrRecord} (hold : doc.attr? id = some old)
    (y : AttrId) :
    (doc.unlinkAttr id).attr? y =
      (doc.attr? y).map fun r =>
        { r with
          owner := if y = id then none else r.owner
          neighbours := if y = id then .none
            else r.neighbours.around old.neighbours old.neighbours.previous
              old.neighbours.next y } := by
  have hsteps := doc.attr?_setBesideAttr old.owner old.neighbours old.neighbours.previous
    old.neighbours.next y
  simp only [unlinkAttr, hold]
  rw [attr?_modifyAttr, hsteps]
  by_cases hy : y = id
  · simp only [hy, if_true, Option.map_map]
    rfl
  · simp only [hy, if_false]

theorem node?_unlinkAttr {id : AttrId} {old : AttrRecord} (hold : doc.attr? id = some old)
    (y : NodeId) :
    (doc.unlinkAttr id).node? y =
      (doc.node? y).map fun r =>
        { r with
          attributes := if old.owner = some y then
              r.attributes.around old.neighbours old.neighbours.previous old.neighbours.next
            else r.attributes } := by
  simp only [unlinkAttr, hold]
  exact doc.node?_setBesideAttr old.owner old.neighbours _ _ y

/-! Links leave texts alone. -/

theorem texts_setNext (parent previous next : Option NodeId) :
    (doc.setNext parent previous next).texts = doc.texts := by
  cases previous <;> cases parent <;> rfl

theorem texts_setPrevious (parent previous next : Option NodeId) :
    (doc.setPrevious parent previous next).texts = doc.texts := by
  cases next <;> cases parent <;> rfl

theorem texts_link (parent : NodeId) (place : Place NodeId) (id : NodeId) :
    (doc.link parent place id).texts = doc.texts :=
  (texts_setPrevious _ _ _).trans (texts_setNext _ _ _)

theorem texts_setNextAttr (owner : Option NodeId) (previous next : Option AttrId) :
    (doc.setNextAttr owner previous next).texts = doc.texts := by
  cases previous <;> cases owner <;> rfl

theorem texts_setPreviousAttr (owner : Option NodeId) (previous next : Option AttrId) :
    (doc.setPreviousAttr owner previous next).texts = doc.texts := by
  cases next <;> cases owner <;> rfl

theorem texts_linkAttr (owner : NodeId) (place : Place AttrId) (id : AttrId) :
    (doc.linkAttr owner place id).texts = doc.texts :=
  (texts_setPreviousAttr _ _ _).trans (texts_setNextAttr _ _ _)

theorem texts_unlink (id : NodeId) : (doc.unlink id).texts = doc.texts := by
  unfold unlink
  split
  · exact (texts_setPrevious _ _ _).trans (texts_setNext _ _ _)
  · rfl

theorem texts_unlinkAttr (id : AttrId) : (doc.unlinkAttr id).texts = doc.texts := by
  unfold unlinkAttr
  split
  · exact (texts_setPreviousAttr _ _ _).trans (texts_setNextAttr _ _ _)
  · rfl

/-! ## New records -/

theorem allocNode_fresh (hs : doc.nodes.Sound) (kind : NodeKind) :
    doc.node? (doc.allocNode kind).1 = none :=
  SlotStore.get?_insert_fresh hs _

theorem node?_allocNode (hs : doc.nodes.Sound) (kind : NodeKind) (x : NodeId) :
    (doc.allocNode kind).2.node? x =
      if x = (doc.allocNode kind).1 then some (.detached kind doc.made) else doc.node? x := by
  have hget := SlotStore.get?_insert hs (.detached kind doc.made) x.handle
  by_cases h : x = (doc.allocNode kind).1
  · rw [if_pos h]
    exact hget.trans (if_pos (congrArg NodeId.handle h))
  · rw [if_neg h]
    exact hget.trans (if_neg fun heq => h (congrArg NodeId.mk heq))

@[simp] theorem attr?_allocNode (kind : NodeKind) (x : AttrId) :
    (doc.allocNode kind).2.attr? x = doc.attr? x := rfl

theorem allocAttr_fresh (hs : doc.attrs.Sound) : doc.attr? doc.allocAttr.1 = none :=
  SlotStore.get?_insert_fresh hs _

theorem attr?_allocAttr (hs : doc.attrs.Sound) (x : AttrId) :
    doc.allocAttr.2.attr? x = if x = doc.allocAttr.1 then some .detached else doc.attr? x := by
  have hget := SlotStore.get?_insert hs .detached x.handle
  by_cases h : x = doc.allocAttr.1
  · rw [if_pos h]
    exact hget.trans (if_pos (congrArg AttrId.handle h))
  · rw [if_neg h]
    exact hget.trans (if_neg fun heq => h (congrArg AttrId.mk heq))

/-- The record of an attribute that was made and linked has no texts. -/
theorem exists_linked (hattrs : doc.attrs.Sound) (owner : NodeId) :
    ∃ r, (doc.allocAttr.2.linkAttr owner .last doc.allocAttr.1).attr? doc.allocAttr.1 = some r ∧
      r.name = .null ∧ r.value = .null := by
  rw [attr?_linkAttr, attr?_allocAttr hattrs, if_pos rfl]
  exact ⟨_, rfl, rfl, rfl⟩

@[simp] theorem node?_allocAttr (x : NodeId) : doc.allocAttr.2.node? x = doc.node? x := rfl

/-! ## Same slots -/

/-- The records of the second document stand in the slots of those of the first, and
what is known about the order of nodes is the same. -/
structure SameSlots (doc doc' : Document) : Prop where
  nodes : doc.nodes.Sound → doc'.nodes.Sound
  attrs : doc.attrs.Sound → doc'.attrs.Sound
  root : doc'.root = doc.root
  nodeSlots : doc'.nodes.slotCount = doc.nodes.slotCount
  attrSlots : doc'.attrs.slotCount = doc.attrs.slotCount
  made : doc'.made = doc.made
  reordered : doc'.reordered = doc.reordered
  knownRanks : doc'.knownRanks = doc.knownRanks

namespace SameSlots

theorem refl (doc : Document) : SameSlots doc doc :=
  ⟨id, id, rfl, rfl, rfl, rfl, rfl, rfl⟩

theorem trans (h : SameSlots doc doc') (h' : SameSlots doc' doc'') : SameSlots doc doc'' where
  nodes := h'.nodes ∘ h.nodes
  attrs := h'.attrs ∘ h.attrs
  root := h'.root.trans h.root
  nodeSlots := h'.nodeSlots.trans h.nodeSlots
  attrSlots := h'.attrSlots.trans h.attrSlots
  made := h'.made.trans h.made
  reordered := h'.reordered.trans h.reordered
  knownRanks := h'.knownRanks.trans h.knownRanks

/-- Only texts differ. -/
theorem ofTexts (texts : TextStore) : SameSlots doc { doc with texts } :=
  ⟨id, id, rfl, rfl, rfl, rfl, rfl, rfl⟩

theorem modifyNode (id : NodeId) (f : NodeRecord → NodeRecord) :
    SameSlots doc (doc.modifyNode id f) :=
  ⟨fun h => h.modify _ _, fun h => h, rfl, SlotStore.slotCount_modify _ _, rfl, rfl, rfl, rfl⟩

theorem modifyAttr (id : AttrId) (f : AttrRecord → AttrRecord) :
    SameSlots doc (doc.modifyAttr id f) :=
  ⟨fun h => h, fun h => h.modify _ _, rfl, rfl, SlotStore.slotCount_modify _ _, rfl, rfl, rfl⟩

theorem setNext (parent previous next : Option NodeId) :
    SameSlots doc (doc.setNext parent previous next) := by
  unfold Document.setNext
  split
  · exact modifyNode _ _
  · exact modifyNode _ _
  · exact refl doc

theorem setPrevious (parent previous next : Option NodeId) :
    SameSlots doc (doc.setPrevious parent previous next) := by
  unfold Document.setPrevious
  split
  · exact modifyNode _ _
  · exact modifyNode _ _
  · exact refl doc

theorem link (parent : NodeId) (place : Place NodeId) (id : NodeId) :
    SameSlots doc (doc.link parent place id) :=
  ((modifyNode _ _).trans (setNext _ _ _)).trans (setPrevious _ _ _)

theorem unlink (id : NodeId) : SameSlots doc (doc.unlink id) := by
  unfold Document.unlink
  split
  · exact ((setNext _ _ _).trans (setPrevious _ _ _)).trans (modifyNode _ _)
  · exact refl doc

theorem setNextAttr (owner : Option NodeId) (previous next : Option AttrId) :
    SameSlots doc (doc.setNextAttr owner previous next) := by
  unfold Document.setNextAttr
  split
  · exact modifyAttr _ _
  · exact modifyNode _ _
  · exact refl doc

theorem setPreviousAttr (owner : Option NodeId) (previous next : Option AttrId) :
    SameSlots doc (doc.setPreviousAttr owner previous next) := by
  unfold Document.setPreviousAttr
  split
  · exact modifyAttr _ _
  · exact modifyNode _ _
  · exact refl doc

theorem linkAttr (owner : NodeId) (place : Place AttrId) (id : AttrId) :
    SameSlots doc (doc.linkAttr owner place id) :=
  ((modifyAttr _ _).trans (setNextAttr _ _ _)).trans (setPreviousAttr _ _ _)

theorem unlinkAttr (id : AttrId) : SameSlots doc (doc.unlinkAttr id) := by
  unfold Document.unlinkAttr
  split
  · exact ((setNextAttr _ _ _).trans (setPreviousAttr _ _ _)).trans (modifyAttr _ _)
  · exact refl doc

end SameSlots

/-! ## Texts that are copied -/

/-- A text gets a slot of its own, or it is too long and nothing has changed. -/
theorem ownText_cases (doc : Document) (text : String) :
    (∃ slot owned, doc.ownText text = (some slot, owned) ∧ text.utf8ByteSize < 2 ^ 32) ∨
      doc.ownText text = (none, doc) ∧ ¬ text.utf8ByteSize < 2 ^ 32 := by
  by_cases h : text.utf8ByteSize < 2 ^ 32
  · obtain ⟨slot, hslot⟩ := doc.texts.exists_own h
    exact .inl ⟨slot, (doc.ownText text).2, Prod.ext hslot rfl, h⟩
  · refine .inr ⟨?_, h⟩
    rw [ownText, doc.texts.own_of_long h]

/-- What it means that a text got a slot. -/
theorem eq_of_ownText {text : String} {slot : TextSlot} {owned : Document}
    (h : doc.ownText text = (some slot, owned)) :
    (doc.texts.own text).1 = some slot ∧ owned = (doc.ownText text).2 :=
  ⟨congrArg Prod.fst h, (congrArg Prod.snd h).symm⟩

/-- Records are not looked at when a text is copied. -/
theorem node?_of_ownText {text : String} {slot : TextSlot} {owned : Document}
    (h : doc.ownText text = (some slot, owned)) (x : NodeId) : owned.node? x = doc.node? x := by
  obtain ⟨-, rfl⟩ := eq_of_ownText h
  rfl

theorem attr?_of_ownText {text : String} {slot : TextSlot} {owned : Document}
    (h : doc.ownText text = (some slot, owned)) (x : AttrId) : owned.attr? x = doc.attr? x := by
  obtain ⟨-, rfl⟩ := eq_of_ownText h
  rfl

/-- A copy takes the place of a text, or it is too long and nothing has changed. -/
theorem replaceText_cases (doc : Document) (text : String) (old : TextSlot)
    (put : TextSlot → Document → Document) :
    (∃ slot owned, doc.ownText text = (some slot, owned) ∧ text.utf8ByteSize < 2 ^ 32 ∧
      doc.replaceText text old put = (true, (put slot owned).releaseText old)) ∨
      doc.replaceText text old put = (false, doc) ∧ ¬ text.utf8ByteSize < 2 ^ 32 := by
  obtain ⟨slot, owned, howned, hshort⟩ | ⟨howned, hlong⟩ := doc.ownText_cases text
  · exact .inl ⟨slot, owned, howned, hshort, by rw [replaceText, howned]⟩
  · exact .inr ⟨by rw [replaceText, howned], hlong⟩

/-- What holds whether the copy is taken or not. -/
@[elab_as_elim]
theorem replaceText_induction {text : String} {old : TextSlot}
    {put : TextSlot → Document → Document} {P : Document → Prop} (hrefused : P doc)
    (hput : ∀ slot owned, doc.ownText text = (some slot, owned) →
      P ((put slot owned).releaseText old)) : P (doc.replaceText text old put).2 := by
  obtain ⟨slot, owned, howned, -, hdone⟩ | ⟨hdone, -⟩ := doc.replaceText_cases text old put
  · rw [hdone]
    exact hput slot owned howned
  · rw [hdone]
    exact hrefused

/-- A copy that is not taken changes nothing. -/
theorem replaceText_of_false {text : String} {old : TextSlot}
    {put : TextSlot → Document → Document} (h : (doc.replaceText text old put).1 = false) :
    (doc.replaceText text old put).2 = doc := by
  obtain ⟨slot, owned, -, -, hdone⟩ | ⟨hdone, -⟩ := doc.replaceText_cases text old put
  · rw [hdone] at h
    cases h
  · rw [hdone]

/-- No copy is taken of a text that is too long. -/
theorem replaceText_of_long {text : String} (hlong : ¬ text.utf8ByteSize < 2 ^ 32)
    (old : TextSlot) (put : TextSlot → Document → Document) :
    doc.replaceText text old put = (false, doc) := by
  obtain ⟨-, -, -, hshort, -⟩ | ⟨hdone, -⟩ := doc.replaceText_cases text old put
  · exact absurd hshort hlong
  · exact hdone

theorem replaceName_of_long {name : String} (hlong : ¬ name.utf8ByteSize < 2 ^ 32) (id : NodeId) :
    doc.replaceName id name = (false, doc) := by
  unfold replaceName
  split
  · exact replaceText_of_long hlong _ _
  · rfl

theorem replaceValue_of_long {value : String} (hlong : ¬ value.utf8ByteSize < 2 ^ 32)
    (id : NodeId) : doc.replaceValue id value = (false, doc) := by
  unfold replaceValue
  split
  · exact replaceText_of_long hlong _ _
  · rfl

theorem setName_of_long {name : String} (hlong : ¬ name.utf8ByteSize < 2 ^ 32) (id : NodeId) :
    doc.setName id name = (false, doc) := by
  rw [setName, replaceName_of_long hlong, ite_self]

theorem setValue_of_long {value : String} (hlong : ¬ value.utf8ByteSize < 2 ^ 32) (id : NodeId) :
    doc.setValue id value = (false, doc) := by
  rw [setValue, replaceValue_of_long hlong, ite_self]

theorem setAttrName_of_long {name : String} (hlong : ¬ name.utf8ByteSize < 2 ^ 32) (id : AttrId) :
    doc.setAttrName id name = (false, doc) := by
  unfold setAttrName
  split
  · exact replaceText_of_long hlong _ _
  · rfl

theorem setAttrValue_of_long {value : String} (hlong : ¬ value.utf8ByteSize < 2 ^ 32)
    (id : AttrId) : doc.setAttrValue id value = (false, doc) := by
  unfold setAttrValue
  split
  · exact replaceText_of_long hlong _ _
  · rfl

theorem replaceName_of_false {id : NodeId} {name : String}
    (h : (doc.replaceName id name).1 = false) : (doc.replaceName id name).2 = doc := by
  unfold replaceName at h ⊢
  split at h
  · exact replaceText_of_false h
  · rfl

theorem replaceValue_of_false {id : NodeId} {value : String}
    (h : (doc.replaceValue id value).1 = false) : (doc.replaceValue id value).2 = doc := by
  unfold replaceValue at h ⊢
  split at h
  · exact replaceText_of_false h
  · rfl

theorem setValue_of_false {id : NodeId} {value : String}
    (h : (doc.setValue id value).1 = false) : (doc.setValue id value).2 = doc := by
  unfold setValue at h ⊢
  split at h
  · rename_i hvalue
    rw [if_pos hvalue]
    exact replaceValue_of_false h
  · rename_i hvalue
    rw [if_neg hvalue]

theorem setName_of_false {id : NodeId} {name : String}
    (h : (doc.setName id name).1 = false) : (doc.setName id name).2 = doc := by
  unfold setName at h ⊢
  split at h
  · rename_i hname
    rw [if_pos hname]
    exact replaceName_of_false h
  · rename_i hname
    rw [if_neg hname]

/-- An element is made and gets its name, or is removed again for want of one, or is not made. -/
theorem insertElement_cases (doc : Document) (parent : NodeId) (name : String)
    (place : Place NodeId) :
    (∃ id made named, doc.insertChild parent .element place = (some id, made) ∧
        made.setName id name = (true, named) ∧
        doc.insertElement parent name place = (some id, named)) ∨
      (∃ id made, doc.insertChild parent .element place = (some id, made) ∧
        made.setName id name = (false, made) ∧
        doc.insertElement parent name place = (none, (made.removeChild parent id).2)) ∨
      ∃ made, doc.insertChild parent .element place = (none, made) ∧
        doc.insertElement parent name place = (none, made) := by
  rw [insertElement]
  obtain ⟨made?, made⟩ := doc.insertChild parent .element place
  cases made? with
  | none => exact .inr (.inr ⟨made, rfl, rfl⟩)
  | some id =>
    dsimp only
    cases hnamed : made.setName id name with
    | mk done named =>
      cases done with
      | true => exact .inl ⟨id, made, named, rfl, hnamed, rfl⟩
      | false =>
        have hsame := setName_of_false (congrArg Prod.fst hnamed)
        rw [hnamed] at hsame
        obtain rfl : named = made := hsame
        exact .inr (.inl ⟨id, named, rfl, hnamed, rfl⟩)

/-- What holds of an element that is made, whether it gets its name or not. -/
@[elab_as_elim]
theorem insertElement_induction {parent : NodeId} {name : String} {place : Place NodeId}
    {P : Document → Prop} (hchild : P (doc.insertChild parent .element place).2)
    (hname : ∀ made id, P made → P (made.setName id name).2)
    (hremove : ∀ made id, P made → P (made.removeChild parent id).2) :
    P (doc.insertElement parent name place).2 := by
  obtain ⟨id, made, named, hmade, hnamed, hdone⟩ | ⟨id, made, hmade, -, hdone⟩ | ⟨made, hmade, hdone⟩
    := doc.insertElement_cases parent name place
  · rw [hmade] at hchild
    have hset := hname made id hchild
    rw [hnamed] at hset
    rw [hdone]
    exact hset
  · rw [hmade] at hchild
    rw [hdone]
    exact hremove made id hchild
  · rw [hmade] at hchild
    rw [hdone]
    exact hchild

/-- An attribute is made of two copies, or the copy of its name is given back for want of a
value, or nothing is copied. -/
theorem insertAttribute_cases (doc : Document) (owner : NodeId) (name value : String)
    (place : Place AttrId) :
    let allowed := (doc.kind owner).hasAttributes && doc.attrPlaceOk owner place
    (∃ nameSlot named valueSlot valued, allowed = true ∧
        doc.ownText name = (some nameSlot, named) ∧
        named.ownText value = (some valueSlot, valued) ∧
        doc.insertAttribute owner name value place = (some valued.allocAttr.1,
          (valued.allocAttr.2.modifyAttr valued.allocAttr.1 fun r =>
            { r with name := nameSlot, value := valueSlot }).linkAttr owner place
              valued.allocAttr.1)) ∨
      (∃ nameSlot named, allowed = true ∧ doc.ownText name = (some nameSlot, named) ∧
        ¬ value.utf8ByteSize < 2 ^ 32 ∧
        doc.insertAttribute owner name value place = (none, named.releaseText nameSlot)) ∨
      (allowed = true → ¬ name.utf8ByteSize < 2 ^ 32) ∧
        doc.insertAttribute owner name value place = (none, doc) := by
  intro allowed
  rw [insertAttribute]
  by_cases hallowed : allowed = true
  · rw [if_pos hallowed]
    obtain ⟨nameSlot, named, hnamed, -⟩ | ⟨hnamed, hlong⟩ := doc.ownText_cases name
    · rw [hnamed]
      dsimp only
      obtain ⟨valueSlot, valued, hvalued, -⟩ | ⟨hvalued, hlong⟩ := named.ownText_cases value
      · exact .inl ⟨nameSlot, named, valueSlot, valued, hallowed, rfl, hvalued, by rw [hvalued]⟩
      · exact .inr (.inl ⟨nameSlot, named, hallowed, rfl, hlong, by rw [hvalued]⟩)
    · rw [hnamed]
      exact .inr (.inr ⟨fun _ => hlong, rfl⟩)
  · rw [if_neg hallowed]
    exact .inr (.inr ⟨fun h => absurd h hallowed, rfl⟩)

/-! ## Same shape -/

/-- Every handle leads to the same record in both documents, apart from texts. -/
structure SameShape (doc doc' : Document) : Prop extends SameSlots doc doc' where
  node : ∀ x, (doc'.node? x).map NodeRecord.bare = (doc.node? x).map NodeRecord.bare
  attr : ∀ x, (doc'.attr? x).map AttrRecord.bare = (doc.attr? x).map AttrRecord.bare

namespace SameShape

theorem refl (doc : Document) : SameShape doc doc :=
  ⟨.refl doc, fun _ => rfl, fun _ => rfl⟩

theorem trans (h : SameShape doc doc') (h' : SameShape doc' doc'') : SameShape doc doc'' where
  toSameSlots := h.toSameSlots.trans h'.toSameSlots
  node x := (h'.node x).trans (h.node x)
  attr x := (h'.attr x).trans (h.attr x)

/-- Only texts differ. -/
theorem ofTexts (texts : TextStore) : SameShape doc { doc with texts } :=
  ⟨.ofTexts texts, fun _ => rfl, fun _ => rfl⟩

theorem ownText (doc : Document) (text : String) : SameShape doc (doc.ownText text).2 :=
  ofTexts _

theorem of_ownText {text : String} {slot : TextSlot} {owned : Document}
    (h : doc.ownText text = (some slot, owned)) : SameShape doc owned := by
  obtain ⟨-, rfl⟩ := eq_of_ownText h
  exact ownText doc text

theorem releaseText (slot : TextSlot) : SameShape doc (doc.releaseText slot) := ofTexts _

/-- A change that keeps all but the texts of a node. -/
theorem modifyNode (id : NodeId) {f : NodeRecord → NodeRecord} (hf : ∀ r, (f r).bare = r.bare) :
    SameShape doc (doc.modifyNode id f) where
  toSameSlots := .modifyNode id f
  node x := by
    rw [node?_modifyNode]
    split
    · rw [Option.map_map]
      exact congrArg (fun g => Option.map g (doc.node? x)) (funext hf)
    · rfl
  attr _ := rfl

/-- A change that keeps all but the texts of an attribute. -/
theorem modifyAttr (id : AttrId) {f : AttrRecord → AttrRecord} (hf : ∀ r, (f r).bare = r.bare) :
    SameShape doc (doc.modifyAttr id f) where
  toSameSlots := .modifyAttr id f
  node _ := rfl
  attr x := by
    rw [attr?_modifyAttr]
    split
    · rw [Option.map_map]
      exact congrArg (fun g => Option.map g (doc.attr? x)) (funext hf)
    · rfl

theorem replaceText (text : String) (old : TextSlot) {put : TextSlot → Document → Document}
    (hput : ∀ slot owned, SameShape owned (put slot owned)) :
    SameShape doc (doc.replaceText text old put).2 := by
  refine replaceText_induction (refl doc) fun slot owned howned => ?_
  exact ((of_ownText howned).trans (hput slot owned)).trans (releaseText old)

theorem replaceName (id : NodeId) (name : String) :
    SameShape doc (doc.replaceName id name).2 := by
  unfold Document.replaceName
  split
  · exact replaceText name _ fun _ _ => modifyNode id fun _ => rfl
  · exact refl doc

theorem replaceValue (id : NodeId) (value : String) :
    SameShape doc (doc.replaceValue id value).2 := by
  unfold Document.replaceValue
  split
  · exact replaceText value _ fun _ _ => modifyNode id fun _ => rfl
  · exact refl doc

theorem setName (id : NodeId) (name : String) : SameShape doc (doc.setName id name).2 := by
  unfold Document.setName
  split
  · exact replaceName id name
  · exact refl doc

theorem setValue (id : NodeId) (value : String) : SameShape doc (doc.setValue id value).2 := by
  unfold Document.setValue
  split
  · exact replaceValue id value
  · exact refl doc

theorem setAttrName (id : AttrId) (name : String) :
    SameShape doc (doc.setAttrName id name).2 := by
  unfold Document.setAttrName
  split
  · exact replaceText name _ fun _ _ => modifyAttr id fun _ => rfl
  · exact refl doc

theorem setAttrValue (id : AttrId) (value : String) :
    SameShape doc (doc.setAttrValue id value).2 := by
  unfold Document.setAttrValue
  split
  · exact replaceText value _ fun _ _ => modifyAttr id fun _ => rfl
  · exact refl doc

/-! What is read off a record apart from texts is the same. -/

/-- What does not look at the texts of a record reads the same. -/
theorem elim_eq {β : Type} (h : SameShape doc doc') (x : NodeId) (b : β) (f : NodeRecord → β)
    (hf : ∀ r, f r.bare = f r) : (doc'.node? x).elim b f = (doc.node? x).elim b f := by
  have hmap : ∀ o : Option NodeRecord, o.elim b f = (o.map NodeRecord.bare).elim b f := by
    intro o
    cases o <;> simp [hf]
  rw [hmap, hmap (doc.node? x), h.node x]

theorem attr_elim_eq {β : Type} (h : SameShape doc doc') (x : AttrId) (b : β)
    (f : AttrRecord → β) (hf : ∀ r, f r.bare = f r) :
    (doc'.attr? x).elim b f = (doc.attr? x).elim b f := by
  have hmap : ∀ o : Option AttrRecord, o.elim b f = (o.map AttrRecord.bare).elim b f := by
    intro o
    cases o <;> simp [hf]
  rw [hmap, hmap (doc.attr? x), h.attr x]

theorem contains_eq (h : SameShape doc doc') (x : NodeId) : doc'.contains x = doc.contains x := by
  simpa [contains] using congrArg Option.isSome (h.node x)

theorem containsAttr_eq (h : SameShape doc doc') (x : AttrId) :
    doc'.containsAttr x = doc.containsAttr x := by
  simpa [containsAttr] using congrArg Option.isSome (h.attr x)

theorem kind_eq (h : SameShape doc doc') (x : NodeId) : doc'.kind x = doc.kind x :=
  h.elim_eq x _ _ fun _ => rfl

theorem parent?_eq (h : SameShape doc doc') (x : NodeId) : doc'.parent? x = doc.parent? x := by
  rw [parent?_eq_elim, parent?_eq_elim]
  exact h.elim_eq x none _ fun _ => rfl

theorem owner?_eq (h : SameShape doc doc') (x : AttrId) : doc'.owner? x = doc.owner? x := by
  rw [owner?_eq_elim, owner?_eq_elim]
  exact h.attr_elim_eq x none _ fun _ => rfl

theorem childEnds_eq (h : SameShape doc doc') (x : NodeId) :
    doc'.childEnds x = doc.childEnds x := h.elim_eq x _ _ fun _ => rfl

theorem besides_eq (h : SameShape doc doc') (x : NodeId) : doc'.besides x = doc.besides x :=
  h.elim_eq x _ _ fun _ => rfl

theorem attributeEnds_eq (h : SameShape doc doc') (x : NodeId) :
    doc'.attributeEnds x = doc.attributeEnds x := h.elim_eq x _ _ fun _ => rfl

theorem attrBesides_eq (h : SameShape doc doc') (x : AttrId) :
    doc'.attrBesides x = doc.attrBesides x := h.attr_elim_eq x _ _ fun _ => rfl

end SameShape

end Document

end XmlTree
