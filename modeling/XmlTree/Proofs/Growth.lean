/-
  Proofs/Growth.lean --- edits that add to the tree, and edits that move parts of it.

  WHAT THIS FILE IS FOR.  A document is rooted when its records spell a layout and all
  nodes hang below the document node.  What is added stands nowhere for a moment, and a
  copy is built from its leaves upwards outside of the tree, so growth is described from
  outside: everything that was there reads as before, and of what is new only the listed
  tops stand nowhere.
-/
import XmlTree.Proofs.Linking

set_option autoImplicit false

namespace XmlTree

namespace Document

variable {doc doc' doc'' : Document} {lay lay' : Layout}

/-! ## Taking out and putting in -/

/-- A child is moved to a place below a node that does not stand below it.  The place is one
among the children that are left when it is taken out. -/
theorem LaidOut.move (h : LaidOut doc lay) {parent moved old : NodeId} {place : Place NodeId}
    (hold : doc.parent? moved = some old) (hparent : doc.contains parent = true)
    (hallowed : (doc.kind parent).allowsChild (doc.kind moved) = true)
    (href : ∀ r, place.reference? = some r → doc.parent? r = some parent ∧ r ≠ moved)
    (hnot : ¬ Below doc.parent? moved parent) :
    let left := lay.withChildren old ((lay.children old).erase moved)
    LaidOut ((doc.unlink moved).link parent place moved)
      (left.withChildren parent (place.insert moved (left.children parent))) := by
  intro left
  have hid : doc.contains moved = true := contains_of_parent? hold
  have hparent? := parent?_unlink hid
  have hbelow : ¬ Below (doc.unlink moved).parent? moved parent := by
    intro hb
    refine hnot (hb.mono fun {y p} hp => ?_)
    rw [hparent?] at hp
    split at hp
    · cases hp
    · exact hp
  refine (h.unlink hold).link parent moved place (by rwa [contains_unlink hid])
    (by rwa [contains_unlink hid]) (by rw [hparent?, if_pos rfl]) hbelow
    (by rwa [kind_unlink hid, kind_unlink hid]) fun r hr => ?_
  rw [hparent?, if_neg (href r hr).2]
  exact (href r hr).1

/-! ## Rooted documents -/

/-- The records spell a layout, all nodes hang below the document node, and all attributes
belong to somebody. -/
structure Rooted (doc : Document) (lay : Layout) : Prop extends LaidOut doc lay where
  root_kind : doc.kind doc.root = .document
  top_eq : ∀ {x}, doc.contains x = true → doc.parent? x = none → x = doc.root
  owned : ∀ {a}, doc.containsAttr a = true → ∃ p, doc.owner? a = some p

namespace Rooted

theorem contains_root (h : Rooted doc lay) : doc.contains doc.root = true :=
  contains_of_kind_ne (by rw [h.root_kind]; decide)

/-- No kind allows the document node below it. -/
theorem parent?_root (h : Rooted doc lay) : doc.parent? doc.root = none := by
  cases hp : doc.parent? doc.root with
  | none => rfl
  | some p =>
    have hallowed := h.allowed hp
    rw [h.root_kind] at hallowed
    simp [NodeKind.allowsChild] at hallowed

/-- All nodes hang below the document node. -/
theorem below_root (h : Rooted doc lay) {x : NodeId} (hx : doc.contains x = true) :
    Below doc.parent? doc.root x := by
  obtain ⟨depth, hdepth⟩ := h.acyclic
  induction hn : depth x using Nat.strongRecOn generalizing x with
  | ind n ih =>
    cases hp : doc.parent? x with
    | none =>
      rw [h.top_eq hx hp]
      exact .self
    | some p => exact .step hp (ih (depth p) (hn ▸ hdepth hp) (h.contains_parent hp) rfl)

theorem sameShape (h : Rooted doc lay) (hsame : SameShape doc doc') : Rooted doc' lay where
  toLaidOut := h.toLaidOut.sameShape hsame
  root_kind := by rw [hsame.root, hsame.kind_eq, h.root_kind]
  top_eq {x} hx hp := by
    rw [hsame.contains_eq] at hx
    rw [hsame.parent?_eq] at hp
    rw [hsame.root]
    exact h.top_eq hx hp
  owned {a} ha := by
    rw [hsame.containsAttr_eq] at ha
    rw [hsame.owner?_eq]
    exact h.owned ha

theorem forgetOrder (h : Rooted doc lay) : Rooted doc.forgetOrder lay :=
  ⟨h.toLaidOut.forgetOrder, h.root_kind, h.top_eq, h.owned⟩

theorem withRanks (h : Rooted doc lay) : Rooted doc.withRanks lay := by
  unfold Document.withRanks
  split
  · exact ⟨h.toLaidOut.congr h.nodes h.attrs (fun _ => rfl) (fun _ => rfl) (fun _ => rfl)
      (fun _ => rfl) (fun _ => rfl) (fun _ => rfl) fun _ => rfl, h.root_kind, h.top_eq, h.owned⟩
  · exact h

/-- A child is moved to a place below a node that does not stand below it. -/
theorem move (h : Rooted doc lay) {parent moved : NodeId} {place : Place NodeId}
    (hparent : doc.contains parent = true)
    (hallowed : (doc.kind parent).allowsChild (doc.kind moved) = true)
    (href : ∀ r, place.reference? = some r → doc.parent? r = some parent ∧ r ≠ moved)
    (hmoved : (doc.parent? moved).isSome = true) (hnot : ¬ Below doc.parent? moved parent) :
    ∃ lay', Rooted ((doc.unlink moved).link parent place moved) lay' := by
  obtain ⟨old, hold⟩ := Option.isSome_iff_exists.1 hmoved
  have hid : doc.contains moved = true := contains_of_parent? hold
  have hid' : (doc.unlink moved).contains moved = true := by rwa [contains_unlink hid]
  have hparent? := parent?_unlink hid
  have hlink := h.toLaidOut.move hold hparent hallowed href hnot
  refine ⟨_, hlink, ?_, fun {x} hx hp => ?_, fun {a} ha => ?_⟩
  · rw [(SameSlots.link _ _ _).root, (SameSlots.unlink _).root, kind_link, kind_unlink hid]
    exact h.root_kind
  · rw [contains_link, contains_unlink hid] at hx
    rw [parent?_link _ _ hid'] at hp
    rw [(SameSlots.link _ _ _).root, (SameSlots.unlink _).root]
    split at hp
    · cases hp
    · rename_i hne
      rw [hparent?, if_neg hne] at hp
      exact h.top_eq hx hp
  · rw [containsAttr_link, containsAttr_unlink] at ha
    rw [owner?_link, owner?_unlink]
    exact h.owned ha

end Rooted

/-! ## Growth -/

/-- What was there reads as before, and of what is new only the nodes of a list stand
nowhere. -/
structure Grown (doc doc' : Document) (tops : List NodeId) : Prop where
  root : doc'.root = doc.root
  contains : ∀ {x}, doc.contains x = true → doc'.contains x = true
  kind : ∀ {x}, doc.contains x = true → doc'.kind x = doc.kind x
  parent? : ∀ {x}, doc.contains x = true → doc'.parent? x = doc.parent? x
  containsAttr : ∀ {a}, doc.containsAttr a = true → doc'.containsAttr a = true
  owner? : ∀ {a}, doc.containsAttr a = true → doc'.owner? a = doc.owner? a
  fresh : ∀ {x}, x ∈ tops → doc.contains x = false
  placed : ∀ {x}, doc'.contains x = true → doc.contains x = false → doc'.parent? x = none →
    x ∈ tops
  owned : ∀ {a}, doc'.containsAttr a = true → doc.containsAttr a = false →
    ∃ p, doc'.owner? a = some p

namespace Grown

variable {tops tops' : List NodeId}

theorem sameShape (hsame : SameShape doc doc') : Grown doc doc' [] where
  root := hsame.root
  contains hx := by rwa [hsame.contains_eq]
  kind _ := hsame.kind_eq _
  parent? _ := hsame.parent?_eq _
  containsAttr ha := by rwa [hsame.containsAttr_eq]
  owner? _ := hsame.owner?_eq _
  fresh hx := by cases hx
  placed hx hnew := by
    rw [hsame.contains_eq, hnew] at hx
    cases hx
  owned ha hnew := by
    rw [hsame.containsAttr_eq, hnew] at ha
    cases ha

theorem refl (doc : Document) : Grown doc doc [] := sameShape (.refl doc)

theorem trans (h : Grown doc doc' tops) (h' : Grown doc' doc'' tops') :
    Grown doc doc'' (tops ++ tops') where
  root := h'.root.trans h.root
  contains hx := h'.contains (h.contains hx)
  kind hx := (h'.kind (h.contains hx)).trans (h.kind hx)
  parent? hx := (h'.parent? (h.contains hx)).trans (h.parent? hx)
  containsAttr ha := h'.containsAttr (h.containsAttr ha)
  owner? ha := (h'.owner? (h.containsAttr ha)).trans (h.owner? ha)
  fresh {x} hx := by
    obtain hx | hx := List.mem_append.1 hx
    · exact h.fresh hx
    · have hnew := h'.fresh hx
      cases hold : doc.contains x with
      | false => rfl
      | true =>
        rw [h.contains hold] at hnew
        cases hnew
  placed {x} hx hnew hp := by
    cases hmid : doc'.contains x with
    | true =>
      rw [h'.parent? hmid] at hp
      exact List.mem_append_left _ (h.placed hmid hnew hp)
    | false => exact List.mem_append_right _ (h'.placed hx hmid hp)
  owned {a} ha hnew := by
    cases hmid : doc'.containsAttr a with
    | true =>
      rw [h'.owner? hmid]
      exact h.owned hmid hnew
    | false => exact h'.owned ha hmid

theorem trans_nil (h : Grown doc doc' tops) (h' : Grown doc' doc'' []) :
    Grown doc doc'' tops := by
  simpa using h.trans h'

/-- A new node stands nowhere. -/
theorem allocNode (h : doc.nodes.Sound) (kind : NodeKind) :
    Grown doc (doc.allocNode kind).2 [(doc.allocNode kind).1] := by
  have hfresh : doc.contains (doc.allocNode kind).1 = false := by
    rw [Document.contains, allocNode_fresh h]
    rfl
  have hne : ∀ {x}, doc.contains x = true → x ≠ (doc.allocNode kind).1 := by
    rintro x hx rfl
    rw [hfresh] at hx
    cases hx
  exact
  { root := rfl
    contains := fun hx => by simp [contains_allocNode h, hx]
    kind := fun hx => by rw [kind_allocNode h, if_neg (hne hx)]
    parent? := fun _ => parent?_allocNode h kind _
    containsAttr := fun ha => ha
    owner? := fun _ => rfl
    fresh := fun hx => by rw [List.mem_singleton.1 hx, hfresh]
    placed := fun hx hnew _ => by simpa [contains_allocNode h, hnew] using hx
    owned := fun ha hnew => by
      rw [show (doc.allocNode kind).2.containsAttr _ = doc.containsAttr _ from rfl, hnew] at ha
      cases ha }

/-- A new node that is put somewhere stands nowhere no longer. -/
theorem link {id parent : NodeId} {place : Place NodeId} (h : Grown doc doc' [id])
    (hid : doc'.contains id = true) : Grown doc (doc'.link parent place id) [] := by
  have hne : ∀ {x}, doc.contains x = true → x ≠ id := by
    rintro x hx rfl
    rw [h.fresh (by simp)] at hx
    cases hx
  exact
  { root := ((SameSlots.link parent place id).root).trans h.root
    contains := fun hx => by rw [contains_link, h.contains hx]
    kind := fun hx => by rw [kind_link, h.kind hx]
    parent? := fun hx => by rw [parent?_link _ _ hid, if_neg (hne hx), h.parent? hx]
    containsAttr := fun ha => by rw [containsAttr_link, h.containsAttr ha]
    owner? := fun ha => by rw [owner?_link, h.owner? ha]
    fresh := fun hx => by cases hx
    placed := fun {x} hx hnew hp => by
      rw [contains_link] at hx
      rw [parent?_link _ _ hid] at hp
      split at hp
      · cases hp
      · rename_i hxid
        exact absurd (List.mem_singleton.1 (h.placed hx hnew hp)) hxid
    owned := fun ha hnew => by
      rw [containsAttr_link] at ha
      rw [owner?_link]
      exact h.owned ha hnew }

/-- Nothing new stands above what was there. -/
theorem not_below (h : Grown doc doc' tops) (hlaid : LaidOut doc lay) {id x : NodeId}
    (hid : doc.contains id = false) (hx : doc.contains x = true) :
    ¬ Below doc'.parent? id x := by
  intro hbelow
  induction hbelow with
  | self =>
    rw [hid] at hx
    cases hx
  | step hp _ ih =>
    rw [h.parent? hx] at hp
    exact ih (hlaid.contains_parent hp)

end Grown

/-- A rooted document stays so if nothing new stands nowhere. -/
theorem Rooted.grown (h : Rooted doc lay) (hgrown : Grown doc doc' [])
    (hlaid : LaidOut doc' lay') : Rooted doc' lay' where
  toLaidOut := hlaid
  root_kind := by rw [hgrown.root, hgrown.kind h.contains_root, h.root_kind]
  top_eq {x} hx hp := by
    rw [hgrown.root]
    cases hold : doc.contains x with
    | true =>
      rw [hgrown.parent? hold] at hp
      exact h.top_eq hold hp
    | false => exact absurd (hgrown.placed hx hold hp) (by simp)
  owned {a} ha := by
    cases hold : doc.containsAttr a with
    | true =>
      rw [hgrown.owner? hold]
      exact h.owned hold
    | false => exact hgrown.owned ha hold

/-! ## Adding one node or attribute -/

/-- All that is new stands below one new node of the given kind, which stands nowhere. -/
structure Sprouted (doc doc' : Document) (id : NodeId) (kind : NodeKind) : Prop where
  laid : ∃ lay, LaidOut doc' lay
  grown : Grown doc doc' [id]
  contains : doc'.contains id = true
  top : doc'.parent? id = none
  kind_eq : doc'.kind id = kind

/-- A new node gets its texts. -/
theorem LaidOut.sprout (h : LaidOut doc lay) {kind : NodeKind}
    (hsame : SameShape (doc.allocNode kind).2 doc') :
    Sprouted doc doc' (doc.allocNode kind).1 kind where
  laid := ⟨lay, (h.allocNode kind).sameShape hsame⟩
  grown := (Grown.allocNode h.nodes kind).trans_nil (.sameShape hsame)
  contains := by
    rw [hsame.contains_eq, contains_allocNode h.nodes]
    simp
  top := by
    rw [hsame.parent?_eq, parent?_allocNode h.nodes, parent?, allocNode_fresh h.nodes]
    rfl
  kind_eq := by rw [hsame.kind_eq, kind_allocNode h.nodes, if_pos rfl]

namespace Sprouted

variable {id : NodeId} {kind : NodeKind}

/-- Nothing that was there is touched. -/
theorem trans_nil (h : Sprouted doc doc' id kind) (hlaid : ∃ lay, LaidOut doc'' lay)
    (hgrown : Grown doc' doc'' []) : Sprouted doc doc'' id kind where
  laid := hlaid
  grown := h.grown.trans_nil hgrown
  contains := hgrown.contains h.contains
  top := by rw [hgrown.parent? h.contains, h.top]
  kind_eq := by rw [hgrown.kind h.contains, h.kind_eq]

/-- What is new is put at a place below a node that was there, and the layout changes at
that node. -/
theorem laidOut_link (h : Sprouted doc doc' id kind) (hlaid : LaidOut doc lay)
    (hlaid' : LaidOut doc' lay') (parent : NodeId) (place : Place NodeId)
    (hallowed : (doc.kind parent).allowsChild kind = true)
    (href : ∀ r, place.reference? = some r → doc.parent? r = some parent) :
    LaidOut (doc'.link parent place id)
      (lay'.withChildren parent (place.insert id (lay'.children parent))) := by
  have hparent : doc.contains parent = true :=
    contains_of_kind_ne (kind_ne_null_of_allowsChild hallowed)
  have hnot : ¬ Below doc'.parent? id parent :=
    h.grown.not_below hlaid (h.grown.fresh (by simp)) hparent
  refine hlaid'.link parent id place (h.grown.contains hparent) h.contains h.top hnot ?_
    fun r hr => ?_
  · rw [h.grown.kind hparent, h.kind_eq]
    exact hallowed
  · rw [h.grown.parent? (contains_of_parent? (href r hr)), href r hr]

theorem link (h : Sprouted doc doc' id kind) (hlaid : LaidOut doc lay) (parent : NodeId)
    (place : Place NodeId) (hallowed : (doc.kind parent).allowsChild kind = true)
    (href : ∀ r, place.reference? = some r → doc.parent? r = some parent) :
    (∃ lay', LaidOut (doc'.link parent place id) lay') ∧
      Grown doc (doc'.link parent place id) [] := by
  obtain ⟨lay', hlaid'⟩ := h.laid
  exact ⟨⟨_, h.laidOut_link hlaid hlaid' parent place hallowed href⟩, h.grown.link h.contains⟩

end Sprouted

/-- A new attribute gets its texts and is put at a place among those of a node, and the
layout changes at that node. -/
theorem LaidOut.laidOut_addAttr (h : LaidOut doc lay) (owner : NodeId) (place : Place AttrId)
    (hsame : SameShape doc.allocAttr.2 doc')
    (howns : (doc.kind owner).hasAttributes = true)
    (href : ∀ r, place.reference? = some r → doc.owner? r = some owner) :
    LaidOut (doc'.linkAttr owner place doc.allocAttr.1)
      (lay.withAttributes owner (place.insert doc.allocAttr.1 (lay.attributes owner))) := by
  have howner : ∀ a, doc'.owner? a = doc.owner? a := fun a =>
    (hsame.owner?_eq a).trans (owner?_allocAttr h.attrs a)
  have hkind : doc'.kind owner = doc.kind owner := hsame.kind_eq owner
  refine (h.allocAttr.sameShape hsame).linkAttr owner _ place (by rwa [hkind]) ?_ ?_
    fun r hr => ?_
  · rw [hsame.containsAttr_eq, containsAttr_allocAttr h.attrs]
    simp
  · rw [howner, owner?, allocAttr_fresh h.attrs]
    rfl
  · rw [howner, href r hr]

theorem LaidOut.addAttr (h : LaidOut doc lay) (owner : NodeId) (place : Place AttrId)
    (hsame : SameShape doc.allocAttr.2 doc')
    (howns : (doc.kind owner).hasAttributes = true)
    (href : ∀ r, place.reference? = some r → doc.owner? r = some owner) :
    (∃ lay', LaidOut (doc'.linkAttr owner place doc.allocAttr.1) lay') ∧
      Grown doc (doc'.linkAttr owner place doc.allocAttr.1) [] := by
  have hid : doc'.containsAttr doc.allocAttr.1 = true := by
    rw [hsame.containsAttr_eq, containsAttr_allocAttr h.attrs]
    simp
  have hfresh : doc.containsAttr doc.allocAttr.1 = false := by
    rw [containsAttr, allocAttr_fresh h.attrs]
    rfl
  have howner : ∀ a, doc'.owner? a = doc.owner? a := fun a =>
    (hsame.owner?_eq a).trans (owner?_allocAttr h.attrs a)
  have hkind : ∀ x, doc'.kind x = doc.kind x := hsame.kind_eq
  have hcontains : ∀ x, doc'.contains x = doc.contains x := hsame.contains_eq
  have hparent : ∀ x, doc'.parent? x = doc.parent? x := hsame.parent?_eq
  refine ⟨⟨_, h.laidOut_addAttr owner place hsame howns href⟩, ?_⟩
  exact
    { root := ((SameSlots.linkAttr owner place _).root).trans hsame.root
      contains := fun hx => by rw [contains_linkAttr, hcontains, hx]
      kind := fun _ => by rw [kind_linkAttr, hkind]
      parent? := fun _ => by rw [parent?_linkAttr, hparent]
      containsAttr := fun {a} ha => by
        rw [containsAttr_linkAttr, hsame.containsAttr_eq, containsAttr_allocAttr h.attrs, ha]
        simp
      owner? := fun {a} ha => by
        have hne : a ≠ doc.allocAttr.1 := by
          rintro rfl
          rw [hfresh] at ha
          cases ha
        rw [owner?_linkAttr _ _ hid, if_neg hne, howner]
      fresh := fun hx => by cases hx
      placed := fun hx hnew => by
        rw [contains_linkAttr, hcontains, hnew] at hx
        cases hx
      owned := fun {a} ha hnew => by
        rw [containsAttr_linkAttr, hsame.containsAttr_eq, containsAttr_allocAttr h.attrs, hnew] at ha
        have heq : a = doc.allocAttr.1 := by simpa using ha
        exact ⟨owner, by rw [owner?_linkAttr _ _ hid, if_pos heq]⟩ }

end Document

end XmlTree
