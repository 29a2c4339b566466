/-
  Proofs/Showing.lean --- what the records of a document show.

  WHAT THIS FILE IS FOR.  A tree stands at a node when the records from there on hold its
  names, values and attributes and list its nodes in order.  What stands somewhere stays
  there while the document grows elsewhere, and it is what reading the subtree answers.

  NOTHING AND THE EMPTY TEXT are one to whoever reads a name or a value: a slot without a
  text holds the empty text, and plain trees do not tell them apart.  Markup does, in a few
  places: an instruction and a document type may have no text or an empty one, and an element
  has no text of its own unless one was embedded in it.  Exact trees keep that apart.
-/
import Mathlib.Data.List.Forall2
import XmlTree.Proofs.Canonical
import XmlTree.Proofs.Copying
import XmlTree.Proofs.Texts

set_option autoImplicit false

namespace XmlTree

/-! ## Trees up to empty texts -/

/-- The attribute with the texts that it reads as. -/
def TreeAttribute.plain (a : TreeAttribute) : TreeAttribute := ⟨some a.nameText, some a.valueText⟩

/-- The node with the texts that it reads as. -/
def TreeLabel.plain (l : TreeLabel) : TreeLabel :=
  ⟨l.kind, some l.nameText, some l.valueText, l.attributes.map TreeAttribute.plain⟩

mutual

/-- The tree with the texts that it reads as: nothing and the empty text are one. -/
def Tree.plain : Tree → Tree
  | .node l children => .node l.plain (Tree.allPlain children)

/-- Trees side by side with the texts that they read as. -/
def Tree.allPlain : List Tree → List Tree
  | [] => []
  | t :: ts => t.plain :: Tree.allPlain ts

end

theorem Tree.allPlain_eq_map (ts : List Tree) : Tree.allPlain ts = ts.map Tree.plain := by
  induction ts with
  | nil => rfl
  | cons t ts ih => rw [Tree.allPlain, ih, List.map_cons]

theorem Tree.allPlain_append (ts us : List Tree) :
    Tree.allPlain (ts ++ us) = Tree.allPlain ts ++ Tree.allPlain us := by
  simp only [Tree.allPlain_eq_map, List.map_append]

/-- Kinds whose nodes are written in another way without a value than with an empty one. -/
def NodeKind.tellsEmpty (k : NodeKind) : Bool := k = .pi || k = .doctype || !k.hasValue

/-- The node with the texts that it reads as, and with nothing where that is told apart from
the empty text. -/
def TreeLabel.exact (l : TreeLabel) : TreeLabel :=
  ⟨l.kind, if l.kind.hasName then some l.nameText else l.name,
    if l.kind.tellsEmpty then l.value else some l.valueText, l.attributes.map TreeAttribute.plain⟩

mutual

/-- The tree with the texts that it is written with. -/
def Tree.exact : Tree → Tree
  | .node l children => .node l.exact (Tree.allExact children)

/-- Trees side by side with the texts that they are written with. -/
def Tree.allExact : List Tree → List Tree
  | [] => []
  | t :: ts => t.exact :: Tree.allExact ts

end

@[simp] theorem TreeLabel.kind_exact (l : TreeLabel) : l.exact.kind = l.kind := rfl

theorem Tree.allExact_eq_map (ts : List Tree) : Tree.allExact ts = ts.map Tree.exact := by
  induction ts with
  | nil => rfl
  | cons t ts ih => rw [Tree.allExact, ih, List.map_cons]

theorem TreeLabel.plain_exact (l : TreeLabel) : l.exact.plain = l.plain := by
  have hname : l.exact.nameText = l.nameText := by
    cases h : l.kind.hasName <;> simp [TreeLabel.exact, TreeLabel.nameText, h]
  have hvalue : l.exact.valueText = l.valueText := by
    cases h : l.kind.tellsEmpty <;> simp [TreeLabel.exact, TreeLabel.valueText, h]
  have hattributes : l.exact.attributes.map TreeAttribute.plain =
      l.attributes.map TreeAttribute.plain := by
    rw [exact, List.map_map]
    rfl
  rw [plain, plain, hname, hvalue, hattributes]
  rfl

mutual

theorem Tree.plain_exact (t : Tree) : t.exact.plain = t.plain := by
  match t with
  | .node l children =>
    rw [exact, plain, plain, l.plain_exact, Tree.allPlain_exact children]

theorem Tree.allPlain_exact (ts : List Tree) :
    Tree.allPlain (Tree.allExact ts) = Tree.allPlain ts := by
  match ts with
  | [] => rfl
  | t :: ts => rw [allExact, allPlain, allPlain, Tree.plain_exact t, Tree.allPlain_exact ts]

end

theorem Tree.plain_eq_of_exact_eq {t u : Tree} (h : t.exact = u.exact) : t.plain = u.plain := by
  rw [← t.plain_exact, h, u.plain_exact]

namespace Document

variable {doc doc' doc'' : Document} {lay : Layout}

/-! ## What records hold -/

/-- The record of an attribute holds a name and a value. -/
def AttrBears (doc : Document) (a : TreeAttribute) (id : AttrId) : Prop :=
  ∃ r, doc.attr? id = some r ∧ doc.texts.Holds r.name a.nameText ∧
    doc.texts.Holds r.value a.valueText

/-- Slots for a name and a value that are null where nothing is told apart from the empty
text, and the node has none. -/
structure NullAsIn (l : TreeLabel) (name value : TextSlot) : Prop where
  name : l.kind.hasName = false → name.isNull = l.name.isNone
  value : l.kind.tellsEmpty = true → value.isNull = l.value.isNone

/-- The record of a node holds a kind, a name and a value. -/
def NodeBears (doc : Document) (l : TreeLabel) (id : NodeId) : Prop :=
  ∃ r, doc.node? id = some r ∧ r.kind = l.kind ∧ doc.texts.Holds r.name l.nameText ∧
    doc.texts.Holds r.value l.valueText ∧ NullAsIn l r.name r.value

/-- The records of a node and of its attributes hold what a label says. -/
structure Bears (doc : Document) (l : TreeLabel) (id : NodeId) : Prop where
  node : doc.NodeBears l id
  attributes : List.Forall₂ doc.AttrBears l.attributes (doc.attributes id)

theorem NodeBears.contains {l : TreeLabel} {id : NodeId} (h : doc.NodeBears l id) :
    doc.contains id = true := by
  obtain ⟨r, hr, -⟩ := h
  exact contains_iff.2 ⟨r, hr⟩

end Document

mutual

/-- A tree stands at a node, and all its nodes are among some. -/
def Tree.StandsAt (doc : Document) (Among : NodeId → Prop) : Tree → NodeId → Prop
  | .node l children, id =>
    Among id ∧ doc.Bears l id ∧ Tree.AllStandAt doc Among children (doc.children id)

/-- Trees stand at nodes one by one. -/
def Tree.AllStandAt (doc : Document) (Among : NodeId → Prop) : List Tree → List NodeId → Prop
  | [], ids => ids = []
  | t :: ts, ids => ∃ id rest, ids = id :: rest ∧ t.StandsAt doc Among id ∧
      Tree.AllStandAt doc Among ts rest

end

namespace Document

variable {doc doc' doc'' : Document} {lay : Layout}

/-! ## What stays while a document grows -/

/-- Every text and record is kept; only nodes that were fed have other children, and only
nodes that were dressed have other attributes. -/
structure Kept (doc doc' : Document) (Fed Dressed : NodeId → Prop) : Prop where
  texts : doc.texts.Extends doc'.texts
  node : ∀ {x r}, doc.node? x = some r →
    ∃ r', doc'.node? x = some r' ∧ r'.kind = r.kind ∧ r'.name = r.name ∧ r'.value = r.value
  attr : ∀ {a r}, doc.attr? a = some r →
    ∃ r', doc'.attr? a = some r' ∧ r'.name = r.name ∧ r'.value = r.value
  children : ∀ {x}, doc.contains x = true → ¬ Fed x → doc'.children x = doc.children x
  attributes : ∀ {x}, doc.contains x = true → ¬ Dressed x → doc'.attributes x = doc.attributes x

namespace Kept

variable {Fed Fed' Dressed Dressed' : NodeId → Prop}

theorem contains (h : Kept doc doc' Fed Dressed) {x : NodeId} (hx : doc.contains x = true) :
    doc'.contains x = true := by
  obtain ⟨r, hr⟩ := contains_iff.1 hx
  obtain ⟨r', hr', -⟩ := h.node hr
  exact contains_iff.2 ⟨r', hr'⟩

theorem fresh (h : Kept doc doc' Fed Dressed) {x : NodeId} (hx : doc'.contains x = false) :
    doc.contains x = false := by
  cases hold : doc.contains x with
  | false => rfl
  | true =>
    rw [h.contains hold] at hx
    cases hx

theorem kind (h : Kept doc doc' Fed Dressed) {x : NodeId} (hx : doc.contains x = true) :
    doc'.kind x = doc.kind x := by
  obtain ⟨r, hr⟩ := contains_iff.1 hx
  obtain ⟨r', hr', hkind, -⟩ := h.node hr
  simp [Document.kind, hr, hr', hkind]

theorem refl (doc : Document) : Kept doc doc Fed Dressed where
  texts := .refl _
  node hr := ⟨_, hr, rfl, rfl, rfl⟩
  attr hr := ⟨_, hr, rfl, rfl⟩
  children _ _ := rfl
  attributes _ _ := rfl

/-- What is new by the first step does not count in the second. -/
theorem trans (h : Kept doc doc' Fed Dressed) (h' : Kept doc' doc'' Fed' Dressed')
    (hfed : ∀ {x}, doc.contains x = true → Fed' x → Fed x)
    (hdressed : ∀ {x}, doc.contains x = true → Dressed' x → Dressed x) :
    Kept doc doc'' Fed Dressed where
  texts := h.texts.trans h'.texts
  node hr := by
    obtain ⟨r', hr', hkind, hname, hvalue⟩ := h.node hr
    obtain ⟨r'', hr'', hkind', hname', hvalue'⟩ := h'.node hr'
    exact ⟨r'', hr'', hkind'.trans hkind, hname'.trans hname, hvalue'.trans hvalue⟩
  attr hr := by
    obtain ⟨r', hr', hname, hvalue⟩ := h.attr hr
    obtain ⟨r'', hr'', hname', hvalue'⟩ := h'.attr hr'
    exact ⟨r'', hr'', hname'.trans hname, hvalue'.trans hvalue⟩
  children hx hnot :=
    (h'.children (h.contains hx) fun hf => hnot (hfed hx hf)).trans (h.children hx hnot)
  attributes hx hnot :=
    (h'.attributes (h.contains hx) fun hd => hnot (hdressed hx hd)).trans (h.attributes hx hnot)

/-- Two steps that feed and dress the same nodes. -/
theorem trans_same (h : Kept doc doc' Fed Dressed) (h' : Kept doc' doc'' Fed Dressed) :
    Kept doc doc'' Fed Dressed :=
  h.trans h' (fun _ hfed => hfed) fun _ hdressed => hdressed

theorem attrBears (h : Kept doc doc' Fed Dressed) {a : TreeAttribute} {id : AttrId}
    (ha : doc.AttrBears a id) : doc'.AttrBears a id := by
  obtain ⟨r, hr, hname, hvalue⟩ := ha
  obtain ⟨r', hr', hname', hvalue'⟩ := h.attr hr
  exact ⟨r', hr', hname' ▸ h.texts.holds hname, hvalue' ▸ h.texts.holds hvalue⟩

theorem nodeBears (h : Kept doc doc' Fed Dressed) {l : TreeLabel} {id : NodeId}
    (hl : doc.NodeBears l id) : doc'.NodeBears l id := by
  obtain ⟨r, hr, hkind, hname, hvalue, hnull⟩ := hl
  obtain ⟨r', hr', hkind', hname', hvalue'⟩ := h.node hr
  refine ⟨r', hr', hkind'.trans hkind, hname' ▸ h.texts.holds hname,
    hvalue' ▸ h.texts.holds hvalue, ?_⟩
  rw [hname', hvalue']
  exact hnull

theorem bears (h : Kept doc doc' Fed Dressed) {l : TreeLabel} {id : NodeId}
    (hl : doc.Bears l id) (hid : ¬ Dressed id) : doc'.Bears l id where
  node := h.nodeBears hl.node
  attributes := by
    rw [h.attributes hl.node.contains hid]
    exact hl.attributes.imp fun _ _ ha => h.attrBears ha

end Kept

end Document

namespace Tree

open Document

variable {doc doc' : Document} {Among Among' Fed Dressed : NodeId → Prop}

mutual

/-- A tree stays where it stands if none of its nodes is fed or dressed. -/
theorem StandsAt.kept (hkept : Kept doc doc' Fed Dressed) (hsub : ∀ x, Among x → Among' x)
    (hout : ∀ x, Among x → ¬ Fed x ∧ ¬ Dressed x) (t : Tree) (id : NodeId)
    (h : t.StandsAt doc Among id) : t.StandsAt doc' Among' id := by
  match t with
  | .node l children =>
    rw [StandsAt] at h ⊢
    obtain ⟨hamong, hbears, hbelow⟩ := h
    refine ⟨hsub id hamong, hkept.bears hbears (hout id hamong).2, ?_⟩
    rw [hkept.children hbears.node.contains (hout id hamong).1]
    exact AllStandAt.kept hkept hsub hout children _ hbelow

theorem AllStandAt.kept (hkept : Kept doc doc' Fed Dressed) (hsub : ∀ x, Among x → Among' x)
    (hout : ∀ x, Among x → ¬ Fed x ∧ ¬ Dressed x) (ts : List Tree) (ids : List NodeId)
    (h : AllStandAt doc Among ts ids) : AllStandAt doc' Among' ts ids := by
  match ts with
  | [] => exact h
  | t :: ts =>
    obtain ⟨id, rest, rfl, ht, hts⟩ := h
    exact ⟨id, rest, rfl, StandsAt.kept hkept hsub hout t id ht,
      AllStandAt.kept hkept hsub hout ts rest hts⟩

end

/-- A tree that stands at a node stands there among more nodes. -/
theorem AllStandAt.mono (hsub : ∀ x, Among x → Among' x) {ts : List Tree} {ids : List NodeId}
    (h : AllStandAt doc Among ts ids) : AllStandAt doc Among' ts ids :=
  have hkept : Kept doc doc (fun _ => False) (fun _ => False) := .refl doc
  .kept hkept hsub (fun _ _ => ⟨id, id⟩) ts ids h

end Tree

/-! ## Reading what stands somewhere -/

namespace Document

variable {doc : Document} {lay : Layout}

/-- Readings that go deep enough are the same. -/
theorem treeUpTo_eq {o : Outline NodeId} (ho : o.Follows doc.children) {depth depth' : Nat}
    (hdepth : o.flatten.length ≤ depth) (hdepth' : o.flatten.length ≤ depth') :
    doc.treeUpTo depth o.top = doc.treeUpTo depth' o.top := by
  induction ho generalizing depth depth' with
  | @node id os hhere _ ih =>
    simp only [Outline.flatten, List.length_cons] at hdepth hdepth'
    obtain ⟨n, rfl⟩ := Nat.exists_eq_succ_of_ne_zero (show depth ≠ 0 by omega)
    obtain ⟨n', rfl⟩ := Nat.exists_eq_succ_of_ne_zero (show depth' ≠ 0 by omega)
    rw [Outline.top, treeUpTo, treeUpTo, hhere]
    refine congrArg (Tree.node _) (List.map_congr_left fun c hc => ?_)
    obtain ⟨o, ho, rfl⟩ := List.mem_map.1 hc
    have hle := Outline.length_flatten_le_of_mem ho
    exact ih o ho (by omega) (by omega)

/-- The subtree of a node is the node with the subtrees of its children. -/
theorem LaidOut.tree_eq (h : LaidOut doc lay) {id : NodeId} (hid : doc.contains id = true) :
    doc.tree id = .node (doc.labelOf id) ((doc.children id).map doc.tree) := by
  obtain ⟨o, rfl, ho⟩ := h.forest.exists_outline id
  have hlength : o.flatten.length ≤ doc.walkLimit := length_flatten_le h.forest ho hid
  obtain ⟨n, hn⟩ := Nat.exists_eq_succ_of_ne_zero
    (show doc.walkLimit ≠ 0 by have := o.length_flatten_pos; omega)
  obtain ⟨hhere, hbelow⟩ := ho
  simp only [Outline.top, Outline.flatten, List.length_cons] at hlength ⊢
  rw [tree, hn, treeUpTo, hhere]
  refine congrArg (Tree.node _) (List.map_congr_left fun c hc => ?_)
  obtain ⟨o, ho, rfl⟩ := List.mem_map.1 hc
  have hle := Outline.length_flatten_le_of_mem ho
  exact treeUpTo_eq (hbelow o ho) (by omega) (by omega)

theorem getD_textOf? (slot : TextSlot) : (doc.textOf? slot).getD "" = doc.textOf slot := by
  cases slot <;> rfl

theorem AttrBears.plain_eq {a : TreeAttribute} {id : AttrId} (h : doc.AttrBears a id) :
    (doc.attrLabel id).plain = a.plain := by
  obtain ⟨r, hr, hname, hvalue⟩ := h
  simp [attrLabel, hr, TreeAttribute.plain, TreeAttribute.nameText, TreeAttribute.valueText,
    getD_textOf?, textOf, hname.get_eq, hvalue.get_eq]

/-- A slot that is null if there is no text reads as the text or as nothing. -/
theorem textOf?_eq {slot : TextSlot} {text : Option String}
    (hholds : doc.texts.Holds slot (text.getD "")) (hnull : slot.isNull = text.isNone) :
    doc.textOf? slot = text := by
  rw [textOf?, hnull]
  cases text with
  | none => rfl
  | some text =>
    rw [textOf, hholds.get_eq]
    rfl

theorem Bears.exact_eq {l : TreeLabel} {id : NodeId} (h : doc.Bears l id) :
    (doc.labelOf id).exact = l.exact := by
  obtain ⟨r, hr, hkind, hname, hvalue, hnull⟩ := h.node
  have hattributes : ((doc.attributes id).map doc.attrLabel).map TreeAttribute.plain =
      l.attributes.map TreeAttribute.plain := by
    have hall : List.Forall₂ (· = ·) (((doc.attributes id).map doc.attrLabel).map
        TreeAttribute.plain) (l.attributes.map TreeAttribute.plain) := by
      rw [List.map_map, List.forall₂_map_left_iff, List.forall₂_map_right_iff]
      exact h.attributes.flip.imp fun _ _ ha => AttrBears.plain_eq ha
    rwa [List.forall₂_eq_eq_eq] at hall
  have hlabel : doc.labelOf id =
      ⟨l.kind, doc.textOf? r.name, doc.textOf? r.value, (doc.attributes id).map doc.attrLabel⟩ := by
    rw [labelOf, hr, ← hkind]
  have hnameText : (doc.textOf? r.name).getD "" = l.nameText := by
    rw [getD_textOf?, textOf, hname.get_eq]
  have hvalueText : (doc.textOf? r.value).getD "" = l.valueText := by
    rw [getD_textOf?, textOf, hvalue.get_eq]
  have hnameExact : (if l.kind.hasName then some ((doc.textOf? r.name).getD "")
      else doc.textOf? r.name) = if l.kind.hasName then some l.nameText else l.name := by
    cases hkindName : l.kind.hasName with
    | true => exact congrArg some hnameText
    | false => exact textOf?_eq hname (hnull.name hkindName)
  have hvalueExact : (if l.kind.tellsEmpty then doc.textOf? r.value
      else some ((doc.textOf? r.value).getD "")) =
        if l.kind.tellsEmpty then l.value else some l.valueText := by
    cases htells : l.kind.tellsEmpty with
    | true => exact textOf?_eq hvalue (hnull.value htells)
    | false => exact congrArg some hvalueText
  rw [hlabel, TreeLabel.exact, TreeLabel.exact, hattributes]
  exact congrArg₂ (fun name value => TreeLabel.mk l.kind name value _) hnameExact hvalueExact

end Document

namespace Tree

open Document

variable {doc : Document} {lay : Layout} {Among : NodeId → Prop}

mutual

/-- A tree that stands at a node is what is read there. -/
theorem StandsAt.exact_eq (hlaid : LaidOut doc lay) (t : Tree) (id : NodeId)
    (h : t.StandsAt doc Among id) : (doc.tree id).exact = t.exact := by
  match t with
  | .node l children =>
    rw [StandsAt] at h
    obtain ⟨-, hbears, hbelow⟩ := h
    rw [hlaid.tree_eq hbears.node.contains, exact, exact, hbears.exact_eq,
      AllStandAt.exact_eq hlaid children _ hbelow]

theorem AllStandAt.exact_eq (hlaid : LaidOut doc lay) (ts : List Tree) (ids : List NodeId)
    (h : AllStandAt doc Among ts ids) : allExact (ids.map doc.tree) = allExact ts := by
  match ts with
  | [] =>
    obtain rfl : ids = [] := h
    rfl
  | t :: ts =>
    obtain ⟨id, rest, rfl, ht, hts⟩ := h
    rw [List.map_cons, allExact, allExact, StandsAt.exact_eq hlaid t id ht,
      AllStandAt.exact_eq hlaid ts rest hts]

end

end Tree

end XmlTree
