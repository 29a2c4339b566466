/-
  Proofs/Layout.lean --- the invariant of a document, and what it says of its lists.

  WHAT THIS FILE IS FOR.  The records of a document spell a layout: for every node the
  list of its children and the list of its attributes.  `LaidOut` says that they do, that
  every member says who holds it, that what stands below a node may stand there, that no
  node stands below itself, and that nobody stands beside a node without a parent.

  A FOREST.  Nothing here says that there is one top.  In the middle of an edit a subtree
  stands nowhere, and an edit that is carried out puts it back or drops it.
-/
import XmlTree.Proofs.Records
import XmlTree.Proofs.Forest

set_option autoImplicit false

namespace XmlTree

/-- The children and the attributes of every node. -/
structure Layout where
  children : NodeId → List NodeId
  attributes : NodeId → List AttrId

namespace Layout

/-- The layout without any lists. -/
def blank : Layout := ⟨fun _ => [], fun _ => []⟩

/-- The layout with other children of one node. -/
def withChildren (lay : Layout) (p : NodeId) (cs : List NodeId) : Layout :=
  { lay with children := Function.update lay.children p cs }

/-- The layout with other attributes of one node. -/
def withAttributes (lay : Layout) (p : NodeId) (as : List AttrId) : Layout :=
  { lay with attributes := Function.update lay.attributes p as }

/-- The layout without some nodes. -/
def without (lay : Layout) (gone : List NodeId) : Layout :=
  ⟨fun p => if p ∈ gone then [] else lay.children p,
    fun p => if p ∈ gone then [] else lay.attributes p⟩

end Layout

namespace Document

variable {doc doc' : Document} {lay : Layout}

/-! ## The invariant -/

/-- The records of a document spell a layout. -/
structure LaidOut (doc : Document) (lay : Layout) : Prop where
  nodes : doc.nodes.Sound
  attrs : doc.attrs.Sound
  childLists : Listed doc.childEnds doc.besides doc.parent? lay.children
  attrLists : Listed doc.attributeEnds doc.attrBesides doc.owner? lay.attributes
  allowed : ∀ {c p}, doc.parent? c = some p → (doc.kind p).allowsChild (doc.kind c) = true
  owns : ∀ {a p}, doc.owner? a = some p → (doc.kind p).hasAttributes = true
  acyclic : Acyclic doc.parent?
  /-- a node without a parent has nobody beside it -/
  apart : ∀ {x}, doc.parent? x = none → doc.besides x = .none

/-! ## What follows from it at once -/

/-- What stands below a node that is there is there itself. -/
theorem contains_of_below {top x : NodeId} (hx : Below doc.parent? top x)
    (htop : doc.contains top = true) : doc.contains x = true := by
  cases hx with
  | self => exact htop
  | step hp _ => exact contains_of_parent? hp

theorem besides_of_not_contains {x : NodeId} (hx : doc.contains x = false) :
    doc.besides x = .none := by
  rw [contains, Option.isSome_eq_false_iff, Option.isNone_iff_eq_none] at hx
  rw [besides, hx]
  rfl

theorem kind_ne_null_of_allowsChild {p c : NodeKind} (h : p.allowsChild c = true) : p ≠ .null := by
  intro heq
  subst heq
  simp [NodeKind.allowsChild, NodeKind.hasChildren] at h

namespace LaidOut

/-- The node above a node is there. -/
theorem contains_parent (h : LaidOut doc lay) {c p : NodeId} (hp : doc.parent? c = some p) :
    doc.contains p = true :=
  contains_of_kind_ne (kind_ne_null_of_allowsChild (h.allowed hp))

/-- The owner of an attribute is there. -/
theorem contains_owner (h : LaidOut doc lay) {a : AttrId} {p : NodeId}
    (hp : doc.owner? a = some p) : doc.contains p = true := by
  refine contains_of_kind_ne fun hkind => ?_
  have howns := h.owns hp
  rw [hkind] at howns
  exact absurd howns (by decide)

/-- Whatever stands above a node that is there is there itself. -/
theorem contains_above (h : LaidOut doc lay) {top x : NodeId} (hx : doc.contains x = true)
    (hbelow : Below doc.parent? top x) : doc.contains top = true := by
  induction hbelow with
  | self => exact hx
  | step hp _ ih => exact ih (h.contains_parent hp)

/-- Different nodes are no more than there are slots. -/
theorem length_le_walkLimit {xs : List NodeId} (hnodup : xs.Nodup)
    (hlive : ∀ x ∈ xs, doc.contains x = true) : xs.length ≤ doc.walkLimit := by
  have hhandles : (xs.map NodeId.handle).Nodup :=
    hnodup.map fun a b hab => by cases a; cases b; simp_all
  have hlive' : ∀ x ∈ xs.map NodeId.handle, (doc.nodes.get? x).isSome := by
    intro x hx
    obtain ⟨c, hc, rfl⟩ := List.mem_map.1 hx
    exact hlive c hc
  simpa [walkLimit] using SlotStore.length_le_slotCount hhandles hlive'

/-- Different attributes are no more than there are slots. -/
theorem length_le_attrSlots {as : List AttrId} (hnodup : as.Nodup)
    (hlive : ∀ a ∈ as, doc.containsAttr a = true) : as.length ≤ doc.attrs.slotCount := by
  have hhandles : (as.map AttrId.handle).Nodup :=
    hnodup.map fun a b hab => by cases a; cases b; simp_all
  have hlive' : ∀ x ∈ as.map AttrId.handle, (doc.attrs.get? x).isSome := by
    intro x hx
    obtain ⟨a, ha, rfl⟩ := List.mem_map.1 hx
    exact hlive a ha
  simpa using SlotStore.length_le_slotCount hhandles hlive'

theorem length_attributes_le (h : LaidOut doc lay) (p : NodeId) :
    (lay.attributes p).length ≤ doc.attrs.slotCount :=
  length_le_attrSlots (h.attrLists.nodup p) fun _ ha =>
    containsAttr_of_owner? (h.attrLists.mem.1 ha)

theorem reads_children (h : LaidOut doc lay) (p : NodeId) :
    Reads doc.nextSibling? (doc.firstChild? p) (lay.children p) := by
  rw [firstChild?_eq]
  exact (h.childLists.spells p).reads_forwards fun x _ => nextSibling?_eq x

/-- The children read off a document are those of its layout. -/
theorem children_eq (h : LaidOut doc lay) (p : NodeId) : doc.children p = lay.children p :=
  chain_eq_of_reads (h.reads_children p) (length_le_walkLimit (h.childLists.nodup p) fun _ hc =>
    contains_of_parent? (h.childLists.mem.1 hc))

/-- The attributes read off a document are those of its layout. -/
theorem attributes_eq (h : LaidOut doc lay) (p : NodeId) :
    doc.attributes p = lay.attributes p := by
  have hreads : Reads doc.nextAttribute? (doc.firstAttribute? p) (lay.attributes p) := by
    rw [firstAttribute?_eq]
    exact (h.attrLists.spells p).reads_forwards fun x _ => nextAttribute?_eq x
  exact chain_eq_of_reads hreads (h.length_attributes_le p)

theorem mem_children (h : LaidOut doc lay) {p c : NodeId} :
    c ∈ doc.children p ↔ doc.parent? c = some p := by
  rw [h.children_eq, h.childLists.mem]

theorem mem_attributes (h : LaidOut doc lay) {p : NodeId} {a : AttrId} :
    a ∈ doc.attributes p ↔ doc.owner? a = some p := by
  rw [h.attributes_eq, h.attrLists.mem]

/-- Nothing stands below a handle that leads to no node. -/
theorem lists_of_not_contains (h : LaidOut doc lay) {id : NodeId} (hid : doc.contains id = false) :
    doc.children id = [] ∧ doc.attributes id = [] := by
  refine ⟨List.eq_nil_iff_forall_not_mem.2 fun c hc => ?_,
    List.eq_nil_iff_forall_not_mem.2 fun a ha => ?_⟩
  · rw [h.contains_parent (h.mem_children.1 hc)] at hid
    cases hid
  · rw [h.contains_owner (h.mem_attributes.1 ha)] at hid
    cases hid

/-- Heights of nodes: their depths are bounded, since there are no more nodes than
slots. -/
theorem bounded (h : LaidOut doc lay) :
    ∃ height : NodeId → Nat, ∀ {c p}, doc.parent? c = some p → height c < height p := by
  obtain ⟨depth, hdepth⟩ := h.acyclic
  have hbound : ∀ n, ∃ H, ∀ x : NodeId, doc.contains x = true → x.handle.index < n →
      depth x ≤ H := by
    intro n
    induction n with
    | zero => exact ⟨0, fun x _ hx => absurd hx (by omega)⟩
    | succ n ih =>
      obtain ⟨H, hH⟩ := ih
      by_cases hn : ∃ y : NodeId, doc.contains y = true ∧ y.handle.index = n
      · obtain ⟨y, hy, hindex⟩ := hn
        refine ⟨max H (depth y), fun x hx hlt => ?_⟩
        by_cases hxn : x.handle.index = n
        · -- the node in a slot is the only one with that index
          obtain ⟨r, hr⟩ := contains_iff.1 hx
          obtain ⟨s, hs⟩ := contains_iff.1 hy
          have hhandle := SlotStore.eq_of_index_eq hr hs (hxn.trans hindex.symm)
          obtain rfl : x = y := by cases x; cases y; simp_all
          exact Nat.le_max_right _ _
        · exact Nat.le_trans (hH x hx (by omega)) (Nat.le_max_left _ _)
      · refine ⟨H, fun x hx hlt => hH x hx ?_⟩
        have hne : x.handle.index ≠ n := fun heq => hn ⟨x, hx, heq⟩
        omega
  obtain ⟨H, hH⟩ := hbound doc.nodes.slotCount
  refine ⟨fun x => H - depth x, fun {c p} hp => ?_⟩
  have hc : depth c ≤ H := by
    obtain ⟨r, hr⟩ := contains_iff.1 (contains_of_parent? hp)
    exact hH c (contains_of_parent? hp) (SlotStore.index_lt_of_get? hr)
  have hlt := hdepth hp
  beta_reduce
  omega

/-- The nodes form a forest. -/
theorem forest (h : LaidOut doc lay) : Forest doc.children doc.parent? where
  mem := h.mem_children
  nodup p := h.children_eq p ▸ h.childLists.nodup p
  acyclic := h.acyclic
  bounded := h.bounded

/-- The outline of a node that is there fits into a walk. -/
theorem length_flatten_le {o : Outline NodeId} {kids : NodeId → List NodeId}
    (hforest : Forest kids doc.parent?) (ho : o.Follows kids)
    (htop : doc.contains o.top = true) : o.flatten.length ≤ doc.walkLimit :=
  length_le_walkLimit (hforest.nodup_flatten ho) fun _ hx =>
    contains_of_below ((hforest.mem_flatten ho).1 hx) htop

/-- The walk through a subtree is its outline. -/
theorem subtree_eq_flatten (h : LaidOut doc lay) {o : Outline NodeId}
    (ho : o.Follows doc.children) (htop : doc.contains o.top = true) :
    doc.subtree o.top = o.flatten :=
  Outline.walk_eq_flatten ho (length_flatten_le h.forest ho htop)

/-- The walk through a subtree visits what stands below its top. -/
theorem mem_subtree (h : LaidOut doc lay) {id x : NodeId} (hid : doc.contains id = true) :
    x ∈ doc.subtree id ↔ Below doc.parent? id x := by
  obtain ⟨o, rfl, ho⟩ := h.forest.exists_outline id
  rw [h.subtree_eq_flatten ho hid, h.forest.mem_flatten ho]

theorem subtree_nodup (h : LaidOut doc lay) {id : NodeId} (hid : doc.contains id = true) :
    (doc.subtree id).Nodup := by
  obtain ⟨o, rfl, ho⟩ := h.forest.exists_outline id
  rw [h.subtree_eq_flatten ho hid]
  exact h.forest.nodup_flatten ho

/-- The walk with children in reverse visits the same nodes. -/
theorem mem_mirroredSubtree (h : LaidOut doc lay) {id x : NodeId}
    (hid : doc.contains id = true) :
    x ∈ doc.mirroredSubtree id ↔ Below doc.parent? id x := by
  have hmirror := h.forest.mirror
  obtain ⟨o, rfl, ho⟩ := hmirror.exists_outline id
  rw [mirroredSubtree, Outline.walk_eq_flatten ho (length_flatten_le hmirror ho hid),
    hmirror.mem_flatten ho]

theorem mirroredSubtree_nodup (h : LaidOut doc lay) {id : NodeId}
    (hid : doc.contains id = true) : (doc.mirroredSubtree id).Nodup := by
  have hmirror := h.forest.mirror
  obtain ⟨o, rfl, ho⟩ := hmirror.exists_outline id
  rw [mirroredSubtree, Outline.walk_eq_flatten ho (length_flatten_le hmirror ho hid)]
  exact hmirror.nodup_flatten ho

theorem ancestorsUpTo_eq_chain (limit : Nat) (id : NodeId) :
    doc.ancestorsUpTo limit id = chain doc.parent? limit (doc.parent? id) := by
  induction limit generalizing id with
  | zero => cases doc.parent? id <;> rfl
  | succ limit ih =>
    cases hp : doc.parent? id with
    | none => simp [ancestorsUpTo, hp, chain]
    | some p => simp [ancestorsUpTo, hp, chain, ih]

/-- The way up from a node that is there is read to its end. -/
theorem reads_ancestors (h : LaidOut doc lay) {id : NodeId} (hid : doc.contains id = true) :
    Reads doc.parent? (doc.parent? id) (doc.ancestors id) ∧ (id :: doc.ancestors id).Nodup ∧
      ∀ x, Below doc.parent? x id ↔ x ∈ id :: doc.ancestors id := by
  obtain ⟨xs, hreads, hnodup, hmem⟩ := h.acyclic.exists_reads id
  have hlength : (id :: xs).length ≤ doc.walkLimit :=
    length_le_walkLimit hnodup fun x hx => h.contains_above hid ((hmem x).2 hx)
  have hxs : doc.ancestors id = xs := by
    rw [ancestors, ancestorsUpTo_eq_chain]
    exact chain_eq_of_reads hreads (Nat.le_trans (Nat.le_succ _) hlength)
  rw [hxs]
  exact ⟨hreads, hnodup, hmem⟩

/-- Nothing is above a node without a parent. -/
theorem ancestors_eq_nil {id : NodeId} (hid : doc.parent? id = none) : doc.ancestors id = [] := by
  rw [ancestors, ancestorsUpTo_eq_chain, hid]
  cases doc.walkLimit <;> rfl

/-- The nodes above a node are its parent and the nodes above that. -/
theorem ancestors_eq_cons (h : LaidOut doc lay) {c p : NodeId} (hp : doc.parent? c = some p) :
    doc.ancestors c = p :: doc.ancestors p := by
  have hlivep : doc.contains p = true := h.contains_parent hp
  obtain ⟨hreads, hnodup, habove⟩ := h.reads_ancestors hlivep
  have hlive : ∀ x ∈ p :: doc.ancestors p, doc.contains x = true := by
    intro x hx
    exact h.contains_above hlivep ((habove x).2 hx)
  rw [ancestors.eq_def doc c, ancestorsUpTo_eq_chain, hp]
  exact chain_eq_of_reads ⟨rfl, hreads⟩ (length_le_walkLimit hnodup hlive)

theorem isAncestorOrSelf_iff (h : LaidOut doc lay) {a id : NodeId}
    (hid : doc.contains id = true) :
    doc.isAncestorOrSelf a id = true ↔ Below doc.parent? a id := by
  rw [isAncestorOrSelf, List.contains_iff_mem, (h.reads_ancestors hid).2.2 a]

/-- Nothing changes if everything that is read off the records but texts stays. -/
theorem congr (h : LaidOut doc lay) (hnodes : doc'.nodes.Sound) (hattrs : doc'.attrs.Sound)
    (hchildEnds : ∀ x, doc'.childEnds x = doc.childEnds x)
    (hbesides : ∀ x, doc'.besides x = doc.besides x)
    (hparent : ∀ x, doc'.parent? x = doc.parent? x)
    (hattributeEnds : ∀ x, doc'.attributeEnds x = doc.attributeEnds x)
    (hattrBesides : ∀ x, doc'.attrBesides x = doc.attrBesides x)
    (howner : ∀ x, doc'.owner? x = doc.owner? x) (hkind : ∀ x, doc'.kind x = doc.kind x) :
    LaidOut doc' lay where
  nodes := hnodes
  attrs := hattrs
  childLists := h.childLists.congr hchildEnds hparent fun y _ => hbesides y
  attrLists := h.attrLists.congr hattributeEnds howner fun y _ => hattrBesides y
  allowed hp := by
    rw [hparent] at hp
    rw [hkind, hkind]
    exact h.allowed hp
  owns hp := by
    rw [howner] at hp
    rw [hkind]
    exact h.owns hp
  acyclic := h.acyclic.congr hparent
  apart {x} hx := by
    rw [hparent] at hx
    rw [hbesides, h.apart hx]

/-- Texts do not matter. -/
theorem sameShape (h : LaidOut doc lay) (hsame : SameShape doc doc') : LaidOut doc' lay :=
  h.congr (hsame.nodes h.nodes) (hsame.attrs h.attrs) hsame.childEnds_eq hsame.besides_eq
    hsame.parent?_eq hsame.attributeEnds_eq hsame.attrBesides_eq hsame.owner?_eq hsame.kind_eq

/-- What is known about the order of nodes does not matter. -/
theorem forgetOrder (h : LaidOut doc lay) : LaidOut doc.forgetOrder lay :=
  h.congr h.nodes h.attrs (fun _ => rfl) (fun _ => rfl) (fun _ => rfl) (fun _ => rfl)
    (fun _ => rfl) (fun _ => rfl) fun _ => rfl

end LaidOut

end Document

end XmlTree
