/-
  Proofs/Twins.lean --- a document and the same one without some kinds of nodes.

  WHAT THIS FILE IS FOR.  Two documents that are built side by side, one of them without nodes of
  some kinds, share nothing: handles, slots and pages all differ.  What they have in common is
  said by a map.  Each node that stays has a twin in the thinner document, which reads the same
  and has the twins of its children below it, less those that are left out.

  WHAT IS KEPT.  A node that stays is added on both sides, one that does not on one side only,
  and attributes on both.  Whatever is built so, the tree below a twin is the tree below its node
  without the nodes of these kinds.
-/
import XmlTree.Proofs.Planting

set_option autoImplicit false

namespace XmlTree

/-! ## Trees without some kinds of nodes -/

mutual

/-- A tree without the nodes below it that have one of some kinds, and what is below them. -/
def Tree.without (drops : NodeKind → Bool) : Tree → Tree
  | .node l children => .node l (Tree.allWithout drops children)

/-- Trees side by side, without the nodes that have one of some kinds. -/
def Tree.allWithout (drops : NodeKind → Bool) : List Tree → List Tree
  | [] => []
  | t :: ts =>
    if drops t.label.kind then Tree.allWithout drops ts
    else t.without drops :: Tree.allWithout drops ts

end

theorem Tree.allWithout_eq (drops : NodeKind → Bool) (ts : List Tree) :
    Tree.allWithout drops ts =
      (ts.filter fun t => !drops t.label.kind).map (Tree.without drops) := by
  induction ts with
  | nil => rfl
  | cons t ts ih =>
    rw [Tree.allWithout, ih]
    cases hdrops : drops t.label.kind with
    | true => rw [if_pos rfl, List.filter_cons_of_neg (by simp [hdrops])]
    | false =>
      rw [if_neg Bool.false_ne_true, List.filter_cons_of_pos (by simp [hdrops]), List.map_cons]

namespace Document

/-! ## Twins -/

variable {drops : NodeKind → Bool} {twin : NodeId → NodeId} {doc doc' less less' : Document}
  {lay lay' : Layout} {parent owner id id' x : NodeId} {l : TreeLabel} {a : TreeAttribute}

/-- A node that is there and has none of the kinds that are dropped. -/
def Stays (drops : NodeKind → Bool) (doc : Document) (x : NodeId) : Prop :=
  doc.contains x = true ∧ drops (doc.kind x) = false

/-- Each node that stays has a twin of its own in the thinner document.  It reads the same, and
below it are the twins of those of its children that stay. -/
structure Thins (drops : NodeKind → Bool) (twin : NodeId → NodeId) (doc less : Document) :
    Prop where
  contains : ∀ {x}, doc.Stays drops x → less.contains (twin x) = true
  label : ∀ {x}, doc.Stays drops x → less.labelOf (twin x) = doc.labelOf x
  children : ∀ {x}, doc.Stays drops x →
    less.children (twin x) = ((doc.children x).filter fun c => !drops (doc.kind c)).map twin
  apart : ∀ {x y}, doc.Stays drops x → doc.Stays drops y → twin x = twin y → x = y

theorem Thins.kind (h : Thins drops twin doc less) (hx : doc.Stays drops x) :
    less.kind (twin x) = doc.kind x := by
  rw [← kind_labelOf, h.label hx, kind_labelOf]

theorem Planted.kind (h : Planted doc doc' parent id l) : doc'.kind id = l.kind := by
  rw [← kind_labelOf, h.label]

/-- A node stays if it stayed before, or if it is the new one and not of a dropped kind. -/
theorem Planted.stays_cases (h : Planted doc doc' parent id l) (hx : doc'.Stays drops x) :
    x = id ∧ drops l.kind = false ∨ x ≠ id ∧ doc.Stays drops x := by
  obtain ⟨hthere, hkind⟩ := hx
  by_cases hid : x = id
  · subst hid
    exact .inl ⟨rfl, by rwa [h.kind] at hkind⟩
  · have hold : doc.contains x = true := by simpa [h.contains, hid] using hthere
    exact .inr ⟨hid, hold, by rwa [h.kept.kind hold] at hkind⟩

/-- Those of the children of a node that stay are still those that do. -/
theorem Planted.filter_children (h : Planted doc doc' parent id l) (hlaid : LaidOut doc lay)
    (x : NodeId) :
    ((doc.children x).filter fun c => !drops (doc'.kind c)) =
      (doc.children x).filter fun c => !drops (doc.kind c) := by
  refine List.filter_congr fun c hc => ?_
  rw [h.kept.kind (contains_of_parent? (hlaid.mem_children.1 hc))]

/-- The new node is one more child of its parent that stays, unless it is dropped. -/
theorem Planted.filter_fed (h : Planted doc doc' parent id l) (hlaid : LaidOut doc lay) :
    ((doc'.children parent).filter fun c => !drops (doc'.kind c)) =
      ((doc.children parent).filter fun c => !drops (doc.kind c)) ++
        if drops l.kind then [] else [id] := by
  rw [h.children, List.filter_append, h.filter_children hlaid, List.filter_singleton, h.kind]
  cases drops l.kind <;> rfl

theorem Planted.labelOf_eq (h : Planted doc doc' parent id l) (hlaid : LaidOut doc lay)
    (hlegible : doc.Legible) (hx : doc.contains x = true) : doc'.labelOf x = doc.labelOf x :=
  h.kept.labelOf_eq hlaid hlegible hx fun hdressed => hdressed

/-- The node that got an attribute has it behind those that it had. -/
theorem Adorned.labelOf_owner (h : Adorned doc doc' owner a) (hlegible : doc.Legible)
    (howner : doc.contains owner = true) :
    doc'.labelOf owner =
      { doc.labelOf owner with attributes := (doc.labelOf owner).attributes ++ [a] } := by
  obtain ⟨r, hr⟩ := contains_iff.1 howner
  rw [h.kept.labelOf_dressed hlegible howner, h.attributes]
  simp only [labelOf, hr]

namespace Thins

/-- A node that stays is added, and its twin. -/
theorem planted (h : Thins drops twin doc less) (hlaid : LaidOut doc lay)
    (hlaid' : LaidOut less lay') (hlegible : doc.Legible) (hlegible' : less.Legible)
    (hparent : doc.Stays drops parent) (hl : drops l.kind = false)
    (hnew : Planted doc doc' parent id l) (hnew' : Planted less less' (twin parent) id' l) :
    Thins drops (Function.update twin id id') doc' less' where
  contains {x} hx := by
    obtain ⟨rfl, -⟩ | ⟨hne, hold⟩ := hnew.stays_cases hx
    · rw [Function.update_self, hnew'.contains]
      simp
    · rw [Function.update_of_ne hne, hnew'.contains, h.contains hold, Bool.or_true]
  label {x} hx := by
    obtain ⟨rfl, -⟩ | ⟨hne, hold⟩ := hnew.stays_cases hx
    · rw [Function.update_self, hnew'.label, hnew.label]
    · rw [Function.update_of_ne hne, hnew'.labelOf_eq hlaid' hlegible' (h.contains hold),
        h.label hold, hnew.labelOf_eq hlaid hlegible hold.1]
  children {x} hx := by
    obtain ⟨rfl, -⟩ | ⟨hne, hold⟩ := hnew.stays_cases hx
    · rw [Function.update_self, hnew'.bare, hnew.bare]
      rfl
    · have htwins : ((doc.children x).filter fun c => !drops (doc.kind c)).map
          (Function.update twin id id') =
            ((doc.children x).filter fun c => !drops (doc.kind c)).map twin := by
        refine List.map_congr_left fun c hc => Function.update_of_ne ?_ _ _
        have hchild := hlaid.mem_children.1 (List.mem_of_mem_filter hc)
        exact hnew.ne_of_contains (contains_of_parent? hchild)
      rw [Function.update_of_ne hne]
      by_cases hfed : x = parent
      · subst hfed
        rw [hnew'.children, hnew.filter_fed hlaid, hl, h.children hold, List.map_append, htwins]
        simp
      · have hother : twin x ≠ twin parent := fun heq => hfed (h.apart hold hparent heq)
        rw [hnew'.kept.children (h.contains hold) hother, hnew.kept.children hold.1 hfed,
          h.children hold, hnew.filter_children hlaid, htwins]
  apart {x y} hx hy heq := by
    have hfresh : ∀ {z}, doc.Stays drops z → twin z ≠ id' := fun hz =>
      hnew'.ne_of_contains (h.contains hz)
    obtain ⟨rfl, -⟩ | ⟨hne, hold⟩ := hnew.stays_cases hx
    · obtain ⟨rfl, -⟩ | ⟨hne', hold'⟩ := hnew.stays_cases hy
      · rfl
      · rw [Function.update_self, Function.update_of_ne hne'] at heq
        exact absurd heq.symm (hfresh hold')
    · obtain ⟨rfl, -⟩ | ⟨hne', hold'⟩ := hnew.stays_cases hy
      · rw [Function.update_self, Function.update_of_ne hne] at heq
        exact absurd heq (hfresh hold)
      · rw [Function.update_of_ne hne, Function.update_of_ne hne'] at heq
        exact h.apart hold hold' heq

/-- A node that does not stay is added, and nothing else. -/
theorem planted_dropped (h : Thins drops twin doc less) (hlaid : LaidOut doc lay)
    (hlegible : doc.Legible) (hl : drops l.kind = true) (hnew : Planted doc doc' parent id l) :
    Thins drops twin doc' less := by
  have hold : ∀ {x}, doc'.Stays drops x → doc.Stays drops x := by
    intro x hx
    obtain ⟨-, hkept⟩ | ⟨-, hold⟩ := hnew.stays_cases hx
    · rw [hl] at hkept
      cases hkept
    · exact hold
  refine ⟨fun hx => h.contains (hold hx), fun {x} hx => ?_, fun {x} hx => ?_,
    fun hx hy heq => h.apart (hold hx) (hold hy) heq⟩
  · rw [h.label (hold hx), hnew.labelOf_eq hlaid hlegible (hold hx).1]
  · rw [h.children (hold hx)]
    by_cases hfed : x = parent
    · subst hfed
      rw [hnew.filter_fed hlaid, hl, if_pos rfl, List.append_nil]
    · rw [hnew.kept.children (hold hx).1 hfed, hnew.filter_children hlaid]

/-- A node that stays gets an attribute, and its twin gets it too. -/
theorem adorned (h : Thins drops twin doc less) (hlaid : LaidOut doc lay)
    (hlaid' : LaidOut less lay') (hlegible : doc.Legible) (hlegible' : less.Legible)
    (howner : doc.Stays drops owner) (hnew : Adorned doc doc' owner a)
    (hnew' : Adorned less less' (twin owner) a) : Thins drops twin doc' less' := by
  have hkind : ∀ {x}, doc.contains x = true → doc'.kind x = doc.kind x := hnew.kept.kind
  have hold : ∀ {x}, doc'.Stays drops x → doc.Stays drops x := by
    rintro x ⟨hthere, hdrops⟩
    rw [hnew.contains] at hthere
    exact ⟨hthere, by rwa [hkind hthere] at hdrops⟩
  refine ⟨fun hx => ?_, fun {x} hx => ?_, fun {x} hx => ?_,
    fun hx hy heq => h.apart (hold hx) (hold hy) heq⟩
  · rw [hnew'.contains, h.contains (hold hx)]
  · by_cases hdressed : x = owner
    · subst hdressed
      rw [hnew'.labelOf_owner hlegible' (h.contains howner), hnew.labelOf_owner hlegible howner.1,
        h.label howner]
    · have hother : twin x ≠ twin owner := fun heq => hdressed (h.apart (hold hx) howner heq)
      rw [hnew'.kept.labelOf_eq hlaid' hlegible' (h.contains (hold hx)) hother,
        hnew.kept.labelOf_eq hlaid hlegible (hold hx).1 hdressed, h.label (hold hx)]
  · have hfilter : ((doc.children x).filter fun c => !drops (doc'.kind c)) =
        (doc.children x).filter fun c => !drops (doc.kind c) := by
      refine List.filter_congr fun c hc => ?_
      rw [hkind (contains_of_parent? (hlaid.mem_children.1 hc))]
    rw [hnew'.kept.children (h.contains (hold hx)) fun hfed => hfed,
      hnew.kept.children (hold hx).1 fun hfed => hfed, h.children (hold hx), hfilter]

/-- The children of a twin have the kinds of those children of its node that stay. -/
theorem map_kind (h : Thins drops twin doc less) (hlaid : LaidOut doc lay)
    (hx : doc.Stays drops x) :
    (less.children (twin x)).map less.kind =
      ((doc.children x).map doc.kind).filter fun kind => !drops kind := by
  rw [h.children hx, List.map_map, List.filter_map]
  refine List.map_congr_left fun c hc => h.kind ?_
  obtain ⟨hmem, hstays⟩ := List.mem_filter.1 hc
  exact ⟨contains_of_parent? (hlaid.mem_children.1 hmem), by simpa using hstays⟩

/-- Below a twin stands what is below its node, without the nodes that do not stay. -/
theorem tree_eq (h : Thins drops twin doc less) (hlaid : LaidOut doc lay)
    (hlaid' : LaidOut less lay') (hx : doc.Stays drops x) :
    less.tree (twin x) = (doc.tree x).without drops := by
  obtain ⟨o, rfl, ho⟩ := hlaid.forest.exists_outline x
  induction ho with
  | @node id os hhere _ ih =>
    rw [Outline.top] at hx ⊢
    have hkinds : ((doc.children id).filter fun c => !drops (doc.tree c).label.kind) =
        (doc.children id).filter fun c => !drops (doc.kind c) :=
      List.filter_congr fun c hc => by rw [hlaid.kind_tree hc]
    rw [hlaid.tree_eq hx.1, hlaid'.tree_eq (h.contains hx), h.label hx, h.children hx,
      Tree.without, Tree.allWithout_eq, List.filter_map, List.map_map, List.map_map]
    refine congrArg (Tree.node _) ?_
    rw [show (doc.children id).filter ((fun t => !drops t.label.kind) ∘ doc.tree) = _ from hkinds]
    refine List.map_congr_left fun c hc => ?_
    obtain ⟨hmem, hstays⟩ := List.mem_filter.1 hc
    have hthere : doc.contains c = true := contains_of_parent? (hlaid.mem_children.1 hmem)
    rw [hhere] at hmem
    obtain ⟨o, ho, rfl⟩ := List.mem_map.1 hmem
    exact ih o ho ⟨hthere, by simpa using hstays⟩

end Thins

end Document

end XmlTree
