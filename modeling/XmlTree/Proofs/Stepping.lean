/-
  Proofs/Stepping.lean --- a walk along the links is the walk through the tree.

  WHAT THIS FILE IS FOR.  What is below a node is listed by stepping from each node to the
  next, down to a first child or up until a sibling turns up.  Here it is said that these
  steps go through the outline of the node, each item before what is below it, and that they
  end below the node.

  GOING ON.  After everything below a child the walk goes on at the next child, and after
  everything below the last child where it goes on after the parent.  With this, reading the
  outline of an item and then a rest only asks that the rest is read from where the walk goes
  on after the item, and the induction is on outlines.

  SUBTREES AND SIBLINGS.  So what is below a node is the subtrees of its children, one after
  the other, and its siblings are what the list of children holds on either side of it.
-/
import XmlTree.Proofs.Layout
import Mathlib.Data.List.Flatten

set_option autoImplicit false

namespace XmlTree

namespace Document

variable {doc : Document} {lay : Layout} {top p c x : NodeId} {xs ys : List NodeId}

namespace LaidOut

/-! ## Links -/

theorem firstChild?_eq_head? (h : LaidOut doc lay) (p : NodeId) :
    doc.firstChild? p = (doc.children p).head? := by
  rw [h.children_eq]
  exact (h.reads_children p).head?

/-- The siblings after a child are read to the end of the list. -/
theorem reads_nextSibling (h : LaidOut doc lay) (hcut : doc.children p = xs ++ c :: ys) :
    Reads doc.nextSibling? (doc.nextSibling? c) ys := by
  have hspells := h.childLists.spells p
  rw [← h.children_eq, hcut] at hspells
  exact hspells.reads_after fun x _ => nextSibling?_eq x

/-- The siblings of a node stand below its parent. -/
theorem parent?_nextSibling (h : LaidOut doc lay) {y : NodeId}
    (hp : doc.parent? x = some p) (hy : doc.nextSibling? x = some y) :
    doc.parent? y = some p := by
  rw [nextSibling?_eq] at hy
  exact h.childLists.holder?_of_near hp (.inr hy)

/-! ## Where the walk goes on -/

/-- With enough looks the walk goes on at the sibling after the first node on the way up to
`top` that has one. -/
theorem resume?_eq (h : LaidOut doc lay) {limit : Nat}
    (hlimit : (doc.ancestors x).length < limit) :
    doc.resume? top limit x =
      ((x :: doc.ancestors x).takeWhile (· ≠ top)).findSome? doc.nextSibling? := by
  induction limit generalizing x with
  | zero => exact absurd hlimit (Nat.not_lt_zero _)
  | succ limit ih =>
    rw [resume?]
    by_cases hx : x = top
    · simp [hx]
    · rw [if_neg hx, List.takeWhile_cons_of_pos (by simpa using hx), List.findSome?_cons]
      cases hnext : doc.nextSibling? x with
      | some y => rfl
      | none =>
        cases hp : doc.parent? x with
        | none =>
          rw [ancestors_eq_nil hp]
          rfl
        | some q =>
          rw [h.ancestors_eq_cons hp] at hlimit ⊢
          by_cases hq : q = top
          · simp [hq]
          · simpa [hq] using ih (Nat.lt_of_succ_lt_succ hlimit)

/-- The nodes above a node that is there are fewer than a walk may visit. -/
theorem length_ancestors_lt (h : LaidOut doc lay) (hx : doc.contains x = true) :
    (doc.ancestors x).length < doc.walkLimit := by
  obtain ⟨-, hnodup, habove⟩ := h.reads_ancestors hx
  exact length_le_walkLimit hnodup fun y hy => h.contains_above hx ((habove y).2 hy)

/-- After everything below `top` the walk ends. -/
theorem resume?_top (h : LaidOut doc lay) (htop : doc.contains top = true) :
    doc.resume? top doc.walkLimit top = none := by
  rw [h.resume?_eq (h.length_ancestors_lt htop)]
  simp

/-- After everything below a child the walk goes on at the next child, and after the last
child where it goes on after the parent. -/
theorem resume?_child (h : LaidOut doc lay) (hcut : doc.children p = xs ++ c :: ys)
    (hc : c ≠ top) : doc.resume? top doc.walkLimit c =
      ys.head?.or (doc.resume? top doc.walkLimit p) := by
  have hp : doc.parent? c = some p := h.mem_children.1 (by simp [hcut])
  rw [h.resume?_eq (h.length_ancestors_lt (contains_of_parent? hp)),
    h.resume?_eq (h.length_ancestors_lt (h.contains_parent hp)), h.ancestors_eq_cons hp,
    List.takeWhile_cons_of_pos (by simpa using hc), List.findSome?_cons,
    (h.reads_nextSibling hcut).head?]
  cases ys <;> rfl

/-! ## The steps -/

/-- The next node is the first child, if there is one. -/
theorem nextBelow?_eq (h : LaidOut doc lay) (x : NodeId) : doc.nextBelow? top x =
    (doc.children x).head?.or (doc.resume? top doc.walkLimit x) := by
  rw [nextBelow?, h.firstChild?_eq_head?]
  cases doc.children x <;> rfl

/-- The outlines of the last children of a node are read one after the other, and then what
is read after the node. -/
theorem reads_flattenAll (h : LaidOut doc lay) (earlier : List NodeId)
    {os : List (Outline NodeId)} {rest : List NodeId}
    (hcut : doc.children p = earlier ++ os.map Outline.top) (hbelow : Below doc.parent? top p)
    (ho : ∀ o ∈ os, ∀ rest, Below doc.parent? top o.top →
      Reads (doc.nextBelow? top) (doc.resume? top doc.walkLimit o.top) rest →
      Reads (doc.nextBelow? top) (some o.top) (o.flatten ++ rest))
    (hrest : Reads (doc.nextBelow? top) (doc.resume? top doc.walkLimit p) rest) :
    Reads (doc.nextBelow? top) ((os.map Outline.top).head?.or (doc.resume? top doc.walkLimit p))
      (Outline.flattenAll os ++ rest) := by
  induction os generalizing earlier with
  | nil => simpa [Outline.flattenAll] using hrest
  | cons o os ih =>
    obtain ⟨hfirst, hothers⟩ := List.forall_mem_cons.1 ho
    rw [List.map_cons] at hcut ⊢
    have hp : doc.parent? o.top = some p := h.mem_children.1 (by simp [hcut])
    have hne : o.top ≠ top := by
      intro heq
      exact Below.not_parent h.acyclic hp (heq ▸ hbelow)
    rw [Outline.flattenAll, List.append_assoc]
    refine hfirst _ (.step hp hbelow) ?_
    rw [h.resume?_child hcut hne]
    exact ih (earlier ++ [o.top]) (by simpa using hcut) hothers

/-- The outline of an item is read from the item on, and then what is read after it. -/
theorem reads_flatten (h : LaidOut doc lay) {o : Outline NodeId} {rest : List NodeId}
    (ho : o.Follows doc.children) (hbelow : Below doc.parent? top o.top)
    (hrest : Reads (doc.nextBelow? top) (doc.resume? top doc.walkLimit o.top) rest) :
    Reads (doc.nextBelow? top) (some o.top) (o.flatten ++ rest) := by
  induction ho generalizing rest with
  | @node a os hhere _ ih =>
    rw [Outline.flatten]
    refine ⟨rfl, ?_⟩
    rw [Outline.top, h.nextBelow?_eq, hhere]
    exact h.reads_flattenAll [] hhere hbelow
      (fun o ho rest hbelow hrest => ih o ho hbelow hrest) hrest

/-- Stepping below a node that is there goes through the outlines of its children. -/
theorem reads_below (h : LaidOut doc lay) {os : List (Outline NodeId)}
    (htop : doc.contains top = true) (hhere : doc.children top = os.map Outline.top)
    (hos : ∀ o ∈ os, o.Follows doc.children) :
    Reads (doc.nextBelow? top) (doc.firstChild? top) (Outline.flattenAll os) := by
  have hend : Reads (doc.nextBelow? top) (doc.resume? top doc.walkLimit top) [] := by
    rw [h.resume?_top htop]
    trivial
  have hreads := h.reads_flatten (.node hhere hos) .self hend
  rw [Outline.flatten, List.append_nil] at hreads
  have hfirst : doc.nextBelow? top top = doc.firstChild? top := by
    rw [h.nextBelow?_eq, h.resume?_top htop, Option.or_none, h.firstChild?_eq_head?]
  rw [← hfirst]
  exact hreads.2

/-! ## What is below a node -/

/-- The outlines of the children of a node that is there fit into a walk. -/
theorem length_flattenAll_le (h : LaidOut doc lay) {os : List (Outline NodeId)}
    (htop : doc.contains top = true) (hhere : doc.children top = os.map Outline.top)
    (hos : ∀ o ∈ os, o.Follows doc.children) :
    (Outline.flattenAll os).length ≤ doc.walkLimit := by
  have hlength := length_flatten_le h.forest (.node hhere hos) htop
  rw [Outline.flatten, List.length_cons] at hlength
  exact Nat.le_of_succ_le hlength

/-- What is below a node is the outlines of its children, one after the other. -/
theorem descendants_eq_flattenAll (h : LaidOut doc lay) {os : List (Outline NodeId)}
    (htop : doc.contains top = true) (hhere : doc.children top = os.map Outline.top)
    (hos : ∀ o ∈ os, o.Follows doc.children) : doc.descendants top = Outline.flattenAll os :=
  chain_eq_of_reads (h.reads_below htop hhere hos) (h.length_flattenAll_le htop hhere hos)

/-- The limit of the walk does not cut off what is below a node. -/
theorem reads_descendants (h : LaidOut doc lay) (htop : doc.contains top = true) :
    Reads (doc.nextBelow? top) (doc.firstChild? top) (doc.descendants top) := by
  obtain ⟨o, rfl, ho⟩ := h.forest.exists_outline top
  cases ho with
  | @node a os hhere hos =>
    have hreads := h.reads_below htop hhere hos
    rwa [← h.descendants_eq_flattenAll htop hhere hos] at hreads

/-- What the steps go through is the walk that begins with the children. -/
theorem descendants_eq_preorderOf (h : LaidOut doc lay) (id : NodeId) :
    doc.descendants id = doc.preorderOf (doc.children id) := by
  cases hid : doc.contains id with
  | false =>
    have hnone : doc.children id = [] := (h.lists_of_not_contains hid).1
    rw [descendants, h.firstChild?_eq_head?, preorderOf, hnone]
    cases doc.walkLimit <;> rfl
  | true =>
    obtain ⟨o, rfl, ho⟩ := h.forest.exists_outline id
    cases ho with
    | @node a os hhere hos =>
      have hfits := h.length_flattenAll_le hid hhere hos
      rw [h.descendants_eq_flattenAll hid hhere hos, Outline.top, preorderOf, hhere,
        Outline.walk_eq _ os hos, List.take_of_length_le hfits]

end LaidOut

/-! ## Subtrees -/

theorem preorderOf_nil (doc : Document) : doc.preorderOf [] = [] := by
  rw [preorderOf]
  cases doc.walkLimit <;> rfl

namespace LaidOut

/-- Nothing stands below what is not there. -/
theorem children_eq_nil (h : LaidOut doc lay) {p : NodeId} (hp : doc.contains p = false) :
    doc.children p = [] := by
  refine List.eq_nil_iff_forall_not_mem.2 fun c hc => ?_
  have hlive := h.contains_parent (h.mem_children.1 hc)
  rw [hp] at hlive
  cases hlive

/-- Some of the children of a node have outlines, and a walk that begins with them lists these
one after the other and is not cut off. -/
theorem exists_outlines (h : LaidOut doc lay) {p : NodeId} {ids : List NodeId}
    (hsub : ids.Sublist (doc.children p)) :
    ∃ os : List (Outline NodeId), ids = os.map Outline.top ∧ (∀ o ∈ os, o.Follows doc.children) ∧
      (Outline.flattenAll os).length ≤ doc.walkLimit ∧
      doc.preorderOf ids = Outline.flattenAll os := by
  cases hp : doc.contains p with
  | false =>
    rw [h.children_eq_nil hp] at hsub
    obtain rfl := List.sublist_nil.1 hsub
    exact ⟨[], rfl, by simp, Nat.zero_le _, preorderOf_nil doc⟩
  | true =>
    obtain ⟨o, htop, ho⟩ := h.forest.exists_outline p
    cases ho with
    | @node a os hhere hbelow =>
      obtain rfl : a = p := htop
      rw [hhere] at hsub
      obtain ⟨picked, hpicked, rfl⟩ := List.sublist_map_iff.1 hsub
      have hfollows : ∀ o ∈ picked, o.Follows doc.children := fun o ho =>
        hbelow o (hpicked.subset ho)
      have hlength : (Outline.flattenAll picked).length ≤ doc.walkLimit := by
        have hwhole := length_flatten_le h.forest (.node hhere hbelow) hp
        have hpart := (hpicked.flatMap Outline.flatten).length_le
        rw [Outline.flatten, List.length_cons, Outline.flattenAll_eq_flatMap] at hwhole
        rw [Outline.flattenAll_eq_flatMap]
        omega
      refine ⟨picked, rfl, hfollows, hlength, ?_⟩
      rw [preorderOf, Outline.walk_eq _ picked hfollows, List.take_of_length_le hlength]

/-- A walk that begins with some of the children of a node lists their subtrees one after
the other. -/
theorem preorderOf_eq (h : LaidOut doc lay) {p : NodeId} {ids : List NodeId}
    (hsub : ids.Sublist (doc.children p)) : doc.preorderOf ids = ids.flatMap doc.subtree := by
  obtain ⟨os, rfl, hfollows, -, hwalk⟩ := h.exists_outlines hsub
  rw [hwalk, Outline.flattenAll_eq_flatMap, List.flatMap_map]
  refine List.flatMap_congr fun o ho => ?_
  have hmem : o.top ∈ doc.children p := hsub.subset (List.mem_map_of_mem ho)
  exact (h.subtree_eq_flatten (hfollows o ho)
    (contains_of_parent? (h.mem_children.1 hmem))).symm

/-- Everything below a node is in the subtrees of its children. -/
theorem descendants_eq (h : LaidOut doc lay) (id : NodeId) :
    doc.descendants id = (doc.children id).flatMap doc.subtree := by
  rw [h.descendants_eq_preorderOf]
  exact h.preorderOf_eq (List.Sublist.refl _)

/-- A subtree is its top and everything below it. -/
theorem subtree_eq (h : LaidOut doc lay) {id : NodeId} (hid : doc.contains id = true) :
    doc.subtree id = id :: doc.descendants id := by
  obtain ⟨o, rfl, ho⟩ := h.forest.exists_outline id
  have hsubtree := h.subtree_eq_flatten ho hid
  cases ho with
  | @node a os hhere hbelow =>
    have hlength := length_flatten_le h.forest (.node hhere hbelow) hid
    rw [Outline.flatten, List.length_cons] at hlength
    rw [hsubtree, Outline.flatten, Outline.top, h.descendants_eq_preorderOf, preorderOf, hhere,
      Outline.walk_eq _ os hbelow, List.take_of_length_le (by omega)]

/-! ## Siblings -/

/-- What comes after a child among the children of its parent. -/
theorem followingSiblings_eq (h : LaidOut doc lay) {p c : NodeId} {xs ys : List NodeId}
    (hcut : doc.children p = xs ++ c :: ys) : doc.followingSiblings c = ys := by
  have hys : ys.Sublist (doc.children p) := by
    rw [hcut]
    exact (List.sublist_cons_self c ys).trans (List.sublist_append_right xs _)
  refine chain_eq_of_reads (h.reads_nextSibling hcut)
    (length_le_walkLimit ((h.forest.nodup p).sublist hys) fun x hx => ?_)
  exact contains_of_parent? (h.mem_children.1 (hys.subset hx))

/-- What comes before a child among the children of its parent, the nearest first. -/
theorem precedingSiblings_eq (h : LaidOut doc lay) {p c : NodeId} {xs ys : List NodeId}
    (hcut : doc.children p = xs ++ c :: ys) : doc.precedingSiblings c = xs.reverse := by
  have hspells := h.childLists.spells p
  rw [← h.children_eq, hcut] at hspells
  have hxs : xs.Sublist (doc.children p) := by
    rw [hcut]
    exact List.sublist_append_left xs _
  refine chain_eq_of_reads (hspells.reads_before fun x _ => previousSibling?_eq x)
    (length_le_walkLimit (List.nodup_reverse.2 ((h.forest.nodup p).sublist hxs)) fun x hx => ?_)
  exact contains_of_parent? (h.mem_children.1 (hxs.subset (List.mem_reverse.1 hx)))

/-- A node without a parent has no siblings. -/
theorem siblings_eq_nil (h : LaidOut doc lay) {id : NodeId} (hid : doc.parent? id = none) :
    doc.followingSiblings id = [] ∧ doc.precedingSiblings id = [] := by
  have hbesides := h.apart hid
  constructor
  · rw [followingSiblings, nextSibling?_eq, hbesides]
    cases doc.nodes.slotCount <;> rfl
  · rw [precedingSiblings, previousSibling?_eq, hbesides]
    cases doc.nodes.slotCount <;> rfl

end LaidOut

end Document

end XmlTree
