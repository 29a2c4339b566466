/-
  Proofs/Climbing.lean --- climbing along the links lists what is after and before a node.

  WHAT THIS FILE IS FOR.  What follows and what precedes a node is found by stepping from node
  to node: onwards down to a first child or up until there is a sibling after, backwards up
  until there is a sibling before and down to the last node of its subtree.  Here it is said
  that these steps go through the subtrees of the siblings on that side of the node and of the
  nodes above it, and that they end at the document node.

  THE CURSOR.  One step is told by the list of children that the cursor stands in: onwards it
  goes to the next child or on as from the parent, backwards to the end of the child before or
  to the parent, which is passed over if it stands above the node that everything began at.
  What is still to be read is then an outline behind the cursor and a rest, and the induction is
  on outlines, and from the document node down to the node.
-/
import XmlTree.Proofs.Walks
import XmlTree.Query.Axis

set_option autoImplicit false

namespace XmlTree

namespace Document

variable {doc : Document} {lay : Layout} {origin p c x : NodeId} {xs ys : List NodeId}

namespace Rooted

/-! ## Onwards -/

/-- The document node has no siblings. -/
theorem siblings_root (h : Rooted doc lay) :
    doc.nextSibling? doc.root = none ∧ doc.previousSibling? doc.root = none := by
  have hbesides := h.apart h.parent?_root
  rw [nextSibling?_eq, previousSibling?_eq, hbesides]
  exact ⟨rfl, rfl⟩

theorem afterSubtree?_root (h : Rooted doc lay) (limit : Nat) :
    doc.afterSubtree? limit doc.root = none := by
  cases limit with
  | zero => rfl
  | succ limit => rw [afterSubtree?, h.siblings_root.1, h.parent?_root]

/-- Climbing without a top is climbing up to the document node, where nothing is beside. -/
theorem afterSubtree?_eq (h : Rooted doc lay) (limit : Nat) (x : NodeId) :
    doc.afterSubtree? limit x = doc.resume? doc.root limit x := by
  induction limit generalizing x with
  | zero => rfl
  | succ limit ih =>
    rw [resume?]
    by_cases hx : x = doc.root
    · rw [if_pos hx, hx]
      exact h.afterSubtree?_root (limit + 1)
    · rw [if_neg hx, afterSubtree?]
      cases doc.nextSibling? x with
      | some y => rfl
      | none =>
        cases doc.parent? x with
        | none => rfl
        | some q =>
          by_cases hq : q = doc.root
          · simpa [hq] using h.afterSubtree?_root limit
          · simpa [hq] using ih q

theorem follower?_eq (h : Rooted doc lay) (x : NodeId) :
    doc.follower? x = doc.nextBelow? doc.root x := by
  unfold follower? nextBelow?
  cases doc.firstChild? x with
  | none => exact h.afterSubtree?_eq _ x
  | some c => rfl

/-- What comes after the subtree of a node is read from where climbing leads. -/
theorem reads_nodesAfter (h : Rooted doc lay) (hx : doc.contains x = true) :
    Reads doc.follower? (doc.afterSubtree? doc.walkLimit x) (doc.nodesAfter x) := by
  have hfollower : doc.follower? = doc.nextBelow? doc.root := funext h.follower?_eq
  have hbelow := h.below_root hx
  rw [hfollower, h.afterSubtree?_eq]
  clear hx
  induction hbelow with
  | self =>
    rw [h.resume?_top h.contains_root, h.nodesAfter_root]
    trivial
  | @step c p hp hbelow ih =>
    obtain ⟨xs, ys, hcut⟩ := List.append_of_mem (h.mem_children.2 hp)
    have hys : ys.Sublist (doc.children p) := by
      rw [hcut]
      exact (List.sublist_cons_self c ys).trans (List.sublist_append_right xs _)
    obtain ⟨os, rfl, hfollows, -, hwalk⟩ := h.exists_outlines hys
    have hc : c ≠ doc.root := by
      rintro rfl
      rw [h.parent?_root] at hp
      cases hp
    rw [h.resume?_child hcut hc, h.nodesAfter_eq_append hcut, hwalk]
    exact h.reads_flattenAll (xs ++ [c]) (by simpa using hcut) hbelow
      (fun o ho rest hbelow hrest => h.reads_flatten (hfollows o ho) hbelow hrest) ih

/-- What follows a node are the subtrees of the siblings after it and after the nodes above. -/
theorem followingNodes_eq (h : Rooted doc lay) (hx : doc.contains x = true) :
    doc.followingNodes x = doc.nodesAfter x := by
  have hsub := (List.sublist_append_right _ _).trans (h.descendants_append_after_sublist hx)
  refine chain_eq_of_reads (h.reads_nodesAfter hx)
    (LaidOut.length_le_walkLimit (h.preorder_nodup.sublist hsub) fun y hy => ?_)
  exact h.mem_preorder.1 (hsub.subset hy)

/-- What follows the start of a node is everything below it, and then what follows it. -/
theorem followingFrom_follower? (h : Rooted doc lay) (hx : doc.contains x = true) :
    doc.followingFrom (doc.follower? x) = doc.descendants x ++ doc.nodesAfter x := by
  have hsub := h.descendants_append_after_sublist hx
  refine chain_eq_of_reads ?_
    (LaidOut.length_le_walkLimit (h.preorder_nodup.sublist hsub) fun y hy =>
      h.mem_preorder.1 (hsub.subset hy))
  have hafter := h.reads_nodesAfter hx
  have hfollower : doc.follower? = doc.nextBelow? doc.root := funext h.follower?_eq
  obtain ⟨os, hos, hfollows, -, hwalk⟩ := h.exists_outlines (List.Sublist.refl (doc.children x))
  rw [hfollower, h.afterSubtree?_eq] at hafter
  rw [hfollower, h.nextBelow?_eq, h.descendants_eq_preorderOf, hwalk, hos]
  exact h.reads_flattenAll [] (by simpa using hos) (h.below_root hx)
    (fun o ho rest hbelow hrest => h.reads_flatten (hfollows o ho) hbelow hrest) hafter

end Rooted

/-! ## Backwards -/

namespace LaidOut

theorem lastChild?_eq_getLast? (h : LaidOut doc lay) (p : NodeId) :
    doc.lastChild? p = (doc.children p).getLast? := by
  have hreads := (h.childLists.spells p).reads_backwards fun x _ => previousSibling?_eq x
  rw [lastChild?_eq, h.children_eq, hreads.head?, List.head?_reverse]

theorem previousSibling?_child (h : LaidOut doc lay) (hcut : doc.children p = xs ++ c :: ys) :
    doc.previousSibling? c = xs.getLast? := by
  have hspells := h.childLists.spells p
  rw [← h.children_eq, hcut] at hspells
  rw [(hspells.reads_before fun x _ => previousSibling?_eq x).head?, List.head?_reverse]

/-- With enough looks it does not matter how many there may be. -/
theorem nodeBefore?_limit (h : LaidOut doc lay) {limit limit' : Nat}
    (hlimit : (doc.ancestors x).length < limit) (hlimit' : (doc.ancestors x).length < limit') :
    doc.nodeBefore? origin limit x = doc.nodeBefore? origin limit' x := by
  induction limit generalizing x limit' with
  | zero => exact absurd hlimit (Nat.not_lt_zero _)
  | succ limit ih =>
    obtain ⟨limit', rfl⟩ := Nat.exists_eq_add_of_lt (Nat.zero_lt_of_lt hlimit')
    rw [Nat.zero_add] at hlimit' ⊢
    rw [nodeBefore?, nodeBefore?]
    cases doc.previousSibling? x with
    | some y => rfl
    | none =>
      cases hp : doc.parent? x with
      | none => rfl
      | some q =>
        rw [h.ancestors_eq_cons hp] at hlimit hlimit'
        have hsame := ih (Nat.lt_of_succ_lt_succ hlimit) (Nat.lt_of_succ_lt_succ hlimit')
        exact congrArg (fun above => if doc.isAncestorOrSelf q origin then above else some q) hsame

/-- Where the way leads back from the first child of a node. -/
def beforeChildren? (doc : Document) (origin p : NodeId) : Option NodeId :=
  if doc.isAncestorOrSelf p origin then doc.nodeBefore? origin doc.walkLimit p else some p

/-- Before a child comes the end of the child before it, and before the first child the
parent, unless that one stands above the node that everything began at. -/
theorem nodeBefore?_child (h : LaidOut doc lay) (hcut : doc.children p = xs ++ c :: ys) :
    doc.nodeBefore? origin doc.walkLimit c =
      (xs.getLast?.map (doc.lastInSubtree doc.walkLimit)).or (beforeChildren? doc origin p) := by
  have hp : doc.parent? c = some p := h.mem_children.1 (by simp [hcut])
  have hlimit := h.length_ancestors_lt (contains_of_parent? hp)
  have hlimitp := h.length_ancestors_lt (h.contains_parent hp)
  obtain ⟨limit, hwalk⟩ := Nat.exists_eq_add_of_lt (Nat.zero_lt_of_lt hlimit)
  rw [h.ancestors_eq_cons hp, List.length_cons, hwalk, Nat.zero_add] at hlimit
  have habove : doc.nodeBefore? origin limit p = doc.nodeBefore? origin doc.walkLimit p :=
    h.nodeBefore?_limit (Nat.lt_of_succ_lt_succ hlimit) hlimitp
  conv_lhs => rw [hwalk, Nat.zero_add]
  rw [nodeBefore?, h.previousSibling?_child hcut, hp]
  cases xs.getLast? with
  | some y => rfl
  | none =>
    rw [Option.map_none, Option.none_or, beforeChildren?, ← habove]

/-- The outlines of the first children of a node are read backwards from the end of the last
of them, and then what is read before the children. -/
theorem reads_flattenAll_reverse (h : LaidOut doc lay) {os : List (Outline NodeId)}
    {rest : List NodeId} (hcut : doc.children p = os.map Outline.top ++ ys)
    (ho : ∀ o ∈ os, ∀ limit rest, o.flatten.length ≤ limit + 1 →
      Reads (doc.nodeBefore? origin doc.walkLimit)
        (doc.nodeBefore? origin doc.walkLimit o.top) rest →
      Reads (doc.nodeBefore? origin doc.walkLimit) (some (doc.lastInSubtree limit o.top))
        (o.flatten.reverse ++ rest))
    {limit : Nat} (hlimit : (Outline.flattenAll os).length ≤ limit + 1)
    (hwalk : (Outline.flattenAll os).length ≤ doc.walkLimit)
    (hrest : Reads (doc.nodeBefore? origin doc.walkLimit) (beforeChildren? doc origin p) rest) :
    Reads (doc.nodeBefore? origin doc.walkLimit)
      (((os.map Outline.top).getLast?.map (doc.lastInSubtree limit)).or
        (beforeChildren? doc origin p)) ((Outline.flattenAll os).reverse ++ rest) := by
  induction os using List.reverseRecOn generalizing limit ys with
  | nil => simpa [Outline.flattenAll] using hrest
  | append_singleton os o ih =>
    rw [Outline.flattenAll_append, List.length_append] at hlimit hwalk
    have hlast : Outline.flattenAll [o] = o.flatten := by simp [Outline.flattenAll]
    rw [hlast] at hlimit hwalk
    rw [Outline.flattenAll_append, hlast, List.reverse_append, List.append_assoc, List.map_append,
      List.map_singleton, List.getLast?_append]
    have hcut' : doc.children p = os.map Outline.top ++ o.top :: ys := by simpa using hcut
    refine ho o (by simp) limit _ (by omega) ?_
    rw [h.nodeBefore?_child hcut']
    exact ih hcut' (fun o ho' => ho o (by simp [ho'])) (by omega) (by omega)

/-- The outline of an item that does not stand above the node that everything began at is read
backwards from its end, and then what is read before the item. -/
theorem reads_flatten_reverse (h : LaidOut doc lay) {o : Outline NodeId}
    (ho : o.Follows doc.children) (horigin : doc.contains origin = true)
    (hnot : ¬ Below doc.parent? o.top origin) (hwalk : o.flatten.length ≤ doc.walkLimit)
    (limit : Nat) (rest : List NodeId) (hlimit : o.flatten.length ≤ limit + 1)
    (hrest : Reads (doc.nodeBefore? origin doc.walkLimit)
      (doc.nodeBefore? origin doc.walkLimit o.top) rest) :
    Reads (doc.nodeBefore? origin doc.walkLimit) (some (doc.lastInSubtree limit o.top))
      (o.flatten.reverse ++ rest) := by
  induction ho generalizing limit rest with
  | @node a os hhere _ ih =>
    rw [Outline.top] at hnot hrest ⊢
    rw [Outline.flatten, List.length_cons] at hlimit hwalk
    rw [Outline.flatten, List.reverse_cons, List.append_assoc]
    have hpassed : doc.isAncestorOrSelf a origin = false := by
      rw [Bool.eq_false_iff]
      exact fun habove => hnot ((h.isAncestorOrSelf_iff horigin).1 habove)
    have hitem : Reads (doc.nodeBefore? origin doc.walkLimit) (beforeChildren? doc origin a)
        ([a] ++ rest) := by
      rw [beforeChildren?, hpassed]
      exact ⟨rfl, hrest⟩
    have hend : some (doc.lastInSubtree limit a) =
        ((os.map Outline.top).getLast?.map (doc.lastInSubtree (limit - 1))).or
          (beforeChildren? doc origin a) := by
      rw [beforeChildren?, hpassed, ← hhere, ← h.lastChild?_eq_getLast?]
      cases limit with
      | zero =>
        obtain rfl : os = [] := by
          cases os with
          | nil => rfl
          | cons o os =>
            have hpos := o.length_flatten_pos
            rw [Outline.flattenAll, List.length_append] at hlimit
            omega
        rw [h.lastChild?_eq_getLast?, hhere]
        rfl
      | succ limit =>
        rw [lastInSubtree]
        cases doc.lastChild? a <;> rfl
    have hcut : doc.children a = os.map Outline.top ++ [] := by simpa using hhere
    rw [hend]
    refine h.reads_flattenAll_reverse hcut (fun o ho => ?_) (by omega) (by omega) hitem
    have hchild : doc.parent? o.top = some a :=
      h.mem_children.1 (hhere ▸ List.mem_map_of_mem ho)
    have hpart := Outline.length_flatten_le_of_mem ho
    exact ih o ho (fun habove => hnot (.trans (.step hchild .self) habove)) (by omega)

end LaidOut

namespace Rooted

/-- Where the nodes above are passed over anyway, the first step back is like every other. -/
theorem firstBefore?_eq (h : Rooted doc lay) (horigin : doc.contains origin = true)
    (hx : Below doc.parent? x origin) (limit : Nat) :
    doc.firstBefore? limit x = doc.nodeBefore? origin limit x := by
  induction limit generalizing x with
  | zero => rfl
  | succ limit ih =>
    rw [firstBefore?, nodeBefore?]
    cases doc.previousSibling? x with
    | some y => rfl
    | none =>
      cases hp : doc.parent? x with
      | none => rfl
      | some q =>
        have habove : Below doc.parent? q origin := .trans (.step hp .self) hx
        simpa [(h.isAncestorOrSelf_iff horigin).2 habove] using ih habove

/-- What comes before a node, but for the nodes above it, is read from where the way leads
back.  The induction is on the way down to the node. -/
theorem reads_nodesBefore (h : Rooted doc lay) (horigin : doc.contains origin = true)
    (hx : Below doc.parent? x origin) :
    Reads (doc.nodeBefore? origin doc.walkLimit) (doc.nodeBefore? origin doc.walkLimit x)
      (doc.nodesBefore x) := by
  have hbelow := h.below_root (h.contains_above horigin hx)
  induction hbelow with
  | self =>
    have hnone : ∀ limit, doc.nodeBefore? origin limit doc.root = none := by
      intro limit
      cases limit with
      | zero => rfl
      | succ limit => rw [nodeBefore?, h.siblings_root.2, h.parent?_root]
    rw [hnone, h.nodesBefore_root]
    trivial
  | @step c p hp _ ih =>
    have habove : Below doc.parent? p origin := .trans (.step hp .self) hx
    obtain ⟨xs, ys, hcut⟩ := List.append_of_mem (h.mem_children.2 hp)
    have hxs : xs.Sublist (doc.children p) := by
      rw [hcut]
      exact List.sublist_append_left xs _
    obtain ⟨os, rfl, hfollows, hlimit, hwalk⟩ := h.exists_outlines hxs
    have hpassed : LaidOut.beforeChildren? doc origin p =
        doc.nodeBefore? origin doc.walkLimit p :=
      if_pos ((h.isAncestorOrSelf_iff horigin).2 habove)
    rw [h.nodeBefore?_child hcut, h.nodesBefore_eq_append hcut, hwalk]
    refine h.reads_flattenAll_reverse hcut (fun o ho => ?_) (by omega) hlimit
      (hpassed ▸ ih habove)
    have hmem : o.top ∈ os.map Outline.top := List.mem_map_of_mem ho
    have htop : doc.parent? o.top = some p := h.mem_children.1 (hxs.subset hmem)
    have hne : c ≠ o.top := by
      rintro rfl
      have hnodup := h.forest.nodup p
      rw [hcut] at hnodup
      exact (List.nodup_append.1 hnodup).2.2 _ hmem _ List.mem_cons_self rfl
    have hpart := Outline.length_flatten_le_of_mem ho
    exact h.reads_flatten_reverse (hfollows o ho) horigin
      (Below.disjoint h.acyclic hp htop hne hx) (by omega)

/-- What precedes a node are the subtrees of the siblings before it and before the nodes above,
the nearest node first. -/
theorem precedingNodes_eq (h : Rooted doc lay) (hx : doc.contains x = true) :
    doc.precedingNodes x = doc.nodesBefore x := by
  have hsub := h.before_sublist hx
  rw [precedingNodes, h.firstBefore?_eq hx .self]
  refine chain_eq_of_reads (h.reads_nodesBefore hx .self)
    (LaidOut.length_le_walkLimit (List.nodup_reverse.1 (h.preorder_nodup.sublist hsub))
      fun y hy => ?_)
  exact h.mem_preorder.1 (hsub.subset (List.mem_reverse.2 hy))

end Rooted

end Document

end XmlTree
