/-
  Proofs/Sorting.lean --- keys put nodes and attributes in document order.

  WHAT THIS FILE IS FOR.  Nodes of a query are sorted, and the first of them is found, by
  keys: the key of the tree node, then the place among its attributes.  The keys grow along
  the sequence of a document, so comparing keys is asking which node comes first.  Hence
  sorting a sound set gives a sound set with a tag, and the node that is read off a sound
  set, or looked for in it, comes before all others.
-/
import XmlTree.Proofs.Axes
import XmlTree.Proofs.DocumentOrder

set_option autoImplicit false

namespace XmlTree

open Document

/-! ## Comparing keys -/

instance : Std.TransCmp compareKeys where
  eq_swap {a b} := by
    rcases a with _ | m <;> rcases b with _ | n
    · rfl
    · rfl
    · rfl
    · have hswap : compare m n = (compare n m).swap := Std.OrientedCmp.eq_swap
      exact hswap
  isLE_trans {a b c} hab hbc := by
    rcases a with _ | m <;> rcases b with _ | n <;> rcases c with _ | k
    · rfl
    · exact hbc
    · rfl
    · cases hab
    · rfl
    · cases hbc
    · rfl
    · have hmn : (compare m n).isLE = true := hab
      have hnk : (compare n k).isLE = true := hbc
      have hmk : (compare m k).isLE = true := Std.TransCmp.isLE_trans hmn hnk
      exact hmk

namespace OrderKey

instance : Std.TransCmp OrderKey.compare := by
  have hrank : Std.TransCmp fun a b : OrderKey => compareKeys a.rank b.rank :=
    { eq_swap := Std.OrientedCmp.eq_swap, isLE_trans := Std.TransCmp.isLE_trans }
  have hposition : Std.TransCmp fun a b : OrderKey => compareKeys a.position b.position :=
    { eq_swap := Std.OrientedCmp.eq_swap, isLE_trans := Std.TransCmp.isLE_trans }
  exact inferInstanceAs (Std.TransCmp (compareLex (fun a b : OrderKey => compareKeys a.rank b.rank)
    fun a b => compareKeys a.position b.position))

theorem compare_self (a : OrderKey) : a.compare a = .eq := Std.ReflCmp.compare_self

theorem compare_swap (a b : OrderKey) : a.compare b = (b.compare a).swap :=
  Std.OrientedCmp.eq_swap

theorem le_iff_isLE {a b : OrderKey} : a.le b = true ↔ (a.compare b).isLE = true := by
  rw [le, Ordering.isLE_iff_ne_gt]
  simp

theorem le_trans {a b c : OrderKey} (hab : a.le b = true) (hbc : b.le c = true) :
    a.le c = true :=
  le_iff_isLE.2 (Std.TransCmp.isLE_trans (le_iff_isLE.1 hab) (le_iff_isLE.1 hbc))

theorem le_of_not_lt {a b : OrderKey} (h : a.compare b ≠ .lt) : b.le a = true := by
  rw [le_iff_isLE, compare_swap]
  cases hab : a.compare b with
  | lt => exact absurd hab h
  | eq => rfl
  | gt => rfl

theorem le_of_lt {a b : OrderKey} (h : a.compare b = .lt) : a.le b = true := by
  rw [le_iff_isLE, h]
  rfl

theorem le_total (a b : OrderKey) : (a.le b || b.le a) = true := by
  by_cases hab : a.compare b = .lt
  · rw [le_of_lt hab, Bool.true_or]
  · rw [le_of_not_lt hab, Bool.or_true]

end OrderKey

/-! ## Keys along the sequence -/

variable {doc : Document} {lay : Layout}

theorem attrPosition_eq (h : LaidOut doc lay) {id : NodeId} {i : Nat}
    (hi : i < (doc.attributes id).length) :
    doc.attrPosition (doc.attributes id)[i] = i + 1 := by
  have hnodup : (doc.attributes id).Nodup := by
    rw [h.attributes_eq]
    exact h.attrLists.nodup id
  have howner : doc.owner? (doc.attributes id)[i] = some id :=
    h.mem_attributes.1 (List.getElem_mem hi)
  have hindex : (doc.attributes id).idxOf? (doc.attributes id)[i] = some i := by
    rw [List.idxOf?_eq_some_iff]
    exact ⟨hi, rfl, fun j hj heq => by
      have := (List.Nodup.getElem_inj_iff hnodup).1 heq
      omega⟩
  rw [attrPosition, attrSiblings, howner, Option.elim_some, hindex]

namespace Document.Rooted

/-- The keys of a node and its attributes grow: the node comes at place zero, the first
attribute at place one. -/
theorem entries_pairwise (h : Rooted doc lay) {id : NodeId} :
    (doc.entries id).Pairwise fun a b =>
      (doc.order.key a).compare (doc.order.key b) = .lt := by
  have hsame : ∀ k : Option Nat, compareKeys k k = .eq := by
    intro k
    cases k with
    | none => rfl
    | some m => exact Nat.compare_eq_eq.2 rfl
  have hkeys : ∀ {a b : QueryNode} {k : Option Nat} {i j : Nat}, i < j →
      doc.order.key a = ⟨k, some i⟩ → doc.order.key b = ⟨k, some j⟩ →
        (doc.order.key a).compare (doc.order.key b) = .lt := by
    intro a b k i j hij ha hb
    rw [ha, hb, OrderKey.compare, hsame]
    exact Nat.compare_eq_lt.2 hij
  have hattribute : ∀ (i : Nat) (hi : i < (doc.attributes id).length),
      doc.order.key (.attribute (doc.attributes id)[i] id) =
        ⟨doc.orderKey? doc.order.ranks id, some (i + 1)⟩ := by
    intro i hi
    rw [← attrPosition_eq h.toLaidOut hi]
    rfl
  refine List.pairwise_cons.2 ⟨fun n hn => ?_, ?_⟩
  · obtain ⟨a, ha, rfl⟩ := List.mem_map.1 hn
    obtain ⟨i, hi, rfl⟩ := List.getElem_of_mem ha
    exact hkeys (Nat.succ_pos i) rfl (hattribute i hi)
  · rw [List.pairwise_map, List.pairwise_iff_getElem]
    intro i j hi hj hij
    exact hkeys (Nat.succ_lt_succ hij) (hattribute i hi) (hattribute j hj)

/-- The keys of nodes and attributes grow along the sequence. -/
theorem sequence_pairwise (h : Rooted doc lay) (htimely : Timely doc) :
    doc.sequence.Pairwise fun a b => (doc.order.key a).compare (doc.order.key b) = .lt := by
  have hincreasing := h.orderKey?_increasing htimely
  have hrank : ∀ {id n}, n ∈ doc.entries id →
      (doc.order.key n).rank = doc.orderKey? doc.order.ranks id := by
    intro id n hn
    obtain rfl | ⟨a, -, rfl⟩ := (mem_entries h.toLaidOut).1 hn
    · rfl
    · rfl
  refine List.pairwise_flatMap.2 ⟨fun id _ => h.entries_pairwise, ?_⟩
  refine hincreasing.pairwise.imp_of_mem fun {x y} hx hy hlt a ha b hb => ?_
  obtain ⟨i, hi⟩ := Option.isSome_iff_exists.1 (hincreasing.isSome x hx)
  obtain ⟨j, hj⟩ := Option.isSome_iff_exists.1 (hincreasing.isSome y hy)
  have hij : compare i j = .lt := Nat.compare_eq_lt.2 (hlt i j hi hj)
  have hranks : compareKeys (doc.order.key a).rank (doc.order.key b).rank = .lt := by
    rw [hrank ha, hrank hb]
    change compareKeys (doc.orderKey? (Thunk.mk fun _ => doc.currentRanks) x)
      (doc.orderKey? (Thunk.mk fun _ => doc.currentRanks) y) = .lt
    rw [hi, hj]
    exact hij
  rw [OrderKey.compare, hranks]
  rfl

/-- Of two nodes that are there, the key of the one that comes first is less. -/
theorem compare_key_eq_lt_iff (h : Rooted doc lay) (htimely : Timely doc) {a b : QueryNode}
    (ha : doc.Live a) (hb : doc.Live b) :
    (doc.order.key a).compare (doc.order.key b) = .lt ↔ doc.Precedes a b := by
  have hforward : ∀ {a b}, doc.Precedes a b →
      (doc.order.key a).compare (doc.order.key b) = .lt := fun hab =>
    (h.sequence_pairwise htimely).forall_sublist hab
  refine ⟨fun hlt => ?_, hforward⟩
  by_cases heq : a = b
  · rw [heq, OrderKey.compare_self] at hlt
    cases hlt
  · obtain hab | hba := h.precedes_or ha hb heq
    · exact hab
    · rw [OrderKey.compare_swap, hforward hba] at hlt
      cases hlt

/-- The key of a node is at most that of another one exactly if it is the same node or comes
before it. -/
theorem key_le_iff (h : Rooted doc lay) (htimely : Timely doc) {a b : QueryNode}
    (ha : doc.Live a) (hb : doc.Live b) :
    (doc.order.key a).le (doc.order.key b) = true ↔ b = a ∨ doc.Precedes a b := by
  constructor
  · intro hle
    by_cases heq : b = a
    · exact .inl heq
    · obtain hba | hab := h.precedes_or hb ha heq
      · have hlt := (h.compare_key_eq_lt_iff htimely hb ha).2 hba
        rw [OrderKey.le_iff_isLE, OrderKey.compare_swap, hlt] at hle
        cases hle
      · exact .inr hab
  · rintro (rfl | hab)
    · rw [OrderKey.le_iff_isLE, OrderKey.compare_self]
      rfl
    · exact OrderKey.le_of_lt ((h.compare_key_eq_lt_iff htimely ha hb).2 hab)

end Document.Rooted

/-! ## Sorting -/

theorem dropRepeats_of_nodup {α : Type} [DecidableEq α] {l : List α} (h : l.Nodup) :
    dropRepeats l = l := by
  induction l with
  | nil => rfl
  | cons a l ih =>
    obtain ⟨ha, hl⟩ := List.nodup_cons.1 h
    cases l with
    | nil => rfl
    | cons b rest =>
      have hne : a ≠ b := fun heq => ha (heq ▸ List.mem_cons_self)
      rw [dropRepeats, if_neg hne, ih hl]

/-- Sorting by a key lists the same members, with keys that do not fall. -/
theorem sorted_by_key (key : QueryNode → OrderKey) (nodes : List QueryNode) :
    let sorted := ((nodes.map fun n => (key n, n)).mergeSort fun a b => a.1.le b.1).map Prod.snd
    sorted.Perm nodes ∧ sorted.Pairwise fun a b => (key a).le (key b) = true := by
  intro sorted
  have hperm := List.mergeSort_perm (nodes.map fun n => (key n, n)) fun a b => a.1.le b.1
  constructor
  · have hsecond : (nodes.map fun n => (key n, n)).map Prod.snd = nodes := by
      rw [List.map_map]
      exact List.map_id nodes
    have hmapped := hperm.map Prod.snd
    rwa [hsecond] at hmapped
  · have hpairwise : ((nodes.map fun n => (key n, n)).mergeSort fun a b => a.1.le b.1).Pairwise
        fun a b => a.1.le b.1 = true := by
      refine List.pairwise_mergeSort ?_ ?_ _
      · exact fun a b c => OrderKey.le_trans
      · exact fun a b => OrderKey.le_total a.1 b.1
    refine List.pairwise_map.2 (hpairwise.imp_of_mem fun {a b} ha hb hle => ?_)
    obtain ⟨m, -, rfl⟩ := List.mem_map.1 (hperm.mem_iff.1 ha)
    obtain ⟨n, -, rfl⟩ := List.mem_map.1 (hperm.mem_iff.1 hb)
    exact hle

/-- A set without repetitions is sorted by listing its nodes in another order. -/
theorem NodeSet.perm_sort (order : DocumentOrder) {s : NodeSet} (hs : s.nodes.Nodup) :
    (s.sort order false).nodes.Perm s.nodes := by
  obtain ⟨hperm, -⟩ := sorted_by_key order.key s.nodes
  rw [sort, dropRepeats_of_nodup (hperm.nodup_iff.2 hs)]
  exact hperm

namespace Document.Rooted

/-- A sound set that is sorted is a sound set with a tag. -/
theorem sound_sort (h : Rooted doc lay) (htimely : Timely doc) {s : NodeSet}
    (hs : s.Sound doc) (backwards : Bool) : (s.sort doc.order backwards).Sound doc := by
  obtain ⟨hperm, hle⟩ := sorted_by_key doc.order.key s.nodes
  have hnodup := hperm.nodup_iff.2 hs.nodup
  have hlive : ∀ n ∈ _, doc.Live n := fun n hn => hs.live n (hperm.mem_iff.1 hn)
  have hsorted : List.Pairwise doc.Precedes _ := (hle.and hnodup).imp_of_mem
    fun {a b} ha hb hab => by
      obtain heq | hbefore := (h.key_le_iff htimely (hlive a ha) (hlive b hb)).1 hab.1
      · exact absurd heq.symm hab.2
      · exact hbefore
  rw [NodeSet.sort, dropRepeats_of_nodup hnodup]
  cases backwards with
  | false =>
    exact
    { live := hlive
      nodup := hnodup
      sorted := fun _ => hsorted
      reverse := fun ho => by cases ho }
  | true =>
    exact
    { live := fun n hn => hlive n (List.mem_reverse.1 hn)
      nodup := List.nodup_reverse.2 hnodup
      sorted := fun ho => by cases ho
      reverse := fun _ => List.pairwise_reverse.2 hsorted }

end Document.Rooted

/-! ## The first node -/

/-- The node comes first in a list: it is in it, and before all other members. -/
structure Document.ComesFirst (doc : Document) (n : QueryNode) (l : List QueryNode) : Prop where
  mem : n ∈ l
  before : ∀ m ∈ l, m = n ∨ doc.Precedes n m

/-- The member with the least key is a member, and no key is less. -/
theorem leastBy_eq_some (key : QueryNode → OrderKey) {l : List QueryNode} (hne : l ≠ []) :
    ∃ n ∈ l, leastBy key l = some n ∧ ∀ m ∈ l, (key n).le (key m) = true := by
  cases l with
  | nil => exact absurd rfl hne
  | cons first rest =>
    let step := fun (best : QueryNode × OrderKey) (m : QueryNode) =>
      if (key m).compare best.2 = .lt then (m, key m) else best
    -- the key that is kept is that of the best node so far
    have hfold : ∀ (rest : List QueryNode) (best : QueryNode),
        ∃ n, rest.foldl step (best, key best) = (n, key n) ∧ n ∈ best :: rest ∧
          ∀ m ∈ best :: rest, (key n).le (key m) = true := by
      intro rest
      induction rest with
      | nil =>
        intro best
        refine ⟨best, rfl, List.mem_cons_self, fun m hm => ?_⟩
        obtain rfl := List.mem_singleton.1 hm
        rw [OrderKey.le_iff_isLE, OrderKey.compare_self]
        rfl
      | cons m rest ih =>
        intro best
        by_cases hlt : (key m).compare (key best) = .lt
        · obtain ⟨n, hn, hmem, hle⟩ := ih m
          refine ⟨n, ?_, List.mem_cons_of_mem best hmem, fun k hk => ?_⟩
          · rw [List.foldl_cons, ← hn]
            exact congrArg (rest.foldl step) (if_pos hlt)
          · obtain rfl | hk := List.mem_cons.1 hk
            · exact OrderKey.le_trans (hle m List.mem_cons_self) (OrderKey.le_of_lt hlt)
            · exact hle k hk
        · obtain ⟨n, hn, hmem, hle⟩ := ih best
          have hbest : (key n).le (key best) = true := hle best List.mem_cons_self
          refine ⟨n, ?_, ?_, fun k hk => ?_⟩
          · rw [List.foldl_cons, ← hn]
            exact congrArg (rest.foldl step) (if_neg hlt)
          · obtain rfl | hmem := List.mem_cons.1 hmem
            · exact List.mem_cons_self
            · exact List.mem_cons_of_mem best (List.mem_cons_of_mem m hmem)
          · obtain rfl | hk := List.mem_cons.1 hk
            · exact hbest
            · obtain rfl | hk := List.mem_cons.1 hk
              · exact OrderKey.le_trans hbest (OrderKey.le_of_not_lt hlt)
              · exact hle k (List.mem_cons_of_mem best hk)
    obtain ⟨n, hn, hmem, hle⟩ := hfold rest first
    exact ⟨n, hmem, congrArg (fun best : QueryNode × OrderKey => some best.1) hn, hle⟩

namespace Document.Rooted

/-- The node that is read off a sound set, or looked for in it, comes first; there is none
only in the empty set. -/
theorem comesFirst_first (h : Rooted doc lay) (htimely : Timely doc) {s : NodeSet}
    (hs : s.Sound doc) (hne : s.nodes ≠ []) :
    doc.ComesFirst (s.first doc.order) s.nodes := by
  cases horder : s.order with
  | sorted =>
    obtain ⟨n, rest, hnodes⟩ := List.exists_cons_of_ne_nil hne
    have hfirst : s.first doc.order = n := by
      rw [NodeSet.first, horder, hnodes]
      rfl
    have hpairwise := hs.sorted horder
    rw [hnodes, List.pairwise_cons] at hpairwise
    rw [hfirst, hnodes]
    refine ⟨List.mem_cons_self, fun m hm => ?_⟩
    obtain rfl | hm := List.mem_cons.1 hm
    · exact .inl rfl
    · exact .inr (hpairwise.1 m hm)
  | reverse =>
    obtain ⟨rest, n, hnodes⟩ := (List.eq_nil_or_concat s.nodes).resolve_left hne
    rw [List.concat_eq_append] at hnodes
    have hfirst : s.first doc.order = n := by
      rw [NodeSet.first, horder, hnodes]
      simp
    have hpairwise := hs.reverse horder
    rw [hnodes, List.pairwise_append] at hpairwise
    rw [hfirst, hnodes]
    refine ⟨by simp, fun m hm => ?_⟩
    obtain hm | hm := List.mem_append.1 hm
    · exact .inr (hpairwise.2.2 m hm n (by simp))
    · exact .inl (List.mem_singleton.1 hm)
  | unsorted =>
    obtain ⟨n, hmem, hleast, hle⟩ := leastBy_eq_some doc.order.key hne
    have hfirst : s.first doc.order = n := by
      rw [NodeSet.first, horder]
      simp only [hleast, Option.getD_some]
    rw [hfirst]
    exact ⟨hmem, fun m hm =>
      (h.key_le_iff htimely (hs.live n hmem) (hs.live m hm)).1 (hle m hm)⟩

end Document.Rooted

theorem NodeSet.first_eq_null {order : DocumentOrder} {s : NodeSet} (hs : s.nodes = []) :
    s.first order = .null := by
  rw [first, hs]
  cases s.order <;> rfl

end XmlTree
