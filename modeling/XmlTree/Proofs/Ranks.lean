/-
  Proofs/Ranks.lean --- keys that grow along the walk, and comparing by them.

  WHAT THIS FILE IS FOR.  Nodes are compared by keys: serial numbers, or ranks from a
  table.  Comparing by keys is comparing by place in the walk as soon as the keys grow
  along the walk; their values do not matter, so a table that was made before nodes were
  removed is as good as a new one.
-/
import XmlTree.Proofs.Growth

set_option autoImplicit false

namespace XmlTree

variable {α : Type}

/-! ## Growing keys -/

/-- All items of a list have keys, and these grow along the list. -/
structure Increasing (key : α → Option Nat) (xs : List α) : Prop where
  isSome : ∀ x ∈ xs, (key x).isSome = true
  pairwise : xs.Pairwise fun x y => ∀ m n, key x = some m → key y = some n → m < n

namespace Increasing

variable {key key' : α → Option Nat} {xs ys : List α}

theorem sublist (h : Increasing key ys) (hsub : xs.Sublist ys) : Increasing key xs :=
  ⟨fun x hx => h.isSome x (hsub.subset hx), h.pairwise.sublist hsub⟩

theorem congr (h : Increasing key xs) (hsame : ∀ x ∈ xs, key' x = key x) :
    Increasing key' xs where
  isSome x hx := by rw [hsame x hx, h.isSome x hx]
  pairwise := h.pairwise.imp_of_mem fun {x y} hx hy hlt m n hm hn =>
    hlt m n (hsame x hx ▸ hm) (hsame y hy ▸ hn)

theorem cons {x : α} {k : Nat} (h : Increasing key xs) (hx : key x = some k)
    (hlt : ∀ y ∈ xs, ∀ n, key y = some n → k < n) : Increasing key (x :: xs) where
  isSome y hy := by
    obtain rfl | hy := List.mem_cons.1 hy
    · rw [hx]
      rfl
    · exact h.isSome y hy
  pairwise := List.pairwise_cons.2 ⟨fun y hy m n hm hn => by
    rw [hx] at hm
    cases hm
    exact hlt y hy n hn, h.pairwise⟩

/-- A key above all others may come last. -/
theorem append_singleton {x : α} {k : Nat} (h : Increasing key xs) (hx : key x = some k)
    (hlt : ∀ y ∈ xs, ∀ n, key y = some n → n < k) : Increasing key (xs ++ [x]) where
  isSome y hy := by
    obtain hy | hy := List.mem_append.1 hy
    · exact h.isSome y hy
    · rw [List.mem_singleton.1 hy, hx]
      rfl
  pairwise := List.pairwise_append.2 ⟨h.pairwise, List.pairwise_singleton _ _,
    fun y hy z hz m n hm hn => by
      rw [List.mem_singleton.1 hz, hx] at hn
      cases hn
      exact hlt y hy m hm⟩

/-- Comparing keys is comparing places. -/
theorem compareKeys_eq [DecidableEq α] (h : Increasing key xs) {a b : α} (ha : a ∈ xs)
    (hb : b ∈ xs) :
    Document.compareKeys (key a) (key b) = compare (xs.idxOf a) (xs.idxOf b) := by
  obtain ⟨m, hm⟩ := Option.isSome_iff_exists.1 (h.isSome a ha)
  obtain ⟨n, hn⟩ := Option.isSome_iff_exists.1 (h.isSome b hb)
  have hia := List.idxOf_lt_length_of_mem ha
  have hib := List.idxOf_lt_length_of_mem hb
  have hlt : ∀ {i j : Nat} (hi : i < xs.length) (hj : j < xs.length), i < j →
      ∀ k l, key xs[i] = some k → key xs[j] = some l → k < l := fun hi hj hij =>
    List.pairwise_iff_getElem.1 h.pairwise _ _ hi hj hij
  rw [hm, hn, Document.compareKeys]
  obtain hab | hab | hab := Nat.lt_trichotomy (xs.idxOf a) (xs.idxOf b)
  · have hmn : m < n := hlt hia hib hab m n (by simp [hm]) (by simp [hn])
    rw [Nat.compare_eq_lt.2 hmn, Nat.compare_eq_lt.2 hab]
  · have heq : a = b := by
      have hget := List.getElem_idxOf hia
      simp only [hab] at hget
      rw [← hget, List.getElem_idxOf hib]
    subst heq
    rw [hm] at hn
    cases hn
    simp
  · have hnm : n < m := hlt hib hia hab n m (by simp [hn]) (by simp [hm])
    rw [Nat.compare_eq_gt.2 hnm, Nat.compare_eq_gt.2 hab]

end Increasing

/-! ## Rank tables -/

/-- The rank of a node, if its slot has one. -/
def Ranks.rank? (ranks : Ranks) (id : NodeId) : Option Nat :=
  (ranks.table[id.handle.index]?).join

/-- Ranks that are entered one after the other grow along the list, if no two nodes of the
list have the same slot. -/
theorem increasing_enterRank (xs : List NodeId) (table : Array (Option Nat)) (k : Nat)
    (hnodup : (xs.map fun x => x.handle.index).Nodup)
    (hsize : ∀ x ∈ xs, x.handle.index < table.size) {final : Array (Option Nat)}
    (hfinal : (xs.foldl Document.enterRank (table, k)).1 = final) :
    Increasing (Ranks.rank? ⟨final⟩) xs ∧
      (∀ x ∈ xs, ∀ n, Ranks.rank? ⟨final⟩ x = some n → k ≤ n) ∧
      ∀ i, i ∉ xs.map (fun x => x.handle.index) → final[i]? = table[i]? := by
  induction xs generalizing table k with
  | nil => exact ⟨⟨by simp, List.Pairwise.nil⟩, by simp, fun _ _ => hfinal ▸ rfl⟩
  | cons x xs ih =>
    rw [List.map_cons, List.nodup_cons] at hnodup
    obtain ⟨hincreasing, hle, hother⟩ := ih (table.modify x.handle.index fun _ => some k) (k + 1)
      hnodup.2 (fun y hy => by
        rw [Array.size_modify]
        exact hsize y (by simp [hy])) hfinal
    have hx : Ranks.rank? ⟨final⟩ x = some k := by
      rw [Ranks.rank?, hother _ hnodup.1, Array.getElem?_modify, if_pos rfl,
        Array.getElem?_eq_getElem (hsize x (by simp))]
      rfl
    refine ⟨hincreasing.cons hx fun y hy n hn => hle y hy n hn, fun y hy n hn => ?_, fun i hi => ?_⟩
    · obtain rfl | hy := List.mem_cons.1 hy
      · rw [hx] at hn
        cases hn
        exact Nat.le_refl _
      · exact Nat.le_of_succ_le (hle y hy n hn)
    · rw [List.map_cons, List.mem_cons, not_or] at hi
      rw [hother i hi.2, Array.getElem?_modify, if_neg (Ne.symm hi.1)]

namespace Document

variable {doc : Document} {lay : Layout}

namespace Rooted

/-- The walk from the document node visits all nodes. -/
theorem mem_preorder (h : Rooted doc lay) {x : NodeId} :
    x ∈ doc.preorder ↔ doc.contains x = true := by
  rw [preorder, h.mem_subtree h.contains_root]
  exact ⟨fun hbelow => contains_of_below hbelow h.contains_root, h.below_root⟩

theorem preorder_nodup (h : Rooted doc lay) : doc.preorder.Nodup :=
  h.subtree_nodup h.contains_root

/-- The walk is the outline of the document node. -/
theorem preorder_eq_flatten (h : Rooted doc lay) {o : Outline NodeId}
    (ho : o.Follows doc.children) (htop : o.top = doc.root) : doc.preorder = o.flatten := by
  rw [preorder, ← htop]
  exact h.subtree_eq_flatten ho (htop ▸ h.contains_root)

/-- New ranks grow along the walk. -/
theorem ranks_increasing (h : Rooted doc lay) : Increasing doc.ranks.rank? doc.preorder := by
  have hnodup : (doc.preorder.map fun x => x.handle.index).Nodup := by
    refine h.preorder_nodup.map_on fun x hx y hy hindex => ?_
    obtain ⟨r, hr⟩ := contains_iff.1 (h.mem_preorder.1 hx)
    obtain ⟨s, hs⟩ := contains_iff.1 (h.mem_preorder.1 hy)
    have hhandle := SlotStore.eq_of_index_eq hr hs hindex
    cases x
    cases y
    simp_all
  refine (increasing_enterRank doc.preorder (Array.replicate doc.walkLimit none) 0 hnodup
    (fun x hx => ?_) rfl).1
  obtain ⟨r, hr⟩ := contains_iff.1 (h.mem_preorder.1 hx)
  rw [Array.size_replicate]
  exact SlotStore.index_lt_of_get? hr

end Rooted

end Document

end XmlTree
