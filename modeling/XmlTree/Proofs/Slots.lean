/-
  Proofs/Slots.lean --- what a store of records keeps, and what its operations change.

  WHAT THIS FILE IS FOR.  Each operation is described by what `get?` answers after it:
  the record of every handle, the touched one and all others.  Nothing later looks at
  slots or generations again.

  THE INVARIANT.  The list of vacant slots holds each slot without a record exactly
  once.  It is what makes a new handle one that led to nothing before.
-/
import XmlTree.Store.Slots
import Mathlib.Data.List.Nodup
import Mathlib.Data.List.Perm.Subperm
import Mathlib.Data.List.Range

set_option autoImplicit false

namespace XmlTree

namespace SlotStore

variable {α : Type} {s : SlotStore α}

/-- The vacant list holds exactly the slots without a record, each once. -/
structure Sound (s : SlotStore α) : Prop where
  nodup : s.vacant.Nodup
  mem_vacant : ∀ i, i ∈ s.vacant ↔ ∃ g, s.slots[i]? = some ⟨g, none⟩

/-! ## Look-up -/

theorem get?_eq_some_iff {h : Handle} {a : α} :
    s.get? h = some a ↔ s.slots[h.index]? = some ⟨h.generation, some a⟩ := by
  unfold get?
  split
  · rename_i slot hslot
    rw [hslot]
    cases slot with
    | mk g o => by_cases hg : g = h.generation <;> simp [hg]
  · rename_i hslot
    simp [hslot]

/-- Two handles of records in one slot are the same. -/
theorem eq_of_index_eq {h h' : Handle} {a b : α} (ha : s.get? h = some a)
    (hb : s.get? h' = some b) (hindex : h.index = h'.index) : h = h' := by
  rw [get?_eq_some_iff] at ha hb
  rw [hindex, hb] at ha
  cases h
  cases h'
  simp_all

theorem index_lt_of_get? {h : Handle} {a : α} (ha : s.get? h = some a) :
    h.index < s.slotCount := by
  rw [get?_eq_some_iff] at ha
  exact (Array.getElem?_eq_some_iff.1 ha).1

/-- There are no more different handles of records than slots. -/
theorem length_le_slotCount {hs : List Handle} (hnodup : hs.Nodup)
    (hlive : ∀ h ∈ hs, (s.get? h).isSome) : hs.length ≤ s.slotCount := by
  have hindex : (hs.map Handle.index).Nodup := by
    refine hnodup.map_on fun h hmem h' hmem' heq => ?_
    obtain ⟨a, ha⟩ := Option.isSome_iff_exists.1 (hlive h hmem)
    obtain ⟨b, hb⟩ := Option.isSome_iff_exists.1 (hlive h' hmem')
    exact eq_of_index_eq ha hb heq
  have hsub : hs.map Handle.index ⊆ List.range s.slotCount := by
    intro i hi
    obtain ⟨h, hmem, rfl⟩ := List.mem_map.1 hi
    obtain ⟨a, ha⟩ := Option.isSome_iff_exists.1 (hlive h hmem)
    exact List.mem_range.2 (index_lt_of_get? ha)
  simpa using (hindex.subperm hsub).length_le

/-! ## Operations -/

theorem sound_empty : (empty : SlotStore α).Sound :=
  ⟨List.nodup_nil, by simp [empty]⟩

@[simp] theorem get?_empty (h : Handle) : (empty : SlotStore α).get? h = none := rfl

theorem get?_modify (h h' : Handle) (f : α → α) :
    (s.modify h f).get? h' = if h' = h then (s.get? h').map f else s.get? h' := by
  cases h with
  | mk i g =>
  cases h' with
  | mk i' g' =>
  simp only [get?, modify, Array.getElem?_modify, Handle.mk.injEq]
  by_cases hi : i = i'
  · subst hi
    cases s.slots[i]? with
    | none => simp
    | some slot => by_cases hg : slot.generation = g <;> by_cases hg' : g' = g <;>
        simp_all [Ne.symm]
  · simp [hi, Ne.symm hi]

@[simp] theorem slotCount_modify (h : Handle) (f : α → α) :
    (s.modify h f).slotCount = s.slotCount := by
  simp [modify, slotCount]

theorem Sound.modify (hs : s.Sound) (h : Handle) (f : α → α) : (s.modify h f).Sound := by
  refine ⟨hs.nodup, fun i => ?_⟩
  rw [show (s.modify h f).vacant = s.vacant from rfl, hs.mem_vacant i]
  simp only [SlotStore.modify, Array.getElem?_modify]
  by_cases hi : h.index = i
  · cases hslot : s.slots[i]? with
    | none => simp [hi]
    | some slot =>
      cases slot with
      | mk g o => by_cases hg : g = h.generation <;> cases o <;> simp [hi, hg]
  · simp [hi]

/-- A new handle led to nothing before. -/
theorem get?_insert_fresh (hs : s.Sound) (a : α) : s.get? (s.insert a).1 = none := by
  cases hv : s.vacant with
  | nil => simp [SlotStore.insert, hv, get?]
  | cons i rest =>
    obtain ⟨g, hg⟩ := (hs.mem_vacant i).1 (by simp [hv])
    simp [SlotStore.insert, hv, get?, hg]

theorem get?_insert (hs : s.Sound) (a : α) (h : Handle) :
    (s.insert a).2.get? h = if h = (s.insert a).1 then some a else s.get? h := by
  cases h with
  | mk j g' =>
  cases hv : s.vacant with
  | nil =>
    simp only [SlotStore.insert, hv, get?, Array.getElem?_push, Handle.mk.injEq]
    by_cases hj : j = s.slots.size
    · subst hj
      by_cases hg : g' = 1 <;> simp [hg, eq_comm]
    · simp [hj]
  | cons i rest =>
    obtain ⟨g, hg⟩ := (hs.mem_vacant i).1 (by simp [hv])
    simp only [SlotStore.insert, hv, get?, Array.getElem?_modify, Handle.mk.injEq]
    by_cases hi : i = j
    · subst hi
      by_cases hgg : g' = g <;> simp [hg, hgg, eq_comm]
    · simp [hi, Ne.symm hi]

theorem Sound.insert (hs : s.Sound) (a : α) : (s.insert a).2.Sound := by
  cases hv : s.vacant with
  | nil =>
    simp only [SlotStore.insert, hv]
    refine ⟨List.nodup_nil, fun i => ?_⟩
    have hnone := (hs.mem_vacant i).not.1 (by simp [hv])
    simp only [List.not_mem_nil, false_iff, Array.getElem?_push]
    split
    · simp
    · exact hnone
  | cons i rest =>
    obtain ⟨hi, hrest⟩ := List.nodup_cons.1 (hv ▸ hs.nodup)
    simp only [SlotStore.insert, hv]
    refine ⟨hrest, fun j => ?_⟩
    simp only [Array.getElem?_modify]
    by_cases hj : i = j
    · subst hj
      simp only [hi, false_iff, if_true]
      cases s.slots[i]? <;> simp
    · have := hs.mem_vacant j
      rw [hv, List.mem_cons] at this
      simp only [hj, if_false, ← this, Ne.symm hj, false_or]

/-- Removal succeeds exactly for the handle of a record. -/
theorem remove?_eq_none_iff {h : Handle} : s.remove? h = none ↔ s.get? h = none := by
  unfold remove?
  cases s.get? h <;> simp

theorem remove?_of_get? {h : Handle} {a : α} (ha : s.get? h = some a) :
    ∃ s', s.remove? h = some (a, s') := by
  simp [remove?, ha]

theorem get?_of_remove? {h : Handle} {a : α} {s' : SlotStore α}
    (hr : s.remove? h = some (a, s')) :
    s.get? h = some a ∧ ∀ h', s'.get? h' = if h' = h then none else s.get? h' := by
  unfold remove? at hr
  cases hget : s.get? h with
  | none => simp [hget] at hr
  | some b =>
    simp only [hget, Option.some.injEq, Prod.mk.injEq] at hr
    obtain ⟨rfl, rfl⟩ := hr
    refine ⟨rfl, fun h' => ?_⟩
    rw [get?_eq_some_iff] at hget
    cases h with
    | mk i g =>
    cases h' with
    | mk i' g' =>
    simp only [get?, Array.getElem?_modify, Handle.mk.injEq] at hget ⊢
    by_cases hi : i = i'
    · subst hi
      by_cases hg : g' = g
      · simp [hget, hg]
      · simp [hget, hg, Ne.symm hg]
    · simp [hi, Ne.symm hi]

theorem Sound.remove? (hs : s.Sound) {h : Handle} {a : α} {s' : SlotStore α}
    (hr : s.remove? h = some (a, s')) : s'.Sound := by
  have hget := (get?_of_remove? hr).1
  rw [get?_eq_some_iff] at hget
  unfold SlotStore.remove? at hr
  rw [get?_eq_some_iff.2 hget] at hr
  simp only [Option.some.injEq, Prod.mk.injEq, true_and] at hr
  subst hr
  have hfree : h.index ∉ s.vacant := by
    rw [hs.mem_vacant, hget]
    simp
  refine ⟨List.nodup_cons.2 ⟨hfree, hs.nodup⟩, fun i => ?_⟩
  simp only [List.mem_cons, Array.getElem?_modify]
  by_cases hi : h.index = i
  · simp [← hi, hget]
  · simp [hi, Ne.symm hi, hs.mem_vacant i]

theorem size_insert (a : α) : (s.insert a).2.size = s.size + 1 := by
  unfold insert
  split <;> rfl

theorem size_of_remove? {h : Handle} {a : α} {s' : SlotStore α}
    (hr : s.remove? h = some (a, s')) : s'.size = s.size - 1 := by
  unfold remove? at hr
  split at hr
  · obtain ⟨-, rfl⟩ := Prod.mk.inj (Option.some.inj hr)
    rfl
  · cases hr

theorem slotCount_of_remove? {h : Handle} {a : α} {s' : SlotStore α}
    (hr : s.remove? h = some (a, s')) : s'.slotCount = s.slotCount := by
  unfold remove? at hr
  split at hr
  · simp only [Option.some.injEq, Prod.mk.injEq] at hr
    obtain ⟨_, rfl⟩ := hr
    simp [slotCount]
  · simp at hr

/-- After clearing, no handle leads to a record. -/
@[simp] theorem get?_clear (h : Handle) : s.clear.get? h = none := by
  simp only [get?, clear, Array.getElem?_map]
  cases s.slots[h.index]? with
  | none => simp
  | some slot => cases hocc : slot.occupant <;> simp [hocc]

theorem sound_clear : s.clear.Sound := by
  refine ⟨List.nodup_range, fun i => ?_⟩
  simp only [clear, List.mem_range, Array.getElem?_map]
  by_cases hi : i < s.slots.size
  · rw [Array.getElem?_eq_getElem hi]
    cases hslot : s.slots[i] with
    | mk g o => cases o <;> simp [hi]
  · simp [hi]

end SlotStore

end XmlTree
