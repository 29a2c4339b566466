/-
  Proofs/Generations.lean --- a handle whose record is gone stays stale.

  WHAT THIS FILE IS FOR.  A run is any list of operations on a store without slots.  Beside
  the store a ledger is kept of the records that were put in and not taken out since, each
  under the handle that was given for it; it knows nothing of slots, generations or the list
  of vacant slots.  The store always answers what the ledger says.

  WHY VACATIONS ARE COUNTED.  The generation of a slot moves on exactly when the slot is
  vacated, and comes back to where it was after one vacation for each nonzero word.  A handle
  is as good as the number of vacations of its slot since it was given is small.
-/
import XmlTree.Proofs.Slots
import Mathlib.Algebra.Group.Nat.Defs
import Mathlib.Logic.Function.Iterate

set_option autoImplicit false

namespace XmlTree

/-! ## Generations -/

theorem toNat_nextGeneration {g : UInt32} (hg : g ≠ 0) :
    (nextGeneration g).toNat = g.toNat % (2 ^ 32 - 1) + 1 := by
  have hpos : g.toNat ≠ 0 := fun h => hg (UInt32.toNat_inj.1 h)
  have hlt := g.toNat_lt
  have hsum : (g + 1).toNat = (g.toNat + 1) % 2 ^ 32 := UInt32.toNat_add g 1
  unfold nextGeneration
  split
  · rename_i hzero
    have : (g + 1).toNat = 0 := congrArg UInt32.toNat hzero
    have hone : (1 : UInt32).toNat = 1 := rfl
    omega
  · rename_i hne
    have : (g + 1).toNat ≠ 0 := fun h => hne (UInt32.toNat_inj.1 h)
    omega

theorem nextGeneration_ne_zero (g : UInt32) : nextGeneration g ≠ 0 := by
  unfold nextGeneration
  split
  · decide
  · assumption

theorem toNat_iterate_nextGeneration {g : UInt32} (hg : g ≠ 0) (k : Nat) :
    (nextGeneration^[k] g).toNat = (g.toNat - 1 + k) % (2 ^ 32 - 1) + 1 := by
  have hpos : g.toNat ≠ 0 := fun h => hg (UInt32.toNat_inj.1 h)
  have hlt := g.toNat_lt
  induction k with
  | zero => simp only [Function.iterate_zero, id]; omega
  | succ k ih =>
    have hne : nextGeneration^[k] g ≠ 0 := by
      intro h
      rw [h] at ih
      have : (0 : UInt32).toNat = 0 := rfl
      omega
    rw [Function.iterate_succ_apply', toNat_nextGeneration hne, ih]
    omega

/-- A generation does not come back before every nonzero word had its turn. -/
theorem iterate_nextGeneration_ne {g : UInt32} (hg : g ≠ 0) {k : Nat} (hpos : 0 < k)
    (hk : k < 2 ^ 32 - 1) : nextGeneration^[k] g ≠ g := by
  intro h
  have hnat := toNat_iterate_nextGeneration hg k
  have hne : g.toNat ≠ 0 := fun h => hg (UInt32.toNat_inj.1 h)
  have hlt := g.toNat_lt
  rw [h] at hnat
  omega

/-! ## Runs -/

/-- An operation on a store. -/
inductive SlotChange (α : Type) where
  | insert (record : α)
  | look (h : Handle)
  | modify (h : Handle) (f : α → α)
  | remove (h : Handle)
  | clear

namespace SlotStore

variable {α : Type} {s : SlotStore α} {i : Nat} {g : UInt32} {h : Handle} {a : α}
  {kept : List (Handle × α)}

/-- The store after an operation; looking a record up leaves it as it is. -/
def change (s : SlotStore α) : SlotChange α → SlotStore α
  | .insert a => (s.insert a).2
  | .look _ => s
  | .modify h f => s.modify h f
  | .remove h => (s.remove? h).elim s Prod.snd
  | .clear => s.clear

/-- The store after a run. -/
def changeAll (s : SlotStore α) (changes : List (SlotChange α)) : SlotStore α :=
  changes.foldl change s

/-- What an operation makes of a ledger. -/
def enter (s : SlotStore α) (kept : List (Handle × α)) : SlotChange α → List (Handle × α)
  | .insert a => ((s.insert a).1, a) :: kept
  | .look _ => kept
  | .modify h f => kept.map fun e => if e.1 = h then (e.1, f e.2) else e
  | .remove h => kept.filter fun e => e.1 ≠ h
  | .clear => []

/-- The ledger after a run. -/
def ledger (s : SlotStore α) (kept : List (Handle × α)) : List (SlotChange α) → List (Handle × α)
  | [] => kept
  | c :: cs => ledger (s.change c) (s.enter kept c) cs

/-- The generation of a slot, with or without a record. -/
def generation? (s : SlotStore α) (i : Nat) : Option UInt32 := s.slots[i]?.map Slot.generation

/-- Whether an operation takes the record out of a slot. -/
def vacates (s : SlotStore α) (i : Nat) (c : SlotChange α) : Bool :=
  (s.generationAt? i).isSome && ((s.change c).generationAt? i).isNone

/-- How many operations of a run take the record out of a slot. -/
def vacations (s : SlotStore α) (i : Nat) : List (SlotChange α) → Nat
  | [] => 0
  | c :: cs => (if s.vacates i c then 1 else 0) + vacations (s.change c) i cs

/-- The store keeps the records of a ledger, and its own books are in order. -/
structure Accounted (s : SlotStore α) (kept : List (Handle × α)) : Prop where
  /-- no two records have the same handle -/
  distinct : (kept.map Prod.fst).Nodup
  /-- a look-up finds the record that was stored last under the handle -/
  get?_iff : ∀ h a, s.get? h = some a ↔ (h, a) ∈ kept
  /-- the count is right -/
  size_eq : s.size = kept.length
  /-- the vacant list holds the slots without a record, each once -/
  sound : s.Sound
  /-- generations are not zero -/
  generation_ne_zero : ∀ i g, s.generation? i = some g → g ≠ 0

/-- Nothing is found, changed or taken out under a handle. -/
structure Stale (s : SlotStore α) (h : Handle) : Prop where
  get? : s.get? h = none
  modify : ∀ f, s.modify h f = s
  remove? : s.remove? h = none

/-! ## What an operation does to a slot -/

theorem slots_insert (hs : s.Sound) (a : α) (i : Nat) :
    (s.insert a).2.slots[i]? =
      if i = (s.insert a).1.index then some ⟨(s.insert a).1.generation, some a⟩
      else s.slots[i]? := by
  cases hv : s.vacant with
  | nil =>
    simp only [SlotStore.insert, hv, Array.getElem?_push]
  | cons j rest =>
    obtain ⟨g, hg⟩ := (hs.mem_vacant j).1 (by simp [hv])
    simp only [SlotStore.insert, hv, Array.getElem?_modify, hg]
    by_cases hij : j = i
    · subst hij
      simp [hg]
    · simp [hij, Ne.symm hij]

/-- A record goes into a slot that is vacant, or into a new one. -/
theorem slot_before_insert (hs : s.Sound) (a : α) :
    s.slots[(s.insert a).1.index]? = some ⟨(s.insert a).1.generation, none⟩ ∨
      s.slots[(s.insert a).1.index]? = none ∧ (s.insert a).1.generation = 1 := by
  cases hv : s.vacant with
  | nil =>
    right
    simp [SlotStore.insert, hv]
  | cons j rest =>
    left
    obtain ⟨g, hg⟩ := (hs.mem_vacant j).1 (by simp [hv])
    simp [SlotStore.insert, hv, hg]

theorem slots_modify (h : Handle) (f : α → α) (i : Nat) :
    (s.modify h f).slots[i]? = s.slots[i]?.map fun slot =>
      if h = ⟨i, slot.generation⟩ then ⟨slot.generation, slot.occupant.map f⟩ else slot := by
  cases h with
  | mk j g =>
  simp only [SlotStore.modify, Array.getElem?_modify, Handle.mk.injEq]
  by_cases hij : j = i
  · cases s.slots[i]? with
    | none => simp
    | some slot => by_cases hg : slot.generation = g <;> simp [hij, hg, eq_comm]
  · simp [hij]

theorem slots_of_remove? {s' : SlotStore α} (hr : s.remove? h = some (a, s')) (i : Nat) :
    s'.slots[i]? =
      if i = h.index then some ⟨nextGeneration h.generation, none⟩ else s.slots[i]? := by
  have hslot := get?_eq_some_iff.1 (get?_of_remove? hr).1
  unfold SlotStore.remove? at hr
  rw [get?_eq_some_iff.2 hslot] at hr
  simp only [Option.some.injEq, Prod.mk.injEq, true_and] at hr
  subst hr
  simp only [Array.getElem?_modify]
  by_cases hi : h.index = i
  · simp [← hi, hslot]
  · simp [hi, Ne.symm hi]

theorem slots_clear (i : Nat) :
    s.clear.slots[i]? = s.slots[i]?.map fun slot =>
      if slot.occupant.isSome then ⟨nextGeneration slot.generation, none⟩ else slot :=
  Array.getElem?_map

/-- An operation moves the generation of a slot on exactly when it vacates the slot. -/
theorem slot_change (hs : s.Sound) {o : Option α} (hslot : s.slots[i]? = some ⟨g, o⟩)
    (c : SlotChange α) :
    ∃ o', (s.change c).slots[i]? =
      some ⟨if o.isSome && o'.isNone then nextGeneration g else g, o'⟩ := by
  have hmap : ∀ f : α → α, (o.isSome && (o.map f).isNone) = false := by
    intro f
    cases o <;> rfl
  have hsame : (o.isSome && o.isNone) = false := by cases o <;> rfl
  cases c with
  | insert a =>
    simp only [change, slots_insert hs]
    by_cases hi : i = (s.insert a).1.index
    · -- the slot was there, so it is the vacant one that the record goes into
      have hvacant : ⟨g, o⟩ = (⟨(s.insert a).1.generation, none⟩ : Slot α) := by
        obtain hbefore | ⟨hbefore, -⟩ := slot_before_insert hs a
        · rw [← hi, hslot] at hbefore
          exact Option.some.inj hbefore
        · rw [← hi, hslot] at hbefore
          exact absurd hbefore (by simp)
      obtain ⟨rfl, rfl⟩ := Slot.mk.inj hvacant
      exact ⟨some a, by simp [hi]⟩
    · exact ⟨o, by simp [hi, hslot, hsame]⟩
  | look h => exact ⟨o, by simp [change, hslot, hsame]⟩
  | modify h f =>
    simp only [change, slots_modify, hslot, Option.map_some]
    by_cases hh : h = ⟨i, g⟩
    · exact ⟨o.map f, by rw [if_pos hh, hmap]; rfl⟩
    · exact ⟨o, by simp [hh, hsame]⟩
  | remove h =>
    cases hr : s.remove? h with
    | none => exact ⟨o, by simp [change, hr, hslot, hsame]⟩
    | some r =>
      obtain ⟨a, s'⟩ := r
      simp only [change, hr, Option.elim_some, slots_of_remove? hr]
      by_cases hi : i = h.index
      · have hheld := get?_eq_some_iff.1 (get?_of_remove? hr).1
        rw [← hi, hslot] at hheld
        obtain ⟨rfl, rfl⟩ := Slot.mk.inj (Option.some.inj hheld)
        exact ⟨none, by simp [hi]⟩
      · exact ⟨o, by simp [hi, hslot, hsame]⟩
  | clear =>
    simp only [change, slots_clear, hslot, Option.map_some]
    exact ⟨none, by cases o <;> simp⟩

theorem generation?_change (hs : s.Sound) (hg : s.generation? i = some g) (c : SlotChange α) :
    (s.change c).generation? i = some (if s.vacates i c then nextGeneration g else g) := by
  obtain ⟨⟨g', o⟩, hslot, rfl⟩ := Option.map_eq_some_iff.1 hg
  obtain ⟨o', hslot'⟩ := slot_change hs hslot c
  have hvacates : s.vacates i c = (o.isSome && o'.isNone) := by
    cases o <;> cases o' <;> simp [vacates, generationAt?, hslot, hslot']
  rw [hvacates, generation?, hslot']
  rfl

theorem Sound.change (hs : s.Sound) (c : SlotChange α) : (s.change c).Sound := by
  cases c with
  | insert a => exact hs.insert a
  | look h => exact hs
  | modify h f => exact hs.modify h f
  | remove h =>
    cases hr : s.remove? h with
    | none => simpa [SlotStore.change, hr] using hs
    | some r => simpa [SlotStore.change, hr] using hs.remove? hr
  | clear => exact sound_clear

/-- After a run the generation of a slot has moved on by the vacations of the slot. -/
theorem generation?_changeAll (hs : s.Sound) (hg : s.generation? i = some g)
    (changes : List (SlotChange α)) :
    (s.changeAll changes).generation? i = some (nextGeneration^[s.vacations i changes] g) := by
  induction changes generalizing s g with
  | nil => exact hg
  | cons c cs ih =>
    have hnext := ih (hs.change c) (generation?_change hs hg c)
    rw [changeAll, List.foldl_cons, ← changeAll, hnext, vacations, Nat.add_comm]
    split <;> simp only [Function.iterate_succ_apply, Nat.add_zero]

/-- A removal leaves nothing under its handle, whether there was something or not. -/
theorem get?_change_remove (h h' : Handle) :
    (s.change (.remove h)).get? h' = if h' = h then none else s.get? h' := by
  cases hr : s.remove? h with
  | none =>
    have hnone := remove?_eq_none_iff.1 hr
    simp only [change, hr, Option.elim_none]
    split
    · rename_i hh
      rw [hh, hnone]
    · rfl
  | some r => simpa [change, hr] using (get?_of_remove? hr).2 h'

/-! ## A run keeps the ledger -/

/-- A removal or a clearing that reaches the record of a handle vacates its slot. -/
theorem vacates_of_get? (ha : s.get? h = some a) {c : SlotChange α}
    (hc : c = .remove h ∨ c = .clear) : s.vacates h.index c := by
  have hslot := get?_eq_some_iff.1 ha
  have hbefore : (s.generationAt? h.index).isSome := by
    simp [generationAt?, hslot]
  have hafter : ((s.change c).generationAt? h.index).isNone := by
    obtain rfl | rfl := hc
    · obtain ⟨s', hr⟩ := remove?_of_get? ha
      simp [change, hr, generationAt?, slots_of_remove? hr]
    · simp [change, generationAt?, slots_clear, hslot]
  simp only [vacates, hbefore, hafter, Bool.and_self]

/-- A slot that is not vacated keeps a record under the same handle. -/
theorem get?_change_of_not_vacates (hs : s.Sound) (ha : s.get? h = some a) {c : SlotChange α}
    (hc : s.vacates h.index c = false) : ∃ b, (s.change c).get? h = some b := by
  have hslot := get?_eq_some_iff.1 ha
  obtain ⟨o', hslot'⟩ := slot_change hs hslot c
  cases o' with
  | none => simp [vacates, generationAt?, hslot, hslot'] at hc
  | some b => exact ⟨b, get?_eq_some_iff.2 (by simpa using hslot')⟩

/-- A record that is removed or cleared away in a run vacates its slot at least once. -/
theorem vacations_pos (hs : s.Sound) (ha : s.get? h = some a) {changes : List (SlotChange α)}
    (hgone : .remove h ∈ changes ∨ .clear ∈ changes) : 0 < s.vacations h.index changes := by
  induction changes generalizing s a with
  | nil => simp at hgone
  | cons c cs ih =>
    cases hc : s.vacates h.index c with
    | true =>
      simp only [vacations, hc, if_true]
      omega
    | false =>
      have hother : c ≠ .remove h ∧ c ≠ .clear := by
        refine ⟨fun heq => ?_, fun heq => ?_⟩
        · simp [vacates_of_get? ha (.inl heq)] at hc
        · simp [vacates_of_get? ha (.inr heq)] at hc
      have hrest : .remove h ∈ cs ∨ .clear ∈ cs := by
        simpa [hother.1.symm, hother.2.symm] using hgone
      obtain ⟨b, hb⟩ := get?_change_of_not_vacates hs ha hc
      have := ih (hs.change c) hb hrest
      rw [vacations]
      omega

theorem stale_of_get? (hget : s.get? h = none) : s.Stale h where
  get? := hget
  modify f := by
    have hslots : (s.modify h f).slots = s.slots := by
      refine Array.ext_getElem? fun i => ?_
      rw [slots_modify]
      cases hslot : s.slots[i]? with
      | none => rfl
      | some slot =>
        obtain ⟨g, o⟩ := slot
        simp only [Option.map_some, Option.some.injEq]
        split
        · rename_i hh
          cases o with
          | none => rfl
          | some a => rw [hh, get?_eq_some_iff.2 hslot] at hget; cases hget
        · rfl
    show { s with slots := (s.modify h f).slots } = s
    rw [hslots]
  remove? := remove?_eq_none_iff.2 hget

/-- A new slot begins with the first generation. -/
theorem generation_of_new_slot (hs : s.Sound) (hold : s.slots[i]? = none) {c : SlotChange α}
    (hnew : (s.change c).generation? i = some g) : g = 1 := by
  cases c with
  | insert a =>
    rw [generation?, change, slots_insert hs] at hnew
    split at hnew
    · rename_i hi
      obtain hbefore | ⟨-, hone⟩ := slot_before_insert hs a
      · rw [← hi, hold] at hbefore
        cases hbefore
      · simpa [hone, eq_comm] using hnew
    · simp [hold] at hnew
  | look h => simp [generation?, change, hold] at hnew
  | modify h f => simp [generation?, change, slots_modify, hold] at hnew
  | remove h =>
    cases hr : s.remove? h with
    | none => simp [generation?, change, hr, hold] at hnew
    | some r =>
      have hheld := get?_eq_some_iff.1 (get?_of_remove? hr).1
      have hi : i ≠ h.index := by
        rintro rfl
        rw [hold] at hheld
        cases hheld
      simp [generation?, change, hr, slots_of_remove? hr, hi, hold] at hnew
  | clear => simp [generation?, change, slots_clear, hold] at hnew

namespace Accounted

theorem empty : (empty : SlotStore α).Accounted [] where
  distinct := List.nodup_nil
  get?_iff h a := by simp
  size_eq := rfl
  sound := sound_empty
  generation_ne_zero i g hg := by simp [generation?, SlotStore.empty] at hg

variable (hk : s.Accounted kept)

include hk

theorem generation_change (c : SlotChange α) :
    ∀ i g, (s.change c).generation? i = some g → g ≠ 0 := by
  intro i g hg
  cases hold : s.slots[i]? with
  | none =>
    rw [generation_of_new_slot hk.sound hold hg]
    decide
  | some slot =>
    have hbefore : s.generation? i = some slot.generation := by rw [generation?, hold]; rfl
    rw [generation?_change hk.sound hbefore] at hg
    obtain rfl := Option.some.inj hg
    split
    · exact nextGeneration_ne_zero slot.generation
    · exact hk.generation_ne_zero i slot.generation hbefore

theorem mem_keys_iff : h ∈ kept.map Prod.fst ↔ (s.get? h).isSome := by
  simp [Option.isSome_iff_exists, hk.get?_iff]

omit hk in
/-- A change of a record keeps all handles. -/
theorem keys_modify (h : Handle) (f : α → α) :
    (s.enter kept (.modify h f)).map Prod.fst = kept.map Prod.fst := by
  rw [enter, List.map_map]
  refine List.map_congr_left fun e _ => ?_
  simp only [Function.comp]
  split <;> rfl

theorem get?_modify_iff (h : Handle) (f : α → α) (h' : Handle) (b : α) :
    (s.modify h f).get? h' = some b ↔ (h', b) ∈ s.enter kept (.modify h f) := by
  rw [get?_modify, enter, List.mem_map]
  constructor
  · intro hget
    by_cases hh : h' = h
    · rw [if_pos hh, Option.map_eq_some_iff] at hget
      obtain ⟨a, ha, rfl⟩ := hget
      exact ⟨(h', a), (hk.get?_iff h' a).1 ha, if_pos hh⟩
    · rw [if_neg hh] at hget
      exact ⟨(h', b), (hk.get?_iff h' b).1 hget, if_neg hh⟩
  · rintro ⟨⟨k, a⟩, hmem, heq⟩
    have ha := (hk.get?_iff k a).2 hmem
    by_cases hh : k = h
    · obtain ⟨rfl, rfl⟩ := Prod.mk.inj ((if_pos hh).symm.trans heq)
      rw [if_pos hh, ha, Option.map_some]
    · obtain ⟨rfl, rfl⟩ := Prod.mk.inj ((if_neg hh).symm.trans heq)
      rw [if_neg hh, ha]

/-- A removal takes one handle out of the ledger, if it is there. -/
theorem keys_remove (h : Handle) :
    (s.enter kept (.remove h)).map Prod.fst = (kept.map Prod.fst).erase h := by
  rw [hk.distinct.erase_eq_filter, enter, List.filter_map]
  refine congrArg (List.map Prod.fst) (List.filter_congr fun e _ => ?_)
  simp [bne, beq_eq_decide]

theorem size_remove (h : Handle) :
    (s.change (.remove h)).size = (s.enter kept (.remove h)).length := by
  rw [← List.length_map Prod.fst, hk.keys_remove h]
  cases hr : s.remove? h with
  | none =>
    have hnot : h ∉ kept.map Prod.fst := by
      simp [hk.mem_keys_iff, remove?_eq_none_iff.1 hr]
    rw [List.erase_of_not_mem hnot, List.length_map, ← hk.size_eq]
    simp [SlotStore.change, hr]
  | some r =>
    have hmem : h ∈ kept.map Prod.fst := by
      simp [hk.mem_keys_iff, (get?_of_remove? hr).1]
    rw [List.length_erase_of_mem hmem, List.length_map, ← hk.size_eq]
    simp [SlotStore.change, hr, size_of_remove? hr]

/-- An operation that touches the books as the ledger does keeps them in order. -/
theorem change (c : SlotChange α) : (s.change c).Accounted (s.enter kept c) := by
  have hsound := hk.sound.change c
  have hgeneration := hk.generation_change c
  cases c with
  | insert a =>
    have hfresh : (s.insert a).1 ∉ kept.map Prod.fst := by
      simp [hk.mem_keys_iff, get?_insert_fresh hk.sound a]
    refine ⟨List.nodup_cons.2 ⟨hfresh, hk.distinct⟩, fun h b => ?_, ?_, hsound, hgeneration⟩
    · rw [SlotStore.change, get?_insert hk.sound, enter, List.mem_cons, Prod.mk.injEq,
        ← hk.get?_iff]
      by_cases hh : h = (s.insert a).1
      · simp [hh, get?_insert_fresh hk.sound a, eq_comm]
      · simp [hh]
    · rw [SlotStore.change, size_insert, hk.size_eq, enter, List.length_cons]
  | look h => exact hk
  | modify h f =>
    have hdistinct : ((s.enter kept (.modify h f)).map Prod.fst).Nodup := by
      rw [keys_modify]
      exact hk.distinct
    have hsize : (s.modify h f).size = (s.enter kept (.modify h f)).length := by
      rw [enter, List.length_map, ← hk.size_eq]
      rfl
    exact ⟨hdistinct, hk.get?_modify_iff h f, hsize, hsound, hgeneration⟩
  | remove h =>
    have hdistinct : ((s.enter kept (.remove h)).map Prod.fst).Nodup := by
      rw [hk.keys_remove]
      exact hk.distinct.erase h
    refine ⟨hdistinct, fun h' b => ?_, hk.size_remove h, hsound, hgeneration⟩
    rw [get?_change_remove, enter, List.mem_filter, ← hk.get?_iff]
    by_cases hh : h' = h <;> simp [hh]
  | clear =>
    exact ⟨List.nodup_nil, fun h a => by simp [SlotStore.change, enter], rfl, hsound, hgeneration⟩

/-- The ledger of a run is right. -/
theorem changeAll (changes : List (SlotChange α)) :
    (s.changeAll changes).Accounted (s.ledger kept changes) := by
  induction changes generalizing s kept with
  | nil => exact hk
  | cons c cs ih => exact ih (hk.change c)

end Accounted

theorem Stale.of_vacations (hk : s.Accounted kept) (a : α) {later : List (SlotChange α)}
    (hgone : .remove (s.insert a).1 ∈ later ∨ .clear ∈ later)
    (hfew : (s.insert a).2.vacations (s.insert a).1.index later < 2 ^ 32 - 1) :
    ((s.insert a).2.changeAll later).Stale (s.insert a).1 := by
  have hin : (s.insert a).2.Accounted (((s.insert a).1, a) :: kept) := hk.change (.insert a)
  have hheld : (s.insert a).2.get? (s.insert a).1 = some a :=
    (hin.get?_iff _ _).2 List.mem_cons_self
  have hgeneration : (s.insert a).2.generation? (s.insert a).1.index =
      some (s.insert a).1.generation := by
    rw [generation?, get?_eq_some_iff.1 hheld, Option.map_some]
  have hmoved := generation?_changeAll hin.sound hgeneration later
  have hne := iterate_nextGeneration_ne (hin.generation_ne_zero _ _ hgeneration)
    (vacations_pos hin.sound hheld hgone) hfew
  refine stale_of_get? ?_
  rw [Option.eq_none_iff_forall_ne_some]
  intro b hb
  rw [generation?, get?_eq_some_iff.1 hb, Option.map_some, Option.some.injEq] at hmoved
  exact hne hmoved.symm

/-- After every run the store keeps exactly the records of the ledger, with its books in order.
And whatever was inserted in the run, once its record was removed or cleared away the handle it
was given for is stale for as long as its slot has been vacated fewer than `2 ^ 32 - 1` times
since. -/
theorem run_accounted (changes : List (SlotChange α)) :
    ((empty : SlotStore α).changeAll changes).Accounted (empty.ledger [] changes) ∧
      ∀ (before later : List (SlotChange α)) (a : α), changes = before ++ .insert a :: later →
        let given := ((empty : SlotStore α).changeAll before).insert a
        (.remove given.1 ∈ later ∨ .clear ∈ later) →
          given.2.vacations given.1.index later < 2 ^ 32 - 1 →
            ((empty : SlotStore α).changeAll changes).Stale given.1 := by
  refine ⟨Accounted.empty.changeAll changes, ?_⟩
  rintro before later a rfl given hgone hfew
  have hrun : (empty : SlotStore α).changeAll (before ++ .insert a :: later) =
      given.2.changeAll later := by
    simp only [changeAll, List.foldl_append, List.foldl_cons]
    rfl
  rw [hrun]
  exact Stale.of_vacations (Accounted.empty.changeAll before) a hgone hfew

/-- A slot that was used three times: its first handle is stale, its third one is not. -/
theorem run_reused :
    let run : List (SlotChange Nat) :=
      [.insert 7, .insert 8, .remove ⟨0, 1⟩, .insert 9, .clear, .insert 10]
    (empty.changeAll run).Stale ⟨0, 1⟩ ∧ (empty.changeAll run).get? ⟨0, 3⟩ = some 10 :=
  ⟨(run_accounted [.insert 7, .insert 8, .remove ⟨0, 1⟩, .insert 9, .clear, .insert 10]).2 []
    [.insert 8, .remove ⟨0, 1⟩, .insert 9, .clear, .insert 10] 7 rfl
    (.inl (by simp [changeAll, empty, SlotStore.insert])) (by decide +kernel), by decide +kernel⟩

end SlotStore

end XmlTree
