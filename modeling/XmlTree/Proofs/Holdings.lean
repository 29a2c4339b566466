/-
  Proofs/Holdings.lean --- what slots hold of the pages, added up.

  WHAT THIS FILE IS FOR.  A slot that is a copy holds a range of a page; all others hold
  nothing.  Whether the pages are accounted for is a question about sums: the bytes that slots
  hold together, and how many of them hold a given byte.  Both are weights, added over slots, so
  one lemma about what an operation does to an arbitrary weight answers both questions.

  RECORDS.  The records of a store are those of its occupied slots.  Putting a record in,
  changing one and taking one out change a sum over the records by that record alone.

  PAGES.  The pages of a text store are accounted for by some slots if the bytes written are
  the bytes given back and the bytes that these slots hold, no byte is held twice, and none is
  held that was never written.
-/
import Mathlib.Algebra.Order.BigOperators.Group.List
import Mathlib.Algebra.Order.Ring.Nat
import XmlTree.Proofs.Slots
import XmlTree.Proofs.Texts

set_option autoImplicit false

namespace XmlTree

/-! ## Weights -/

namespace PageRange

/-- The byte `byte` of the page `page` belongs to the range. -/
def Covers (r : PageRange) (page byte : Nat) : Prop :=
  r.page = page ∧ r.start ≤ byte ∧ byte < r.start + r.length

instance (r : PageRange) (page byte : Nat) : Decidable (r.Covers page byte) :=
  inferInstanceAs (Decidable (_ ∧ _ ∧ _))

/-- How often a range holds a byte. -/
def covering (page byte : Nat) (r : PageRange) : Nat := if r.Covers page byte then 1 else 0

/-- Counts ranges without bytes. -/
def hollow (r : PageRange) : Nat := if r.length = 0 then 1 else 0

end PageRange

/-- The range of a page that a slot holds. -/
def TextSlot.range? : TextSlot → Option PageRange
  | copied range => some range
  | _ => none

/-- What the range that a slot holds weighs. -/
def TextSlot.weigh (μ : PageRange → Nat) (slot : TextSlot) : Nat := slot.range?.elim 0 μ

/-- The ranges that slots hold. -/
def heldRanges (slots : List TextSlot) : List PageRange := slots.filterMap TextSlot.range?

/-- What the ranges that slots hold weigh together. -/
def weight (μ : PageRange → Nat) (slots : List TextSlot) : Nat := ((heldRanges slots).map μ).sum

section

variable {μ : PageRange → Nat}

@[simp] theorem TextSlot.weigh_null : TextSlot.weigh μ .null = 0 := rfl

@[simp] theorem TextSlot.weigh_source (buffer : Nat) (start length : UInt32) :
    TextSlot.weigh μ (.source buffer start length) = 0 := rfl

@[simp] theorem TextSlot.weigh_copied (range : PageRange) :
    TextSlot.weigh μ (.copied range) = μ range := rfl

@[simp] theorem weight_nil : weight μ [] = 0 := rfl

@[simp] theorem weight_cons (slot : TextSlot) (slots : List TextSlot) :
    weight μ (slot :: slots) = slot.weigh μ + weight μ slots := by
  rw [weight, heldRanges, TextSlot.weigh]
  cases hslot : slot.range? with
  | none => rw [List.filterMap_cons_none hslot, Option.elim_none, Nat.zero_add]; rfl
  | some range => rw [List.filterMap_cons_some hslot, List.map_cons, List.sum_cons]; rfl

@[simp] theorem weight_append (slots slots' : List TextSlot) :
    weight μ (slots ++ slots') = weight μ slots + weight μ slots' := by
  rw [weight, heldRanges, List.filterMap_append, List.map_append, List.sum_append]
  rfl

theorem weight_flatMap {α : Type} (f : α → List TextSlot) (as : List α) :
    weight μ (as.flatMap f) = (as.map fun a => weight μ (f a)).sum := by
  induction as with
  | nil => rfl
  | cons a as ih => rw [List.flatMap_cons, weight_append, ih, List.map_cons, List.sum_cons]

end

/-! ## The records of a store -/

/-- A change of one member changes a sum by that member. -/
theorem sum_map_modify {α : Type} (φ : α → Nat) (f : α → α) {as : List α} {i : Nat} {a : α}
    (h : as[i]? = some a) :
    ((as.modify i f).map φ).sum + φ a = (as.map φ).sum + φ (f a) := by
  induction as generalizing i with
  | nil => simp at h
  | cons b as ih =>
    cases i with
    | zero =>
      obtain rfl : b = a := by simpa using h
      rw [List.modify_zero_cons, List.map_cons, List.map_cons, List.sum_cons, List.sum_cons]
      omega
    | succ i =>
      have hrest := ih (i := i) (by simpa using h)
      rw [List.modify_succ_cons, List.map_cons, List.map_cons, List.sum_cons, List.sum_cons]
      omega

namespace SlotStore

variable {α : Type} {s : SlotStore α}

/-- The records of a store, in the order of their slots. -/
def records (s : SlotStore α) : List α := s.slots.toList.filterMap Slot.occupant

/-- What the occupant of a slot adds to a sum over the records. -/
def occupantSum (φ : α → Nat) (slot : Slot α) : Nat := slot.occupant.elim 0 φ

theorem sum_records (φ : α → Nat) (s : SlotStore α) :
    (s.records.map φ).sum = (s.slots.toList.map (occupantSum φ)).sum := by
  have hslots : ∀ slots : List (Slot α),
      ((slots.filterMap Slot.occupant).map φ).sum = (slots.map (occupantSum φ)).sum := by
    intro slots
    induction slots with
    | nil => rfl
    | cons slot slots ih =>
      rw [List.map_cons, List.sum_cons, ← ih, occupantSum]
      cases hoccupant : slot.occupant with
      | none => rw [List.filterMap_cons_none hoccupant, Option.elim_none, Nat.zero_add]
      | some a =>
        rw [List.filterMap_cons_some hoccupant, List.map_cons, List.sum_cons, Option.elim_some]
  exact hslots _

/-- A record that is put in is added. -/
theorem sum_insert (hs : s.Sound) (φ : α → Nat) (a : α) :
    ((s.insert a).2.records.map φ).sum = (s.records.map φ).sum + φ a := by
  rw [sum_records, sum_records]
  cases hv : s.vacant with
  | nil =>
    simp only [insert, hv, Array.toList_push, List.map_append, List.sum_append]
    rfl
  | cons i rest =>
    obtain ⟨g, hg⟩ := (hs.mem_vacant i).1 (by simp [hv])
    rw [← Array.getElem?_toList] at hg
    simp only [insert, hv, Array.toList_modify]
    exact sum_map_modify (occupantSum φ) _ hg

/-- A record that is changed is taken off and added as it is then. -/
theorem sum_modify {h : Handle} {a : α} (ha : s.get? h = some a) (φ : α → Nat) (f : α → α) :
    ((s.modify h f).records.map φ).sum + φ a = (s.records.map φ).sum + φ (f a) := by
  rw [get?_eq_some_iff, ← Array.getElem?_toList] at ha
  have hsum := sum_map_modify (occupantSum φ) (fun slot =>
    if slot.generation = h.generation then { slot with occupant := slot.occupant.map f }
    else slot) ha
  rw [sum_records, sum_records, modify, Array.toList_modify]
  simpa [occupantSum] using hsum

/-- A record that is taken out is taken off. -/
theorem sum_remove {h : Handle} {a : α} {s' : SlotStore α} (hr : s.remove? h = some (a, s'))
    (φ : α → Nat) : (s'.records.map φ).sum + φ a = (s.records.map φ).sum := by
  have ha := (get?_of_remove? hr).1
  rw [remove?, ha] at hr
  obtain ⟨-, rfl⟩ := Prod.mk.inj (Option.some.inj hr)
  rw [get?_eq_some_iff, ← Array.getElem?_toList] at ha
  have hsum := sum_map_modify (occupantSum φ)
    (fun slot => ⟨nextGeneration slot.generation, none⟩) ha
  rw [sum_records, sum_records, Array.toList_modify]
  exact hsum

/-- A change that keeps what a record weighs keeps the sum, also under a stale handle. -/
theorem sum_modify_same {φ : α → Nat} {f : α → α} (hf : ∀ a, φ (f a) = φ a) (h : Handle) :
    ((s.modify h f).records.map φ).sum = (s.records.map φ).sum := by
  have hslot : ∀ slot : Slot α, occupantSum φ
      (if slot.generation = h.generation then { slot with occupant := slot.occupant.map f }
        else slot) = occupantSum φ slot := by
    intro slot
    split
    · rw [occupantSum, occupantSum, Option.elim_map]
      cases slot.occupant with
      | none => rfl
      | some a => exact hf a
    · rfl
  rw [sum_records, sum_records, modify, Array.toList_modify]
  congr 1
  refine List.ext_getElem? fun i => ?_
  rw [List.getElem?_map, List.getElem?_map, List.getElem?_modify]
  cases s.slots.toList[i]? with
  | none => rfl
  | some slot =>
    rw [Option.map_eq_map, Option.map_some, Option.map_some, Option.map_some]
    split
    · exact congrArg some (hslot slot)
    · rfl

theorem records_clear (s : SlotStore α) : s.clear.records = [] := by
  rw [records, List.filterMap_eq_nil_iff]
  intro slot hslot
  simp only [clear, Array.toList_map, List.mem_map] at hslot
  obtain ⟨old, -, rfl⟩ := hslot
  split
  · rfl
  · rename_i hvacant
    simpa using hvacant

end SlotStore

/-! ## Pages -/

namespace TextStore

variable {s : TextStore} {slots slots' : List TextSlot}

/-- Number of bytes written to the page `page`, none if there is no such page. -/
def filled (s : TextStore) (page : Nat) : Nat :=
  (s.pages[page]?.map fun p => p.text.utf8ByteSize).getD 0

/-- Number of bytes written to all pages. -/
def written (s : TextStore) : Nat := (s.pages.toList.map fun p => p.text.utf8ByteSize).sum

/-- The pages are accounted for by slots: their bytes were given back or are held, each by one
slot at most, and no slot holds a range that is empty or was not written. -/
structure Accounts (s : TextStore) (slots : List TextSlot) : Prop where
  total : s.written = s.wasted + weight PageRange.length slots
  apart : ∀ page byte, weight (PageRange.covering page byte) slots ≤
    if byte < s.filled page then 1 else 0
  full : weight PageRange.hollow slots = 0

namespace Accounts

/-- Only what the slots weigh matters. -/
theorem congr (h : s.Accounts slots) (heq : ∀ μ, weight μ slots' = weight μ slots) :
    s.Accounts slots' :=
  ⟨by rw [heq]; exact h.total, fun page byte => by rw [heq]; exact h.apart page byte,
    by rw [heq]; exact h.full⟩

/-- A text that is copied fills the end of a page, and its range is what was filled. -/
theorem exists_filled (s : TextStore) {text : String} (h : text.utf8ByteSize < 2 ^ 32) :
    ∃ page, (s.copy text h).1 = ⟨page, s.filled page, text.utf8ByteSize⟩ ∧
      (s.copy text h).2.wasted = s.wasted ∧
      (s.copy text h).2.written = s.written + text.utf8ByteSize ∧
      ∀ p, (s.copy text h).2.filled p =
        s.filled p + if p = page then text.utf8ByteSize else 0 := by
  obtain ⟨front, old, page, hfront, hcopy, htext, -⟩ := s.exists_copy h
  obtain ⟨i, old', page', hold, hrange, hpages, -, hwasted, htext', -⟩ := s.exists_page_of_copy h
  have hfilled : ∀ o : Option Page, (o.map fun p => p.text.utf8ByteSize).getD 0 =
      (textBefore o).utf8ByteSize := by
    intro o
    cases o <;> rfl
  refine ⟨i, ?_, hwasted, ?_, fun p => ?_⟩
  · rw [hrange, filled, hold, hfilled]
  · have hsum : (old.toList.map fun p => p.text.utf8ByteSize).sum = (textBefore old).utf8ByteSize := by
      cases old <;> simp [textBefore]
    rw [written, written, hfront, hcopy]
    simp only [List.map_append, List.sum_append, hsum, List.map_singleton, List.sum_singleton,
      htext, String.utf8ByteSize_append, Nat.add_assoc]
  · rw [filled, filled, hpages]
    by_cases hp : p = i
    · subst hp
      rw [if_pos rfl, if_pos rfl, hold, hfilled, hfilled]
      show page'.text.utf8ByteSize = _
      rw [htext', String.utf8ByteSize_append]
    · rw [if_neg hp, if_neg hp, Nat.add_zero]

/-- A slot of its own for a text is one slot more to account for the pages. -/
theorem own (h : s.Accounts slots) (text : String) :
    (s.own text).2.Accounts ((s.own text).1.toList ++ slots) := by
  obtain ⟨-, hown⟩ | ⟨hshort, hpos, hown⟩ | ⟨-, hown⟩ := s.own_cases text
  · rw [hown]
    exact h.congr fun μ => by
      rw [Option.toList_some, List.singleton_append, weight_cons, TextSlot.weigh_null, Nat.zero_add]
  · obtain ⟨page, hrange, hwasted, hwritten, hfilled⟩ := exists_filled s hshort
    rw [hown]
    dsimp only
    rw [hrange, Option.toList_some, List.singleton_append]
    have hweight : ∀ μ, weight μ (.copied ⟨page, s.filled page, text.utf8ByteSize⟩ :: slots) =
        μ ⟨page, s.filled page, text.utf8ByteSize⟩ + weight μ slots := fun μ => by
      rw [weight_cons, TextSlot.weigh_copied]
    refine ⟨?_, fun p byte => ?_, ?_⟩
    · rw [hweight, hwritten, hwasted, h.total, Nat.add_assoc, Nat.add_comm (weight _ _)]
    · -- the new range begins where the page was filled to, and nothing held reaches there
      have hold := h.apart p byte
      rw [hweight, hfilled]
      by_cases hnew : (⟨page, s.filled page, text.utf8ByteSize⟩ : PageRange).Covers p byte
      · obtain ⟨rfl, hlow, hhigh⟩ := hnew
        rw [PageRange.covering, if_pos ⟨rfl, hlow, hhigh⟩, if_pos rfl, if_pos hhigh]
        rw [if_neg (Nat.not_lt.2 hlow)] at hold
        omega
      · rw [PageRange.covering, if_neg hnew, Nat.zero_add]
        refine Nat.le_trans hold ?_
        split
        · rw [if_pos (by omega)]
        · exact Nat.zero_le _
    · rw [hweight, h.full, PageRange.hollow, if_neg (Nat.ne_of_gt hpos)]
  · rw [hown]
    exact h

/-- A slot that is given back no longer accounts for anything. -/
theorem release {slot : TextSlot} (h : s.Accounts (slot :: slots)) :
    (s.release slot).Accounts slots := by
  have hless : ∀ μ, weight μ slots ≤ weight μ (slot :: slots) := fun μ => by
    rw [weight_cons]
    exact Nat.le_add_left _ _
  have hsame : ∀ page, (s.release slot).filled page = s.filled page := fun _ => by
    cases slot <;> rfl
  have hfull := h.full
  rw [weight_cons] at hfull
  refine ⟨?_, fun page byte => ?_, by omega⟩
  · have htotal := h.total
    rw [weight_cons] at htotal
    cases slot with
    | null => rwa [TextSlot.weigh_null, Nat.zero_add] at htotal
    | source => rwa [TextSlot.weigh_source, Nat.zero_add] at htotal
    | copied range => rwa [TextSlot.weigh_copied, ← Nat.add_assoc] at htotal
  · rw [hsame]
    exact Nat.le_trans (hless _) (h.apart page byte)

/-- A loaded text is no page. -/
theorem addBuffer (h : s.Accounts slots) (text : String) : (s.addBuffer text).2.Accounts slots :=
  ⟨h.total, h.apart, h.full⟩

theorem empty : TextStore.empty.Accounts [] :=
  ⟨rfl, fun _ _ => Nat.zero_le _, rfl⟩

/-- What one range weighs is part of what all of them do. -/
theorem weight_ge (μ : PageRange → Nat) {r : PageRange} (hr : r ∈ heldRanges slots) :
    μ r ≤ weight μ slots :=
  List.le_sum_of_mem (List.mem_map_of_mem hr)

/-- Two slots hold no byte in common. -/
theorem pairwise (h : s.Accounts slots) : (heldRanges slots).Pairwise fun r r' =>
    ∀ page byte, ¬ (r.Covers page byte ∧ r'.Covers page byte) := by
  have hone : ∀ page byte, ((heldRanges slots).map (PageRange.covering page byte)).sum ≤ 1 := by
    intro page byte
    refine Nat.le_trans (h.apart page byte) ?_
    split
    · exact Nat.le_refl 1
    · exact Nat.zero_le 1
  generalize heldRanges slots = ranges at hone
  induction ranges with
  | nil => exact .nil
  | cons r rest ih =>
    simp only [List.map_cons, List.sum_cons] at hone
    refine List.pairwise_cons.2 ⟨fun r' hr' page byte hboth => ?_, ih fun page byte => ?_⟩
    · -- both would count
      have hrest : PageRange.covering page byte r' ≤
          (rest.map (PageRange.covering page byte)).sum :=
        List.le_sum_of_mem (List.mem_map_of_mem hr')
      have hsum := hone page byte
      rw [PageRange.covering, if_pos hboth.2] at hrest
      rw [PageRange.covering, if_pos hboth.1] at hsum
      omega
    · exact Nat.le_trans (Nat.le_add_left _ _) (hone page byte)

/-- Every range that is held has bytes, and all of them were written. -/
theorem within (h : s.Accounts slots) {r : PageRange} (hr : r ∈ heldRanges slots) :
    0 < r.length ∧ r.start + r.length ≤ s.filled r.page := by
  have hlength : 0 < r.length := by
    have hle := weight_ge PageRange.hollow hr
    rw [h.full, PageRange.hollow] at hle
    refine Nat.pos_of_ne_zero fun hzero => ?_
    rw [if_pos hzero] at hle
    omega
  refine ⟨hlength, ?_⟩
  -- the last byte is held, so it was written
  have hlast : r.Covers r.page (r.start + r.length - 1) := ⟨rfl, by omega, by omega⟩
  have hle := Nat.le_trans (weight_ge (PageRange.covering r.page (r.start + r.length - 1)) hr)
    (h.apart _ _)
  rw [PageRange.covering, if_pos hlast] at hle
  split at hle
  · omega
  · omega

end Accounts

end TextStore

end XmlTree
