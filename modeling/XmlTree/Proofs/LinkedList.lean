/-
  Proofs/LinkedList.lean --- linked lists that spell plain ones.

  WHAT THIS FILE IS FOR.  A linked list is given by its two ends and by the neighbours
  of every member.  It spells a plain list when reading from the first end forwards
  and from the last end backwards both give that list.  Here it is said once which
  changes of ends and neighbours put a member in and take one out, for the lists of
  children and for those of attributes alike.

  STRANDS.  The induction is over pieces of a list: a strand knows the members right
  before and right after it, so a list cut anywhere is two strands, and a change
  touches only the two members beside the cut.
-/
import XmlTree.Document.Basic
import Mathlib.Data.List.Nodup
import Mathlib.Logic.Function.Basic
import Mathlib.Tactic.Tauto

set_option autoImplicit false

namespace XmlTree

variable {α : Type}

/-! ## Reading -/

/-- Reading from `start` on, each member found from the one before it, gives `xs` and
then ends. -/
def Reads (next : α → Option α) : Option α → List α → Prop
  | none, [] => True
  | some a, x :: xs => a = x ∧ Reads next (next a) xs
  | _, _ => False

theorem chain_none (next : α → Option α) (limit : Nat) : chain next limit none = [] := by
  cases limit <;> rfl

/-- A reading that is allowed enough members is the whole list. -/
theorem chain_eq_of_reads {next : α → Option α} {start : Option α} {xs : List α} {limit : Nat}
    (h : Reads next start xs) (hlimit : xs.length ≤ limit) : chain next limit start = xs := by
  induction xs generalizing start limit with
  | nil =>
    cases start with
    | none => cases limit <;> rfl
    | some a => exact h.elim
  | cons x xs ih =>
    cases start with
    | none => exact h.elim
    | some a =>
      obtain ⟨rfl, hrest⟩ := h
      cases limit with
      | zero => simp at hlimit
      | succ limit => simp [chain, ih hrest (by simpa using hlimit)]

theorem Reads.head? {next : α → Option α} {start : Option α} {xs : List α}
    (h : Reads next start xs) : start = xs.head? := by
  cases start <;> cases xs <;> simp_all [Reads]

theorem Reads.congr {next next' : α → Option α} {start : Option α} {xs : List α}
    (h : Reads next start xs) (hsame : ∀ x ∈ xs, next' x = next x) : Reads next' start xs := by
  induction xs generalizing start with
  | nil => cases start <;> exact h
  | cons x xs ih =>
    cases start with
    | none => exact h.elim
    | some a =>
      obtain ⟨rfl, hrest⟩ := h
      refine ⟨rfl, ?_⟩
      rw [hsame a (by simp)]
      exact ih hrest fun y hy => hsame y (by simp [hy])

/-- The images of what is read are read from the image of the start. -/
theorem Reads.map {β : Type} {next : α → Option α} {next' : β → Option β} {f : α → β}
    {start : Option α} {xs : List α} (h : Reads next start xs)
    (hnext : ∀ x ∈ xs, next' (f x) = (next x).map f) :
    Reads next' (start.map f) (xs.map f) := by
  induction xs generalizing start with
  | nil => cases start <;> exact h
  | cons x xs ih =>
    cases start with
    | none => exact h.elim
    | some a =>
      obtain ⟨rfl, hrest⟩ := h
      refine ⟨rfl, ?_⟩
      rw [hnext a List.mem_cons_self]
      exact ih hrest fun y hy => hnext y (List.mem_cons_of_mem a hy)

/-- A reading ends at a member after which nothing comes. -/
theorem Reads.next_getLast {next : α → Option α} {a x : α} {xs : List α}
    (h : Reads next (next a) xs) (hx : (a :: xs).getLast? = some x) : next x = none := by
  induction xs generalizing a with
  | nil =>
    obtain rfl : a = x := by simpa using hx
    exact h.head?
  | cons y ys ih =>
    cases hy : next a with
    | none =>
      rw [hy] at h
      exact h.elim
    | some b =>
      rw [hy] at h
      obtain ⟨rfl, hrest⟩ := h
      exact ih hrest (by rwa [List.getLast?_cons_cons] at hx)

/-! ## Strands -/

/-- The neighbours along `xs`, which stands between `before` and `after`. -/
def Strand (near : α → Neighbours α) (before : Option α) : List α → Option α → Prop
  | [], _ => True
  | x :: xs, after => near x = ⟨before, xs.head?.or after⟩ ∧ Strand near (some x) xs after

/-- A strand cut in two. -/
theorem strand_append {near : α → Neighbours α} {before after : Option α} {xs ys : List α} :
    Strand near before (xs ++ ys) after ↔
      Strand near before xs (ys.head?.or after) ∧
        Strand near (xs.getLast?.or before) ys after := by
  induction xs generalizing before with
  | nil => simp [Strand]
  | cons x xs ih =>
    have hhead : (xs ++ ys).head?.or after = xs.head?.or (ys.head?.or after) := by
      cases xs <;> simp
    have hlast : (x :: xs).getLast?.or before = xs.getLast?.or (some x) := by
      cases xs with
      | nil => simp
      | cons y xs => simp [List.getLast?_cons]
    rw [List.cons_append, Strand, Strand, ih, hhead, hlast, and_assoc]

theorem Strand.congr {near near' : α → Neighbours α} {before after : Option α} {xs : List α}
    (h : Strand near before xs after) (hnear : ∀ x ∈ xs, near' x = near x) :
    Strand near' before xs after := by
  induction xs generalizing before with
  | nil => trivial
  | cons x xs ih =>
    refine ⟨(hnear x (by simp)).trans h.1, ih h.2 fun y hy => hnear y (by simp [hy])⟩

/-- Giving the last member another follower moves the end of a strand. -/
theorem Strand.setAfter {near near' : α → Neighbours α} {before after after' : Option α}
    {xs : List α} (h : Strand near before xs after) (hnodup : xs.Nodup)
    (hlast : ∀ x, xs.getLast? = some x → near' x = { near x with next := after' })
    (hother : ∀ x ∈ xs, xs.getLast? ≠ some x → near' x = near x) :
    Strand near' before xs after' := by
  induction xs generalizing before with
  | nil => trivial
  | cons x xs ih =>
    obtain ⟨hx, hxs⟩ := h
    cases xs with
    | nil => exact ⟨by rw [hlast x rfl, hx]; rfl, trivial⟩
    | cons y ys =>
      have hne : (x :: y :: ys).getLast? ≠ some x := by
        intro heq
        rw [List.getLast?_cons_cons] at heq
        exact (List.nodup_cons.1 hnodup).1 (List.mem_of_getLast? heq)
      refine ⟨by rw [hother x (by simp) hne, hx]; rfl,
        ih hxs (List.nodup_cons.1 hnodup).2 ?_ ?_⟩
      · intro z hz
        exact hlast z (by rw [List.getLast?_cons_cons]; exact hz)
      · intro z hz hzlast
        exact hother z (List.mem_cons_of_mem x hz) (by rw [List.getLast?_cons_cons]; exact hzlast)

/-- Giving the first member another one before it moves the start of a strand. -/
theorem Strand.setBefore {near near' : α → Neighbours α} {before before' after : Option α}
    {xs : List α} (h : Strand near before xs after) (hnodup : xs.Nodup)
    (hfirst : ∀ x, xs.head? = some x → near' x = { near x with previous := before' })
    (hother : ∀ x ∈ xs, xs.head? ≠ some x → near' x = near x) :
    Strand near' before' xs after := by
  cases xs with
  | nil => trivial
  | cons x xs =>
    obtain ⟨hx, hxs⟩ := h
    refine ⟨by rw [hfirst x rfl, hx], hxs.congr fun y hy => hother y (by simp [hy]) ?_⟩
    intro heq
    cases heq
    exact (List.nodup_cons.1 hnodup).1 hy

/-! ## Changes beside a gap -/

section Around

variable [DecidableEq α]

/-- The neighbours of `y` after the member before a gap got `next` as its next one and
the member after the gap `previous` as its previous one. -/
def Neighbours.around (n gap : Neighbours α) (previous next : Option α) (y : α) :
    Neighbours α :=
  ⟨if gap.next = some y then previous else n.previous,
    if gap.previous = some y then next else n.next⟩

/-- The ends of a list after the same change: a side of the gap without a member is an
end of the list. -/
def Ends.around (e : Ends α) (gap : Neighbours α) (previous next : Option α) : Ends α :=
  ⟨if gap.previous = none then next else e.first, if gap.next = none then previous else e.last⟩

/-- Who does not stand beside the gap keeps the neighbours. -/
theorem Neighbours.around_of_ne {n gap : Neighbours α} {previous next : Option α} {y : α}
    (h : ¬ (gap.previous = some y ∨ gap.next = some y)) :
    n.around gap previous next y = n := by
  rw [not_or] at h
  rw [Neighbours.around, if_neg h.1, if_neg h.2]

end Around

/-! ## Spelling -/

/-- The ends and the neighbours of a linked list spell `xs`. -/
structure Spells (ends : Ends α) (near : α → Neighbours α) (xs : List α) : Prop where
  first : ends.first = xs.head?
  last : ends.last = xs.getLast?
  strand : Strand near none xs none

namespace Spells

variable {ends ends' : Ends α} {near near' : α → Neighbours α} {xs ys : List α} {x : α}

theorem nil : Spells (Ends.empty : Ends α) near [] := ⟨rfl, rfl, trivial⟩

theorem congr (h : Spells ends near xs) (hends : ends' = ends)
    (hnear : ∀ x ∈ xs, near' x = near x) : Spells ends' near' xs :=
  ⟨hends ▸ h.first, hends ▸ h.last, h.strand.congr hnear⟩

theorem reads_strand {next : α → Option α} {before after : Option α}
    (h : Strand near before xs after) (hnext : ∀ x ∈ xs, next x = (near x).next)
    (hafter : after = none) : Reads next xs.head? xs := by
  induction xs generalizing before with
  | nil => trivial
  | cons x xs ih =>
    refine ⟨rfl, ?_⟩
    have hx : next x = xs.head? := by
      rw [hnext x (by simp), h.1, hafter, Option.or_none]
    rw [hx]
    exact ih h.2 fun y hy => hnext y (by simp [hy])

/-- Read forwards from the first end, a linked list is the list it spells. -/
theorem reads_forwards {next : α → Option α} (h : Spells ends near xs)
    (hnext : ∀ x ∈ xs, next x = (near x).next) : Reads next ends.first xs := by
  rw [h.first]
  exact reads_strand h.strand hnext rfl

/-- The same list with the directions exchanged. -/
def flip (near : α → Neighbours α) (x : α) : Neighbours α := ⟨(near x).next, (near x).previous⟩

theorem strand_flip {before after : Option α} (h : Strand near before xs after) :
    Strand (flip near) after xs.reverse before := by
  induction xs generalizing before with
  | nil => trivial
  | cons x xs ih =>
    rw [List.reverse_cons, strand_append]
    refine ⟨by simpa using ih h.2, ?_, trivial⟩
    simp only [flip, h.1, List.getLast?_reverse, List.head?_nil, Option.none_or]

/-- Read backwards from the last end, a linked list is the reverse of the list it
spells. -/
theorem reads_backwards {previous : α → Option α} (h : Spells ends near xs)
    (hprevious : ∀ x ∈ xs, previous x = (near x).previous) :
    Reads previous ends.last xs.reverse := by
  rw [h.last, ← List.head?_reverse]
  exact reads_strand (strand_flip h.strand)
    (fun x hx => hprevious x (List.mem_reverse.1 hx)) rfl

/-! ## Cuts -/

/-- The neighbours of a member in the middle. -/
theorem near_of_append_cons (h : Spells ends near (xs ++ x :: ys)) :
    near x = ⟨xs.getLast?, ys.head?⟩ := by
  have hx := (strand_append.1 h.strand).2.1
  simpa using hx

/-- Read on from a member, a linked list is what comes after it. -/
theorem reads_after {next : α → Option α} (h : Spells ends near (xs ++ x :: ys))
    (hnext : ∀ y ∈ xs ++ x :: ys, next y = (near y).next) : Reads next (next x) ys := by
  have hx : next x = ys.head? := by rw [hnext x (by simp), h.near_of_append_cons]
  rw [hx]
  exact reads_strand (strand_append.1 h.strand).2.2 (fun y hy => hnext y (by simp [hy])) rfl

/-- Read back from a member, a linked list is what comes before it. -/
theorem reads_before {previous : α → Option α} (h : Spells ends near (xs ++ x :: ys))
    (hprevious : ∀ y ∈ xs ++ x :: ys, previous y = (near y).previous) :
    Reads previous (previous x) xs.reverse := by
  have hflip : Spells ⟨ends.last, ends.first⟩ (flip near) (ys.reverse ++ x :: xs.reverse) := by
    have hreverse : (xs ++ x :: ys).reverse = ys.reverse ++ x :: xs.reverse := by simp
    rw [← hreverse]
    exact ⟨by rw [h.last, List.head?_reverse], by rw [h.first, List.getLast?_reverse],
      strand_flip h.strand⟩
  refine hflip.reads_after fun y hy => hprevious y ?_
  simp only [List.mem_append, List.mem_cons, List.mem_reverse] at hy ⊢
  tauto

/-- Changes beside a cut: `next` comes after the members before it, `previous` before
those after it. -/
theorem strands_of_near [DecidableEq α] {before after previous next : Option α}
    (hxs : Strand near none xs after) (hys : Strand near before ys none)
    (hnodup : (xs ++ ys).Nodup)
    (hnear : ∀ y ∈ xs ++ ys,
      near' y = (near y).around ⟨xs.getLast?, ys.head?⟩ previous next y) :
    Strand near' none xs next ∧ Strand near' previous ys none := by
  obtain ⟨hnodupx, hnodupy, hdisjoint⟩ := List.nodup_append.1 hnodup
  have hhead : ∀ y ∈ xs, ys.head? ≠ some y := fun y hmem heq =>
    hdisjoint y hmem y (List.mem_of_head? heq) rfl
  have hlast : ∀ y ∈ ys, xs.getLast? ≠ some y := fun y hmem heq =>
    hdisjoint y (List.mem_of_getLast? heq) y hmem rfl
  constructor
  · refine hxs.setAfter hnodupx (fun y hy => ?_) (fun y hmem hy => ?_)
    · have hmem : y ∈ xs := List.mem_of_getLast? hy
      rw [hnear y (by simp [hmem]), Neighbours.around, if_neg (hhead y hmem), if_pos hy]
    · rw [hnear y (by simp [hmem]), Neighbours.around, if_neg (hhead y hmem), if_neg hy]
  · refine hys.setBefore hnodupy (fun y hy => ?_) (fun y hmem hy => ?_)
    · have hmem : y ∈ ys := List.mem_of_head? hy
      rw [hnear y (by simp [hmem]), Neighbours.around, if_pos hy, if_neg (hlast y hmem)]
    · rw [hnear y (by simp [hmem]), Neighbours.around, if_neg hy, if_neg (hlast y hmem)]

/-- Puts a member into a cut. -/
theorem insert [DecidableEq α] (h : Spells ends near (xs ++ ys)) (hnodup : (xs ++ ys).Nodup)
    (hx : near' x = ⟨xs.getLast?, ys.head?⟩)
    (hnear : ∀ y ∈ xs ++ ys,
      near' y = (near y).around ⟨xs.getLast?, ys.head?⟩ (some x) (some x) y)
    (hends : ends' = ends.around ⟨xs.getLast?, ys.head?⟩ (some x) (some x)) :
    Spells ends' near' (xs ++ x :: ys) := by
  obtain ⟨hxs, hys⟩ := strand_append.1 h.strand
  obtain ⟨hxs', hys'⟩ := strands_of_near hxs hys hnodup hnear
  refine ⟨?_, ?_, strand_append.2 ⟨by simpa using hxs', by simp [hx], hys'⟩⟩
  · rw [hends, Ends.around, h.first]
    cases xs <;> simp [List.getLast?_cons]
  · rw [hends, Ends.around, h.last]
    cases ys with
    | nil => simp
    | cons y ys => simp [List.getLast?_append, List.getLast?_cons]

/-- Takes a member out. -/
theorem remove [DecidableEq α] (h : Spells ends near (xs ++ x :: ys))
    (hnodup : (xs ++ x :: ys).Nodup)
    (hnear : ∀ y ∈ xs ++ ys,
      near' y = (near y).around ⟨xs.getLast?, ys.head?⟩ xs.getLast? ys.head? y)
    (hends : ends' = ends.around ⟨xs.getLast?, ys.head?⟩ xs.getLast? ys.head?) :
    Spells ends' near' (xs ++ ys) := by
  obtain ⟨hxs, _, hys⟩ := strand_append.1 h.strand
  have hsub : (xs ++ ys).Nodup := hnodup.sublist (by simp)
  obtain ⟨hxs', hys'⟩ := strands_of_near hxs hys hsub hnear
  refine ⟨?_, ?_, strand_append.2 ⟨by simpa using hxs', by simpa using hys'⟩⟩
  · rw [hends, Ends.around, h.first]
    cases xs <;> simp [List.getLast?_cons]
  · rw [hends, Ends.around, h.last]
    cases ys with
    | nil => simp
    | cons y ys => simp [List.getLast?_append, List.getLast?_cons]

end Spells

/-! ## Places -/

namespace Place

variable [DecidableEq α]

/-- The members that a place lies between. -/
def gap (ends : Ends α) (near : α → Neighbours α) : Place α → Neighbours α
  | first => ⟨none, ends.first⟩
  | last => ⟨ends.last, none⟩
  | before r => ⟨(near r).previous, some r⟩
  | after r => ⟨some r, (near r).next⟩

/-- The place lies between the members `xs` and the members `ys`. -/
def Cuts : Place α → List α → List α → Prop
  | first, xs, _ => xs = []
  | last, _, ys => ys = []
  | before r, _, ys => ys.head? = some r
  | after r, xs, _ => xs.getLast? = some r

theorem insertBefore_append_cons {r x : α} {xs ys : List α} (h : r ∉ xs) :
    insertBefore r x (xs ++ r :: ys) = xs ++ x :: r :: ys := by
  induction xs with
  | nil => simp [insertBefore]
  | cons y xs ih =>
    have hy : y ≠ r := fun heq => h (by simp [heq])
    simp [insertBefore, hy, ih fun hmem => h (by simp [hmem])]

theorem insertAfter_append_cons {r x : α} {xs ys : List α} (h : r ∉ xs) :
    insertAfter r x (xs ++ r :: ys) = xs ++ r :: x :: ys := by
  induction xs with
  | nil => simp [insertAfter]
  | cons y xs ih =>
    have hy : y ≠ r := fun heq => h (by simp [heq])
    simp [insertAfter, hy, ih fun hmem => h (by simp [hmem])]

/-- A place cuts a list without repetitions that has the member it refers to, and that
is where something is put. -/
theorem exists_cut (place : Place α) {xs : List α} (hnodup : xs.Nodup)
    (href : ∀ r, place.reference? = some r → r ∈ xs) :
    ∃ ys zs, xs = ys ++ zs ∧ place.Cuts ys zs ∧ ∀ x, place.insert x xs = ys ++ x :: zs := by
  cases place with
  | first => exact ⟨[], xs, rfl, rfl, fun x => rfl⟩
  | last => exact ⟨xs, [], by simp, rfl, fun x => rfl⟩
  | before r =>
    obtain ⟨ys, zs, rfl⟩ := List.append_of_mem (href r rfl)
    have hr : r ∉ ys := fun hmem => (List.nodup_append.1 hnodup).2.2 r hmem r (by simp) rfl
    exact ⟨ys, r :: zs, rfl, rfl, fun x => insertBefore_append_cons hr⟩
  | after r =>
    obtain ⟨ys, zs, rfl⟩ := List.append_of_mem (href r rfl)
    have hr : r ∉ ys := fun hmem => (List.nodup_append.1 hnodup).2.2 r hmem r (by simp) rfl
    exact ⟨ys ++ [r], zs, by simp, by simp [Cuts],
      fun x => by simpa [insert] using insertAfter_append_cons hr⟩

omit [DecidableEq α] in
theorem gap_eq {place : Place α} {ends : Ends α} {near : α → Neighbours α} {xs ys : List α}
    (h : Spells ends near (xs ++ ys)) (hcut : place.Cuts xs ys) :
    place.gap ends near = ⟨xs.getLast?, ys.head?⟩ := by
  cases place with
  | first =>
    obtain rfl : xs = [] := hcut
    simp [gap, h.first]
  | last =>
    obtain rfl : ys = [] := hcut
    simp [gap, h.last]
  | before r =>
    obtain ⟨zs, rfl⟩ : ∃ zs, ys = r :: zs := List.head?_eq_some_iff.1 hcut
    simp [gap, h.near_of_append_cons]
  | after r =>
    obtain ⟨zs, rfl⟩ : ∃ zs, xs = zs ++ [r] := List.getLast?_eq_some_iff.1 hcut
    rw [List.append_assoc] at h
    simp [gap, h.near_of_append_cons]

end Place

/-! ## Lists under holders -/

/-- The linked lists of all holders: the list of each holder spells those that say they
are held by it. -/
structure Listed {H : Type} (ends : H → Ends α) (near : α → Neighbours α)
    (holder? : α → Option H) (lists : H → List α) : Prop where
  spells : ∀ h, Spells (ends h) near (lists h)
  mem : ∀ {h x}, x ∈ lists h ↔ holder? x = some h
  nodup : ∀ h, (lists h).Nodup

namespace Listed

variable {H : Type} {ends ends' : H → Ends α} {near near' : α → Neighbours α}
  {holder? holder?' : α → Option H} {lists : H → List α} {p : H} {x : α}

/-- Where nobody is held, all lists are empty. -/
theorem blank (hends : ∀ q, ends q = .empty) (hholder : ∀ y, holder? y = none) :
    Listed ends near holder? fun _ => [] where
  spells q := (hends q).symm ▸ .nil
  mem := by simp [hholder]
  nodup _ := .nil

/-- Nothing changes for members if their neighbours stay as they are. -/
theorem congr (h : Listed ends near holder? lists) (hends : ∀ q, ends' q = ends q)
    (hholder : ∀ y, holder?' y = holder? y)
    (hnear : ∀ y, (holder? y).isSome → near' y = near y) :
    Listed ends' near' holder?' lists where
  spells q := (h.spells q).congr (hends q) fun y hy => hnear y (by simp [h.mem.1 hy])
  mem := by simp [hholder, h.mem]
  nodup := h.nodup

variable [DecidableEq H] [DecidableEq α]

omit [DecidableEq α] in
/-- The lists of some holders are emptied, and those of the others stay as they are. -/
theorem without (h : Listed ends near holder? lists) {gone : List H}
    (hends : ∀ q, ends' q = if q ∈ gone then .empty else ends q)
    (hholder : ∀ {q y}, holder?' y = some q ↔ holder? y = some q ∧ q ∉ gone)
    (hnear : ∀ {q y}, holder? y = some q → q ∉ gone → near' y = near y) :
    Listed ends' near' holder?' fun q => if q ∈ gone then [] else lists q where
  spells q := by
    rw [hends]
    split
    · exact .nil
    · rename_i hq
      exact (h.spells q).congr rfl fun y hy => hnear (h.mem.1 hy) hq
  mem {q y} := by
    rw [hholder, ← h.mem]
    by_cases hq : q ∈ gone <;> simp [hq]
  nodup q := by
    split
    · exact .nil
    · exact h.nodup q

omit [DecidableEq H] in
/-- The members beside a place in the list of `p` are held by `p`. -/
theorem holder?_of_gap (h : Listed ends near holder? lists) {place : Place α}
    (href : ∀ r, place.reference? = some r → holder? r = some p) {y : α}
    (hy : (place.gap (ends p) near).previous = some y ∨
      (place.gap (ends p) near).next = some y) : holder? y = some p := by
  obtain ⟨ys, zs, hlist, hcut, -⟩ :=
    place.exists_cut (h.nodup p) fun r hr => h.mem.2 (href r hr)
  rw [Place.gap_eq (hlist ▸ h.spells p) hcut] at hy
  rw [← h.mem, hlist, List.mem_append]
  obtain hy | hy := hy
  · exact .inl (List.mem_of_getLast? hy)
  · exact .inr (List.mem_of_head? hy)

omit [DecidableEq H] [DecidableEq α] in
/-- The neighbours of a member are held by who holds the member. -/
theorem holder?_of_near (h : Listed ends near holder? lists) (hx : holder? x = some p) {y : α}
    (hy : (near x).previous = some y ∨ (near x).next = some y) : holder? y = some p := by
  obtain ⟨ys, zs, hlist⟩ := List.append_of_mem (h.mem.2 hx)
  rw [(hlist ▸ h.spells p : Spells (ends p) near (ys ++ x :: zs)).near_of_append_cons] at hy
  rw [← h.mem, hlist, List.mem_append]
  obtain hy | hy := hy
  · exact .inl (List.mem_of_getLast? hy)
  · exact .inr (List.mem_cons_of_mem x (List.mem_of_head? hy))

/-- Puts `x`, which nobody holds, at a place in the list of `p`. -/
theorem insert (h : Listed ends near holder? lists) {place : Place α} {gap : Neighbours α}
    (hx : holder? x = none) (href : ∀ r, place.reference? = some r → holder? r = some p)
    (hgap : gap = place.gap (ends p) near)
    (hholder : ∀ y, holder?' y = if y = x then some p else holder? y)
    (hnearx : near' x = gap.around gap (some x) (some x) x)
    (hnear : ∀ y, (holder? y).isSome → near' y = (near y).around gap (some x) (some x) y)
    (hends : ∀ q, ends' q = if q = p then (ends q).around gap (some x) (some x) else ends q) :
    Listed ends' near' holder?' (Function.update lists p (place.insert x (lists p))) := by
  obtain ⟨ys, zs, hlist, hcut, hinsert⟩ :=
    place.exists_cut (h.nodup p) fun r hr => h.mem.2 (href r hr)
  have hspells : Spells (ends p) near (ys ++ zs) := hlist ▸ h.spells p
  have hnodup : (ys ++ zs).Nodup := hlist ▸ h.nodup p
  have hgap' : gap = ⟨ys.getLast?, zs.head?⟩ := hgap.trans (Place.gap_eq hspells hcut)
  have hmem : ∀ {q y}, y ∈ lists q → (holder? y).isSome := fun hy => by simp [h.mem.1 hy]
  have hfresh : ∀ q, x ∉ lists q := fun q hq => by simp [h.mem.1 hq] at hx
  rw [hinsert]
  refine ⟨fun q => ?_, fun {q y} => ?_, fun q => ?_⟩
  · by_cases hq : q = p
    · subst hq
      rw [Function.update_self]
      refine hspells.insert hnodup ?_ (fun y hy => ?_) ?_
      · have hxq : x ∉ ys ++ zs := hlist ▸ hfresh q
        have hprev : ys.getLast? ≠ some x := fun heq =>
          hxq (by simp [List.mem_of_getLast? heq])
        have hnext : zs.head? ≠ some x := fun heq => hxq (by simp [List.mem_of_head? heq])
        rw [hnearx, hgap', Neighbours.around, if_neg hnext, if_neg hprev]
      · rw [hnear y (hmem (hlist ▸ hy)), hgap']
      · rw [hends, if_pos rfl, hgap']
    · rw [Function.update_of_ne hq]
      refine (h.spells q).congr (by rw [hends, if_neg hq]) fun y hy => ?_
      -- the members beside the gap are held by `p`
      have hother : ∀ z ∈ ys ++ zs, z ≠ y := fun z hz heq => by
        have hzp := h.mem.1 (hlist ▸ hz : z ∈ lists p)
        rw [heq, h.mem.1 hy] at hzp
        exact hq (Option.some.inj hzp)
      have hprev : ys.getLast? ≠ some y := fun heq =>
        hother y (by simp [List.mem_of_getLast? heq]) rfl
      have hnext : zs.head? ≠ some y := fun heq =>
        hother y (by simp [List.mem_of_head? heq]) rfl
      rw [hnear y (hmem hy), hgap', Neighbours.around, if_neg hnext, if_neg hprev]
  · rw [hholder]
    by_cases hq : q = p
    · subst hq
      rw [Function.update_self]
      have hy : y ∈ ys ++ zs ↔ holder? y = some q := hlist ▸ h.mem
      by_cases hyx : y = x <;> simp_all
    · rw [Function.update_of_ne hq, h.mem]
      by_cases hyx : y = x
      · subst hyx
        simp [hx, Ne.symm hq]
      · rw [if_neg hyx]
  · by_cases hq : q = p
    · subst hq
      rw [Function.update_self]
      have hxp : x ∉ ys ++ zs := hlist ▸ hfresh q
      exact (List.nodup_middle).2 (List.nodup_cons.2 ⟨hxp, hnodup⟩)
    · rw [Function.update_of_ne hq]
      exact h.nodup q

/-- Takes `x` out of the list of `p`. -/
theorem remove (h : Listed ends near holder? lists) {gap : Neighbours α}
    (hx : holder? x = some p) (hgap : gap = near x)
    (hholder : ∀ y, holder?' y = if y = x then none else holder? y)
    (hnear : ∀ y, y ≠ x → (holder? y).isSome →
      near' y = (near y).around gap gap.previous gap.next y)
    (hends : ∀ q, ends' q =
      if q = p then (ends q).around gap gap.previous gap.next else ends q) :
    Listed ends' near' holder?' (Function.update lists p ((lists p).erase x)) := by
  obtain ⟨ys, zs, hlist⟩ := List.append_of_mem (h.mem.2 hx)
  have hspells : Spells (ends p) near (ys ++ x :: zs) := hlist ▸ h.spells p
  have hnodup : (ys ++ x :: zs).Nodup := hlist ▸ h.nodup p
  have hgap' : gap = ⟨ys.getLast?, zs.head?⟩ := hgap.trans hspells.near_of_append_cons
  have hmem : ∀ {q y}, y ∈ lists q → (holder? y).isSome := fun hy => by simp [h.mem.1 hy]
  obtain ⟨hxfresh, hrest⟩ := List.nodup_cons.1 (List.nodup_middle.1 hnodup)
  have herase : (lists p).erase x = ys ++ zs := by
    rw [hlist, List.erase_append_right _ fun hy => hxfresh (by simp [hy]), List.erase_cons_head]
  rw [herase]
  refine ⟨fun q => ?_, fun {q y} => ?_, fun q => ?_⟩
  · by_cases hq : q = p
    · subst hq
      rw [Function.update_self]
      refine hspells.remove hnodup (fun y hy => ?_) ?_
      · have hyx : y ≠ x := fun heq => hxfresh (heq ▸ hy)
        have hyq : y ∈ lists q := by
          rw [hlist]
          simp only [List.mem_append, List.mem_cons] at hy ⊢
          tauto
        rw [hnear y hyx (hmem hyq), hgap']
      · rw [hends, if_pos rfl, hgap']
    · rw [Function.update_of_ne hq]
      refine (h.spells q).congr (by rw [hends, if_neg hq]) fun y hy => ?_
      -- the members beside `x` are held by `p`
      have hother : ∀ z ∈ ys ++ x :: zs, z ≠ y := fun z hz heq => by
        have hzp := h.mem.1 (hlist ▸ hz : z ∈ lists p)
        rw [heq, h.mem.1 hy] at hzp
        exact hq (Option.some.inj hzp)
      have hprev : ys.getLast? ≠ some y := fun heq =>
        hother y (by simp [List.mem_of_getLast? heq]) rfl
      have hnext : zs.head? ≠ some y := fun heq =>
        hother y (by simp [List.mem_of_head? heq]) rfl
      have hyx : y ≠ x := fun heq => hother x (by simp) heq.symm
      rw [hnear y hyx (hmem hy), hgap', Neighbours.around, if_neg hnext, if_neg hprev]
  · rw [hholder]
    by_cases hq : q = p
    · subst hq
      rw [Function.update_self]
      have hy : y ∈ ys ++ x :: zs ↔ holder? y = some q := hlist ▸ h.mem
      by_cases hyx : y = x
      · subst hyx
        simpa using hxfresh
      · simpa [hyx] using hy
    · rw [Function.update_of_ne hq, h.mem]
      by_cases hyx : y = x
      · subst hyx
        simp [hx, Ne.symm hq]
      · rw [if_neg hyx]
  · by_cases hq : q = p
    · subst hq
      rw [Function.update_self]
      exact hrest
    · rw [Function.update_of_ne hq]
      exact h.nodup q

end Listed

end XmlTree
