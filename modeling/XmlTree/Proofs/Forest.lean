/-
  Proofs/Forest.lean --- forests given by parents, and walks through them.

  WHAT THIS FILE IS FOR.  A forest is given by what stands above each item and by the
  list of what stands right below it.  A walk through it visits everything below an item,
  each once.  None of this knows what the items are.

  OUTLINES.  A walk keeps a list of what is still to be visited, and its recursion does
  not follow the tree.  The outline of an item is the tree below it as a value; a walk
  lists the outlines of its pending items one after the other, and all inductions are on
  outlines.
-/
import XmlTree.Document.Preorder
import XmlTree.Proofs.LinkedList
import Mathlib.Data.List.Pairwise

set_option autoImplicit false

namespace XmlTree

variable {α : Type}

/-! ## What stands below -/

/-- `x` is `top` or stands below it. -/
inductive Below (parent? : α → Option α) (top : α) : α → Prop where
  | self : Below parent? top top
  | step {c p : α} (parent : parent? c = some p) (above : Below parent? top p) :
      Below parent? top c

/-- Nothing stands below itself: every item is deeper than the one above it. -/
def Acyclic (parent? : α → Option α) : Prop :=
  ∃ depth : α → Nat, ∀ {c p}, parent? c = some p → depth p < depth c

namespace Below

variable {parent? parent?' : α → Option α} {a b c p x top : α}

theorem trans (hab : Below parent? a b) (hbc : Below parent? b c) : Below parent? a c := by
  induction hbc with
  | self => exact hab
  | step hp _ ih => exact .step hp ih

/-- Of two items above one, one is above the other. -/
theorem total (ha : Below parent? a x) (hb : Below parent? b x) :
    Below parent? a b ∨ Below parent? b a := by
  induction ha with
  | self => exact .inr hb
  | step hp ha ih =>
    cases hb with
    | self => exact .inl (.step hp ha)
    | step hp' hb =>
      rw [hp] at hp'
      cases hp'
      exact ih hb

/-- The way down to an item that is not the top begins with a step to one right below
the top. -/
theorem eq_or_below_child (h : Below parent? top x) :
    x = top ∨ ∃ c, parent? c = some top ∧ Below parent? c x := by
  induction h with
  | self => exact .inl rfl
  | @step y p hp _ ih =>
    obtain rfl | ⟨c, hc, hbelow⟩ := ih
    · exact .inr ⟨y, hp, .self⟩
    · exact .inr ⟨c, hc, .step hp hbelow⟩

/-- What stands at the top stands below nothing else. -/
theorem eq_of_parent?_eq_none (h : Below parent? a x) (hx : parent? x = none) : a = x := by
  cases h with
  | self => rfl
  | step hp _ =>
    rw [hx] at hp
    cases hp

theorem depth_le {depth : α → Nat} (hdepth : ∀ {c p}, parent? c = some p → depth p < depth c)
    (h : Below parent? a x) : depth a ≤ depth x := by
  induction h with
  | self => exact Nat.le_refl _
  | step hp _ ih => exact Nat.le_trans ih (Nat.le_of_lt (hdepth hp))

/-- An item does not stand below one right below it. -/
theorem not_parent (hacyclic : Acyclic parent?) (hp : parent? c = some p) :
    ¬ Below parent? c p := by
  obtain ⟨depth, hdepth⟩ := hacyclic
  intro h
  exact Nat.lt_irrefl _ (Nat.lt_of_lt_of_le (hdepth hp) (h.depth_le hdepth))

/-- Two different items right below one have nothing below them in common. -/
theorem disjoint (hacyclic : Acyclic parent?) (ha : parent? a = some p)
    (hb : parent? b = some p) (hne : a ≠ b) (hax : Below parent? a x) :
    ¬ Below parent? b x := by
  intro hbx
  obtain hab | hba := hax.total hbx
  · cases hab with
    | self => exact hne rfl
    | step hp h =>
      rw [hb] at hp
      cases hp
      exact not_parent hacyclic ha h
  · cases hba with
    | self => exact hne rfl
    | step hp h =>
      rw [ha] at hp
      cases hp
      exact not_parent hacyclic hb h

theorem mono (h : Below parent? top x)
    (hsame : ∀ {y p}, parent? y = some p → parent?' y = some p) : Below parent?' top x := by
  induction h with
  | self => exact .self
  | step hp _ ih => exact .step (hsame hp) ih

end Below

theorem Acyclic.congr {parent? parent?' : α → Option α} (h : Acyclic parent?)
    (hsame : ∀ x, parent?' x = parent? x) : Acyclic parent?' := by
  obtain ⟨depth, hdepth⟩ := h
  exact ⟨depth, fun hp => hdepth (hsame _ ▸ hp)⟩

/-- Taking items from what is above them leaves no cycle. -/
theorem Acyclic.mono {parent? parent?' : α → Option α} (h : Acyclic parent?)
    (hsame : ∀ {x p}, parent?' x = some p → parent? x = some p) : Acyclic parent?' := by
  obtain ⟨depth, hdepth⟩ := h
  exact ⟨depth, fun hp => hdepth (hsame hp)⟩

/-- A new parent that does not stand below the item leaves no cycle: the depths of the
item and of everything below it are raised above that of the parent. -/
theorem Acyclic.link [DecidableEq α] {parent? parent?' : α → Option α} {x p : α}
    (h : Acyclic parent?) (hnot : ¬ Below parent? x p)
    (hparent : ∀ y, parent?' y = if y = x then some p else parent? y) : Acyclic parent?' := by
  classical
  obtain ⟨depth, hdepth⟩ := h
  refine ⟨fun y => if Below parent? x y then depth y + depth p + 1 else depth y, ?_⟩
  intro c q hq
  rw [hparent] at hq
  beta_reduce
  by_cases hc : c = x
  · rw [if_pos hc] at hq
    cases hq
    subst hc
    rw [if_neg hnot, if_pos .self]
    omega
  · rw [if_neg hc] at hq
    have hlt := hdepth hq
    by_cases hbelow : Below parent? x q
    · rw [if_pos hbelow, if_pos (.step hq hbelow)]
      omega
    · have hbelow' : ¬ Below parent? x c := by
        intro hb
        cases hb with
        | self => exact hc rfl
        | step hq' habove =>
          rw [hq] at hq'
          cases hq'
          exact hbelow habove
      rw [if_neg hbelow, if_neg hbelow']
      exact hlt

/-! ## The way up -/

/-- The way up from an item ends. -/
theorem Acyclic.exists_reads {parent? : α → Option α} (h : Acyclic parent?) (x : α) :
    ∃ xs, Reads parent? (parent? x) xs ∧ (x :: xs).Nodup ∧
      ∀ y, Below parent? y x ↔ y ∈ x :: xs := by
  obtain ⟨depth, hdepth⟩ := id h
  induction hn : depth x using Nat.strongRecOn generalizing x with
  | ind n ih =>
    cases hp : parent? x with
    | none =>
      refine ⟨[], trivial, by simp, fun y => ⟨fun hy => ?_, fun hy => ?_⟩⟩
      · simp [hy.eq_of_parent?_eq_none hp]
      · obtain rfl : y = x := by simpa using hy
        exact .self
    | some p =>
      obtain ⟨xs, hreads, hnodup, hmem⟩ := ih (depth p) (hn ▸ hdepth hp) p rfl
      have hx : x ∉ p :: xs := fun hx => Below.not_parent h hp ((hmem x).2 hx)
      refine ⟨p :: xs, ⟨rfl, hreads⟩, List.nodup_cons.2 ⟨hx, hnodup⟩, fun y => ?_⟩
      rw [List.mem_cons, ← hmem y]
      constructor
      · intro hy
        cases hy with
        | self => exact .inl rfl
        | step hp' hy =>
          rw [hp] at hp'
          cases hp'
          exact .inr hy
      · rintro (rfl | hy)
        · exact .self
        · exact .step hp hy

/-- What is read on the way up stands above. -/
theorem Reads.below {parent? : α → Option α} {x y : α} {xs : List α}
    (h : Reads parent? (parent? x) xs) (hy : y ∈ xs) : Below parent? y x := by
  induction xs generalizing x with
  | nil => cases hy
  | cons z zs ih =>
    cases hp : parent? x with
    | none =>
      rw [hp] at h
      exact h.elim
    | some q =>
      rw [hp] at h
      obtain ⟨rfl, hrest⟩ := h
      obtain rfl | hy := List.mem_cons.1 hy
      · exact .step hp .self
      · exact .step hp (ih hrest hy)

/-! ## Outlines -/

/-- An item with everything below it, as a value. -/
inductive Outline (α : Type) where
  | node (top : α) (below : List (Outline α))

namespace Outline

/-- The item itself. -/
def top : Outline α → α
  | node a _ => a

mutual

/-- The item and everything below it, an item before what is below it. -/
def flatten : Outline α → List α
  | node a os => a :: flattenAll os

/-- What is in outlines, one after the other. -/
def flattenAll : List (Outline α) → List α
  | [] => []
  | o :: os => flatten o ++ flattenAll os

end

theorem flattenAll_eq_flatMap (os : List (Outline α)) : flattenAll os = os.flatMap flatten := by
  induction os with
  | nil => rfl
  | cons o os ih => rw [flattenAll, ih, List.flatMap_cons]

theorem flattenAll_append (os os' : List (Outline α)) :
    flattenAll (os ++ os') = flattenAll os ++ flattenAll os' := by
  simp [flattenAll_eq_flatMap]

theorem mem_flattenAll {os : List (Outline α)} {x : α} :
    x ∈ flattenAll os ↔ ∃ o ∈ os, x ∈ o.flatten := by
  simp [flattenAll_eq_flatMap]

theorem length_flatten_pos (o : Outline α) : 0 < o.flatten.length := by
  cases o
  simp [flatten]

theorem length_flatten_le_of_mem {o : Outline α} {os : List (Outline α)} (ho : o ∈ os) :
    o.flatten.length ≤ (flattenAll os).length := by
  induction os with
  | nil => cases ho
  | cons o' os ih =>
    rw [flattenAll, List.length_append]
    obtain rfl | hmem := List.mem_cons.1 ho
    · omega
    · have := ih hmem
      omega

/-- The outline follows a function that gives what is right below. -/
inductive Follows (kids : α → List α) : Outline α → Prop where
  | node {a : α} {os : List (Outline α)} (here : kids a = os.map top)
      (below : ∀ o ∈ os, Follows kids o) : Follows kids (node a os)

/-- A walk lists the outlines of the items that it begins with, up to its limit. -/
theorem walk_eq {kids : α → List α} (limit : Nat) (os : List (Outline α))
    (hos : ∀ o ∈ os, Follows kids o) :
    walk kids limit (os.map top) = (flattenAll os).take limit := by
  induction limit generalizing os with
  | zero => cases os <;> simp [walk]
  | succ limit ih =>
    cases os with
    | nil => simp [walk, flattenAll]
    | cons o os =>
      obtain ⟨hfirst, hrest⟩ := List.forall_mem_cons.1 hos
      cases hfirst with
      | @node a below hhere hbelow =>
        have hpending : walk kids limit (kids a ++ os.map top) =
            (flattenAll (below ++ os)).take limit := by
          rw [hhere, ← List.map_append]
          exact ih _ fun o ho => (List.mem_append.1 ho).elim (hbelow o) (hrest o)
        rw [List.map_cons, top, walk, hpending, flattenAll, flatten, flattenAll_append]
        rfl

/-- A walk that is allowed enough visits is a whole outline. -/
theorem walk_eq_flatten {kids : α → List α} {o : Outline α} (ho : o.Follows kids) {limit : Nat}
    (hlimit : o.flatten.length ≤ limit) : walk kids limit [o.top] = o.flatten := by
  have hwalk := Outline.walk_eq limit [o] (by simpa using ho)
  rw [List.map_singleton, Outline.flattenAll, Outline.flattenAll, List.append_nil,
    List.take_of_length_le hlimit] at hwalk
  exact hwalk

end Outline

/-! ## Forests -/

/-- What is right below each item is what says that the item is above it, and no way down
is endless. -/
structure Forest (kids : α → List α) (parent? : α → Option α) : Prop where
  mem : ∀ {p c}, c ∈ kids p ↔ parent? c = some p
  nodup : ∀ p, (kids p).Nodup
  acyclic : Acyclic parent?
  bounded : ∃ height : α → Nat, ∀ {c p}, parent? c = some p → height c < height p

namespace Forest

variable {kids : α → List α} {parent? : α → Option α}

/-- The items that are listed the other way round form a forest, too. -/
theorem mirror (h : Forest kids parent?) : Forest (fun p => (kids p).reverse) parent? where
  mem := by
    intro p c
    rw [List.mem_reverse]
    exact h.mem
  nodup p := List.nodup_reverse.2 (h.nodup p)
  acyclic := h.acyclic
  bounded := h.bounded

/-- Every item has an outline. -/
theorem exists_outline (h : Forest kids parent?) (x : α) :
    ∃ o : Outline α, o.top = x ∧ o.Follows kids := by
  obtain ⟨height, hheight⟩ := h.bounded
  induction hn : height x using Nat.strongRecOn generalizing x with
  | ind n ih =>
    have hbelow : ∀ cs : List α, (∀ c ∈ cs, parent? c = some x) →
        ∃ os : List (Outline α), cs = os.map Outline.top ∧ ∀ o ∈ os, o.Follows kids := by
      intro cs
      induction cs with
      | nil => exact fun _ => ⟨[], rfl, by simp⟩
      | cons c cs ihcs =>
        intro hcs
        obtain ⟨hc, hrest⟩ := List.forall_mem_cons.1 hcs
        obtain ⟨o, rfl, ho⟩ := ih (height c) (hn ▸ hheight hc) c rfl
        obtain ⟨os, rfl, hos⟩ := ihcs hrest
        exact ⟨o :: os, rfl, List.forall_mem_cons.2 ⟨ho, hos⟩⟩
    obtain ⟨os, hos, hfollows⟩ := hbelow (kids x) fun c hc => h.mem.1 hc
    exact ⟨.node x os, rfl, .node hos hfollows⟩

/-- An outline holds what stands below its top. -/
theorem mem_flatten (h : Forest kids parent?) {o : Outline α} (ho : o.Follows kids) {x : α} :
    x ∈ o.flatten ↔ Below parent? o.top x := by
  induction ho with
  | @node a os hhere _ ih =>
    have hparent : ∀ o ∈ os, parent? o.top = some a := fun o hmem =>
      h.mem.1 (hhere ▸ List.mem_map_of_mem hmem)
    rw [Outline.flatten, List.mem_cons, Outline.mem_flattenAll, Outline.top]
    constructor
    · rintro (rfl | ⟨o, hmem, hx⟩)
      · exact .self
      · exact Below.trans (.step (hparent o hmem) .self) ((ih o hmem).1 hx)
    · intro hx
      obtain rfl | ⟨c, hc, hbelow⟩ := hx.eq_or_below_child
      · exact .inl rfl
      · have hmem : c ∈ os.map Outline.top := hhere ▸ h.mem.2 hc
        obtain ⟨o, homem, rfl⟩ := List.mem_map.1 hmem
        exact .inr ⟨o, homem, (ih o homem).2 hbelow⟩

/-- No item is twice in an outline. -/
theorem nodup_flatten (h : Forest kids parent?) {o : Outline α} (ho : o.Follows kids) :
    o.flatten.Nodup := by
  induction ho with
  | @node a os hhere hbelow ih =>
    have hparent : ∀ o ∈ os, parent? o.top = some a := fun o hmem =>
      h.mem.1 (hhere ▸ List.mem_map_of_mem hmem)
    have hnodup : (os.map Outline.top).Nodup := hhere ▸ h.nodup a
    rw [Outline.flatten, List.nodup_cons]
    constructor
    · intro hmem
      obtain ⟨o, homem, ha⟩ := Outline.mem_flattenAll.1 hmem
      exact Below.not_parent h.acyclic (hparent o homem)
        ((h.mem_flatten (hbelow o homem)).1 ha)
    · clear hhere
      induction os with
      | nil => exact List.nodup_nil
      | cons o os ihos =>
        obtain ⟨hfirst, hrest⟩ := List.forall_mem_cons.1 hparent
        obtain ⟨hbfirst, hbrest⟩ := List.forall_mem_cons.1 hbelow
        obtain ⟨hifirst, hirest⟩ := List.forall_mem_cons.1 ih
        rw [List.map_cons, List.nodup_cons] at hnodup
        rw [Outline.flattenAll, List.nodup_append']
        refine ⟨hifirst, ihos hbrest hirest hrest hnodup.2, fun x hx hx' => ?_⟩
        obtain ⟨o', ho', hx'⟩ := Outline.mem_flattenAll.1 hx'
        have hne : o.top ≠ o'.top := fun heq =>
          hnodup.1 (heq ▸ List.mem_map_of_mem ho')
        exact Below.disjoint h.acyclic hfirst (hrest o' ho') hne
          ((h.mem_flatten hbfirst).1 hx) ((h.mem_flatten (hbrest o' ho')).1 hx')

end Forest

end XmlTree
