/-
  Proofs/Outline.lean --- how outlines change.

  WHAT THIS FILE IS FOR.  When what is right below items changes, the walk through the
  tree changes with it.  Two changes matter for document order.  If every item keeps some
  of what was below it, in the same order, the walk is part of the walk before.  If one
  item is added at the very end, the walk gets that item at its end.

  THE VERY END.  The spine of an outline leads from its top to the last item below it, to
  the last item below that one, and so on.  What is added at the end of the items below an
  item of the spine comes last in the walk.
-/
import XmlTree.Proofs.Forest

set_option autoImplicit false

namespace XmlTree

variable {α : Type}

namespace Outline

variable {kids kids' : α → List α} {o o' : Outline α}

theorem flatten_subset_flattenAll {os : List (Outline α)} (ho : o ∈ os) :
    o.flatten ⊆ flattenAll os := fun _ hx => mem_flattenAll.2 ⟨o, ho, hx⟩

/-- Only what is below the items of an outline matters for it. -/
theorem Follows.congr (h : o.Follows kids) (hsame : ∀ x ∈ o.flatten, kids' x = kids x) :
    o.Follows kids' := by
  induction h with
  | @node a os hhere _ ih =>
    refine .node ((hsame a (by simp [flatten])).trans hhere) fun o ho => ih o ho fun x hx => ?_
    exact hsame x (by
      rw [flatten]
      exact List.mem_cons_of_mem a (flatten_subset_flattenAll ho hx))

/-! ## Less below every item -/

/-- The outlines of some of the items, where each has become part of what it was. -/
theorem flattenAll_sublist {os os' : List (Outline α)}
    (htops : (os'.map top).Sublist (os.map top))
    (hpart : ∀ o ∈ os, ∀ o' ∈ os', o'.top = o.top → o'.flatten.Sublist o.flatten) :
    (flattenAll os').Sublist (flattenAll os) := by
  induction os generalizing os' with
  | nil =>
    cases os' with
    | nil => exact .slnil
    | cons o' os' => simp at htops
  | cons o os ih =>
    cases os' with
    | nil => exact List.nil_sublist _
    | cons o' os' =>
      rw [List.map_cons, List.map_cons, List.cons_sublist_cons'] at htops
      obtain htops | ⟨htop, htops⟩ := htops
      · have hrest : (flattenAll (o' :: os')).Sublist (flattenAll os) :=
          ih (by rwa [List.map_cons]) fun p hp => hpart p (by simp [hp])
        rw [flattenAll.eq_2 o os]
        exact hrest.trans (List.sublist_append_right _ _)
      · rw [flattenAll, flattenAll]
        exact (hpart o (by simp) o' (by simp) htop).append
          (ih htops fun p hp q hq => hpart p (by simp [hp]) q (by simp [hq]))

/-- If every item keeps some of what was below it, an outline becomes part of what it
was. -/
theorem Follows.flatten_sublist (ho : o.Follows kids) (ho' : o'.Follows kids')
    (htop : o'.top = o.top) (hsub : ∀ x, (kids' x).Sublist (kids x)) :
    o'.flatten.Sublist o.flatten := by
  induction ho generalizing o' with
  | @node a os hhere _ ih =>
    cases ho' with
    | @node a' os' hhere' hbelow' =>
      obtain rfl : a' = a := htop
      have htops : (os'.map top).Sublist (os.map top) := by
        rw [← hhere, ← hhere']
        exact hsub a'
      rw [flatten, flatten]
      exact (flattenAll_sublist htops fun o ho o' ho' heq =>
        ih o ho (hbelow' o' ho') heq).cons_cons a'

/-! ## One more item at the end -/

/-- The item is the top, or on the spine of the last outline below. -/
inductive OnSpine : Outline α → α → Prop where
  | top {a : α} {os : List (Outline α)} : OnSpine (node a os) a
  | last {a x : α} {os : List (Outline α)} {o : Outline α} (h : OnSpine o x) :
      OnSpine (node a (os ++ [o])) x

theorem OnSpine.mem_flatten {x : α} (h : OnSpine o x) : x ∈ o.flatten := by
  induction h with
  | top => simp [flatten]
  | @last a x os o _ ih =>
    rw [flatten]
    exact List.mem_cons_of_mem _ (flatten_subset_flattenAll (by simp) ih)

/-- What is right above an item of the spine is on the spine. -/
theorem OnSpine.exists_above {x : α} (h : OnSpine o x) (ho : o.Follows kids)
    (hne : x ≠ o.top) : ∃ y, x ∈ kids y ∧ OnSpine o y := by
  induction h with
  | top => exact absurd rfl hne
  | @last a x os o hspine ih =>
    cases ho with
    | node hhere hbelow =>
      by_cases hx : x = o.top
      · refine ⟨a, ?_, .top⟩
        rw [hhere, hx]
        simp
      · obtain ⟨y, hy, hyspine⟩ := ih (hbelow o (by simp)) hx
        exact ⟨y, hy, .last hyspine⟩

/-- An item that is new gets added at the end of the items below an item of the spine. -/
theorem OnSpine.push {x n : α} (h : OnSpine o x) (ho : o.Follows kids)
    (hnodup : o.flatten.Nodup) (hx : kids' x = kids x ++ [n]) (hn : kids' n = [])
    (hother : ∀ y ∈ o.flatten, y ≠ x → kids' y = kids y) :
    ∃ o', o'.top = o.top ∧ o'.Follows kids' ∧ o'.flatten = o.flatten ++ [n] ∧
      OnSpine o' x ∧ OnSpine o' n := by
  have hleaf : (node n []).Follows kids' := .node hn (by simp)
  induction h with
  | @top a os =>
    cases ho with
    | node hhere hbelow =>
      rw [flatten, List.nodup_cons] at hnodup
      refine ⟨node a (os ++ [node n []]), rfl, ?_, ?_, .top, .last .top⟩
      · refine .node (by simp [hx, hhere, Outline.top]) fun o hmem => ?_
        obtain hmem | hmem := List.mem_append.1 hmem
        · refine (hbelow o hmem).congr fun y hy => hother y ?_ ?_
          · rw [flatten]
            exact List.mem_cons_of_mem _ (flatten_subset_flattenAll hmem hy)
          · rintro rfl
            exact hnodup.1 (flatten_subset_flattenAll hmem hy)
        · rw [List.mem_singleton.1 hmem]
          exact hleaf
      · simp [flatten, flattenAll, flattenAll_append]
  | @last a x os o hspine ih =>
    cases ho with
    | node hhere hbelow =>
      rw [flatten, flattenAll_append, flattenAll, flattenAll, List.append_nil] at hnodup
      obtain ⟨ha, hrest⟩ := List.nodup_cons.1 hnodup
      obtain ⟨_, hlast, hdisjoint⟩ := List.nodup_append'.1 hrest
      have hxmem : x ∈ o.flatten := hspine.mem_flatten
      have hmemo : ∀ y ∈ o.flatten, y ∈ (node a (os ++ [o])).flatten := fun y hy => by
        rw [flatten]
        exact List.mem_cons_of_mem _ (flatten_subset_flattenAll (by simp) hy)
      obtain ⟨o', htop, hfollows, hflatten, hspinex, hspinen⟩ :=
        ih (hbelow o (by simp)) hlast hx fun y hy => hother y (hmemo y hy)
      refine ⟨node a (os ++ [o']), rfl, ?_, ?_, .last hspinex, .last hspinen⟩
      · have hax : a ≠ x := by
          rintro rfl
          exact ha (List.mem_append_right _ hxmem)
        have hkids : kids' a = kids a := hother a (by simp [flatten]) hax
        refine .node (by simp [hkids, hhere, htop]) fun p hmem => ?_
        obtain hmem | hmem := List.mem_append.1 hmem
        · refine (hbelow p (by simp [hmem])).congr fun y hy => hother y ?_ ?_
          · rw [flatten]
            exact List.mem_cons_of_mem _ (flatten_subset_flattenAll (by simp [hmem]) hy)
          · rintro rfl
            exact hdisjoint (flatten_subset_flattenAll hmem hy) hxmem
        · rw [List.mem_singleton.1 hmem]
          exact hfollows
      · simp [flatten, flattenAll, flattenAll_append, hflatten]

end Outline

end XmlTree
