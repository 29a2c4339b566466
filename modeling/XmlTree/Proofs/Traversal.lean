/-
  Proofs/Traversal.lean --- a visit of a subtree is its walk, up to the first refusal.

  WHAT THIS FILE IS FOR.  A visitor is told about a node, about everything below it with
  depths, and about the end.  The visit steps along the links and counts the depth up and down
  as it goes.  Here it is said that the depths are the numbers of nodes between, that the
  visitor is told about the nodes in the order of the walk, each once, and that it is told
  nothing after its first refusal.

  CALLS.  What a visitor is told is a list of calls, which the tree alone decides.  A visitor
  is any function from calls and states to answers and states, so a statement about the state
  after some calls says which calls were made.
-/
import XmlTree.Proofs.DocumentOrder
import XmlTree.Proofs.Walks

set_option autoImplicit false

namespace XmlTree

namespace Document

/-! ## Calls -/

namespace Visitor

variable {σ : Type}

/-- One call of a part of a visitor. -/
inductive Call where
  | enter (id : NodeId)
  | visit (id : NodeId) (depth : Nat)
  | leave (id : NodeId)
  deriving DecidableEq, Repr

/-- What a visitor answers to a call, and its new state. -/
def answer (v : Visitor σ) : Call → σ → Bool × σ
  | .enter id => v.enter id
  | .visit id depth => v.visit id depth
  | .leave id => v.leave id

/-- The state after calls that are made one after the other, whatever is answered. -/
def after (v : Visitor σ) (calls : List Call) (s : σ) : σ :=
  calls.foldl (fun s call => (v.answer call s).2) s

/-- What is answered to calls that are made one after the other, whatever is answered. -/
def answers (v : Visitor σ) : List Call → σ → List Bool
  | [], _ => []
  | call :: calls, s => (v.answer call s).1 :: answers v calls (v.answer call s).2

/-- Makes calls one after the other until one is answered with a refusal. -/
def run (v : Visitor σ) : List Call → σ → Bool × σ
  | [], s => (true, s)
  | call :: calls, s =>
    match v.answer call s with
    | (true, s) => run v calls s
    | (false, s) => (false, s)

theorem run_append (v : Visitor σ) (calls calls' : List Call) (s : σ) :
    v.run (calls ++ calls') s =
      match v.run calls s with
      | (true, s) => v.run calls' s
      | (false, s) => (false, s) := by
  induction calls generalizing s with
  | nil => rfl
  | cons call calls ih =>
    rw [List.cons_append, run, run]
    rcases v.answer call s with ⟨_ | _, s'⟩
    · rfl
    · exact ih s'

theorem run_singleton (v : Visitor σ) (call : Call) (s : σ) : v.run [call] s = v.answer call s := by
  rw [run]
  rcases v.answer call s with ⟨_ | _, s'⟩
  · rfl
  · rfl

/-- Without a refusal all calls are made. -/
theorem run_eq_true (v : Visitor σ) {calls : List Call} {s : σ}
    (hall : ∀ answer ∈ v.answers calls s, answer = true) :
    v.run calls s = (true, v.after calls s) := by
  induction calls generalizing s with
  | nil => rfl
  | cons call calls ih =>
    rw [answers] at hall
    obtain ⟨hfirst, hrest⟩ := List.forall_mem_cons.1 hall
    rw [run, after, List.foldl_cons]
    rcases hanswer : v.answer call s with ⟨_ | _, s'⟩
    · rw [hanswer] at hfirst
      cases hfirst
    · rw [hanswer] at hrest
      exact ih hrest

/-- The first refusal is the answer to the last call that is made. -/
theorem run_eq_false (v : Visitor σ) {calls : List Call} {s : σ} {k : Nat}
    (hfirst : (v.answers calls s).idxOf? false = some k) :
    v.run calls s = (false, v.after (calls.take (k + 1)) s) := by
  induction calls generalizing s k with
  | nil => cases hfirst
  | cons call calls ih =>
    rw [answers, List.idxOf?_cons] at hfirst
    rw [run, List.take_succ_cons, after, List.foldl_cons]
    rcases hanswer : v.answer call s with ⟨_ | _, s'⟩
    · rw [hanswer] at hfirst
      obtain rfl : 0 = k := by simpa using hfirst
      rfl
    · rw [hanswer] at hfirst
      obtain ⟨j, hj, rfl⟩ : ∃ j, (v.answers calls s').idxOf? false = some j ∧ j + 1 = k := by
        simpa using hfirst
      exact ih hj

end Visitor

/-! ## Depths -/

variable {doc : Document} {lay : Layout} {top p x y : NodeId} {σ : Type}

/-- The nodes between a node and one above it, the nearest to the node first. -/
def between (doc : Document) (top id : NodeId) : List NodeId :=
  (doc.ancestors id).takeWhile (· ≠ top)

/-- The number of nodes between a node and one above it. -/
def depthBelow (doc : Document) (top id : NodeId) : Nat := (doc.between top id).length

/-- What a visitor is told about a subtree, unless it refuses. -/
def calls (doc : Document) (id : NodeId) : List Visitor.Call :=
  .enter id :: (doc.descendants id).map (fun x => .visit x (doc.depthBelow id x)) ++ [.leave id]

/-- One node more is between when the parent is not the top. -/
theorem LaidOut.between_eq (h : LaidOut doc lay) (hp : doc.parent? x = some p) :
    doc.between top x = if p = top then [] else p :: doc.between top p := by
  rw [between, h.ancestors_eq_cons hp, List.takeWhile_cons]
  by_cases hptop : p = top
  · simp [hptop]
  · simp [hptop, between]

theorem LaidOut.depthBelow_eq (h : LaidOut doc lay) (hp : doc.parent? x = some p) :
    doc.depthBelow top x = if p = top then 0 else doc.depthBelow top p + 1 := by
  rw [depthBelow, h.between_eq hp]
  split
  · rfl
  · rfl

/-- Two nodes are not below each other. -/
theorem LaidOut.eq_of_below (h : LaidOut doc lay) (hxy : Below doc.parent? x y)
    (hyx : Below doc.parent? y x) : x = y := by
  cases hxy with
  | self => rfl
  | step hp hbelow => exact absurd (hyx.trans hbelow) (Below.not_parent h.acyclic hp)

/-- What is between a node and one above it is below the one and above the other. -/
theorem LaidOut.mem_between (h : LaidOut doc lay) (hx : Below doc.parent? top x)
    (hne : x ≠ top) : y ∈ doc.between top x ↔
      (y ≠ top ∧ Below doc.parent? top y) ∧ y ≠ x ∧ Below doc.parent? y x := by
  induction hx with
  | self => exact absurd rfl hne
  | @step c p hp hbelow ih =>
    have hnotc : ¬ Below doc.parent? c p := Below.not_parent h.acyclic hp
    -- above the child stand the parent and what is above that
    have habove : (y ≠ c ∧ Below doc.parent? y c) ↔ Below doc.parent? y p := by
      constructor
      · rintro ⟨hyc, hyc' | ⟨hp', hyp⟩⟩
        · exact absurd rfl hyc
        · rw [hp] at hp'
          cases hp'
          exact hyp
      · intro hyp
        exact ⟨fun heq => hnotc (heq ▸ hyp), .step hp hyp⟩
    rw [h.between_eq hp, habove]
    by_cases hptop : p = top
    · subst hptop
      rw [if_pos rfl]
      constructor
      · intro hy
        cases hy
      · rintro ⟨⟨hytop, hy⟩, hyp⟩
        exact absurd (h.eq_of_below hyp hy) hytop
    · rw [if_neg hptop, List.mem_cons, ih hptop]
      constructor
      · rintro (rfl | ⟨hy, -, hyp⟩)
        · exact ⟨⟨hptop, hbelow⟩, .self⟩
        · exact ⟨hy, hyp⟩
      · rintro ⟨hy, hyp⟩
        by_cases hyp' : y = p
        · exact .inl hyp'
        · exact .inr ⟨hy, hyp', hyp⟩

theorem LaidOut.between_nodup (h : LaidOut doc lay) (hx : doc.contains x = true) :
    (doc.between top x).Nodup := by
  obtain ⟨-, hnodup, -⟩ := h.reads_ancestors hx
  exact (List.nodup_cons.1 hnodup).2.sublist (List.takeWhile_sublist _)

/-! ## The steps with their depths -/

namespace LaidOut

/-- What is below a node is what stands below it in the tree and is not the node itself. -/
theorem mem_descendants (h : LaidOut doc lay) (htop : doc.contains top = true) :
    x ∈ doc.descendants top ↔ x ≠ top ∧ Below doc.parent? top x := by
  have hnodup := h.subtree_nodup htop
  have hmem := h.mem_subtree (x := x) htop
  rw [h.subtree_eq htop] at hnodup hmem
  rw [← hmem, List.mem_cons]
  constructor
  · intro hx
    exact ⟨fun heq => (List.nodup_cons.1 hnodup).1 (heq ▸ hx), .inr hx⟩
  · rintro ⟨hne, rfl | hx⟩
    · exact absurd rfl hne
    · exact hx

/-- Counting down while climbing gives the depth of the node where the walk goes on. -/
theorem resumeVisit?_eq (h : LaidOut doc lay) (limit : Nat) (hx : Below doc.parent? top x) :
    doc.resumeVisit? top limit x (doc.depthBelow top x) =
      (doc.resume? top limit x).map fun y => (y, doc.depthBelow top y) := by
  induction limit generalizing x with
  | zero => rfl
  | succ limit ih =>
    rw [resumeVisit?, resume?]
    cases hx with
    | self => rw [if_pos rfl, if_pos rfl, Option.map_none]
    | @step _ p hp hbelow =>
      have hne : x ≠ top := fun heq => Below.not_parent h.acyclic hp (heq ▸ hbelow)
      rw [if_neg hne, if_neg hne]
      cases hnext : doc.nextSibling? x with
      | some y =>
        simp only [Option.map_some]
        rw [h.depthBelow_eq hp, h.depthBelow_eq (h.parent?_nextSibling hp hnext)]
      | none =>
        simp only [hp]
        by_cases hptop : p = top
        · rw [if_pos hptop, if_pos hptop, Option.map_none]
        · rw [if_neg hptop, if_neg hptop, ← ih hbelow, h.depthBelow_eq hp, if_neg hptop,
            Nat.add_sub_cancel]

/-- The visit steps from node to node as the walk does, with the depths of the nodes. -/
theorem nextVisit?_eq (h : LaidOut doc lay) (hx : Below doc.parent? top x) (hne : x ≠ top) :
    doc.nextVisit? top (x, doc.depthBelow top x) =
      (doc.nextBelow? top x).map fun y => (y, doc.depthBelow top y) := by
  rw [nextVisit?, nextBelow?]
  cases hfirst : doc.firstChild? x with
  | some c =>
    have hmem : c ∈ doc.children x := List.mem_of_head? (h.firstChild?_eq_head? x ▸ hfirst)
    rw [Option.map_some, h.depthBelow_eq (h.mem_children.1 hmem), if_neg hne]
  | none => exact h.resumeVisit?_eq doc.walkLimit hx

/-- The visit begins where the walk does, at depth zero. -/
theorem firstVisit?_eq (h : LaidOut doc lay) (top : NodeId) : doc.firstVisit? top =
    (doc.firstChild? top).map fun y => (y, doc.depthBelow top y) := by
  rw [firstVisit?]
  cases hfirst : doc.firstChild? top with
  | some c =>
    have hmem : c ∈ doc.children top := List.mem_of_head? (h.firstChild?_eq_head? top ▸ hfirst)
    rw [Option.map_some, Option.map_some, h.depthBelow_eq (h.mem_children.1 hmem), if_pos rfl]
  | none => rfl

/-- What is below a node is fewer nodes than a walk may visit. -/
theorem length_descendants_le (h : LaidOut doc lay) (htop : doc.contains top = true) :
    (doc.descendants top).length ≤ doc.walkLimit := by
  have hsubtree := length_le_walkLimit (h.subtree_nodup htop) fun x hx =>
    contains_of_below ((h.mem_subtree htop).1 hx) htop
  rw [h.subtree_eq htop, List.length_cons] at hsubtree
  exact Nat.le_of_succ_le hsubtree

/-- The visit reads what is below a node, with the depths. -/
theorem reads_visits (h : LaidOut doc lay) (htop : doc.contains top = true) :
    Reads (doc.nextVisit? top) (doc.firstVisit? top)
      ((doc.descendants top).map fun x => (x, doc.depthBelow top x)) := by
  rw [h.firstVisit?_eq]
  refine (h.reads_descendants htop).map fun x hx => ?_
  obtain ⟨hne, hbelow⟩ := (h.mem_descendants htop).1 hx
  exact h.nextVisit?_eq hbelow hne

theorem descendantsWithDepth_eq (h : LaidOut doc lay) (htop : doc.contains top = true) :
    doc.descendantsWithDepth top =
      (doc.descendants top).map fun x => (x, doc.depthBelow top x) := by
  refine chain_eq_of_reads (h.reads_visits htop) ?_
  rw [List.length_map]
  exact h.length_descendants_le htop

end LaidOut

/-! ## Visiting -/

/-- Stepping from visit to visit makes the calls of what is read. -/
theorem visitFrom_eq_run (v : Visitor σ) {limit : Nat} {start : Option (NodeId × Nat)}
    {visits : List (NodeId × Nat)} (s : σ) (hreads : Reads (doc.nextVisit? top) start visits)
    (hlimit : visits.length ≤ limit) :
    doc.visitFrom top v limit start s = v.run (visits.map fun x => .visit x.1 x.2) s := by
  induction visits generalizing start limit s with
  | nil =>
    obtain rfl : start = none := hreads.head?
    cases limit <;> rfl
  | cons visit visits ih =>
    obtain ⟨x, depth⟩ := visit
    cases start with
    | none => exact hreads.elim
    | some a =>
      obtain ⟨rfl, hrest⟩ := hreads
      cases limit with
      | zero => exact absurd hlimit (Nat.not_succ_le_zero _)
      | succ limit =>
        rw [visitFrom, List.map_cons, Visitor.run, Visitor.answer]
        rcases v.visit x depth s with ⟨_ | _, s'⟩
        · rfl
        · exact ih s' hrest (Nat.le_of_succ_le_succ hlimit)

/-- A visit of a subtree makes its calls until one is refused. -/
theorem LaidOut.traverse_eq_run (h : LaidOut doc lay) (htop : doc.contains top = true)
    (v : Visitor σ) (s : σ) : doc.traverse top v s = v.run (doc.calls top) s := by
  have hlength := h.length_descendants_le htop
  have hvisits : ∀ s, doc.visitFrom top v doc.walkLimit (doc.firstVisit? top) s =
      v.run ((doc.descendants top).map fun x => .visit x (doc.depthBelow top x)) s := by
    intro s
    rw [visitFrom_eq_run v s (h.reads_visits htop) (by rwa [List.length_map]), List.map_map]
    rfl
  rw [traverse, calls, List.cons_append, Visitor.run, Visitor.answer]
  rcases v.enter top s with ⟨_ | _, s'⟩
  · rfl
  · simp only [hvisits, Visitor.run_append, Visitor.run_singleton]
    rcases v.run _ s' with ⟨_ | _, s''⟩
    · rfl
    · rfl

/-- The walks below a node that step along the links are the walk through its tree, and a
visitor is told about what they list. -/
structure WalksInOrder (doc : Document) (id : NodeId) : Prop where
  /-- an item comes before what is below it, and what is below one child before the next -/
  preorder : ∃ o : Outline NodeId, o.top = id ∧ o.Follows doc.children ∧
    o.flatten = id :: doc.descendants id
  nodup : (doc.descendants id).Nodup
  mem : ∀ x, x ∈ doc.descendants id ↔ x ≠ id ∧ Below doc.parent? id x
  /-- the steps lead through the list and then end -/
  steps : Reads (doc.nextBelow? id) (doc.firstChild? id) (doc.descendants id)
  /-- the depths that a visitor is told count the nodes between -/
  between : ∀ x ∈ doc.descendants id, (doc.between id x).Nodup ∧ ∀ y,
    y ∈ doc.between id x ↔ (y ≠ id ∧ Below doc.parent? id y) ∧ y ≠ x ∧ Below doc.parent? y x
  depths : doc.descendantsWithDepth id =
    (doc.descendants id).map fun x => (x, doc.depthBelow id x)
  /-- the first calls are about the node and then about the first nodes of the list -/
  calls : ∀ k ≤ (doc.descendants id).length, (doc.calls id).take (k + 1) =
    .enter id :: ((doc.descendants id).take k).map fun x => .visit x (doc.depthBelow id x)
  /-- without a refusal all calls are made -/
  completed : ∀ {σ : Type} (v : Visitor σ) (s : σ),
    (∀ answer ∈ v.answers (doc.calls id) s, answer = true) →
      doc.traverse id v s = (true, v.after (doc.calls id) s)
  /-- the first refusal is the answer to the last call that is made -/
  stopped : ∀ {σ : Type} (v : Visitor σ) (s : σ) (k : Nat),
    (v.answers (doc.calls id) s).idxOf? false = some k →
      doc.traverse id v s = (false, v.after ((doc.calls id).take (k + 1)) s)

theorem LaidOut.walksInOrder (h : LaidOut doc lay) (hx : doc.contains x = true) :
    WalksInOrder doc x where
  preorder := by
    obtain ⟨o, rfl, ho⟩ := h.forest.exists_outline x
    exact ⟨o, rfl, ho, by rw [← h.subtree_eq hx, h.subtree_eq_flatten ho hx]⟩
  nodup := by
    have hnodup := h.subtree_nodup hx
    rw [h.subtree_eq hx] at hnodup
    exact (List.nodup_cons.1 hnodup).2
  mem _ := h.mem_descendants hx
  steps := h.reads_descendants hx
  between y hy := by
    obtain ⟨hne, hbelow⟩ := (h.mem_descendants hx).1 hy
    exact ⟨h.between_nodup (contains_of_below hbelow hx), fun z => h.mem_between hbelow hne⟩
  depths := h.descendantsWithDepth_eq hx
  calls k hk := by
    rw [Document.calls, List.cons_append, List.take_succ_cons,
      List.take_append_of_le_length (by rwa [List.length_map]), List.map_take]
  completed v s hall := by
    rw [h.traverse_eq_run hx, v.run_eq_true hall]
  stopped v s k hfirst := by
    rw [h.traverse_eq_run hx, v.run_eq_false hfirst]

/-- Whatever was done to a document, stepping along the links below a node is the walk through
its tree, and visiting it tells the visitor about that walk until it refuses. -/
theorem reachable_walksInOrder (h : Reachable doc) (hx : doc.contains x = true) :
    WalksInOrder doc x := by
  obtain ⟨lay, hrooted⟩ := h.whole
  exact hrooted.toLaidOut.walksInOrder hx

/-- An element whose last child holds another one, and a sibling after it. -/
def branches : List Change :=
  [.insertElement ⟨⟨0, 1⟩⟩ "r" .last, .insertElement ⟨⟨1, 1⟩⟩ "a" .last,
    .insertElement ⟨⟨1, 1⟩⟩ "e" .last, .insertElement ⟨⟨2, 1⟩⟩ "b" .last,
    .insertElement ⟨⟨2, 1⟩⟩ "c" .last, .insertElement ⟨⟨5, 1⟩⟩ "d" .last]

/-- The walk below the element ends before its sibling. -/
theorem walksInOrder_branches :
    (new.applyAll branches).nextSibling? ⟨⟨2, 1⟩⟩ = some ⟨⟨3, 1⟩⟩ ∧
      (new.applyAll branches).calls ⟨⟨2, 1⟩⟩ =
        [.enter ⟨⟨2, 1⟩⟩, .visit ⟨⟨4, 1⟩⟩ 0, .visit ⟨⟨5, 1⟩⟩ 0, .visit ⟨⟨6, 1⟩⟩ 1,
          .leave ⟨⟨2, 1⟩⟩] ∧
      WalksInOrder (new.applyAll branches) ⟨⟨2, 1⟩⟩ := by
  refine ⟨by decide +kernel, by decide +kernel, ?_⟩
  exact reachable_walksInOrder (Reachable.new.applyAll (by decide)) (by decide +kernel)

end Document

end XmlTree
