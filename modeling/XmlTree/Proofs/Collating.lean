/-
  Proofs/Collating.lean --- sorting has one answer for each set of nodes.

  WHAT THIS FILE IS FOR.  Sorting drops only repetitions that stand side by side.  That gets
  rid of all of them because no two nodes have the same key: of two nodes and attributes that
  are there, each with its owner, one has the lesser key.  So a sorted set is the part of the
  sequence of the document that it had, whatever order, repetitions and tag it came with, and
  backwards it is the same list read from its end.

  UNIONS.  What a union answers depends on the order of its operands, on how several unions
  are put together, and on what is given to it twice; what is in it does not.  Sorted, it is
  the same list.
-/
import XmlTree.Proofs.Equivariance

set_option autoImplicit false

namespace XmlTree

open Document

/-! ## Dropping repetitions -/

theorem mem_dropRepeats {α : Type} [DecidableEq α] {l : List α} {x : α} :
    x ∈ dropRepeats l ↔ x ∈ l := by
  induction l with
  | nil => rfl
  | cons a l ih =>
    cases l with
    | nil => rfl
    | cons b rest =>
      rw [dropRepeats]
      split
      · rename_i heq
        rw [ih, heq]
        simp
      · rw [List.mem_cons, ih, List.mem_cons (a := x) (b := a)]

/-- In a list where each member equals or precedes every later one, the repetitions of a
member stand side by side; without them each member precedes every later one. -/
theorem pairwise_dropRepeats {α : Type} [DecidableEq α] {before : α → α → Prop} {l : List α}
    (hasymm : ∀ a ∈ l, ∀ b ∈ l, before a b → ¬ before b a)
    (h : l.Pairwise fun a b => b = a ∨ before a b) : (dropRepeats l).Pairwise before := by
  induction l with
  | nil => exact List.Pairwise.nil
  | cons a l ih =>
    cases l with
    | nil => exact List.pairwise_singleton before a
    | cons b rest =>
      obtain ⟨ha, hrest⟩ := List.pairwise_cons.1 h
      have hrepeats := ih (fun x hx y hy => hasymm x (List.mem_cons_of_mem a hx) y
        (List.mem_cons_of_mem a hy)) hrest
      rw [dropRepeats]
      split
      · exact hrepeats
      · rename_i hne
        have hab : before a b := (ha b List.mem_cons_self).resolve_left (Ne.symm hne)
        have hba := hasymm a List.mem_cons_self b (by simp) hab
        refine List.pairwise_cons.2 ⟨fun x hx => ?_, hrepeats⟩
        have hx := mem_dropRepeats.1 hx
        refine (ha x hx).resolve_left fun heq => ?_
        -- a second `a` after `b` would have to come after `b` itself
        subst heq
        obtain heq | hx := List.mem_cons.1 hx
        · exact hne heq
        · obtain heq | hbx := (List.pairwise_cons.1 hrest).1 x hx
          · exact hne heq
          · exact hba hbx

/-! ## The part of the sequence -/

namespace Document

variable {doc : Document} {lay : Layout}

/-- The nodes and attributes of a list in document order, each of them once. -/
def inOrder (doc : Document) (nodes : List QueryNode) : List QueryNode :=
  doc.sequence.filter fun n => decide (n ∈ nodes)

/-- Lists with the same members have the same part of the sequence. -/
theorem inOrder_congr {l l' : List QueryNode} (h : ∀ n, n ∈ l ↔ n ∈ l') :
    doc.inOrder l = doc.inOrder l' := by
  simp only [inOrder, h]

namespace Rooted

theorem mem_inOrder (h : Rooted doc lay) {nodes : List QueryNode}
    (hlive : ∀ n ∈ nodes, doc.Live n) {n : QueryNode} : n ∈ doc.inOrder nodes ↔ n ∈ nodes := by
  simp only [inOrder, List.mem_filter, decide_eq_true_eq, h.mem_sequence]
  exact ⟨And.right, fun hn => ⟨hlive n hn, hn⟩⟩

/-- What sorting lists before it turns the list around. -/
theorem dropRepeats_sorted (h : Rooted doc lay) (htimely : Timely doc) {nodes : List QueryNode}
    (hlive : ∀ n ∈ nodes, doc.Live n) :
    dropRepeats (((nodes.map fun n => (doc.order.key n, n)).mergeSort
      fun a b => a.1.le b.1).map Prod.snd) = doc.inOrder nodes := by
  obtain ⟨hperm, hle⟩ := sorted_by_key doc.order.key nodes
  generalize (((nodes.map fun n => (doc.order.key n, n)).mergeSort
    fun a b => a.1.le b.1).map Prod.snd) = sorted at hperm hle ⊢
  have hthere : ∀ n ∈ sorted, doc.Live n := fun n hn => hlive n (hperm.mem_iff.1 hn)
  have hincreasing : (dropRepeats sorted).Pairwise doc.Precedes := by
    refine pairwise_dropRepeats (fun a _ b _ => h.not_precedes_of_precedes htimely) ?_
    exact hle.imp_of_mem fun {a b} ha hb hab =>
      (h.key_le_iff htimely (hthere a ha) (hthere b hb)).1 hab
  have hsequence : (doc.inOrder nodes).Pairwise doc.Precedes :=
    pairwise_precedes List.filter_sublist
  have hnodup {l : List QueryNode} (hl : l.Pairwise doc.Precedes) : l.Nodup := by
    refine hl.imp fun {a b} hab => ?_
    rintro rfl
    exact h.not_precedes_self a hab
  have hmembers : (dropRepeats sorted).Perm (doc.inOrder nodes) := by
    rw [List.perm_ext_iff_of_nodup (hnodup hincreasing) (hnodup hsequence)]
    intro n
    rw [mem_dropRepeats, hperm.mem_iff, h.mem_inOrder hlive]
  refine hmembers.eq_of_pairwise (fun a b _ _ hab hba => ?_) hincreasing hsequence
  exact absurd hba (h.not_precedes_of_precedes htimely hab)

/-- Sorting nodes that are there lists the part of the sequence that they are. -/
theorem sort_eq (h : Rooted doc lay) (htimely : Timely doc) {s : NodeSet}
    (hlive : ∀ n ∈ s.nodes, doc.Live n) (backwards : Bool) :
    s.sort doc.order backwards =
      if backwards then ⟨(doc.inOrder s.nodes).reverse, .reverse⟩
      else ⟨doc.inOrder s.nodes, .sorted⟩ := by
  rw [NodeSet.sort, h.dropRepeats_sorted htimely hlive]

/-- Two sets of nodes that are there are sorted alike if they have the same members. -/
theorem sort_congr (h : Rooted doc lay) (htimely : Timely doc) {s t : NodeSet}
    (hlive : ∀ n ∈ s.nodes, doc.Live n) (hmem : ∀ n, n ∈ s.nodes ↔ n ∈ t.nodes)
    (backwards : Bool) : s.sort doc.order backwards = t.sort doc.order backwards := by
  rw [h.sort_eq htimely hlive, h.sort_eq htimely fun n hn => hlive n ((hmem n).2 hn),
    inOrder_congr hmem]

end Rooted

end Document

/-! ## Unions -/

theorem NodeSet.mem_union {s t : NodeSet} {n : QueryNode} :
    n ∈ (s.union t).nodes ↔ n ∈ s.nodes ∨ n ∈ t.nodes := by
  rw [union, mem_firstOccurrences, List.mem_append]
  simp

namespace Expr

/-- The nodes that an expression answers at a place, in document order or backwards. -/
def sortedNodes (doc : Document) (values : VariableStore) (ctx : Context) (backwards : Bool)
    (e : Expr) : NodeSet :=
  (e.eval ⟨doc.order, values⟩ ctx).toNodeSet.sort doc.order backwards

theorem mem_eval_union {env : Environment} {ctx : Context} {a b : Expr} {n : QueryNode} :
    n ∈ ((binary .union a b).eval env ctx).toNodeSet.nodes
      ↔ n ∈ (a.eval env ctx).toNodeSet.nodes ∨ n ∈ (b.eval env ctx).toNodeSet.nodes := by
  rw [eval_binary]
  exact NodeSet.mem_union

end Expr

namespace Document

variable {doc : Document}

/-- Sorting has one answer. -/
structure Collates (doc : Document) : Prop where
  /-- In document order: what is listed is the part of the sequence that the set has, each
  node before all later ones and none but those of the set. -/
  forwards : ∀ s : NodeSet, (∀ n ∈ s.nodes, doc.Live n) →
    s.sort doc.order false = ⟨doc.inOrder s.nodes, .sorted⟩
  increasing : ∀ s : NodeSet, (∀ n ∈ s.nodes, doc.Live n) →
    (s.sort doc.order false).nodes.Pairwise doc.Precedes
      ∧ ∀ n, n ∈ (s.sort doc.order false).nodes ↔ n ∈ s.nodes
  /-- Backwards it is the same list from its end. -/
  backwards : ∀ s : NodeSet, (∀ n ∈ s.nodes, doc.Live n) →
    s.sort doc.order true = ⟨(s.sort doc.order false).nodes.reverse, .reverse⟩
  /-- Unions of expressions without variables, at no node or at one that is there, are sorted
  alike in either order of their operands, -/
  union_comm : ∀ (values : VariableStore) (ctx : Context) (back : Bool) (a b : Expr),
    (ctx.node = .null ∨ doc.Live ctx.node) → a.refs = [] → b.refs = [] →
      (Expr.binary .union a b).sortedNodes doc values ctx back
        = (Expr.binary .union b a).sortedNodes doc values ctx back
  /-- however they are put together, -/
  union_assoc : ∀ (values : VariableStore) (ctx : Context) (back : Bool) (a b c : Expr),
    (ctx.node = .null ∨ doc.Live ctx.node) → a.refs = [] → b.refs = [] → c.refs = [] →
      (Expr.binary .union (.binary .union a b) c).sortedNodes doc values ctx back
        = (Expr.binary .union a (.binary .union b c)).sortedNodes doc values ctx back
  /-- and with an operand given twice like the operand. -/
  union_self : ∀ (values : VariableStore) (ctx : Context) (back : Bool) (a : Expr),
    (ctx.node = .null ∨ doc.Live ctx.node) → a.refs = [] →
      (Expr.binary .union a a).sortedNodes doc values ctx back
        = a.sortedNodes doc values ctx back

/-- Whatever was done to a document, sorting has one answer. -/
theorem reachable_collates (hdoc : Reachable doc) : Collates doc := by
  obtain ⟨lay, hrooted⟩ := hdoc.whole
  have htimely := hdoc.timely
  have hlive (values : VariableStore) (ctx : Context) (e : Expr)
      (hctx : ctx.node = .null ∨ doc.Live ctx.node) (hrefs : e.refs = []) :
      ∀ n ∈ (e.eval ⟨doc.order, values⟩ ctx).toNodeSet.nodes, doc.Live n :=
    (hrooted.sound_eval htimely values e hrefs ctx hctx).live
  have hunion {a b : Expr} (ha : a.refs = []) (hb : b.refs = []) :
      (Expr.binary .union a b).refs = [] := List.append_eq_nil_iff.2 ⟨ha, hb⟩
  have hsort (s : NodeSet) (hs : ∀ n ∈ s.nodes, doc.Live n) :
      s.sort doc.order false = ⟨doc.inOrder s.nodes, .sorted⟩ :=
    hrooted.sort_eq htimely hs false
  exact
  { forwards := hsort
    increasing := fun s hs => by
      rw [hsort s hs]
      exact ⟨pairwise_precedes List.filter_sublist, fun n => hrooted.mem_inOrder hs⟩
    backwards := fun s hs => by
      rw [hsort s hs]
      exact hrooted.sort_eq htimely hs true
    union_comm := fun values ctx back a b hctx ha hb =>
      hrooted.sort_congr htimely (hlive values ctx _ hctx (hunion ha hb))
        (fun n => by simp only [Expr.mem_eval_union, or_comm]) back
    union_assoc := fun values ctx back a b c hctx ha hb hc =>
      hrooted.sort_congr htimely (hlive values ctx _ hctx (hunion (hunion ha hb) hc))
        (fun n => by simp only [Expr.mem_eval_union, or_assoc]) back
    union_self := fun values ctx back a hctx ha =>
      hrooted.sort_congr htimely (hlive values ctx _ hctx (hunion ha ha))
        (fun n => by simp only [Expr.mem_eval_union, or_self]) back }

/-- A node, an attribute before it and the owner of that, the first one given twice and none
where it belongs. -/
theorem collates_shuffled :
    NodeSet.sort (new.applyAll shuffled).order
        ⟨[.node ⟨⟨2, 2⟩⟩, .attribute ⟨⟨0, 1⟩⟩ ⟨⟨3, 1⟩⟩, .node ⟨⟨2, 2⟩⟩, .node ⟨⟨3, 1⟩⟩], .reverse⟩
        false
      = ⟨[.node ⟨⟨3, 1⟩⟩, .attribute ⟨⟨0, 1⟩⟩ ⟨⟨3, 1⟩⟩, .node ⟨⟨2, 2⟩⟩], .sorted⟩
      ∧ Collates (new.applyAll shuffled) := by
  have hcollates : Collates (new.applyAll shuffled) :=
    reachable_collates (Reachable.new.applyAll (by decide))
  refine ⟨(hcollates.forwards _ ?_).trans (by decide +kernel), hcollates⟩
  have hthere : (new.applyAll shuffled).contains ⟨⟨2, 2⟩⟩ = true
      ∧ (new.applyAll shuffled).contains ⟨⟨3, 1⟩⟩ = true
      ∧ (new.applyAll shuffled).owner? ⟨⟨0, 1⟩⟩ = some ⟨⟨3, 1⟩⟩ := by decide +kernel
  simp [Live, hthere]

end Document

end XmlTree
