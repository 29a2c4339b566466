/-
  Proofs/Evaluation.lean --- expressions evaluate to sound sets.

  WHAT THIS FILE IS FOR.  Each way to make a node-set makes a sound one: picking from a list
  by predicates, gathering the lists of several nodes, sorting, and taking two sets together.
  By induction on the expression, so does evaluation, as long as the variables that the
  expression refers to hold sound sets: a variable has whatever it was given.

  TAGS.  Nodes gathered from several nodes have a tag only when no more than the last of
  those nodes contributed, or on the axis of the node itself, where the tag is that of the
  nodes themselves.  No node can be gathered twice on the axes that are not looked through
  for repetitions.
-/
import XmlTree.Proofs.Scoping
import XmlTree.Proofs.Sorting

set_option autoImplicit false

namespace XmlTree

open Document

variable {doc : Document} {lay : Layout}

/-! ## Picking -/

theorem pickBy_sublist (predicate : Context → Value) (nodes : List QueryNode) :
    (pickBy predicate nodes).Sublist nodes := by
  have hpicked := (List.filter_sublist (l := nodes.zipIdx 1)
    (p := fun p => (predicate ⟨p.1, p.2, nodes.length⟩).picks p.2)).map Prod.fst
  rwa [List.zipIdx_map_fst] at hpicked

/-- Predicates leave some of the nodes, in the order they had. -/
theorem Expr.pickByAll_sublist (env : Environment) (predicates : List Expr)
    (nodes : List QueryNode) : (pickByAll env predicates nodes).Sublist nodes := by
  induction predicates generalizing nodes with
  | nil =>
    rw [pickByAll]
  | cons p ps ih =>
    rw [pickByAll]
    exact (ih _).trans (pickBy_sublist _ nodes)

/-! ## Repetitions -/

theorem mem_firstOccurrences {seen : Std.HashSet QueryNode} {l : List QueryNode}
    {n : QueryNode} : n ∈ firstOccurrences seen l ↔ n ∈ l ∧ seen.contains n = false := by
  induction l generalizing seen with
  | nil => simp [firstOccurrences]
  | cons m rest ih =>
    rw [firstOccurrences]
    cases hm : seen.contains m with
    | true =>
      rw [if_pos rfl, ih, List.mem_cons]
      constructor
      · rintro ⟨hn, hseen⟩
        exact ⟨.inr hn, hseen⟩
      · rintro ⟨rfl | hn, hseen⟩
        · rw [hm] at hseen
          cases hseen
        · exact ⟨hn, hseen⟩
    | false =>
      rw [if_neg (by simp), List.mem_cons, ih, List.mem_cons, Std.HashSet.contains_insert]
      by_cases heq : n = m
      · simp [heq, hm]
      · simp [heq, Ne.symm heq]

theorem nodup_firstOccurrences (seen : Std.HashSet QueryNode) (l : List QueryNode) :
    (firstOccurrences seen l).Nodup := by
  induction l generalizing seen with
  | nil => exact List.nodup_nil
  | cons m rest ih =>
    rw [firstOccurrences]
    split
    · exact ih seen
    · refine List.nodup_cons.2 ⟨fun hm => ?_, ih _⟩
      have hseen := (mem_firstOccurrences.1 hm).2
      simp at hseen

/-- The first occurrences of nodes that are there are a sound set. -/
theorem sound_firstOccurrences {l : List QueryNode} (hlive : ∀ n ∈ l, doc.Live n) :
    NodeSet.Sound doc ⟨firstOccurrences ∅ l, .unsorted⟩ :=
  .unsorted (fun n hn => hlive n (mem_firstOccurrences.1 hn).1) (nodup_firstOccurrences _ _)

theorem NodeSet.Sound.union {s t : NodeSet} (hs : s.Sound doc) (ht : t.Sound doc) :
    (s.union t).Sound doc := by
  refine sound_firstOccurrences fun n hn => ?_
  obtain hn | hn := List.mem_append.1 hn
  · exact hs.live n hn
  · exact ht.live n hn

/-! ## Steps from several nodes -/

/-- Where all lists but the last one are empty, there is nothing but the last one. -/
theorem flatten_eq_getLast {lists : List (List QueryNode)}
    (h : lists.dropLast.any (fun l => !l.isEmpty) = false) :
    lists.flatten = lists.getLast?.getD [] := by
  obtain rfl | ⟨before, last, hlists⟩ := List.eq_nil_or_concat lists
  · rfl
  · rw [List.concat_eq_append] at hlists
    subst hlists
    rw [List.dropLast_concat] at h
    have hempty : before.flatten = [] := by
      refine List.flatten_eq_nil_iff.2 fun l hl => ?_
      have hl := List.any_eq_false.1 h l hl
      simpa using hl
    simp [hempty]

namespace Axis

variable {axis : Axis} {sourceOrder : NodeOrder} {lists : List (List QueryNode)}

/-- Nodes that follow none of an earlier start keep the order of the axis. -/
theorem gather_eq_of_last (hself : axis ≠ .self)
    (hany : lists.dropLast.any (fun l => !l.isEmpty) = false) :
    axis.gather sourceOrder lists = ⟨lists.getLast?.getD [], axis.order⟩ := by
  have horder : axis.order ≠ .unsorted := by cases axis <;> decide
  simp [gather, hself, hany, horder, flatten_eq_getLast hany]

/-- Of nodes that follow others nothing is known. -/
theorem gather_eq_of_several (hself : axis ≠ .self)
    (hany : lists.dropLast.any (fun l => !l.isEmpty) = true) :
    axis.gather sourceOrder lists =
      ⟨if axis.isDisjoint then lists.flatten else firstOccurrences ∅ lists.flatten,
        .unsorted⟩ := by
  cases hdisjoint : axis.isDisjoint <;> simp [gather, hself, hany, hdisjoint]

end Axis

namespace Document.Rooted

/-- From different nodes, the axes of children and of attributes lead to different ones. -/
theorem nodup_flatMap_axisNodes (h : Rooted doc lay) {axis : Axis}
    (haxis : axis = .child ∨ axis = .attribute) {test : NodeTest} {nodes : List QueryNode}
    {lists : QueryNode → List QueryNode} (hnodes : nodes.Nodup)
    (hlists : ∀ n, (lists n).Sublist (doc.axisNodes axis test n))
    (hnodup : ∀ n ∈ nodes, (lists n).Nodup) : (nodes.flatMap lists).Nodup := by
  refine List.nodup_flatMap.2 ⟨hnodup, hnodes.imp fun {m n} hne x hm hn => hne ?_⟩
  have hxm := h.eq_of_mem_axisNodes haxis ((hlists m).subset hm)
  have hxn := h.eq_of_mem_axisNodes haxis ((hlists n).subset hn)
  rw [hxm] at hxn
  exact Option.some.inj hxn

/-- What steps from the nodes of a sound set lead to is gathered in a sound set. -/
theorem sound_gather (h : Rooted doc lay) {s : NodeSet} (hs : s.Sound doc) (axis : Axis)
    (test : NodeTest) {lists : QueryNode → List QueryNode}
    (hlists : ∀ n, (lists n).Sublist (doc.axisNodes axis test n)) :
    (axis.gather s.order (s.nodes.map lists)).Sound doc := by
  have hstep : ∀ n ∈ s.nodes, NodeSet.Sound doc ⟨lists n, axis.order⟩ := fun n hn =>
    (h.sound_axisNodes (.inr (hs.live n hn)) axis test).sublist (hlists n)
  have hlive : ∀ x ∈ (s.nodes.map lists).flatten, doc.Live x := by
    intro x hx
    obtain ⟨l, hl, hx⟩ := List.mem_flatten.1 hx
    obtain ⟨n, hn, rfl⟩ := List.mem_map.1 hl
    exact (hstep n hn).live x hx
  by_cases hself : axis = .self
  · subst hself
    -- each node contributes itself or nothing, so the tag is that of the nodes
    have hsub : (s.nodes.flatMap lists).Sublist (s.nodes.flatMap fun n => [n]) :=
      List.Sublist.flatMap_right _ fun n _ =>
        (hlists n).trans (doc.axisNodes_self_sublist test n)
    rw [List.flatMap_singleton'] at hsub
    exact NodeSet.Sound.sublist (l := s.nodes) (o := s.order) hs hsub
  · cases hany : (s.nodes.map lists).dropLast.any fun l => !l.isEmpty with
    | false =>
      rw [Axis.gather_eq_of_last hself hany, List.getLast?_map]
      cases hlast : s.nodes.getLast? with
      | none => exact .empty doc axis.order
      | some n => exact hstep n (List.mem_of_getLast? hlast)
    | true =>
      rw [Axis.gather_eq_of_several hself hany]
      cases hdisjoint : axis.isDisjoint with
      | false => exact sound_firstOccurrences hlive
      | true =>
        have haxis : axis = .child ∨ axis = .attribute := by
          cases axis <;> simp_all [Axis.isDisjoint]
        exact .unsorted hlive (h.nodup_flatMap_axisNodes haxis hs.nodup hlists fun n hn =>
          (hstep n hn).nodup)

/-! ## Values -/

/-- The top of the tree of a node is there. -/
theorem contains_topOf (h : Rooted doc lay) {n : QueryNode} {t : NodeId}
    (ht : doc.topOf n = some t) : doc.contains t = true := by
  have hlast : ∀ {id : NodeId}, doc.contains id = true →
      doc.contains ((doc.ancestors id).getLast?.getD id) = true := by
    intro id hid
    cases hup : (doc.ancestors id).getLast? with
    | none => exact hid
    | some x =>
      refine h.contains_above hid (((h.reads_ancestors hid).2.2 x).2 ?_)
      exact List.mem_cons_of_mem id (List.mem_of_getLast? hup)
  rcases n with _ | id | ⟨attr, parent⟩
  · cases ht
  · rw [topOf] at ht
    split at ht
    · rename_i hid
      cases ht
      exact hlast hid
    · cases ht
  · rw [topOf] at ht
    split at ht
    · rename_i hid
      cases ht
      exact hlast hid
    · cases ht

end Document.Rooted

theorem Value.toNodeSet_initial (type : ValueType) : (initial type).toNodeSet = .empty := by
  cases type <;> rfl

/-- No function of the library answers nodes. -/
theorem CoreFunction.toNodeSet_apply (order : DocumentOrder) (context : Context)
    (f : CoreFunction) (arguments : List Value) :
    (f.apply order context arguments).toNodeSet = .empty := by
  unfold apply
  split
  all_goals first
    | rfl
    | exact Value.toNodeSet_initial _

/-- Union is the only operator that answers nodes. -/
theorem BinaryOp.toNodeSet_apply {op : BinaryOp} (order : DocumentOrder) (a b : Value)
    (hop : op ≠ .union) : (op.apply order a b).toNodeSet = .empty := by
  cases op with
  | union => exact absurd rfl hop
  | _ => rfl

/-! ## Expressions -/

/-- An expression whose variables hold sound sets evaluates to a sound set, at no node or at
one that is there. -/
theorem Document.Rooted.sound_eval_of_refs (h : Rooted doc lay) (htimely : Timely doc)
    {values : VariableStore} (e : Expr)
    (hrefs : ∀ ref ∈ e.refs, (values.value ref).toNodeSet.Sound doc) (ctx : Context)
    (hctx : ctx.node = .null ∨ doc.Live ctx.node) :
    (e.eval ⟨doc.order, values⟩ ctx).toNodeSet.Sound doc := by
  match e with
  | .root =>
    rw [Expr.eval]
    refine h.sound_nodes ?_
    change (doc.topOf ctx.node).toList.Sublist doc.preorder
    cases htop : doc.topOf ctx.node with
    | none => exact List.nil_sublist _
    | some t =>
      exact List.singleton_sublist.2 (h.mem_preorder.2 (h.contains_topOf htop))
  | .step axis test predicates =>
    rw [Expr.eval]
    exact (h.sound_axisNodes hctx axis test).sublist (Expr.pickByAll_sublist _ _ _)
  | .path input axis test predicates =>
    have hinput := h.sound_eval_of_refs htimely input (List.forall_mem_append.1 hrefs).1 ctx hctx
    rw [Expr.eval]
    exact h.sound_gather hinput axis test fun n => Expr.pickByAll_sublist _ _ _
  | .filter base predicates =>
    have hbase := h.sound_eval_of_refs htimely base (List.forall_mem_append.1 hrefs).1 ctx hctx
    rw [Expr.eval]
    -- what is filtered is sorted first, unless it is sorted already
    split
    · rename_i hsorted
      rw [← hsorted]
      exact NodeSet.Sound.sublist (o := _) hbase (Expr.pickByAll_sublist _ _ _)
    · exact (h.sound_sort htimely hbase false).sublist (Expr.pickByAll_sublist _ _ _)
  | .call f arguments =>
    rw [Expr.eval, CoreFunction.toNodeSet_apply]
    exact .empty doc .unsorted
  | .binary op left right =>
    have hleft := h.sound_eval_of_refs htimely left (List.forall_mem_append.1 hrefs).1 ctx hctx
    have hright := h.sound_eval_of_refs htimely right (List.forall_mem_append.1 hrefs).2 ctx hctx
    rw [Expr.eval_binary]
    by_cases hop : op = .union
    · rw [hop]
      exact hleft.union hright
    · rw [BinaryOp.toNodeSet_apply _ _ _ hop]
      exact .empty doc .unsorted
  | .negate operand =>
    rw [Expr.eval]
    exact .empty doc .unsorted
  | .number x | .string s | .boolean b =>
    rw [Expr.eval]
    exact .empty doc .unsorted
  | .variable ref =>
    rw [Expr.eval]
    exact hrefs ref List.mem_cons_self

/-- An expression that refers to no variable evaluates to a sound set, at no node or at one
that is there. -/
theorem Document.Rooted.sound_eval (h : Rooted doc lay) (htimely : Timely doc)
    (values : VariableStore) (e : Expr) (hrefs : e.refs = []) (ctx : Context)
    (hctx : ctx.node = .null ∨ doc.Live ctx.node) :
    (e.eval ⟨doc.order, values⟩ ctx).toNodeSet.Sound doc :=
  h.sound_eval_of_refs htimely e (by rw [hrefs]; exact nofun) ctx hctx

end XmlTree
