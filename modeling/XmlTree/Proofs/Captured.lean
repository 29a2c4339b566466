/-
  Proofs/Captured.lean --- node-sets that outlive changes to their document.

  WHAT THIS FILE IS FOR.  What a query answers can be kept, in a variable for one, while the
  document is changed.  The members of a kept set are handles, which may stay alive and
  change places.  A set without a tag is looked through in the order of the tree as it is by
  then.  A tag is believed: it leads to the node that came first when the set was made, also
  where another one comes first by now.

  FILTERS.  A filter sorts what it counts in, so it goes by the tree as it is, unless the tag
  says that everything is sorted already.
-/
import XmlTree.Proofs.Evaluation

set_option autoImplicit false

namespace XmlTree

open Document

variable {doc later : Document} {lay : Layout}

/-! ## What a query answered -/

/-- What a query answered is the value of its expression. -/
theorem Query.eval_of_nodeSet {q : Query} {env : Environment} {start : QueryNode} {s : NodeSet}
    (h : q.nodeSet env start = .ok s) :
    ∃ e, q.expr? = some e ∧ (e.eval env (.only start)).toNodeSet = s := by
  rw [nodeSet] at h
  cases houtcome : q.outcome with
  | error fault =>
    rw [houtcome] at h
    cases h
  | ok e =>
    rw [houtcome] at h
    refine ⟨e, by rw [expr?, houtcome], ?_⟩
    dsimp only at h
    split at h
    · exact Except.ok.inj h
    · cases h

/-- A query whose variables hold sound sets answers a sound set. -/
theorem Document.Rooted.sound_nodeSet (h : Rooted doc lay) (htimely : Timely doc) {q : Query}
    {values : VariableStore} (hrefs : ∀ ref ∈ q.refs, (values.value ref).toNodeSet.Sound doc)
    {start : QueryNode} (hstart : start = .null ∨ doc.Live start) {s : NodeSet}
    (hs : q.nodeSet ⟨doc.order, values⟩ start = .ok s) : s.Sound doc := by
  obtain ⟨e, hexpr, heval⟩ := Query.eval_of_nodeSet hs
  rw [Query.refs, hexpr] at hrefs
  rw [← heval]
  exact h.sound_eval_of_refs htimely e hrefs (.only start) hstart

/-! ## The first node of a kept set -/

namespace NodeSet

variable {s : NodeSet}

/-- Sorting looks at the members, not at the tag. -/
theorem sort_eq_of_nodes {s' : NodeSet} (h : s.nodes = s'.nodes) (order : DocumentOrder)
    (backwards : Bool) : s.sort order backwards = s'.sort order backwards := by
  rw [sort, sort, h]

/-- A tag is read without looking at the document. -/
theorem first_eq_of_tag (htag : s.order ≠ .unsorted) (order order' : DocumentOrder) :
    s.first order = s.first order' := by
  cases horder : s.order with
  | unsorted => exact absurd horder htag
  | sorted => simp only [first, horder]
  | reverse => simp only [first, horder]

/-- The members of a sound set that are all there later are a sound set then, if nothing is
said of their order. -/
theorem Sound.untagged (h : s.Sound doc) (hlive : ∀ n ∈ s.nodes, later.Live n) :
    Sound later ⟨s.nodes, .unsorted⟩ :=
  .unsorted hlive h.nodup

end NodeSet

/-- A tag leads to the node that came first when the set was made; without one the node that
comes first is looked for. -/
theorem Document.Rooted.first_captured (h : Rooted doc lay) (htimely : Timely doc)
    {lay' : Layout} (hlater : Rooted later lay') (hlaterTimely : Timely later) {s : NodeSet}
    (hs : s.Sound doc) (hlive : ∀ n ∈ s.nodes, later.Live n) (hne : s.nodes ≠ []) :
    (s.order = .unsorted → later.ComesFirst (s.first later.order) s.nodes) ∧
      (s.order ≠ .unsorted → s.first later.order = s.first doc.order ∧
        doc.ComesFirst (s.first later.order) s.nodes) := by
  refine ⟨fun htag => ?_, fun htag => ?_⟩
  · have huntagged : s = ⟨s.nodes, .unsorted⟩ := by rw [← htag]
    rw [huntagged]
    exact hlater.comesFirst_first hlaterTimely (hs.untagged hlive) hne
  · have hfirst := NodeSet.first_eq_of_tag htag later.order doc.order
    rw [hfirst]
    exact ⟨rfl, h.comesFirst_first htimely hs hne⟩

/-! ## The first node of a filter -/

/-- A predicate that asks for the first position picks the first node. -/
theorem head?_pickByAll_one (env : Environment) (nodes : List QueryNode) :
    (Expr.pickByAll env [.number 1] nodes).head? = nodes.head? := by
  have hone : (Value.number 1).picks 1 = true := by decide +kernel
  rw [Expr.pickByAll, Expr.pickByAll]
  cases nodes with
  | nil => rfl
  | cons n rest =>
    simp only [pickBy, List.zipIdx_cons, List.filter_cons, Expr.eval, hone, if_true,
      List.map_cons, List.head?_cons]

/-- A filter takes the members as they are in a set that is tagged as sorted, and otherwise
in the order of the document. -/
theorem head?_eval_filter_one (order : DocumentOrder) {values : VariableStore}
    {ref : VariableRef} {s : NodeSet} (hvalue : values.value ref = .nodeSet s) (ctx : Context) :
    ((Expr.filter (.variable ref) [.number 1]).eval ⟨order, values⟩ ctx).toNodeSet.nodes.head? =
      if s.order = .sorted then s.nodes.head? else (s.sort order false).nodes.head? := by
  rw [Expr.eval, Expr.eval]
  dsimp only
  rw [hvalue]
  change (Expr.pickByAll _ _ _).head? = _
  rw [head?_pickByAll_one]
  exact apply_ite (fun t : NodeSet => t.nodes.head?) _ _ _

/-- What is sorted begins with the node that comes first. -/
theorem Document.Rooted.comesFirst_head_sort (h : Rooted doc lay) (htimely : Timely doc)
    {s : NodeSet} (hs : s.Sound doc) (hne : s.nodes ≠ []) :
    ∃ n, (s.sort doc.order false).nodes.head? = some n ∧ doc.ComesFirst n s.nodes := by
  have hperm := NodeSet.perm_sort doc.order hs.nodup
  have hsorted := h.sound_sort htimely hs false
  have hne' : (s.sort doc.order false).nodes ≠ [] := fun hnil =>
    hne (List.perm_nil.1 (hnil ▸ hperm.symm))
  obtain ⟨n, rest, hnodes⟩ := List.exists_cons_of_ne_nil hne'
  have hbefore := hsorted.sorted rfl
  rw [hnodes, List.pairwise_cons] at hbefore
  refine ⟨n, by rw [hnodes]; rfl, hperm.subset (by rw [hnodes]; exact List.mem_cons_self),
    fun m hm => ?_⟩
  have hm := hperm.symm.subset hm
  rw [hnodes] at hm
  obtain rfl | hm := List.mem_cons.1 hm
  · exact .inl rfl
  · exact .inr (hbefore.1 m hm)

/-! ## Variables that hold a kept set -/

/-- What a set that was made in the document `doc`, and is not empty, leads to in the document
`later`, where a variable holds it. -/
structure NodeSet.Captured (s : NodeSet) (doc later : Document) : Prop where
  /-- Without a tag the first node is the one that comes first by now. -/
  untagged : s.order = .unsorted → later.ComesFirst (s.first later.order) s.nodes
  /-- With a tag it is still the one that came first when the set was made. -/
  tagged : s.order ≠ .unsorted →
    s.first later.order = s.first doc.order ∧ doc.ComesFirst (s.first later.order) s.nodes
  /-- So the first node is right as long as another one has not come to be the first. -/
  right_iff : later.ComesFirst (s.first later.order) s.nodes ↔
    s.order = .unsorted ∨ later.ComesFirst (s.first doc.order) s.nodes
  /-- The text, the number and the name of the variable are those of the first node. -/
  reads : ∀ (values : VariableStore) (ref : VariableRef) (ctx : Context),
    values.value ref = .nodeSet s →
      (Expr.call .string [.variable ref]).eval ⟨later.order, values⟩ ctx =
          .string (later.stringValue (s.first later.order)) ∧
        (Expr.call .number [.variable ref]).eval ⟨later.order, values⟩ ctx =
          .number (later.numberValue (s.first later.order)) ∧
        (Expr.call .name [.variable ref]).eval ⟨later.order, values⟩ ctx =
          .string (later.queryName (s.first later.order))
  /-- A filter counts from the node that came first if the set is tagged as sorted, and
  from the one that comes first by now if it is not. -/
  filter : ∀ (values : VariableStore) (ref : VariableRef) (ctx : Context),
    values.value ref = .nodeSet s →
      ∃ n, ((Expr.filter (.variable ref) [.number 1]).eval
          ⟨later.order, values⟩ ctx).toNodeSet.nodes.head? = some n ∧
        (s.order = .sorted → n = s.first doc.order) ∧
        (s.order ≠ .sorted → later.ComesFirst n s.nodes)

/-- A function of a variable is applied to what the variable holds. -/
theorem eval_call_variable (env : Environment) (f : CoreFunction) {ref : VariableRef} {v : Value}
    (hvalue : env.values.value ref = v) (ctx : Context) :
    (Expr.call f [.variable ref]).eval env ctx = f.apply env.order ctx [v] := by
  rw [Expr.eval, Expr.evalAll, Expr.evalAll, Expr.eval, hvalue]

theorem Document.Rooted.captured (h : Rooted doc lay) (htimely : Timely doc) {lay' : Layout}
    (hlater : Rooted later lay') (hlaterTimely : Timely later) {s : NodeSet}
    (hs : s.Sound doc) (hlive : ∀ n ∈ s.nodes, later.Live n) (hne : s.nodes ≠ []) :
    s.Captured doc later := by
  obtain ⟨huntagged, htagged⟩ :=
    h.first_captured htimely hlater hlaterTimely hs hlive hne
  refine ⟨huntagged, htagged, ?_, ?_, ?_⟩
  · by_cases htag : s.order = .unsorted
    · exact ⟨fun _ => .inl htag, fun _ => huntagged htag⟩
    · rw [(htagged htag).1]
      exact ⟨.inr, fun hright => hright.resolve_left htag⟩
  · intro values ref ctx hvalue
    refine ⟨?_, ?_, ?_⟩
    · rw [eval_call_variable ⟨later.order, values⟩ .string hvalue]
      rfl
    · rw [eval_call_variable ⟨later.order, values⟩ .number hvalue]
      rfl
    · rw [eval_call_variable ⟨later.order, values⟩ .name hvalue]
      rfl
  · intro values ref ctx hvalue
    rw [head?_eval_filter_one later.order hvalue]
    split
    · rename_i hsorted
      obtain ⟨n, rest, hnodes⟩ := List.exists_cons_of_ne_nil hne
      have hfirst : s.first doc.order = n := by
        rw [NodeSet.first, hsorted, hnodes]
        rfl
      exact ⟨n, by rw [hnodes]; rfl, fun _ => hfirst.symm, fun hne => absurd hsorted hne⟩
    · rename_i hsorted
      obtain ⟨n, hn, hcomes⟩ :=
        hlater.comesFirst_head_sort hlaterTimely (hs.untagged hlive) hne
      have hsame : s.nodes = (NodeSet.mk s.nodes .unsorted).nodes := rfl
      rw [NodeSet.sort_eq_of_nodes hsame]
      exact ⟨n, hn, fun hyes => absurd hyes hsorted, fun _ => hcomes⟩

namespace Document

/-- What a query answered about a document refers, in whatever the document is changed to
while the members live, to the node that comes first by then if it has no tag, and to the one
that came first before if it has one. -/
theorem reachable_captured (hdoc : Reachable doc) (hlater : Reachable later) {q : Query}
    {values : VariableStore} (hrefs : ∀ ref ∈ q.refs, (values.value ref).toNodeSet.Sound doc)
    {start : QueryNode} (hstart : start = .null ∨ doc.Live start) {s : NodeSet}
    (hs : q.nodeSet ⟨doc.order, values⟩ start = .ok s) (hne : s.nodes ≠ [])
    (hlive : ∀ n ∈ s.nodes, later.Live n) : s.Captured doc later := by
  obtain ⟨lay, hrooted⟩ := hdoc.whole
  obtain ⟨lay', hlaterRooted⟩ := hlater.whole
  have hsound := hrooted.sound_nodeSet hdoc.timely hrefs hstart hs
  exact hrooted.captured hdoc.timely hlaterRooted hlater.timely hsound hlive hne

/-- The children of an element are captured in order; then the first one is moved to the
end, and the set still begins with it. -/
theorem captured_shuffled :
    (Query.compile none "*").nodeSet
        ⟨(new.applyAll shuffled).order, .empty⟩ (.node ⟨⟨1, 1⟩⟩) =
          .ok ⟨[.node ⟨⟨3, 1⟩⟩, .node ⟨⟨2, 2⟩⟩], .sorted⟩ ∧
      ((new.applyAll shuffled).applyAll [.insertMove ⟨⟨1, 1⟩⟩ ⟨⟨3, 1⟩⟩ .last]).children
          ⟨⟨1, 1⟩⟩ = [⟨⟨2, 2⟩⟩, ⟨⟨3, 1⟩⟩] ∧
      NodeSet.first ((new.applyAll shuffled).applyAll
          [.insertMove ⟨⟨1, 1⟩⟩ ⟨⟨3, 1⟩⟩ .last]).order
        ⟨[.node ⟨⟨3, 1⟩⟩, .node ⟨⟨2, 2⟩⟩], .sorted⟩ = .node ⟨⟨3, 1⟩⟩ ∧
      NodeSet.Captured ⟨[.node ⟨⟨3, 1⟩⟩, .node ⟨⟨2, 2⟩⟩], .sorted⟩ (new.applyAll shuffled)
        ((new.applyAll shuffled).applyAll [.insertMove ⟨⟨1, 1⟩⟩ ⟨⟨3, 1⟩⟩ .last]) := by
  have hanswer : (Query.compile none "*").nodeSet
      ⟨(new.applyAll shuffled).order, .empty⟩ (.node ⟨⟨1, 1⟩⟩) =
        .ok ⟨[.node ⟨⟨3, 1⟩⟩, .node ⟨⟨2, 2⟩⟩], .sorted⟩ := by
    decide +kernel
  have hstart : (new.applyAll shuffled).Live (.node ⟨⟨1, 1⟩⟩) := by
    change (new.applyAll shuffled).contains ⟨⟨1, 1⟩⟩ = true
    decide +kernel
  have hlive : ∀ n ∈ [QueryNode.node ⟨⟨3, 1⟩⟩, .node ⟨⟨2, 2⟩⟩],
      ((new.applyAll shuffled).applyAll [.insertMove ⟨⟨1, 1⟩⟩ ⟨⟨3, 1⟩⟩ .last]).Live n := by
    intro n hn
    simp only [List.mem_cons, List.not_mem_nil, or_false] at hn
    obtain rfl | rfl := hn
    · change Document.contains _ _ = true
      decide +kernel
    · change Document.contains _ _ = true
      decide +kernel
  have hrefs : ∀ ref ∈ (Query.compile none "*").refs,
      (VariableStore.empty.value ref).toNodeSet.Sound (new.applyAll shuffled) := by
    rw [Query.refs_compile_none]
    exact nofun
  have hdoc : Reachable (new.applyAll shuffled) := Reachable.new.applyAll (by decide)
  exact ⟨hanswer, by decide +kernel, rfl,
    reachable_captured hdoc (hdoc.applyAll (by decide)) hrefs (.inr hstart) hanswer
      (List.cons_ne_nil _ _) hlive⟩

end Document

end XmlTree
