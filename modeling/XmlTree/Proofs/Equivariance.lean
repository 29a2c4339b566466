/-
  Proofs/Equivariance.lean --- queries see nothing of a document but its tree.

  WHAT THIS FILE IS FOR.  Documents with the same tree answer a query alike: truth values,
  numbers and texts are equal, and node-sets list corresponding nodes in the same order with
  the same tag.  What keys nodes are sorted by, in which slots they stand and where their texts
  are kept makes no difference.

  SORTED AND FIRST.  The keys of the two documents have nothing to do with each other.  But a
  sorted set is determined by its nodes and by which of two nodes comes first, and so is the
  first node of a set, and these correspond.
-/
import XmlTree.Proofs.Correspondence
import XmlTree.Proofs.Evaluation

set_option autoImplicit false

namespace XmlTree

open Document

/-! ## What corresponds -/

namespace Mapping

/-- The set of the nodes where those of a set are found. -/
def nodeSet (m : Mapping) (s : NodeSet) : NodeSet := ⟨s.nodes.map m.query, s.order⟩

/-- The value that a value is found as. -/
def value (m : Mapping) : Value → Value
  | .nodeSet s => .nodeSet (m.nodeSet s)
  | v => v

/-- The place where a place is found. -/
def context (m : Mapping) (ctx : Context) : Context := { ctx with node := m.query ctx.node }

/-- What is read of a query, found elsewhere. -/
def readings (m : Mapping) (r : Query.Readings) : Query.Readings :=
  { r with nodes := r.nodes.map m.nodeSet, first := r.first.map m.query }

theorem toBoolean_value (m : Mapping) (v : Value) : (m.value v).toBoolean = v.toBoolean := by
  cases v <;> simp [value, nodeSet, Value.toBoolean]

theorem toNodeSet_value (m : Mapping) (v : Value) :
    (m.value v).toNodeSet = m.nodeSet v.toNodeSet := by
  cases v <;> rfl

theorem length_nodeSet (m : Mapping) (s : NodeSet) :
    (m.nodeSet s).nodes.length = s.nodes.length := List.length_map _

theorem picks_value (m : Mapping) (position : Nat) (v : Value) :
    (m.value v).picks position = v.picks position := by
  cases v <;> simp [value, nodeSet, Value.picks, Value.toBoolean]

end Mapping

variable {doc doc' : Document} {lay lay' : Layout} {m : Mapping}

theorem Document.doc_order (doc : Document) : doc.order.doc = doc := rfl

namespace Document.Twins

/-! ## Sets of nodes -/

/-- The nodes of a sound set correspond to those of a sound set. -/
theorem sound_nodeSet (t : Twins doc doc' lay lay' m) {s : NodeSet} (hs : s.Sound doc) :
    (m.nodeSet s).Sound doc' where
  live n hn := by
    obtain ⟨k, hk, rfl⟩ := List.mem_map.1 hn
    exact t.live_query (hs.live k hk)
  nodup := hs.nodup.map_on fun a ha b hb heq => t.query_inj (hs.live a ha) (hs.live b hb) heq
  sorted ho := List.pairwise_map.2 ((hs.sorted ho).imp t.precedes_query)
  reverse ho := List.pairwise_map.2 ((hs.reverse ho).imp t.precedes_query)

theorem firstOccurrences_map (t : Twins doc doc' lay lay' m) {l : List QueryNode}
    (hlive : ∀ n ∈ l, doc.Live n) {seen seen' : Std.HashSet QueryNode}
    (hseen : ∀ n ∈ l, seen'.contains (m.query n) = seen.contains n) :
    firstOccurrences seen' (l.map m.query) = (firstOccurrences seen l).map m.query := by
  induction l generalizing seen seen' with
  | nil => rfl
  | cons n rest ih =>
    obtain ⟨hn, hrest⟩ := List.forall_mem_cons.1 hlive
    obtain ⟨hsame, hsameRest⟩ := List.forall_mem_cons.1 hseen
    rw [List.map_cons, firstOccurrences, firstOccurrences, hsame]
    split
    · exact ih hrest hsameRest
    · rw [List.map_cons, ih hrest fun k hk => ?_]
      have hbeq : (m.query n == m.query k) = (n == k) := by
        by_cases heq : n = k
        · simp [heq]
        · have hne : m.query n ≠ m.query k := fun h => heq (t.query_inj hn (hrest k hk) h)
          simp [heq, hne]
      rw [Std.HashSet.contains_insert, Std.HashSet.contains_insert, hbeq, hsameRest k hk]

/-- The union of corresponding sets. -/
theorem union_nodeSet (t : Twins doc doc' lay lay' m) {a b : NodeSet} (ha : a.Sound doc)
    (hb : b.Sound doc) : (m.nodeSet a).union (m.nodeSet b) = m.nodeSet (a.union b) := by
  have hlive : ∀ n ∈ a.nodes ++ b.nodes, doc.Live n := fun n hn =>
    (List.mem_append.1 hn).elim (ha.live n) (hb.live n)
  have hboth : (m.nodeSet a).nodes ++ (m.nodeSet b).nodes = (a.nodes ++ b.nodes).map m.query :=
    List.map_append.symm
  have hnone : ∀ n ∈ a.nodes ++ b.nodes,
      (∅ : Std.HashSet QueryNode).contains (m.query n) = (∅ : Std.HashSet QueryNode).contains n :=
    fun _ _ => by simp
  rw [NodeSet.union, hboth, t.firstOccurrences_map hlive hnone]
  rfl

/-- What is gathered from corresponding lists. -/
theorem gather_map (t : Twins doc doc' lay lay' m) {lists : List (List QueryNode)}
    (hlive : ∀ n ∈ lists.flatten, doc.Live n) (axis : Axis) (o : NodeOrder) :
    axis.gather o (lists.map (List.map m.query)) = m.nodeSet (axis.gather o lists) := by
  have hany : (lists.map (List.map m.query)).dropLast.any (fun l => !l.isEmpty) =
      lists.dropLast.any fun l => !l.isEmpty := by
    rw [← List.map_dropLast, List.any_map]
    exact congrArg (List.any _) (funext fun l => by simp)
  have hflatten : (lists.map (List.map m.query)).flatten = lists.flatten.map m.query :=
    List.map_flatten.symm
  have hfirst : firstOccurrences ∅ (lists.flatten.map m.query) =
      (firstOccurrences ∅ lists.flatten).map m.query :=
    t.firstOccurrences_map hlive fun _ _ => by simp
  simp only [Axis.gather, hany, hflatten, hfirst, apply_ite m.nodeSet]
  rfl

theorem pickBy_map {predicate predicate' : Context → Value} {nodes : List QueryNode}
    (hsame : ∀ n ∈ nodes, ∀ i size,
      predicate' ⟨m.query n, i, size⟩ = m.value (predicate ⟨n, i, size⟩)) :
    pickBy predicate' (nodes.map m.query) = (pickBy predicate nodes).map m.query := by
  simp only [pickBy, List.length_map, List.zipIdx_map, List.filter_map, List.map_map]
  have hfilter : (nodes.zipIdx 1).filter ((fun p : QueryNode × Nat =>
      (predicate' ⟨p.1, p.2, nodes.length⟩).picks p.2) ∘ Prod.map m.query id) =
      (nodes.zipIdx 1).filter fun p => (predicate ⟨p.1, p.2, nodes.length⟩).picks p.2 := by
    refine List.filter_congr fun p hp => ?_
    have hn : p.1 ∈ nodes := by
      have hmem := List.mem_map_of_mem (f := Prod.fst) hp
      rwa [List.zipIdx_map_fst] at hmem
    simp only [Function.comp_apply, Prod.map, id]
    rw [hsame p.1 hn, Mapping.picks_value]
  exact congrArg (List.map _) hfilter

end Document.Twins

/-! ## Order -/

namespace Document.Rooted

/-- Of two nodes only one comes before the other. -/
theorem not_precedes_of_precedes (h : Rooted doc lay) (htimely : Timely doc) {a b : QueryNode}
    (hab : doc.Precedes a b) : ¬ doc.Precedes b a := by
  obtain ⟨ha, hb⟩ := h.live_of_precedes hab
  intro hba
  have hlt := (h.compare_key_eq_lt_iff htimely ha hb).2 hab
  rw [OrderKey.compare_swap, (h.compare_key_eq_lt_iff htimely hb ha).2 hba] at hlt
  cases hlt

/-- Only one node comes first in a list. -/
theorem eq_of_comesFirst (h : Rooted doc lay) (htimely : Timely doc) {a b : QueryNode}
    {l : List QueryNode} (ha : doc.ComesFirst a l) (hb : doc.ComesFirst b l) : a = b := by
  obtain hba | hab := ha.before b hb.mem
  · exact hba.symm
  · obtain hab' | hba := hb.before a ha.mem
    · exact hab'
    · exact absurd hba (h.not_precedes_of_precedes htimely hab)

end Document.Rooted

namespace Document.Twins

/-- A set that corresponds to a sound set is sorted alike. -/
theorem sort_nodeSet (t : Twins doc doc' lay lay' m) {s : NodeSet} (hs : s.Sound doc) :
    (m.nodeSet s).sort doc'.order false = m.nodeSet (s.sort doc.order false) := by
  have hs' := t.sound_nodeSet hs
  have hsorted := (t.right.sound_sort t.rightTimely hs' false).sorted rfl
  have hsorted' := (t.sound_nodeSet (t.left.sound_sort t.leftTimely hs false)).sorted rfl
  have hperm : ((m.nodeSet s).sort doc'.order false).nodes.Perm
      (m.nodeSet (s.sort doc.order false)).nodes :=
    (NodeSet.perm_sort doc'.order hs'.nodup).trans
      ((NodeSet.perm_sort doc.order hs.nodup).map m.query).symm
  refine congrArg (NodeSet.mk · .sorted) (hperm.eq_of_pairwise ?_ hsorted hsorted')
  exact fun a b _ _ hab hba => absurd hba (t.right.not_precedes_of_precedes t.rightTimely hab)

/-- The first node of a set that corresponds to a sound set. -/
theorem first_nodeSet (t : Twins doc doc' lay lay' m) {s : NodeSet} (hs : s.Sound doc) :
    (m.nodeSet s).first doc'.order = m.query (s.first doc.order) := by
  by_cases hempty : s.nodes = []
  · rw [NodeSet.first_eq_null hempty, NodeSet.first_eq_null (by simp [Mapping.nodeSet, hempty])]
    rfl
  · have hempty' : (m.nodeSet s).nodes ≠ [] := by simpa [Mapping.nodeSet] using hempty
    have hfirst := t.left.comesFirst_first t.leftTimely hs hempty
    refine t.right.eq_of_comesFirst t.rightTimely
      (t.right.comesFirst_first t.rightTimely (t.sound_nodeSet hs) hempty')
      ⟨List.mem_map_of_mem hfirst.mem, fun k hk => ?_⟩
    obtain ⟨n, hn, rfl⟩ := List.mem_map.1 hk
    exact (hfirst.before n hn).imp (congrArg m.query) t.precedes_query

theorem live_first (t : Twins doc doc' lay lay' m) {s : NodeSet} (hs : s.Sound doc) :
    s.first doc.order = .null ∨ doc.Live (s.first doc.order) := by
  by_cases hempty : s.nodes = []
  · exact .inl (NodeSet.first_eq_null hempty)
  · exact .inr (hs.live _ (t.left.comesFirst_first t.leftTimely hs hempty).mem)

/-! ## Texts and numbers of nodes -/

theorem stringValueOf_node (t : Twins doc doc' lay lay' m) {x : NodeId}
    (hx : doc.contains x = true) : doc'.stringValueOf (m.node x) = doc.stringValueOf x := by
  have hbelow : ∀ y ∈ doc.descendants x, doc.contains y = true := fun y hy =>
    (t.left.sound_axisFromNode hx .descendant).live (.node y) (List.mem_map_of_mem hy)
  have hfold : ∀ (ids : List NodeId) (text : String), (∀ y ∈ ids, doc.contains y = true) →
      (ids.map m.node).foldl (fun text d =>
        if (doc'.kind d).isText then text ++ doc'.value d else text) text =
      ids.foldl (fun text d =>
        if (doc.kind d).isText then text ++ doc.value d else text) text := by
    intro ids text hids
    rw [List.foldl_map]
    refine List.foldl_ext _ _ _ fun joined y hy => ?_
    rw [t.same.kind y (hids y hy), t.same.value y (hids y hy)]
  simp only [stringValueOf, t.same.kind x hx, t.same.value x hx, t.descendants_node hx,
    hfold _ _ hbelow]

theorem stringValue_query (t : Twins doc doc' lay lay' m) {n : QueryNode}
    (hn : n = .null ∨ doc.Live n) : doc'.stringValue (m.query n) = doc.stringValue n := by
  obtain rfl | hlive := hn
  · rfl
  rcases n with _ | x | ⟨attr, owner⟩
  · rfl
  · exact t.stringValueOf_node hlive
  · exact t.same.attrValue attr (containsAttr_of_owner? hlive)

theorem numberValue_query (t : Twins doc doc' lay lay' m) {n : QueryNode}
    (hn : n = .null ∨ doc.Live n) : doc'.numberValue (m.query n) = doc.numberValue n := by
  rw [numberValue, numberValue, t.stringValue_query hn]

theorem queryName_query (t : Twins doc doc' lay lay' m) {n : QueryNode}
    (hn : n = .null ∨ doc.Live n) : doc'.queryName (m.query n) = doc.queryName n := by
  obtain rfl | hlive := hn
  · rfl
  rcases n with _ | x | ⟨attr, owner⟩
  · rfl
  · exact t.same.name x hlive
  · exact t.same.attrName attr (containsAttr_of_owner? hlive)

theorem attributeValue?_node (t : Twins doc doc' lay lay' m) {x : NodeId}
    (hx : doc.contains x = true) (name : String) :
    doc'.attributeValue? (m.node x) name = doc.attributeValue? x name := by
  have hthere : ∀ a ∈ doc.attributes x, doc.containsAttr a = true := fun a ha =>
    containsAttr_of_owner? (t.left.mem_attributes.1 ha)
  have hfind : doc'.attributeNamed? (m.node x) name =
      (doc.attributeNamed? x name).map m.attr := by
    rw [attributeNamed?, t.same.attributes x hx, List.find?_map, attributeNamed?]
    refine congrArg (Option.map m.attr) ?_
    rw [← List.head?_filter, ← List.head?_filter]
    refine congrArg List.head? (List.filter_congr fun a ha => ?_)
    rw [Function.comp_apply, t.same.attrName a (hthere a ha)]
  rw [attributeValue?, hfind, attributeValue?]
  cases hnamed : doc.attributeNamed? x name with
  | none => rfl
  | some a => exact congrArg some (t.same.attrValue a (hthere a (List.mem_of_find?_eq_some hnamed)))

theorem inheritedAttribute?_node (t : Twins doc doc' lay lay' m) {x : NodeId}
    (hx : doc.contains x = true) (name : String) :
    doc'.inheritedAttribute? name (m.node x) = doc.inheritedAttribute? name x := by
  rw [inheritedAttribute?, t.ancestors_node hx, ← List.map_cons, List.findSome?_map,
    inheritedAttribute?]
  rw [← List.head?_filterMap, ← List.head?_filterMap]
  refine congrArg List.head? (List.filterMap_congr fun y hy => ?_)
  exact t.attributeValue?_node (t.contains_of_mem_above hx hy) name

theorem namespaceUri_query (t : Twins doc doc' lay lay' m) {n : QueryNode}
    (hn : n = .null ∨ doc.Live n) : doc'.namespaceUri (m.query n) = doc.namespaceUri n := by
  obtain rfl | hlive := hn
  · rfl
  rcases n with _ | x | ⟨attr, owner⟩
  · rfl
  · simp only [Mapping.query, namespaceUri, t.same.kind x hlive, t.same.name x hlive,
      t.inheritedAttribute?_node hlive]
  · have howner : doc.owner? attr = some owner := hlive
    simp only [Mapping.query, namespaceUri, t.same.attrName attr (containsAttr_of_owner? howner),
      t.inheritedAttribute?_node (t.left.contains_owner howner)]

theorem hasLanguage_query (t : Twins doc doc' lay lay' m) {n : QueryNode}
    (hn : n = .null ∨ doc.Live n) (wanted : String) :
    doc'.hasLanguage wanted (m.query n) = doc.hasLanguage wanted n := by
  obtain rfl | hlive := hn
  · rfl
  rcases n with _ | x | ⟨attr, owner⟩
  · rfl
  · simp only [Mapping.query, hasLanguage, t.inheritedAttribute?_node hlive]
  · rfl

/-- The tops of the trees that corresponding nodes stand in. -/
theorem topOf_query (t : Twins doc doc' lay lay' m) {n : QueryNode}
    (hn : n = .null ∨ doc.Live n) : doc'.topOf (m.query n) = (doc.topOf n).map m.node := by
  have hlast : ∀ {x : NodeId}, doc.contains x = true →
      (doc'.ancestors (m.node x)).getLast?.getD (m.node x) =
        m.node ((doc.ancestors x).getLast?.getD x) := by
    intro x hx
    rw [t.ancestors_node hx, List.getLast?_map]
    cases (doc.ancestors x).getLast? <;> rfl
  obtain rfl | hlive := hn
  · rfl
  rcases n with _ | x | ⟨attr, owner⟩
  · rfl
  · have hx : doc.contains x = true := hlive
    simp only [Mapping.query, topOf, t.contains_node hx, hx, if_true, hlast hx, Option.map_some]
  · have hx : doc.contains owner = true := t.left.contains_owner hlive
    simp only [Mapping.query, topOf, t.contains_node hx, hx, if_true, hlast hx, Option.map_some]

/-! ## Values -/

theorem toText_value (t : Twins doc doc' lay lay' m) {v : Value}
    (hv : v.toNodeSet.Sound doc) : (m.value v).toText doc'.order = v.toText doc.order := by
  cases v with
  | nodeSet s =>
    have hs : s.Sound doc := hv
    change doc'.stringValue ((m.nodeSet s).first doc'.order) = doc.stringValue (s.first doc.order)
    rw [t.first_nodeSet hs, t.stringValue_query (t.live_first hs)]
  | _ => rfl

theorem toNumber_value (t : Twins doc doc' lay lay' m) {v : Value}
    (hv : v.toNodeSet.Sound doc) : (m.value v).toNumber doc'.order = v.toNumber doc.order := by
  cases v with
  | nodeSet s => exact congrArg parseNumber (t.toText_value hv)
  | _ => rfl

/-- The texts of the nodes of corresponding sets. -/
theorem map_stringValue (t : Twins doc doc' lay lay' m) {s : NodeSet} (hs : s.Sound doc) :
    (m.nodeSet s).nodes.map doc'.stringValue = s.nodes.map doc.stringValue := by
  refine (List.map_map ..).trans (List.map_congr_left fun n hn => ?_)
  exact t.stringValue_query (.inr (hs.live n hn))

/-- The numbers of the nodes of a set. -/
theorem map_numberValue (t : Twins doc doc' lay lay' m) {s : NodeSet} (hs : s.Sound doc) :
    (m.nodeSet s).nodes.map doc'.numberValue = s.nodes.map doc.numberValue := by
  rw [Mapping.nodeSet, List.map_map]
  exact List.map_congr_left fun n hn => t.numberValue_query (.inr (hs.live n hn))

/-- Whether some node of a set has a property of its text. -/
theorem any_stringValue (t : Twins doc doc' lay lay' m) {s : NodeSet} (hs : s.Sound doc)
    (p : String → Bool) :
    (m.nodeSet s).nodes.any (fun n => p (doc'.stringValue n)) =
      s.nodes.any fun n => p (doc.stringValue n) := by
  have hany := congrArg (List.any · p) (t.map_stringValue hs)
  simpa only [List.any_map, Function.comp_def] using hany

/-! ## Operators and functions -/

theorem compareEqual_value (t : Twins doc doc' lay lay' m) {v w : Value}
    (hv : v.toNodeSet.Sound doc) (hw : w.toNodeSet.Sound doc) (equal : Bool) :
    (m.value v).compareEqual doc'.order equal (m.value w) =
      v.compareEqual doc.order equal w := by
  -- a set against another value, in either order: some node stands in the relation
  have hset : ∀ {s : NodeSet}, s.Sound doc → ∀ {w : Value}, w.toNodeSet.Sound doc →
      (m.value (.nodeSet s)).compareEqual doc'.order equal (m.value w) =
        (Value.nodeSet s).compareEqual doc.order equal w := by
    intro s hs w hw
    cases w with
    | nodeSet u =>
      have hothers : (m.nodeSet u).nodes.map doc'.stringValue = _ := t.map_stringValue hw
      change (m.nodeSet s).nodes.any (fun n => ((m.nodeSet u).nodes.map doc'.stringValue).any
        fun o => (doc'.stringValue n == o) == equal) = _
      rw [hothers]
      exact t.any_stringValue hs fun text => (u.nodes.map doc.stringValue).any
        fun o => (text == o) == equal
    | boolean b => exact congrArg (fun x => (x == b) == equal) (m.toBoolean_value (.nodeSet s))
    | number x => exact t.any_stringValue hs fun text => (parseNumber text == x) == equal
    | string text => exact t.any_stringValue hs fun text' => (text' == text) == equal
  cases v with
  | nodeSet s => exact hset hv hw
  | _ =>
    cases w with
    | nodeSet u => exact hset (s := u) hw hv
    | _ => rfl

theorem compareNumbers_value (t : Twins doc doc' lay lay' m) {v w : Value}
    (hv : v.toNodeSet.Sound doc) (hw : w.toNodeSet.Sound doc) (holds : Float → Float → Bool) :
    (m.value v).compareNumbers doc'.order holds (m.value w) =
      v.compareNumbers doc.order holds w := by
  have hnumbers : ∀ {v : Value}, v.toNodeSet.Sound doc →
      (m.value v).comparedNumbers doc'.order = v.comparedNumbers doc.order := by
    intro v hv
    cases v with
    | nodeSet s =>
      rw [Mapping.value, Value.comparedNumbers, Value.comparedNumbers, doc_order, doc_order]
      exact t.map_numberValue hv
    | _ => rfl
  rw [Value.compareNumbers, Value.compareNumbers, hnumbers hv, hnumbers hw]

theorem apply_binary (t : Twins doc doc' lay lay' m) {v w : Value} (op : BinaryOp)
    (hv : v.toNodeSet.Sound doc) (hw : w.toNodeSet.Sound doc) :
    op.apply doc'.order (m.value v) (m.value w) = m.value (op.apply doc.order v w) := by
  cases op with
  | union =>
    rw [BinaryOp.apply, BinaryOp.apply, m.toNodeSet_value, m.toNodeSet_value,
      t.union_nodeSet hv hw]
    rfl
  | _ =>
    simp only [BinaryOp.apply, m.toBoolean_value, t.toNumber_value hv, t.toNumber_value hw,
      t.compareEqual_value hv hw, t.compareNumbers_value hv hw]
    rfl

/-- The node and the text that a function is about. -/
theorem subject_values (t : Twins doc doc' lay lay' m) {ctx : Context} {vs : List Value}
    (hctx : ctx.node = .null ∨ doc.Live ctx.node) (hvs : ∀ v ∈ vs, v.toNodeSet.Sound doc) :
    CoreFunction.subject doc'.order (m.context ctx) (vs.map m.value) =
        m.query (CoreFunction.subject doc.order ctx vs) ∧
      (CoreFunction.subject doc.order ctx vs = .null ∨
        doc.Live (CoreFunction.subject doc.order ctx vs)) ∧
      CoreFunction.subjectText doc'.order (m.context ctx) (vs.map m.value) =
        CoreFunction.subjectText doc.order ctx vs := by
  cases vs with
  | nil => exact ⟨rfl, hctx, t.stringValue_query hctx⟩
  | cons v vs =>
    have hv := hvs v List.mem_cons_self
    refine ⟨?_, t.live_first hv, t.toText_value hv⟩
    rw [List.map_cons, CoreFunction.subject, m.toNodeSet_value, t.first_nodeSet hv]
    rfl

/-- The sum of the numbers of the nodes of corresponding sets. -/
theorem sum_nodeSet (t : Twins doc doc' lay lay' m) {s : NodeSet} (hs : s.Sound doc)
    (start : Float) :
    (m.nodeSet s).nodes.foldl (fun total n => total + doc'.numberValue n) start =
      s.nodes.foldl (fun total n => total + doc.numberValue n) start := by
  refine (List.foldl_map ..).trans (List.foldl_ext _ _ _ fun total n hn => ?_)
  rw [t.numberValue_query (.inr (hs.live n hn))]

/-- A function of corresponding values at corresponding places. -/
theorem apply_call (t : Twins doc doc' lay lay' m) {ctx : Context} {vs : List Value}
    (f : CoreFunction) (hctx : ctx.node = .null ∨ doc.Live ctx.node)
    (hvs : ∀ v ∈ vs, v.toNodeSet.Sound doc) :
    f.apply doc'.order (m.context ctx) (vs.map m.value) =
      m.value (f.apply doc.order ctx vs) := by
  obtain ⟨hsubject, hlive, htext⟩ := t.subject_values hctx hvs
  have htexts : ∀ v ∈ vs, (m.value v).toText doc'.order = v.toText doc.order := fun v hv =>
    t.toText_value (hvs v hv)
  have hnumbers : ∀ v ∈ vs, (m.value v).toNumber doc'.order = v.toNumber doc.order := fun v hv =>
    t.toNumber_value (hvs v hv)
  cases f with
  | last | position | id | alwaysTrue | alwaysFalse => rfl
  | localName | name =>
    simp only [CoreFunction.apply, hsubject, doc_order, t.queryName_query hlive]
    rfl
  | namespaceUri =>
    simp only [CoreFunction.apply, hsubject, doc_order, t.namespaceUri_query hlive]
    rfl
  | string | stringLength | normalizeSpace =>
    simp only [CoreFunction.apply, htext]
    rfl
  | concat =>
    simp only [CoreFunction.apply, List.foldl_map]
    refine congrArg Value.string (List.foldl_ext _ _ _ fun joined v hv => ?_)
    rw [htexts v hv]
  | number =>
    cases vs with
    | nil => exact congrArg Value.number (t.numberValue_query hctx)
    | cons v vs => exact congrArg Value.number (hnumbers v List.mem_cons_self)
  -- the functions of one value
  | count | sum | boolean | not | lang | floor | ceiling | round =>
    match vs with
    | [] => rfl
    | [v] =>
      have hv := hvs v (by simp)
      simp only [List.map_cons, List.map_nil, CoreFunction.apply, m.toNodeSet_value,
        m.length_nodeSet, m.toBoolean_value, htexts v (by simp), hnumbers v (by simp), doc_order,
        t.sum_nodeSet hv, Mapping.context, t.hasLanguage_query hctx]
      rfl
    | _ :: _ :: _ => rfl
  -- the functions of two or three values
  | startsWith | contains | substringBefore | substringAfter | translate | substring =>
    match vs with
    | [] => rfl
    | [_] => rfl
    | [v, w] =>
      simp only [List.map_cons, List.map_nil, CoreFunction.apply, htexts v (by simp),
        htexts w (by simp), hnumbers w (by simp)]
      rfl
    | [v, w, x] =>
      simp only [List.map_cons, List.map_nil, CoreFunction.apply, htexts v (by simp),
        htexts w (by simp), htexts x (by simp), hnumbers w (by simp), hnumbers x (by simp)]
      rfl
    | _ :: _ :: _ :: _ :: _ => rfl

/-! ## Expressions -/

/-- Expressions without variables evaluate to sound sets. -/
theorem sound_evalAll (t : Twins doc doc' lay lay' m) (values : VariableStore) {es : List Expr}
    (hrefs : Expr.refsAll es = []) {ctx : Context}
    (hctx : ctx.node = .null ∨ doc.Live ctx.node) :
    ∀ v ∈ Expr.evalAll ⟨doc.order, values⟩ es ctx, v.toNodeSet.Sound doc := by
  induction es with
  | nil => exact List.forall_mem_nil _
  | cons e es ih =>
    obtain ⟨he, hes⟩ := List.append_eq_nil_iff.1 hrefs
    rw [Expr.evalAll, List.forall_mem_cons]
    exact ⟨t.left.sound_eval t.leftTimely values e he ctx hctx, ih hes⟩

mutual

/-- The value of an expression without variables is the same in both documents, up to where
its nodes are found. -/
theorem eval_expr (t : Twins doc doc' lay lay' m) (values values' : VariableStore) (e : Expr)
    (hrefs : e.refs = []) (ctx : Context) (hctx : ctx.node = .null ∨ doc.Live ctx.node) :
    e.eval ⟨doc'.order, values'⟩ (m.context ctx) = m.value (e.eval ⟨doc.order, values⟩ ctx) := by
  match e with
  | .root =>
    rw [Expr.eval, Expr.eval]
    change Value.nodeSet ⟨(doc'.topOf (m.query ctx.node)).toList.map .node, .sorted⟩ = _
    rw [t.topOf_query hctx]
    cases htop : doc.topOf ctx.node with
    | none => simp [Environment.doc, doc_order, htop, Mapping.value, Mapping.nodeSet]
    | some x => simp [Environment.doc, doc_order, htop, Mapping.value, Mapping.nodeSet,
        Mapping.query]
  | .step axis test predicates =>
    have hlive := (t.left.sound_axisNodes hctx axis test).live
    rw [Expr.eval, Expr.eval]
    change Value.nodeSet ⟨Expr.pickByAll _ predicates (doc'.axisNodes axis test
      (m.query ctx.node)), axis.order⟩ = _
    rw [t.axisNodes_query hctx, t.pickByAll_map values values' predicates hrefs _ hlive]
    rfl
  | .path input axis test predicates =>
    obtain ⟨hinput, hpredicates⟩ := List.append_eq_nil_iff.1 hrefs
    let sources := (input.eval ⟨doc.order, values⟩ ctx).toNodeSet
    let lists := fun n => Expr.pickByAll ⟨doc.order, values⟩ predicates (doc.axisNodes axis test n)
    have hsound : sources.Sound doc :=
      t.left.sound_eval t.leftTimely values input hinput ctx hctx
    have hstep : ∀ n ∈ sources.nodes, ∀ k ∈ doc.axisNodes axis test n, doc.Live k := fun n hn =>
      (t.left.sound_axisNodes (.inr (hsound.live n hn)) axis test).live
    have hlists : (m.nodeSet sources).nodes.map (fun n =>
        Expr.pickByAll ⟨doc'.order, values'⟩ predicates (doc'.axisNodes axis test n)) =
          (sources.nodes.map lists).map (List.map m.query) := by
      refine (List.map_map ..).trans ((List.map_congr_left fun n hn => ?_).trans
        (List.map_map ..).symm)
      rw [Function.comp_apply, t.axisNodes_query (.inr (hsound.live n hn))]
      exact t.pickByAll_map values values' predicates hpredicates _ (hstep n hn)
    have hlive : ∀ k ∈ (sources.nodes.map lists).flatten, doc.Live k := by
      intro k hk
      obtain ⟨l, hl, hk⟩ := List.mem_flatten.1 hk
      obtain ⟨n, hn, rfl⟩ := List.mem_map.1 hl
      exact hstep n hn k ((Expr.pickByAll_sublist _ _ _).subset hk)
    rw [Expr.eval, Expr.eval, t.eval_expr values values' input hinput ctx hctx,
      m.toNodeSet_value]
    change Value.nodeSet (axis.gather sources.order ((m.nodeSet sources).nodes.map fun n =>
      Expr.pickByAll ⟨doc'.order, values'⟩ predicates (doc'.axisNodes axis test n))) = _
    rw [hlists, t.gather_map hlive]
    rfl
  | .filter base predicates =>
    obtain ⟨hbase, hpredicates⟩ := List.append_eq_nil_iff.1 hrefs
    let set := (base.eval ⟨doc.order, values⟩ ctx).toNodeSet
    have hsound : set.Sound doc := t.left.sound_eval t.leftTimely values base hbase ctx hctx
    rw [Expr.eval, Expr.eval, t.eval_expr values values' base hbase ctx hctx,
      m.toNodeSet_value]
    change Value.nodeSet ⟨Expr.pickByAll _ predicates
      (if set.order = .sorted then m.nodeSet set
        else (m.nodeSet set).sort doc'.order false).nodes, .sorted⟩ =
      m.value (.nodeSet ⟨Expr.pickByAll _ predicates
        (if set.order = .sorted then set else set.sort doc.order false).nodes, .sorted⟩)
    rw [t.sort_nodeSet hsound, ← apply_ite m.nodeSet]
    have hlive : ∀ n ∈ (if set.order = .sorted then set else set.sort doc.order false).nodes,
        doc.Live n := by
      split
      · exact hsound.live
      · exact (t.left.sound_sort t.leftTimely hsound false).live
    exact congrArg (fun nodes => Value.nodeSet ⟨nodes, .sorted⟩)
      (t.pickByAll_map values values' predicates hpredicates _ hlive)
  | .call f arguments =>
    rw [Expr.eval, Expr.eval, t.evalAll_map values values' arguments hrefs ctx hctx]
    exact t.apply_call f hctx (t.sound_evalAll values hrefs hctx)
  | .binary op left right =>
    obtain ⟨hleft, hright⟩ := List.append_eq_nil_iff.1 hrefs
    rw [Expr.eval_binary, Expr.eval_binary, t.eval_expr values values' left hleft ctx hctx,
      t.eval_expr values values' right hright ctx hctx]
    exact t.apply_binary op (t.left.sound_eval t.leftTimely values left hleft ctx hctx)
      (t.left.sound_eval t.leftTimely values right hright ctx hctx)
  | .negate operand =>
    rw [Expr.eval, Expr.eval, t.eval_expr values values' operand hrefs ctx hctx]
    exact congrArg (fun x => Value.number (-x)) (t.toNumber_value
      (t.left.sound_eval t.leftTimely values operand hrefs ctx hctx))
  | .number x | .string s | .boolean b =>
    rw [Expr.eval, Expr.eval]
    rfl
  | .variable ref => cases hrefs

theorem evalAll_map (t : Twins doc doc' lay lay' m) (values values' : VariableStore)
    (es : List Expr) (hrefs : Expr.refsAll es = []) (ctx : Context)
    (hctx : ctx.node = .null ∨ doc.Live ctx.node) :
    Expr.evalAll ⟨doc'.order, values'⟩ es (m.context ctx) =
      (Expr.evalAll ⟨doc.order, values⟩ es ctx).map m.value := by
  match es with
  | [] => rfl
  | e :: es =>
    obtain ⟨he, hes⟩ := List.append_eq_nil_iff.1 hrefs
    rw [Expr.evalAll, Expr.evalAll, List.map_cons, t.eval_expr values values' e he ctx hctx,
      t.evalAll_map values values' es hes ctx hctx]

/-- Predicates pick corresponding nodes. -/
theorem pickByAll_map (t : Twins doc doc' lay lay' m) (values values' : VariableStore)
    (predicates : List Expr) (hrefs : Expr.refsAll predicates = []) (nodes : List QueryNode)
    (hlive : ∀ n ∈ nodes, doc.Live n) :
    Expr.pickByAll ⟨doc'.order, values'⟩ predicates (nodes.map m.query) =
      (Expr.pickByAll ⟨doc.order, values⟩ predicates nodes).map m.query := by
  match predicates with
  | [] => rfl
  | p :: ps =>
    obtain ⟨hp, hps⟩ := List.append_eq_nil_iff.1 hrefs
    rw [Expr.pickByAll, Expr.pickByAll, pickBy_map fun n hn i size =>
      t.eval_expr values values' p hp ⟨n, i, size⟩ (.inr (hlive n hn))]
    exact t.pickByAll_map values values' ps hps _ fun n hn =>
      hlive n ((pickBy_sublist _ _).subset hn)

end

/-- The readings of a query without variables. -/
theorem readings_query (t : Twins doc doc' lay lay' m) (values values' : VariableStore)
    (q : Query) (hrefs : q.refs = []) {start : QueryNode}
    (hstart : start = .null ∨ doc.Live start) :
    q.readings ⟨doc'.order, values'⟩ (m.query start) =
      m.readings (q.readings ⟨doc.order, values⟩ start) := by
  cases houtcome : q.outcome with
  | error fault =>
    have hexpr : q.expr? = none := by rw [Query.expr?, houtcome]
    simp only [Query.readings, Query.value?, hexpr, houtcome, Option.map_none, Option.elim_none,
      Mapping.readings, Except.map]
  | ok e =>
    have hexpr : q.expr? = some e := by rw [Query.expr?, houtcome]
    have herefs : e.refs = [] := by rwa [Query.refs, hexpr] at hrefs
    have hsound := t.left.sound_eval t.leftTimely values e herefs (.only start) hstart
    have heval : e.eval ⟨doc'.order, values'⟩ (.only (m.query start)) =
        m.value (e.eval ⟨doc.order, values⟩ (.only start)) :=
      t.eval_expr values values' e herefs (.only start) hstart
    simp only [Query.readings, Query.value?, hexpr, houtcome, Option.map_some, Option.elim_some,
      heval, m.toBoolean_value, m.toNodeSet_value, t.toNumber_value hsound,
      t.toText_value hsound, Mapping.readings]
    by_cases htype : e.type = .nodeSet
    · simp only [htype, if_true, Except.map, t.first_nodeSet hsound]
    · simp only [htype, if_false, Except.map]

end Document.Twins

/-! ## Whatever was done -/

/-- Two documents answer alike whatever refers to no variable: values are equal, and nodes
correspond one for one, in the same order and with the same tag. -/
structure Document.AnswerAlike (doc doc' : Document) (m : Mapping) : Prop where
  eval : ∀ (e : Expr) (ctx : Context) (values values' : VariableStore), e.refs = [] →
    (ctx.node = .null ∨ doc.Live ctx.node) →
    e.eval ⟨doc'.order, values'⟩ (m.context ctx) = m.value (e.eval ⟨doc.order, values⟩ ctx)
  readings : ∀ (q : Query) (start : QueryNode) (values values' : VariableStore), q.refs = [] →
    (start = .null ∨ doc.Live start) →
    q.readings ⟨doc'.order, values'⟩ (m.query start) =
      m.readings (q.readings ⟨doc.order, values⟩ start)

/-- Documents with the same tree answer alike, whatever was done to get there. -/
theorem Document.reachable_answerAlike (hdoc : Reachable doc) (hdoc' : Reachable doc')
    (hsame : SameTree doc doc' m) : AnswerAlike doc doc' m := by
  obtain ⟨lay, hrooted⟩ := hdoc.whole
  obtain ⟨lay', hrooted'⟩ := hdoc'.whole
  have htwins : Twins doc doc' lay lay' m :=
    ⟨hrooted, hrooted', hdoc.timely, hdoc'.timely, hsame⟩
  exact
  { eval := fun e ctx values values' hrefs hctx =>
      htwins.eval_expr values values' e hrefs ctx hctx
    readings := fun q start values values' hrefs hstart =>
      htwins.readings_query values values' q hrefs hstart }

/-- That two trees are the same can be told along the walk through the one. -/
theorem Document.SameTree.of_preorder (hdoc : Reachable doc) (hroot : m.node doc.root = doc'.root)
    (hnodes : ∀ x ∈ doc.preorder, doc'.kind (m.node x) = doc.kind x ∧
      doc'.name (m.node x) = doc.name x ∧ doc'.value (m.node x) = doc.value x ∧
      doc'.children (m.node x) = (doc.children x).map m.node ∧
      doc'.attributes (m.node x) = (doc.attributes x).map m.attr ∧
      ∀ a ∈ doc.attributes x, doc'.attrName (m.attr a) = doc.attrName a ∧
        doc'.attrValue (m.attr a) = doc.attrValue a) : SameTree doc doc' m := by
  obtain ⟨lay, hrooted⟩ := hdoc.whole
  have hwalk : ∀ {x}, doc.contains x = true → x ∈ doc.preorder := hrooted.mem_preorder.2
  have howned : ∀ {a}, doc.containsAttr a = true →
      doc'.attrName (m.attr a) = doc.attrName a ∧ doc'.attrValue (m.attr a) = doc.attrValue a := by
    intro a ha
    obtain ⟨p, hp⟩ := hrooted.owned ha
    exact (hnodes p (hwalk (hrooted.contains_owner hp))).2.2.2.2.2 a (hrooted.mem_attributes.2 hp)
  exact
  { root := hroot
    kind := fun x hx => (hnodes x (hwalk hx)).1
    name := fun x hx => (hnodes x (hwalk hx)).2.1
    value := fun x hx => (hnodes x (hwalk hx)).2.2.1
    children := fun x hx => (hnodes x (hwalk hx)).2.2.2.1
    attributes := fun x hx => (hnodes x (hwalk hx)).2.2.2.2.1
    attrName := fun a ha => (howned ha).1
    attrValue := fun a ha => (howned ha).2 }

/-- Where the nodes of a tree that was put together are found in the tree of its markup. -/
def relocated : Mapping :=
  ⟨fun x =>
    if x = ⟨⟨0, 1⟩⟩ then ⟨⟨0, 2⟩⟩
    else if x = ⟨⟨3, 1⟩⟩ then ⟨⟨2, 1⟩⟩
    else if x = ⟨⟨2, 2⟩⟩ then ⟨⟨3, 1⟩⟩
    else x,
    id⟩

theorem answerAlike_shuffled :
    SameTree (Document.new.applyAll shuffled)
        (Document.new.applyAll [.loadString "<a><b k='v'/><c/></a>" .default]) relocated ∧
      AnswerAlike (Document.new.applyAll shuffled)
        (Document.new.applyAll [.loadString "<a><b k='v'/><c/></a>" .default]) relocated := by
  have hdoc : Reachable (Document.new.applyAll shuffled) := Reachable.new.applyAll (by decide)
  have hdoc' : Reachable
      (Document.new.applyAll [.loadString "<a><b k='v'/><c/></a>" .default]) :=
    Reachable.new.applyAll (by decide)
  have hsame : SameTree (Document.new.applyAll shuffled)
      (Document.new.applyAll [.loadString "<a><b k='v'/><c/></a>" .default]) relocated :=
    .of_preorder hdoc (by decide +kernel) (by decide +kernel)
  exact ⟨hsame, reachable_answerAlike hdoc hdoc' hsame⟩

end XmlTree
