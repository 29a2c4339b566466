/-
  Proofs/Paths.lean --- following the path of a node.

  WHAT THIS FILE IS FOR.  A path names a node by the names on the way down to it, and several
  nodes may have the same path.  Following a path tries the children of a name one after the
  other, each with all that the rest of the path leads to from there, so it looks through the
  nodes of that path in document order and answers the first of them.

  HOW IT IS SHOWN.  What some names lead to from a node is a list, and the search answers its
  head.  The list is part of the walk through the tree, and it holds exactly the nodes that
  have these names on the way down to them.
-/
import XmlTree.Document.Lookup
import XmlTree.Proofs.DocumentOrder
import XmlTree.Proofs.Naming
import XmlTree.Proofs.Walks

set_option autoImplicit false

namespace XmlTree

/-- A name that stands between delimiters for a child of that name. -/
structure PathName (delimiter : Char) (name : String) : Prop where
  ne_empty : name ≠ ""
  apart : delimiter ∉ name.toList
  ne_stay : name ≠ "."
  ne_up : name ≠ ".."

instance (delimiter : Char) (name : String) : Decidable (PathName delimiter name) :=
  decidable_of_iff
    (name ≠ "" ∧ delimiter ∉ name.toList ∧ name ≠ "." ∧ name ≠ "..")
    ⟨fun ⟨hempty, hapart, hstay, hup⟩ => ⟨hempty, hapart, hstay, hup⟩,
      fun h => ⟨h.ne_empty, h.apart, h.ne_stay, h.ne_up⟩⟩

namespace Document

variable {doc : Document} {lay : Layout} {x c p : NodeId} {name : String} {names : List String}

/-- The names of a node and of the nodes above it, its own first. -/
def lineage (doc : Document) (id : NodeId) : List String :=
  (id :: doc.ancestors id).map doc.name

/-- The names on the way down from the document node to a node. -/
def namesTo (doc : Document) (id : NodeId) : List String :=
  ((id :: doc.ancestors id).dropLast.map doc.name).reverse

/-- All nodes that names lead to from a node, in document order. -/
def reached (doc : Document) : List String → NodeId → List NodeId
  | [], id => [id]
  | name :: names, id => (doc.childrenNamed id name).flatMap (reached doc names)

/-! ## The search -/

/-- The search for children of given names answers the first node that they lead to. -/
theorem follow?_child (names : List String) (id : NodeId) :
    doc.follow? (names.map .child) id = (doc.reached names id).head? := by
  induction names generalizing id with
  | nil => rfl
  | cons name names ih =>
    rw [List.map_cons, follow?, reached, List.head?_flatMap]
    exact congrArg (List.findSome? · (doc.childrenNamed id name)) (funext ih)

/-- One more name leads to children of what the names before it lead to. -/
theorem reached_append_singleton (names : List String) (name : String) (id : NodeId) :
    doc.reached (names ++ [name]) id =
      (doc.reached names id).flatMap fun y => doc.childrenNamed y name := by
  induction names generalizing id with
  | nil => simp [reached]
  | cons first names ih =>
    rw [List.cons_append, reached, reached, List.flatMap_assoc]
    exact congrArg (List.flatMap · (doc.childrenNamed id first)) (funext ih)

theorem mem_childrenNamed : c ∈ doc.childrenNamed p name ↔
    c ∈ doc.children p ∧ doc.hasName name c = true := by
  rw [childrenNamed, List.mem_filter]

namespace LaidOut

theorem lineage_eq_cons (h : LaidOut doc lay) (hp : doc.parent? c = some p) :
    doc.lineage c = doc.name c :: doc.lineage p := by
  rw [lineage, h.ancestors_eq_cons hp, List.map_cons, lineage]

theorem namesTo_eq_append (h : LaidOut doc lay) (hp : doc.parent? c = some p) :
    doc.namesTo c = doc.namesTo p ++ [doc.name c] := by
  rw [namesTo, h.ancestors_eq_cons hp, List.dropLast_cons_cons, List.map_cons, List.reverse_cons,
    namesTo]

/-- What names lead to comes in the order of the walk. -/
theorem reached_sublist (h : LaidOut doc lay) (hp : doc.contains p = true) :
    (doc.reached names p).Sublist (doc.subtree p) := by
  induction names generalizing p with
  | nil =>
    rw [reached, h.subtree_eq hp]
    exact List.singleton_sublist.2 List.mem_cons_self
  | cons name names ih =>
    have hlive : ∀ c ∈ doc.childrenNamed p name, doc.contains c = true := by
      intro c hc
      exact contains_of_parent? (h.mem_children.1 (mem_childrenNamed.1 hc).1)
    have hparts : ((doc.childrenNamed p name).flatMap (doc.reached names)).Sublist
        ((doc.childrenNamed p name).flatMap doc.subtree) :=
      List.Sublist.flatMap_right _ fun c hc => ih (hlive c hc)
    have hall : ((doc.childrenNamed p name).flatMap doc.subtree).Sublist
        ((doc.children p).flatMap doc.subtree) :=
      List.filter_sublist.flatMap _
    rw [reached, h.subtree_eq hp, h.descendants_eq]
    exact (hparts.trans hall).cons p

/-- What names lead to has these names on the way down to it. -/
theorem lineage_of_mem_reached (h : LaidOut doc lay) (hx : x ∈ doc.reached names p) :
    doc.lineage x = names.reverse ++ doc.lineage p := by
  induction names generalizing p with
  | nil =>
    rw [List.mem_singleton.1 hx]
    rfl
  | cons name names ih =>
    rw [reached, List.mem_flatMap] at hx
    obtain ⟨c, hc, hx⟩ := hx
    obtain ⟨hchild, hname⟩ := mem_childrenNamed.1 hc
    calc doc.lineage x = names.reverse ++ doc.lineage c := ih hx
      _ = names.reverse ++ (name :: doc.lineage p) := by
        rw [h.lineage_eq_cons (h.mem_children.1 hchild), name_of_hasName hname]
      _ = (name :: names).reverse ++ doc.lineage p := by simp

end LaidOut

namespace Rooted

/-- The way up from a node ends at the document node. -/
theorem way_up_eq (h : Rooted doc lay) (hx : doc.contains x = true) :
    x :: doc.ancestors x = (x :: doc.ancestors x).dropLast ++ [doc.root] := by
  obtain ⟨hreads, -, hmem⟩ := h.reads_ancestors hx
  have hne : x :: doc.ancestors x ≠ [] := List.cons_ne_nil x _
  have hlive : doc.contains ((x :: doc.ancestors x).getLast hne) = true :=
    h.contains_above hx ((hmem _).2 (List.getLast_mem hne))
  have hroot := h.top_eq hlive (hreads.next_getLast (List.getLast?_eq_some_getLast hne))
  rw [← hroot, List.dropLast_concat_getLast]

theorem lineage_eq (h : Rooted doc lay) (hx : doc.contains x = true) :
    doc.lineage x = (doc.namesTo x).reverse ++ [doc.name doc.root] := by
  rw [lineage, h.way_up_eq hx, List.map_append, namesTo, List.reverse_reverse]
  rfl

/-- A name on the way down to a node is the name of one that is not the document node. -/
theorem exists_of_mem_namesTo (h : Rooted doc lay) (hx : doc.contains x = true)
    (hname : name ∈ doc.namesTo x) :
    ∃ y ∈ x :: doc.ancestors x, y ≠ doc.root ∧ doc.name y = name := by
  obtain ⟨-, hnodup, -⟩ := h.reads_ancestors hx
  rw [namesTo, List.mem_reverse, List.mem_map] at hname
  obtain ⟨y, hy, rfl⟩ := hname
  rw [h.way_up_eq hx, List.nodup_append'] at hnodup
  refine ⟨y, List.dropLast_subset _ hy, ?_, rfl⟩
  rintro rfl
  exact hnodup.2.2 hy List.mem_cons_self

/-- The names on the way down to a node lead to it, among others. -/
theorem mem_reached_namesTo (h : Rooted doc lay) (hx : doc.contains x = true)
    (hnames : ∀ name ∈ doc.namesTo x, name ≠ "") :
    x ∈ doc.reached (doc.namesTo x) doc.root := by
  have hbelow := h.below_root hx
  clear hx
  induction hbelow with
  | self =>
    rw [namesTo, LaidOut.ancestors_eq_nil h.parent?_root]
    exact List.mem_cons_self
  | @step c p hp _ ih =>
    rw [h.namesTo_eq_append hp] at hnames ⊢
    rw [reached_append_singleton, List.mem_flatMap]
    refine ⟨p, ih fun name hname => hnames name (List.mem_append_left _ hname), ?_⟩
    have hne : doc.name c ≠ "" := hnames _ (by simp)
    rw [mem_childrenNamed, hasName_eq hne, beq_self_eq_true]
    exact ⟨h.mem_children.2 hp, rfl⟩

/-- Names lead from the document node to exactly the nodes with these names on the way down. -/
theorem mem_reached_iff (h : Rooted doc lay) (hnames : ∀ name ∈ names, name ≠ "") :
    x ∈ doc.reached names doc.root ↔ doc.contains x = true ∧ doc.namesTo x = names := by
  constructor
  · intro hx
    have hlive : doc.contains x = true := by
      have hmem := (h.reached_sublist h.contains_root).subset hx
      exact h.mem_preorder.1 hmem
    refine ⟨hlive, ?_⟩
    have hlineage := h.lineage_of_mem_reached hx
    rw [h.lineage_eq hlive, lineage, LaidOut.ancestors_eq_nil h.parent?_root] at hlineage
    exact List.reverse_injective (List.append_cancel_right hlineage)
  · rintro ⟨hlive, rfl⟩
    exact h.mem_reached_namesTo hlive hnames

/-- Nodes have the same names above them if they have the same names on the way down. -/
theorem namesTo_eq_iff (h : Rooted doc lay) {y : NodeId} (hx : doc.contains x = true)
    (hy : doc.contains y = true) :
    doc.namesTo x = doc.namesTo y ↔ doc.lineage x = doc.lineage y := by
  rw [h.lineage_eq hx, h.lineage_eq hy, List.append_left_inj, List.reverse_inj]

end Rooted

/-! ## The first node -/

/-- In a list without repetitions places grow along a part of it. -/
theorem idxOf_lt_of_sublist {α : Type} [DecidableEq α] {a b : α} {l : List α} (hl : l.Nodup)
    (hab : [a, b].Sublist l) : l.idxOf a < l.idxOf b := by
  obtain ⟨before, after, rfl, ha, hb⟩ := List.cons_sublist_iff.1 hab
  have hb' : b ∉ before := fun hmem =>
    (List.nodup_append'.1 hl).2.2 hmem (List.singleton_sublist.1 hb)
  rw [List.idxOf_append_of_mem ha, List.idxOf_append_of_notMem hb']
  exact Nat.lt_of_lt_of_le (List.idxOf_lt_length_of_mem ha) (Nat.le_add_right _ _)

/-- What comes earlier in the walk comes earlier in document order. -/
theorem Rooted.compareOrder_eq_lt (h : Rooted doc lay) (htimely : Timely doc) {a b : NodeId}
    (hab : [a, b].Sublist doc.preorder) : doc.compareOrder a b = .lt := by
  have ha : doc.contains a = true := h.mem_preorder.1 (hab.subset (by simp))
  have hb : doc.contains b = true := h.mem_preorder.1 (hab.subset (by simp))
  rw [h.compareOrder_eq htimely ha hb]
  exact Nat.compare_eq_lt.2 (idxOf_lt_of_sublist h.preorder_nodup hab)

/-! ## The text of a path -/

variable {delimiter : Char}

/-- A path is read as the names that it was written from. -/
theorem ofPath_intercalate (hnames : ∀ name ∈ names, PathName delimiter name) :
    PathStep.ofPath delimiter ([delimiter].intercalate ([] :: names.map String.toList)) =
      if names = [] then [] else .root :: names.map .child := by
  have hapart : ∀ cs ∈ [] :: names.map String.toList, delimiter ∉ cs := by
    intro cs hcs
    obtain rfl | hcs := List.mem_cons.1 hcs
    · exact List.not_mem_nil
    · obtain ⟨name, hname, rfl⟩ := List.mem_map.1 hcs
      exact (hnames name hname).apart
  have hkept : (names.map String.toList).filter (fun cs => !cs.isEmpty) =
      names.map String.toList := by
    refine List.filter_eq_self.2 fun cs hcs => ?_
    obtain ⟨name, hname, rfl⟩ := List.mem_map.1 hcs
    simpa using (hnames name hname).ne_empty
  have hread : pathNames delimiter ([delimiter].intercalate ([] :: names.map String.toList)) =
      names.map String.toList := by
    rw [pathNames, List.splitOn_intercalate delimiter hapart (List.cons_ne_nil _ _),
      List.filter_cons_of_neg (by simp), hkept]
  have hsteps : (names.map String.toList).map PathStep.ofName = names.map .child := by
    rw [List.map_map]
    refine List.map_congr_left fun name hname => ?_
    have hstay : name.toList ≠ ['.'] := fun heq =>
      (hnames name hname).ne_stay (String.toList_injective heq)
    have hup : name.toList ≠ ['.', '.'] := fun heq =>
      (hnames name hname).ne_up (String.toList_injective heq)
    rw [Function.comp_apply, PathStep.ofName, if_neg hstay, if_neg hup, String.ofList_toList]
  rw [PathStep.ofPath, hread, hsteps]
  cases names with
  | nil => rfl
  | cons name names => simp

theorem Rooted.toList_path (h : Rooted doc lay) (hx : doc.contains x = true)
    (hroot : doc.name doc.root = "") :
    (doc.path x delimiter).toList =
      [delimiter].intercalate ([] :: (doc.namesTo x).map String.toList) := by
  have hnames : (x :: doc.ancestors x).reverse.map doc.name = "" :: doc.namesTo x := by
    rw [List.map_reverse, ← lineage, h.lineage_eq hx, hroot, List.reverse_append,
      List.reverse_reverse]
    rfl
  rw [path, if_pos hx, hnames, String.toList_intercalate, String.toList_singleton, List.map_cons,
    String.toList_empty]

/-- Following the path of a node leads to the first node with the same names on the way
down. -/
theorem Rooted.nodeAtPath?_path (h : Rooted doc lay) (hx : doc.contains x = true)
    (hroot : doc.name doc.root = "") (hnames : ∀ name ∈ doc.namesTo x, PathName delimiter name) :
    doc.nodeAtPath? doc.root (doc.path x delimiter) delimiter =
      (doc.reached (doc.namesTo x) doc.root).head? := by
  rw [nodeAtPath?, if_pos h.contains_root, h.toList_path hx hroot, ofPath_intercalate hnames]
  split
  · rename_i hnone
    rw [hnone]
    rfl
  · rw [follow?, follow?_child]

/-- Whatever was done to a document, following the path of a node leads to a node with the same
names above it, and to the first such node in document order. -/
theorem reachable_nodeAtPath (h : Reachable doc) (hx : doc.contains x = true)
    (hnames : ∀ y ∈ x :: doc.ancestors x, y ≠ doc.root → PathName delimiter (doc.name y)) :
    ∃ m, doc.nodeAtPath? doc.root (doc.path x delimiter) delimiter = some m ∧
      doc.contains m = true ∧ doc.lineage m = doc.lineage x ∧
      ∀ y, doc.contains y = true → doc.lineage y = doc.lineage x →
        y = m ∨ doc.compareOrder m y = .lt := by
  obtain ⟨lay, hrooted⟩ := h.whole
  have hpathNames : ∀ name ∈ doc.namesTo x, PathName delimiter name := by
    intro name hname
    obtain ⟨y, hy, hne, rfl⟩ := hrooted.exists_of_mem_namesTo hx hname
    exact hnames y hy hne
  have hiff : ∀ {y}, y ∈ doc.reached (doc.namesTo x) doc.root ↔
      doc.contains y = true ∧ doc.namesTo y = doc.namesTo x :=
    hrooted.mem_reached_iff fun name hname => (hpathNames name hname).ne_empty
  rw [hrooted.nodeAtPath?_path hx h.name_root hpathNames]
  have hsublist : (doc.reached (doc.namesTo x) doc.root).Sublist doc.preorder :=
    hrooted.reached_sublist hrooted.contains_root
  cases hreached : doc.reached (doc.namesTo x) doc.root with
  | nil =>
    have hmem := hiff.2 ⟨hx, rfl⟩
    rw [hreached] at hmem
    cases hmem
  | cons m rest =>
    rw [hreached] at hsublist hiff
    obtain ⟨hm, hmnames⟩ := hiff.1 List.mem_cons_self
    refine ⟨m, rfl, hm, (hrooted.namesTo_eq_iff hm hx).1 hmnames, fun y hy hlineage => ?_⟩
    obtain rfl | hrest :=
      List.mem_cons.1 (hiff.2 ⟨hy, (hrooted.namesTo_eq_iff hy hx).2 hlineage⟩)
    · exact .inl rfl
    · have hpair : [m, y].Sublist doc.preorder :=
        ((List.singleton_sublist.2 hrest).cons_cons m).trans hsublist
      exact .inr (hrooted.compareOrder_eq_lt h.timely hpair)

/-- Two elements of one name below another one, where only the second holds what is looked for,
and holds it twice. -/
def namesakes : List Change :=
  [.insertElement ⟨⟨0, 1⟩⟩ "a" .last, .insertElement ⟨⟨1, 1⟩⟩ "b" .last,
    .insertElement ⟨⟨2, 1⟩⟩ "c" .last, .insertElement ⟨⟨1, 1⟩⟩ "b" .last,
    .insertElement ⟨⟨4, 1⟩⟩ "d" .last, .insertElement ⟨⟨4, 1⟩⟩ "d" .first]

/-- The search turns back at the first child of the name, and the path of the later namesake
leads to the earlier one. -/
theorem nodeAtPath_namesakes :
    (new.applyAll namesakes).path ⟨⟨5, 1⟩⟩ '/' = "/a/b/d" ∧
      (new.applyAll namesakes).nodeAtPath? (new.applyAll namesakes).root "/a/b/d" '/' =
        some ⟨⟨6, 1⟩⟩ ∧
      ∃ m, (new.applyAll namesakes).nodeAtPath? (new.applyAll namesakes).root
          ((new.applyAll namesakes).path ⟨⟨5, 1⟩⟩ '/') '/' = some m ∧
        (new.applyAll namesakes).contains m = true ∧
        (new.applyAll namesakes).lineage m = (new.applyAll namesakes).lineage ⟨⟨5, 1⟩⟩ ∧
        ∀ y, (new.applyAll namesakes).contains y = true →
          (new.applyAll namesakes).lineage y = (new.applyAll namesakes).lineage ⟨⟨5, 1⟩⟩ →
            y = m ∨ (new.applyAll namesakes).compareOrder m y = .lt :=
  ⟨by decide +kernel, by decide +kernel,
    reachable_nodeAtPath (Reachable.new.applyAll (by decide)) (by decide +kernel)
      (by decide +kernel)⟩

end Document

end XmlTree
