/-
  Proofs/TreeView.lean --- the ordered tree that a document stands for, and edits of it.

  WHAT THIS FILE IS FOR.  A document keeps its lists as links between records and its texts
  as slots.  Its view keeps neither: under each handle that leads somewhere it has a kind,
  texts, what stands above, and plain lists.  Here every edit is said on views, where it is
  a matter of putting a member into a plain list, or taking one out.

  THE FRAME.  What an edit of a view does not name it leaves alone, for a view is a function
  of the handle and an edit changes it at the handles that it names.
-/
import Mathlib.Algebra.Group.Nat.Defs
import XmlTree.Change
import XmlTree.Proofs.Forest

set_option autoImplicit false

namespace XmlTree

/-- What can be asked of a node. -/
structure NodeView where
  kind : NodeKind
  name : String
  value : String
  parent : Option NodeId
  children : List NodeId
  attributes : List AttrId
  deriving DecidableEq, Repr

/-- What can be asked of an attribute. -/
structure AttrView where
  name : String
  value : String
  owner : Option NodeId
  deriving DecidableEq, Repr

/-- What stands under each handle, if anything does. -/
@[ext]
structure TreeView where
  node : NodeId → Option NodeView
  attr : AttrId → Option AttrView

/-- What can be asked of a document. -/
def Document.view (doc : Document) : TreeView where
  node x :=
    if doc.contains x then
      some ⟨doc.kind x, doc.name x, doc.value x, doc.parent? x, doc.children x, doc.attributes x⟩
    else
      none
  attr a :=
    if doc.containsAttr a then some ⟨doc.attrName a, doc.attrValue a, doc.owner? a⟩ else none

/-- A node that stands nowhere and has nothing below it. -/
def NodeView.leaf (kind : NodeKind) (name value : String) : NodeView :=
  ⟨kind, name, value, none, [], []⟩

/-- The place refers to a member of the list, if it refers to any. -/
def Place.Within {α : Type} (place : Place α) (xs : List α) : Prop :=
  ∀ r, place.reference? = some r → r ∈ xs

/-! ## Order -/

namespace Place

variable {α : Type} [DecidableEq α] {x r : α} {xs : List α}

theorem erase_insertBefore (h : x ∉ xs) : (insertBefore r x xs).erase x = xs := by
  induction xs with
  | nil => simp [insertBefore]
  | cons y ys ih =>
    have hyx : ¬ (y == x) = true := by
      intro heq
      exact h (by simp [beq_iff_eq.1 heq])
    have hys := ih fun hmem => h (List.mem_cons_of_mem y hmem)
    rw [insertBefore]
    split
    · rw [List.erase_cons_head]
    · rw [List.erase_cons_tail hyx, hys]

theorem erase_insertAfter (h : x ∉ xs) : (insertAfter r x xs).erase x = xs := by
  induction xs with
  | nil => simp [insertAfter]
  | cons y ys ih =>
    have hyx : ¬ (y == x) = true := by
      intro heq
      exact h (by simp [beq_iff_eq.1 heq])
    have hys := ih fun hmem => h (List.mem_cons_of_mem y hmem)
    rw [insertAfter]
    split
    · rw [List.erase_cons_tail hyx, List.erase_cons_head]
    · rw [List.erase_cons_tail hyx, hys]

/-- What is put at a place leaves the others in their order. -/
theorem erase_insert (place : Place α) (h : x ∉ xs) : (place.insert x xs).erase x = xs := by
  cases place with
  | first => exact List.erase_cons_head (a := x) (l := xs)
  | last =>
    show (xs ++ [x]).erase x = xs
    rw [List.erase_append_right _ h, List.erase_cons_head, List.append_nil]
  | before r => exact erase_insertBefore h
  | after r => exact erase_insertAfter h

end Place

/-- Taking a member out is keeping all the others. -/
theorem erase_eq_filter_notMem {α : Type} [DecidableEq α] {x : α} {xs : List α}
    (h : xs.Nodup) : xs.erase x = xs.filter (· ∉ [x]) := by
  rw [h.erase_eq_filter]
  refine List.filter_congr fun y _ => ?_
  by_cases hy : y = x <;> simp [hy]

namespace TreeView

variable {v w u : TreeView} {id parent owner : NodeId} {a : AttrId}

/-! ## Reading a view -/

/-- What stands above a node. -/
def parent? (v : TreeView) (x : NodeId) : Option NodeId := (v.node x).bind (·.parent)

/-- Whom an attribute belongs to. -/
def owner? (v : TreeView) (a : AttrId) : Option NodeId := (v.attr a).bind (·.owner)

/-- The name of a node, empty when there is none. -/
def name (v : TreeView) (x : NodeId) : String := (v.node x).elim "" (·.name)

/-- The name of an attribute, empty when there is none. -/
def attrName (v : TreeView) (a : AttrId) : String := (v.attr a).elim "" (·.name)

/-! ## Steps of an edit -/

/-- Changes what stands under the handle of a node. -/
def modify (v : TreeView) (id : NodeId) (f : NodeView → NodeView) : TreeView :=
  { v with node := fun x => (v.node x).map fun n => if x = id then f n else n }

/-- Changes what stands under the handle of an attribute. -/
def modifyAttr (v : TreeView) (id : AttrId) (f : AttrView → AttrView) : TreeView :=
  { v with attr := fun a => (v.attr a).map fun r => if a = id then f r else r }

/-- Puts a node under a handle. -/
def addNode (v : TreeView) (id : NodeId) (n : NodeView) : TreeView :=
  { v with node := fun x => if x = id then some n else v.node x }

/-- Puts an attribute under a handle. -/
def addAttr (v : TreeView) (id : AttrId) (r : AttrView) : TreeView :=
  { v with attr := fun a => if a = id then some r else v.attr a }

/-- Puts a node at a place among the children of `parent`. -/
def attach (v : TreeView) (parent : NodeId) (place : Place NodeId) (id : NodeId) : TreeView :=
  { v with
    node := fun x => (v.node x).map fun n =>
      { n with
        parent := if x = id then some parent else n.parent
        children := if x = parent then place.insert id n.children else n.children } }

/-- Takes a node out of the children of `parent`. -/
def detach (v : TreeView) (parent id : NodeId) : TreeView :=
  { v with
    node := fun x => (v.node x).map fun n =>
      { n with
        parent := if x = id then none else n.parent
        children := if x = parent then n.children.erase id else n.children } }

/-- Puts an attribute at a place among those of `owner`. -/
def attachAttr (v : TreeView) (owner : NodeId) (place : Place AttrId) (id : AttrId) : TreeView where
  node x := (v.node x).map fun n =>
    { n with attributes := if x = owner then place.insert id n.attributes else n.attributes }
  attr a := (v.attr a).map fun r =>
    { r with owner := if a = id then some owner else r.owner }

/-- Puts a new attribute at a place among those of `owner`. -/
def insertAttr (v : TreeView) (owner : NodeId) (place : Place AttrId) (id : AttrId)
    (name value : String) : TreeView :=
  (v.addAttr id ⟨name, value, none⟩).attachAttr owner place id

/-- Takes an attribute of `owner` away. -/
def dropAttr (v : TreeView) (owner : NodeId) (id : AttrId) : TreeView where
  node x := (v.node x).map fun n =>
    { n with attributes := if x = owner then n.attributes.erase id else n.attributes }
  attr a := if a = id then none else v.attr a

/-- Takes children of `parent` out of the list that they stand in. -/
def thin (v : TreeView) (parent : NodeId) (cs : List NodeId) : TreeView :=
  { v with
    node := fun x => (v.node x).map fun n =>
      { n with
        children := if x = parent then n.children.filter (· ∉ cs) else n.children } }

theorem node_thin (v : TreeView) (parent : NodeId) (cs : List NodeId) (x : NodeId) :
    (v.thin parent cs).node x = (v.node x).map fun n =>
      { n with
        children := if x = parent then n.children.filter (· ∉ cs) else n.children } := rfl

/-- Nothing is changed where nothing stands. -/
theorem modify_eq_self (h : v.node id = none) {f : NodeView → NodeView} : v.modify id f = v := by
  ext1
  · funext x
    by_cases hx : x = id
    · simp [modify, hx, h]
    · simp [modify, hx]
  · rfl

/-! A node or attribute that was just put under its handle is changed. -/

theorem modify_addNode (v : TreeView) (id : NodeId) (n : NodeView) (f : NodeView → NodeView) :
    (v.addNode id n).modify id f = v.addNode id (f n) := by
  ext1
  · funext x
    by_cases hx : x = id <;> simp [modify, addNode, hx]
  · rfl

theorem modifyAttr_addAttr (v : TreeView) (a : AttrId) (r : AttrView) (f : AttrView → AttrView) :
    (v.addAttr a r).modifyAttr a f = v.addAttr a (f r) := by
  ext1
  · rfl
  · funext y
    by_cases hy : y = a <;> simp [modifyAttr, addAttr, hy]

/-- The texts of a node may be changed before or after it is put somewhere. -/
theorem modify_attach (v : TreeView) (parent : NodeId) (place : Place NodeId) (id : NodeId)
    (name value : NodeView → String)
    (htexts : ∀ n p cs, name { n with parent := p, children := cs } = name n ∧
      value { n with parent := p, children := cs } = value n) :
    (v.attach parent place id).modify id (fun n => { n with name := name n, value := value n }) =
      (v.modify id fun n => { n with name := name n, value := value n }).attach parent place id := by
  ext1
  · funext x
    simp only [modify, attach, Option.map_map]
    refine congrArg (fun k => Option.map k (v.node x)) (funext fun n => ?_)
    by_cases hx : x = id
    · simp only [Function.comp_apply, hx, if_true, htexts]
    · simp only [Function.comp_apply, hx, if_false]
  · rfl

/-- Some children of `parent` are taken away with all that stands below them. -/
structure Removal (v : TreeView) (parent : NodeId) (cs : List NodeId) (w : TreeView) : Prop where
  /-- neither they nor what stands below them is there any longer -/
  node_gone : ∀ {c x}, c ∈ cs → Below v.parent? c x → w.node x = none
  /-- all other nodes are as they were, but that `parent` has fewer children -/
  node_kept : ∀ {x}, (∀ c ∈ cs, ¬ Below v.parent? c x) →
    w.node x = (v.thin parent cs).node x
  /-- the attributes of the nodes that are gone are gone -/
  attr_gone : ∀ {c p a}, c ∈ cs → Below v.parent? c p → v.owner? a = some p → w.attr a = none
  attr_kept : ∀ {a}, (∀ p, v.owner? a = some p → ∀ c ∈ cs, ¬ Below v.parent? c p) →
    w.attr a = v.attr a

namespace Removal

variable {c : NodeId} {cs : List NodeId}

/-- Nothing is taken away. -/
theorem nil (v : TreeView) (parent : NodeId) : v.Removal parent [] v where
  node_gone hc := by cases hc
  node_kept {x} _ := by
    have hthin : v.thin parent [] = v := by simp [thin]
    rw [hthin]
  attr_gone hc := by cases hc
  attr_kept _ := rfl

/-- What is not below the children that are taken away stands where it stood. -/
theorem parent?_eq (h : v.Removal parent cs w) {x : NodeId}
    (hx : ∀ c ∈ cs, ¬ Below v.parent? c x) : w.parent? x = v.parent? x := by
  rw [TreeView.parent?, h.node_kept hx, node_thin, TreeView.parent?]
  cases v.node x <;> rfl

/-- What stands below a node does not change if a child that has nothing in common with it is
taken away. -/
theorem below_iff (h : v.Removal parent [c] w) {top : NodeId}
    (hapart : ∀ x, Below v.parent? top x → ¬ Below v.parent? c x) {x : NodeId} :
    Below w.parent? top x ↔ Below v.parent? top x := by
  constructor
  · intro hx
    refine hx.mono fun {y p} hp => ?_
    by_cases hy : Below v.parent? c y
    · rw [TreeView.parent?, h.node_gone (List.mem_singleton_self c) hy] at hp
      cases hp
    · rwa [h.parent?_eq (by simpa using hy)] at hp
  · intro hx
    induction hx with
    | self => exact .self
    | @step y p hp habove ih =>
      refine .step ?_ ih
      rw [h.parent?_eq (by simpa using hapart y (.step hp habove)), hp]

/-- Children are taken away one after the other. -/
theorem cons (h : v.Removal parent [c] u) (h' : u.Removal parent cs w)
    (hapart : ∀ d ∈ cs, ∀ x, Below v.parent? d x → ¬ Below v.parent? c x) :
    v.Removal parent (c :: cs) w := by
  have hbelow : ∀ d ∈ cs, ∀ x, Below u.parent? d x ↔ Below v.parent? d x :=
    fun d hd x => h.below_iff (hapart d hd)
  refine ⟨fun {d x} hd hx => ?_, fun {x} hx => ?_, fun {d p a} hd hp ha => ?_,
    fun {a} ha => ?_⟩
  · obtain rfl | hd := List.mem_cons.1 hd
    · have hgone : u.node x = none := h.node_gone (List.mem_singleton_self d) hx
      by_cases hlater : ∃ e ∈ cs, Below u.parent? e x
      · obtain ⟨e, he, hex⟩ := hlater
        exact h'.node_gone he hex
      · rw [h'.node_kept fun e he hex => hlater ⟨e, he, hex⟩, node_thin, hgone]
        rfl
    · exact h'.node_gone hd ((hbelow d hd x).2 hx)
  · obtain ⟨hc, hcs⟩ := List.forall_mem_cons.1 hx
    have hfirst : u.node x = (v.thin parent [c]).node x := h.node_kept (by simpa using hc)
    rw [h'.node_kept fun d hd hdx => hcs d hd ((hbelow d hd x).1 hdx), node_thin, hfirst,
      node_thin, node_thin, Option.map_map]
    refine Option.map_congr fun n _ => ?_
    by_cases hparent : x = parent
    · simp [hparent, List.filter_filter, Bool.and_comm]
    · simp [hparent]
  · obtain rfl | hd := List.mem_cons.1 hd
    · have hgone : u.attr a = none := h.attr_gone (List.mem_singleton_self d) hp ha
      have hkept : w.attr a = u.attr a := h'.attr_kept fun q hq => by
        rw [TreeView.owner?, hgone] at hq
        cases hq
      rw [hkept, hgone]
    · have hkept : u.attr a = v.attr a := h.attr_kept fun q hq e he => by
        rw [ha] at hq
        rw [List.mem_singleton.1 he, ← Option.some.inj hq]
        exact hapart d hd p hp
      refine h'.attr_gone hd ((hbelow d hd p).2 hp) ?_
      rw [TreeView.owner?, hkept]
      exact ha
  · have hkept : u.attr a = v.attr a := h.attr_kept fun p hp e he => by
      obtain rfl := List.mem_singleton.1 he
      exact ha p hp e (by simp)
    rw [← hkept]
    refine h'.attr_kept fun p hp d hd hdp => ?_
    rw [TreeView.owner?, hkept] at hp
    exact ha p hp d (by simp [hd]) ((hbelow d hd p).1 hdp)

/-- A new leaf that is taken away again leaves nothing behind. -/
theorem eq_of_leaf {kind : NodeKind} {name value : String} {place : Place NodeId} {n : NodeView}
    (hparent : v.node parent = some n) (hid : v.node id = none)
    (hnodup : (place.insert id n.children).Nodup) (hchild : id ∉ n.children)
    (hparents : ∀ x, v.parent? x ≠ some id) (howners : ∀ a, v.owner? a ≠ some id)
    (h : ((v.addNode id (.leaf kind name value)).attach parent place id).Removal parent [id] w) :
    w = v := by
  have hne : parent ≠ id := by
    rintro rfl
    rw [hid] at hparent
    cases hparent
  have hnode : ∀ x, ((v.addNode id (.leaf kind name value)).attach parent place id).node x =
      (if x = id then some (.leaf kind name value) else v.node x).map fun n =>
        { n with
          parent := if x = id then some parent else n.parent
          children := if x = parent then place.insert id n.children else n.children } :=
    fun _ => rfl
  -- nothing stands below the leaf but itself
  have hbelow : ∀ {x}, Below
      ((v.addNode id (.leaf kind name value)).attach parent place id).parent? id x → x = id := by
    intro x hx
    induction hx with
    | self => rfl
    | @step y p hp _ ih =>
      rw [ih, TreeView.parent?, hnode] at hp
      by_cases hy : y = id
      · rw [if_pos hy] at hp
        simp only [Option.map_some, hy, if_true, Option.bind_some] at hp
        exact absurd (Option.some.inj hp) hne
      · refine absurd ?_ (hparents y)
        rw [if_neg hy] at hp
        rw [TreeView.parent?, ← hp]
        cases v.node y with
        | none => rfl
        | some n => simp only [Option.map_some, Option.bind_some, hy, if_false]
  ext1
  · funext x
    by_cases hx : x = id
    · rw [hx, h.node_gone (List.mem_singleton_self id) .self, hid]
    · have hkept := h.node_kept (x := x) fun c hc hbelow' =>
        hx (hbelow (List.mem_singleton.1 hc ▸ hbelow'))
      rw [hkept, node_thin, hnode, if_neg hx, Option.map_map]
      by_cases hxparent : x = parent
      · rw [hxparent, hparent]
        simp only [Option.map_some, Function.comp_apply, hne, if_false, if_true,
          ← erase_eq_filter_notMem hnodup, place.erase_insert hchild]
      · simp only [Function.comp_def, hx, hxparent, if_false]
        exact Option.map_id'
  · funext a
    refine h.attr_kept fun p hp c hc hbelow' => ?_
    obtain rfl := List.mem_singleton.1 hc
    exact howners a (hp.trans (congrArg some (hbelow hbelow')))

end Removal

/-- All that was there is still there as it was. -/
structure Within (v w : TreeView) : Prop where
  node : ∀ {x n}, v.node x = some n → w.node x = some n
  attr : ∀ {a r}, v.attr a = some r → w.attr a = some r

namespace Within

theorem refl (v : TreeView) : v.Within v := ⟨id, id⟩

/-- What is not there now was not there before. -/
theorem node_eq_none (h : v.Within w) (hid : w.node id = none) : v.node id = none := by
  cases hold : v.node id with
  | none => rfl
  | some n =>
    rw [h.node hold] at hid
    cases hid

theorem attr_eq_none (h : v.Within w) (ha : w.attr a = none) : v.attr a = none := by
  cases hold : v.attr a with
  | none => rfl
  | some r =>
    rw [h.attr hold] at ha
    cases ha

/-- Only what is new is changed. -/
theorem of_new (h : v.Within w) (hnode : ∀ x, v.node x ≠ none → u.node x = w.node x)
    (hattr : ∀ a, v.attr a ≠ none → u.attr a = w.attr a) : v.Within u where
  node {x n} hn := by
    rw [hnode x (by rw [hn]; exact Option.some_ne_none n)]
    exact h.node hn
  attr {a r} hr := by
    rw [hattr a (by rw [hr]; exact Option.some_ne_none r)]
    exact h.attr hr

theorem addNode (h : v.Within w) (hid : v.node id = none) (n : NodeView) :
    v.Within (w.addNode id n) := by
  refine h.of_new (fun x hx => ?_) fun _ _ => rfl
  have hne : x ≠ id := fun heq => hx (heq ▸ hid)
  simp [TreeView.addNode, hne]

theorem addAttr (h : v.Within w) (ha : v.attr a = none) (r : AttrView) :
    v.Within (w.addAttr a r) := by
  refine h.of_new (fun _ _ => rfl) fun y hy => ?_
  have hne : y ≠ a := fun heq => hy (heq ▸ ha)
  simp [TreeView.addAttr, hne]

theorem attach (h : v.Within w) (hparent : v.node parent = none) (hid : v.node id = none)
    (place : Place NodeId) : v.Within (w.attach parent place id) := by
  refine h.of_new (fun x hx => ?_) fun _ _ => rfl
  have hne : x ≠ parent := fun heq => hx (heq ▸ hparent)
  have hne' : x ≠ id := fun heq => hx (heq ▸ hid)
  simp [TreeView.attach, hne, hne']

theorem attachAttr (h : v.Within w) (howner : v.node owner = none) (ha : v.attr a = none)
    (place : Place AttrId) : v.Within (w.attachAttr owner place a) := by
  refine h.of_new (fun x hx => ?_) fun y hy => ?_
  · have hne : x ≠ owner := fun heq => hx (heq ▸ howner)
    simp [TreeView.attachAttr, hne]
  · have hne : y ≠ a := fun heq => hy (heq ▸ ha)
    simp [TreeView.attachAttr, hne]

end Within

/-- Nothing that was there is touched, and all that is new hangs below one new node, which
stands nowhere. -/
structure Sprouts (v w : TreeView) (id : NodeId) : Prop where
  within : v.Within w
  fresh : v.node id = none
  top : ∃ n, w.node id = some n ∧ n.parent = none
  below : ∀ {x}, v.node x = none → w.node x ≠ none → Below w.parent? id x
  owned : ∀ {a}, v.attr a = none → w.attr a ≠ none →
    ∃ p, w.owner? a = some p ∧ Below w.parent? id p

end TreeView

/-! ## Edits -/

/-- Changes of a document that is there: all but those that load a text or begin anew. -/
def Change.isEdit : Change → Bool
  | loadString .. | loadBytes .. | loadFetched .. | appendBytes .. | reset | resetFrom _ => false
  | _ => true

/-- Answers of an edit that was not carried out. -/
def Outcome.refused : Outcome → Bool
  | node none | attr none | done false => true
  | _ => false

/-- What an edit makes of a view, and what it answers. -/
inductive TreeView.Edited (v : TreeView) : Change → Outcome → TreeView → Prop where
  /-- an edit that is not carried out changes nothing -/
  | refused {c : Change} {o : Outcome} (ho : o.refused = true) : Edited v c o v
  /-- but for the child that was made for a text that is too long to be kept in it -/
  | refusedContent {id child : NodeId} {text : String} {n : NodeView} (hid : v.node id = some n)
      (hkind : n.kind.allowsChild .pcdata = true) (hnew : v.node child = none)
      (hlong : ¬ text.utf8ByteSize < 2 ^ 32) :
      Edited v (.setContent id text) (.done false)
        ((v.addNode child (.leaf .pcdata "" "")).attach id .last child)
  /-- a declaration is born with its name -/
  | insertChild {parent id : NodeId} {kind : NodeKind} {place : Place NodeId} {n : NodeView}
      (hparent : v.node parent = some n) (hkind : n.kind.allowsChild kind = true)
      (hplace : place.Within n.children) (hnew : v.node id = none) :
      Edited v (.insertChild parent kind place) (.node (some id))
        ((v.addNode id (.leaf kind (if kind = .declaration then "xml" else "") "")).attach
          parent place id)
  | insertElement {parent id : NodeId} {name : String} {place : Place NodeId} {n : NodeView}
      (hparent : v.node parent = some n) (hkind : n.kind.allowsChild .element = true)
      (hplace : place.Within n.children) (hnew : v.node id = none) :
      Edited v (.insertElement parent name place) (.node (some id))
        ((v.addNode id (.leaf .element name "")).attach parent place id)
  /-- a copy is made outside of the tree and then put in -/
  | insertCopy {parent proto id : NodeId} {place : Place NodeId} {n : NodeView} {w : TreeView}
      (hparent : v.node parent = some n) (hplace : place.Within n.children)
      (hcopy : v.Sprouts w id) :
      Edited v (.insertCopy parent proto place) (.node (some id)) (w.attach parent place id)
  | insertCopyFrom {parent proto id : NodeId} {source : Document} {place : Place NodeId}
      {n : NodeView} {w : TreeView} (hparent : v.node parent = some n)
      (hplace : place.Within n.children) (hcopy : v.Sprouts w id) :
      Edited v (.insertCopyFrom parent source proto place) (.node (some id))
        (w.attach parent place id)
  /-- the place is one among the children without the moved one -/
  | insertMove {parent moved old : NodeId} {place : Place NodeId} {n : NodeView}
      (hparent : v.node parent = some n) (hold : v.parent? moved = some old)
      (hnot : ¬ Below v.parent? moved parent) (hplace : place.Within (n.children.erase moved)) :
      Edited v (.insertMove parent moved place) (.node (some moved))
        ((v.detach old moved).attach parent place moved)
  | removeChild {parent child : NodeId} {w : TreeView} (hchild : v.parent? child = some parent)
      (hgone : v.Removal parent [child] w) : Edited v (.removeChild parent child) (.done true) w
  | removeChildNamed {parent child : NodeId} {name : String} {n : NodeView} {w : TreeView}
      (hparent : v.node parent = some n) (hchild : child ∈ n.children)
      (hname : v.name child = name)
      (hfirst : name ≠ "" → n.children.find? (fun c => v.name c == name) = some child)
      (hgone : v.Removal parent [child] w) :
      Edited v (.removeChildNamed parent name) (.done true) w
  | removeChildren {parent : NodeId} {n : NodeView} {w : TreeView}
      (hparent : v.node parent = some n) (hgone : v.Removal parent n.children w) :
      Edited v (.removeChildren parent) (.done true) w
  | insertAttribute {owner : NodeId} {name value : String} {place : Place AttrId} {a : AttrId}
      {n : NodeView} (howner : v.node owner = some n) (hkind : n.kind.hasAttributes = true)
      (hplace : place.Within n.attributes) (hnew : v.attr a = none) :
      Edited v (.insertAttribute owner name value place) (.attr (some a))
        (v.insertAttr owner place a name value)
  | insertAttributeCopy {owner : NodeId} {proto a : AttrId} {place : Place AttrId}
      {n : NodeView} {r : AttrView} (hproto : v.attr proto = some r)
      (howner : v.node owner = some n) (hkind : n.kind.hasAttributes = true)
      (hplace : place.Within n.attributes) (hnew : v.attr a = none) :
      Edited v (.insertAttributeCopy owner proto place) (.attr (some a))
        (v.insertAttr owner place a r.name r.value)
  /-- the first attribute with the name gets the value -/
  | setAttribute {owner : NodeId} {name value : String} {a : AttrId} {n : NodeView}
      (howner : v.node owner = some n)
      (hfirst : n.attributes.find? (fun a => v.attrName a == name) = some a) :
      Edited v (.setAttribute owner name value) (.attr (some a))
        (v.modifyAttr a fun r => { r with value })
  /-- there is none with the name, and one is made at the end -/
  | setNewAttribute {owner : NodeId} {name value : String} {a : AttrId} {n : NodeView}
      (howner : v.node owner = some n) (hkind : n.kind.hasAttributes = true)
      (hnone : n.attributes.find? (fun a => v.attrName a == name) = none)
      (hnew : v.attr a = none) :
      Edited v (.setAttribute owner name value) (.attr (some a))
        (v.insertAttr owner .last a name value)
  | removeAttribute {owner : NodeId} {a : AttrId} {n : NodeView}
      (howner : v.node owner = some n) (hmem : a ∈ n.attributes) :
      Edited v (.removeAttribute owner a) (.done true) (v.dropAttr owner a)
  | removeAttributeNamed {owner : NodeId} {name : String} {a : AttrId} {n : NodeView}
      (howner : v.node owner = some n)
      (hfirst : n.attributes.find? (fun a => v.attrName a == name) = some a) :
      Edited v (.removeAttributeNamed owner name) (.done true) (v.dropAttr owner a)
  | removeAttributes {owner : NodeId} {n : NodeView} (howner : v.node owner = some n) :
      Edited v (.removeAttributes owner) (.done true)
        (n.attributes.foldl (fun v a => v.dropAttr owner a) v)
  | setName {id : NodeId} {name : String} {n : NodeView} (hid : v.node id = some n)
      (hkind : n.kind.hasName = true) :
      Edited v (.setName id name) (.done true) (v.modify id fun n => { n with name })
  | setValue {id : NodeId} {value : String} {n : NodeView} (hid : v.node id = some n)
      (hkind : n.kind.hasValue = true) :
      Edited v (.setValue id value) (.done true) (v.modify id fun n => { n with value })
  /-- the text of a node stands in the node itself, or in a child that is text -/
  | setContent {id holder : NodeId} {text : String} {n : NodeView} (hid : v.node id = some n)
      (hholder : holder = id ∨ holder ∈ n.children) :
      Edited v (.setContent id text) (.done true)
        (v.modify holder fun n => { n with value := text })
  /-- or it gets a child for it at the end -/
  | setNewContent {id child : NodeId} {text : String} {n : NodeView} (hid : v.node id = some n)
      (hkind : n.kind.allowsChild .pcdata = true) (hnew : v.node child = none) :
      Edited v (.setContent id text) (.done true)
        ((v.addNode child (.leaf .pcdata "" text)).attach id .last child)
  | setAttrName {a : AttrId} {name : String} {r : AttrView} (ha : v.attr a = some r) :
      Edited v (.setAttrName a name) (.done true) (v.modifyAttr a fun r => { r with name })
  | setAttrValue {a : AttrId} {value : String} {r : AttrView} (ha : v.attr a = some r) :
      Edited v (.setAttrValue a value) (.done true) (v.modifyAttr a fun r => { r with value })

end XmlTree
