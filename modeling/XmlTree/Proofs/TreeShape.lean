/-
  Proofs/TreeShape.lean --- every document is one tree.

  WHAT THIS FILE IS FOR.  Here the invariant of documents is said in terms of what can be
  asked of a document: first and last child, next and previous sibling, parent, and the
  same for attributes.  It holds whatever is done to a document, with whatever handles.
-/
import XmlTree.Change
import XmlTree.Proofs.Loading

set_option autoImplicit false

namespace XmlTree

/-! ## What a tree is -/

/-- A linked list with its first and last member: read forwards it is finite, has no
member twice and ends at the last one; read backwards it is the same the other way
round. -/
structure ListLaws {α : Type} (first last : Option α) (next previous : α → Option α)
    (members : List α) : Prop where
  forwards : Reads next first members
  nodup : members.Nodup
  ends : last = members.getLast?
  backwards : Reads previous last members.reverse

namespace Document

/-- The nodes of a document form one tree below the document node, and each attribute
stands among those of one node. -/
structure IsTree (doc : Document) : Prop where
  root_contains : doc.contains doc.root = true
  root_top : doc.parent? doc.root = none
  childLists : ∀ p, ListLaws (doc.firstChild? p) (doc.lastChild? p) doc.nextSibling?
    doc.previousSibling? (doc.children p)
  /-- every node but the document node stands in one list, that of its parent -/
  child : ∀ c, doc.contains c = true → c ≠ doc.root → ∃ p, doc.parent? c = some p ∧
    doc.contains p = true ∧ c ∈ doc.children p ∧ ∀ q, c ∈ doc.children q → q = p
  /-- what stands in a list is there, and is not the document node -/
  listed : ∀ p c, c ∈ doc.children p → doc.contains c = true ∧ c ≠ doc.root
  /-- the way up from every node ends at the document node -/
  upwards : ∀ c, doc.contains c = true → ∃ path, Reads doc.parent? (doc.parent? c) path ∧
    (c :: path).getLast? = some doc.root
  attributeLists : ∀ p, ListLaws (doc.firstAttribute? p) (doc.lastAttribute? p)
    doc.nextAttribute? doc.previousAttribute? (doc.attributes p)
  /-- every attribute stands in one list, that of its owner -/
  owned : ∀ a, doc.containsAttr a = true → ∃ p, doc.owner? a = some p ∧
    doc.contains p = true ∧ a ∈ doc.attributes p ∧ ∀ q, a ∈ doc.attributes q → q = p
  listedAttributes : ∀ p a, a ∈ doc.attributes p → doc.containsAttr a = true
  /-- the document node is the only node of its kind -/
  document_iff : ∀ x, doc.contains x = true → (doc.kind x = .document ↔ x = doc.root)
  kind_ne_null : ∀ x, doc.contains x = true → doc.kind x ≠ .null
  parents : ∀ p c, c ∈ doc.children p → doc.kind p = .document ∨ doc.kind p = .element
  tops : ∀ c, doc.kind c = .declaration ∨ doc.kind c = .doctype → doc.parent? c = some doc.root
  owners : ∀ p a, a ∈ doc.attributes p → doc.kind p = .element ∨ doc.kind p = .declaration

variable {doc : Document} {lay : Layout}

/-! ## From the invariant -/

theorem kind_of_hasChildren {k : NodeKind} (h : k.hasChildren = true) :
    k = .document ∨ k = .element := by
  cases k <;> simp_all [NodeKind.hasChildren]

theorem kind_of_hasAttributes {k : NodeKind} (h : k.hasAttributes = true) :
    k = .element ∨ k = .declaration := by
  cases k <;> simp_all [NodeKind.hasAttributes]

theorem hasChildren_of_allowsChild {p c : NodeKind} (h : p.allowsChild c = true) :
    p.hasChildren = true := (Bool.and_eq_true_iff.1 h).1

theorem child_kind_of_allowsChild {p c : NodeKind} (h : p.allowsChild c = true) :
    c ≠ .null ∧ c ≠ .document ∧ (c = .declaration ∨ c = .doctype → p = .document) := by
  cases c <;> simp_all [NodeKind.allowsChild]

namespace Rooted

theorem childListLaws (h : Rooted doc lay) (p : NodeId) :
    ListLaws (doc.firstChild? p) (doc.lastChild? p) doc.nextSibling? doc.previousSibling?
      (doc.children p) := by
  have hspells := h.childLists.spells p
  rw [h.children_eq, firstChild?_eq, lastChild?_eq]
  exact ⟨hspells.reads_forwards fun x _ => nextSibling?_eq x, h.childLists.nodup p,
    hspells.last, hspells.reads_backwards fun x _ => previousSibling?_eq x⟩

theorem attributeListLaws (h : Rooted doc lay) (p : NodeId) :
    ListLaws (doc.firstAttribute? p) (doc.lastAttribute? p) doc.nextAttribute?
      doc.previousAttribute? (doc.attributes p) := by
  have hspells := h.attrLists.spells p
  rw [h.attributes_eq, firstAttribute?_eq, lastAttribute?_eq]
  exact ⟨hspells.reads_forwards fun x _ => nextAttribute?_eq x, h.attrLists.nodup p,
    hspells.last, hspells.reads_backwards fun x _ => previousAttribute?_eq x⟩

/-- The way up ends where it cannot go on, and that is the document node only. -/
theorem upwards (h : Rooted doc lay) {c : NodeId} (hc : doc.contains c = true) :
    ∃ path, Reads doc.parent? (doc.parent? c) path ∧ (c :: path).getLast? = some doc.root := by
  obtain ⟨hreads, -, hmem⟩ := h.reads_ancestors hc
  refine ⟨_, hreads, ?_⟩
  obtain ⟨x, hx⟩ : ∃ x, (c :: doc.ancestors c).getLast? = some x := by
    simp [List.getLast?_cons]
  have hlive : doc.contains x = true :=
    h.contains_above hc ((hmem x).2 (List.mem_of_getLast? hx))
  rw [hx, h.top_eq hlive (hreads.next_getLast hx)]

theorem isTree (h : Rooted doc lay) : IsTree doc where
  root_contains := h.contains_root
  root_top := h.parent?_root
  childLists := h.childListLaws
  child c hc hne := by
    cases hp : doc.parent? c with
    | none => exact absurd (h.top_eq hc hp) hne
    | some p =>
      refine ⟨p, rfl, h.contains_parent hp, h.mem_children.2 hp, fun q hq => ?_⟩
      have hq' := h.mem_children.1 hq
      rw [hp] at hq'
      exact (Option.some.inj hq').symm
  listed p c hc := by
    have hp := h.mem_children.1 hc
    refine ⟨contains_of_parent? hp, ?_⟩
    rintro rfl
    rw [h.parent?_root] at hp
    cases hp
  upwards c hc := h.upwards hc
  attributeLists := h.attributeListLaws
  owned a ha := by
    obtain ⟨p, hp⟩ := h.owned ha
    refine ⟨p, hp, h.contains_owner hp, h.mem_attributes.2 hp, fun q hq => ?_⟩
    have hq' := h.mem_attributes.1 hq
    rw [hp] at hq'
    exact (Option.some.inj hq').symm
  listedAttributes p a ha := containsAttr_of_owner? (h.mem_attributes.1 ha)
  document_iff x hx := by
    constructor
    · intro hkind
      refine h.top_eq hx ?_
      cases hp : doc.parent? x with
      | none => rfl
      | some p => exact absurd hkind (child_kind_of_allowsChild (h.allowed hp)).2.1
    · rintro rfl
      exact h.root_kind
  kind_ne_null x hx := by
    cases hp : doc.parent? x with
    | none =>
      rw [h.top_eq hx hp, h.root_kind]
      decide
    | some p => exact (child_kind_of_allowsChild (h.allowed hp)).1
  parents p c hc :=
    kind_of_hasChildren (hasChildren_of_allowsChild (h.allowed (h.mem_children.1 hc)))
  tops c hkind := by
    have hc : doc.contains c = true := by
      refine contains_of_kind_ne fun hnull => ?_
      rw [hnull] at hkind
      simp at hkind
    cases hp : doc.parent? c with
    | none =>
      rw [h.top_eq hc hp, h.root_kind] at hkind
      simp at hkind
    | some p =>
      have hdocument := (child_kind_of_allowsChild (h.allowed hp)).2.2 hkind
      rw [h.top_eq (h.contains_parent hp) ?_]
      cases hpp : doc.parent? p with
      | none => rfl
      | some q => exact absurd hdocument (child_kind_of_allowsChild (h.allowed hpp)).2.1
  owners p a ha := kind_of_hasAttributes (h.owns (h.mem_attributes.1 ha))

end Rooted

/-! ## Whatever is done -/

/-- Every change keeps the document whole, if what it takes something from is whole. -/
theorem Whole.apply (h : Whole doc) (c : Change) (hsource : ∀ s, c.source? = some s → Whole s) :
    Whole (doc.apply c).2 := by
  cases c with
  | loadString text options => exact whole_loadString doc text options
  | loadBytes bytes options encoding => exact whole_loadBytes doc bytes options encoding
  | loadFetched fetched options encoding => exact whole_loadFetched doc fetched options encoding
  | appendBytes parent bytes options encoding =>
    exact h.appendBytes parent bytes options encoding
  | reset => exact whole_reset doc
  | resetFrom source => exact Whole.resetFrom doc (hsource source rfl)
  | insertChild parent kind place => exact h.insertChild parent kind place
  | insertElement parent name place => exact h.insertElement parent name place
  | insertCopy parent proto place => exact h.insertCopy parent proto place
  | insertCopyFrom parent source proto place =>
    exact h.insertCopyFrom parent (hsource source rfl) proto place
  | insertMove parent moved place => exact h.insertMove parent moved place
  | removeChild parent child => exact h.removeChild parent child
  | removeChildNamed parent name => exact h.removeChildNamed parent name
  | removeChildren parent => exact h.removeChildren parent
  | insertAttribute owner name value place => exact h.insertAttribute owner name value place
  | setAttribute owner name value => exact h.setAttribute owner name value
  | insertAttributeCopy owner proto place => exact h.insertAttributeCopy owner proto place
  | removeAttribute owner attr => exact h.removeAttribute owner attr
  | removeAttributeNamed owner name => exact h.removeAttributeNamed owner name
  | removeAttributes owner => exact h.removeAttributes owner
  | setName id name => exact h.sameShape (.setName id name)
  | setValue id value => exact h.sameShape (.setValue id value)
  | setContent id text => exact h.setContent id text
  | setAttrName id name => exact h.sameShape (.setAttrName id name)
  | setAttrValue id value => exact h.sameShape (.setAttrValue id value)

/-- The only node of its kind is the document node. -/
theorem Whole.eq_root (h : Whole doc) {x : NodeId} (hx : doc.kind x = .document) :
    x = doc.root := by
  obtain ⟨lay, hrooted⟩ := h
  have hthere : doc.contains x = true := contains_of_kind_ne (by rw [hx]; decide)
  exact (hrooted.isTree.document_iff x hthere).1 hx

theorem Reachable.whole (h : Reachable doc) : Whole doc := by
  induction h with
  | new => exact whole_new
  | change c _ _ ih ihsource => exact ih.apply c ihsource
  | ranked _ ih => exact ih.withRanks

/-- Whatever is done to a document, it stays one tree. -/
theorem reachable_isTree (h : Reachable doc) : IsTree doc := by
  obtain ⟨lay, hrooted⟩ := h.whole
  exact hrooted.isTree

/-- Changes that take nothing from another document lead from a reachable document to a
reachable one. -/
theorem Reachable.applyAll (h : Reachable doc) {changes : List Change}
    (hsource : ∀ c ∈ changes, c.source? = none) : Reachable (doc.applyAll changes) := by
  induction changes generalizing doc with
  | nil => exact h
  | cons c cs ih =>
    obtain ⟨hc, hrest⟩ := List.forall_mem_cons.1 hsource
    have hstep : Reachable (doc.apply c).2 :=
      .change c h fun s hs => by
        rw [hc] at hs
        cases hs
    exact ih hstep hrest

/-- A child is moved to the front, another one dropped; its slot is used again, and its
old handle, which is stale then, is refused. -/
def shuffled : List Change :=
  [.insertElement ⟨⟨0, 1⟩⟩ "a" .last, .insertChild ⟨⟨1, 1⟩⟩ .pcdata .last,
    .insertElement ⟨⟨1, 1⟩⟩ "b" .last, .insertAttribute ⟨⟨3, 1⟩⟩ "k" "v" .last,
    .insertMove ⟨⟨1, 1⟩⟩ ⟨⟨3, 1⟩⟩ .first, .removeChild ⟨⟨1, 1⟩⟩ ⟨⟨2, 1⟩⟩,
    .insertElement ⟨⟨1, 1⟩⟩ "c" .last, .insertElement ⟨⟨2, 1⟩⟩ "d" .last]

theorem isTree_shuffled :
    (new.applyAll shuffled).children ⟨⟨1, 1⟩⟩ = [⟨⟨3, 1⟩⟩, ⟨⟨2, 2⟩⟩] ∧
      IsTree (new.applyAll shuffled) :=
  ⟨by decide +kernel, reachable_isTree (Reachable.new.applyAll (by decide))⟩

end Document

end XmlTree
