/-
  Proofs/Stems.lean --- open elements that stand one in the other.

  WHAT THIS FILE IS FOR.  A document that is being loaded reads as a sapling: the innermost open
  element as its tip, and each of the elements around it as a tree that lacks what is open in it.
  Here it is shown what becomes of that when one node is new, or when one node reads otherwise.

  ONE PLACE.  A step changes a node that the innermost open element has or is.  So of each of the
  elements around it nothing changes but the child on the way down to that node, and that child
  is what its tree lacks.
-/
import XmlTree.Proofs.Saplings
import XmlTree.Proofs.Twins

set_option autoImplicit false

namespace XmlTree

namespace Document

variable {doc doc' : Document} {lay lay' : Layout} {x y i c p id owner : NodeId}
  {ids : List NodeId} {f : TreeLabel → TreeLabel} {l : TreeLabel} {t u : Tree} {ts : List Tree}

/-! ## Changes at one node -/

/-- Of the nodes that were there only one may read otherwise or have other children. -/
structure ChangedAt (doc doc' : Document) (x : NodeId) : Prop where
  contains : ∀ {y}, doc.contains y = true → doc'.contains y = true
  label : ∀ {y}, doc.contains y = true → y ≠ x → doc'.labelOf y = doc.labelOf y
  children : ∀ {y}, doc.contains y = true → y ≠ x → doc'.children y = doc.children y

/-- A node reads otherwise, and that is all. -/
structure Relabelled (doc doc' : Document) (x : NodeId) (f : TreeLabel → TreeLabel) : Prop where
  contains : ∀ y, doc'.contains y = doc.contains y
  label : doc'.labelOf x = f (doc.labelOf x)
  others : ∀ {y}, doc.contains y = true → y ≠ x → doc'.labelOf y = doc.labelOf y
  children : ∀ {y}, doc.contains y = true → doc'.children y = doc.children y

theorem Relabelled.changedAt (h : Relabelled doc doc' x f) : ChangedAt doc doc' x where
  contains hy := (h.contains _).trans hy
  label := h.others
  children hy _ := h.children hy

theorem Planted.changedAt (h : Planted doc doc' p id l) (hlaid : LaidOut doc lay)
    (hlegible : doc.Legible) : ChangedAt doc doc' p where
  contains := h.kept.contains
  label hy _ := h.labelOf_eq hlaid hlegible hy
  children hy hne := h.kept.children hy hne

/-- A subtree that the changed node does not stand in reads as it did. -/
theorem ChangedAt.tree_eq (h : ChangedAt doc doc' x) (hlaid : LaidOut doc lay)
    (hlaid' : LaidOut doc' lay') (hy : doc.contains y = true) (hout : ¬ Below doc.parent? y x) :
    doc'.tree y = doc.tree y := by
  -- subtrees are as deep as they are; the outline of one is what can be gone through
  obtain ⟨o, rfl, ho⟩ := hlaid.forest.exists_outline y
  induction ho with
  | @node y os hhere _ ih =>
    rw [Outline.top] at hy hout ⊢
    have hne : y ≠ x := by
      rintro rfl
      exact hout .self
    rw [hlaid.tree_eq hy, hlaid'.tree_eq (h.contains hy), h.label hy hne, h.children hy hne]
    refine congrArg (Tree.node _) (List.map_congr_left fun c hc => ?_)
    have hparent : doc.parent? c = some y := hlaid.mem_children.1 hc
    rw [hhere] at hc
    obtain ⟨o, ho, rfl⟩ := List.mem_map.1 hc
    exact ih o ho (contains_of_parent? hparent) fun hx =>
      hout ((Below.step hparent .self).trans hx)

/-- What stands below the changed node reads as it did. -/
theorem ChangedAt.map_tree_children (h : ChangedAt doc doc' x) (hlaid : LaidOut doc lay)
    (hlaid' : LaidOut doc' lay') :
    (doc.children x).map doc'.tree = (doc.children x).map doc.tree := by
  refine List.map_congr_left fun c hc => ?_
  have hparent : doc.parent? c = some x := hlaid.mem_children.1 hc
  exact h.tree_eq hlaid hlaid' (contains_of_parent? hparent)
    (Below.not_parent hlaid.acyclic hparent)

/-- What stands beside a node that the changed one is below reads as it did. -/
theorem ChangedAt.map_tree_beside (h : ChangedAt doc doc' x) (hlaid : LaidOut doc lay)
    (hlaid' : LaidOut doc' lay') {cs : List NodeId} (hcs : doc.children p = cs ++ [i])
    (hx : Below doc.parent? i x) : cs.map doc'.tree = cs.map doc.tree := by
  refine List.map_congr_left fun c hc => ?_
  have hnodup : (cs ++ [i]).Nodup := by
    rw [← hcs, hlaid.children_eq]
    exact hlaid.childLists.nodup p
  have hne : i ≠ c := by
    rintro rfl
    exact (List.nodup_append.1 hnodup).2.2 i hc i (List.mem_singleton_self i) rfl
  have hi : doc.parent? i = some p := hlaid.mem_children.1 (by simp [hcs])
  have hparent : doc.parent? c = some p := hlaid.mem_children.1 (by simp [hcs, hc])
  exact h.tree_eq hlaid hlaid' (contains_of_parent? hparent)
    (Below.disjoint hlaid.acyclic hi hparent hne hx)

/-- The tree of a node that reads otherwise. -/
theorem Relabelled.tree_self (h : Relabelled doc doc' x f) (hlaid : LaidOut doc lay)
    (hlaid' : LaidOut doc' lay') (hx : doc.contains x = true) :
    doc'.tree x = (doc.tree x).relabel f := by
  rw [hlaid.tree_eq hx, hlaid'.tree_eq ((h.contains x).trans hx), h.label, h.children hx,
    h.changedAt.map_tree_children hlaid hlaid', Tree.relabel]
  rfl

/-! ## Changes to values and attributes -/

theorem valueText_labelOf (doc : Document) (x : NodeId) :
    (doc.labelOf x).valueText = doc.value x := by
  unfold labelOf value TreeLabel.valueText textOf?
  cases doc.node? x with
  | none => rfl
  | some r =>
    simp only [Option.elim_some]
    cases r.value <;> rfl

theorem Adorned.relabelled {a : TreeAttribute} (h : Adorned doc doc' owner a)
    (hlaid : LaidOut doc lay) (hlegible : doc.Legible) (howner : doc.contains owner = true) :
    Relabelled doc doc' owner (.adorned a) where
  contains := h.contains
  label := h.labelOf_owner hlegible howner
  others hy hne := h.kept.labelOf_eq hlaid hlegible hy hne
  children hy := h.kept.children hy fun hfed => hfed

/-- A node gets another value. -/
theorem relabelled_modifyNode (hx : doc.contains x = true) (slot : TextSlot) :
    Relabelled doc (doc.modifyNode x fun r => { r with value := slot }) x
      (.withValue (doc.textOf? slot)) := by
  have hsame : SameShape doc (doc.modifyNode x fun r => { r with value := slot }) :=
    .modifyNode x fun _ => rfl
  refine ⟨hsame.contains_eq, ?_, fun {y} _ hne => ?_, fun {y} _ => hsame.children_eq y⟩
  · obtain ⟨r, hr⟩ := contains_iff.1 hx
    simp only [labelOf, node?_modifyNode, hr, if_true, Option.map_some, hsame.attributes_eq]
    rfl
  · simp only [labelOf, node?_modifyNode, if_neg hne, hsame.attributes_eq]
    rfl

/-- Texts that were kept before a change do not count as a part of it. -/
theorem Relabelled.ofTexts {texts : TextStore} (h : Relabelled { doc with texts } doc' x f)
    (hlaid : LaidOut doc lay) (hlegible : doc.Legible) (htexts : doc.texts.Extends texts)
    (hx : doc.contains x = true) : Relabelled doc doc' x f := by
  have hkept : Kept doc { doc with texts } (fun _ => False) (fun _ => False) :=
    kept_ofTexts htexts
  have hlabel : ∀ {y}, doc.contains y = true →
      ({ doc with texts } : Document).labelOf y = doc.labelOf y :=
    fun hy => hkept.labelOf_eq hlaid hlegible hy fun h => h
  exact ⟨h.contains, h.label.trans (congrArg f (hlabel hx)),
    fun hy hne => (h.others hy hne).trans (hlabel hy), h.children⟩

theorem labelOf_releaseText (doc : Document) (slot : TextSlot) (y : NodeId) :
    (doc.releaseText slot).labelOf y = doc.labelOf y := by
  have htext : (doc.releaseText slot).textOf? = doc.textOf? := by
    funext slot'
    rw [textOf?, textOf?]
    exact congrArg (fun text => if slot'.isNull then none else some text)
      (doc.texts.get_release slot slot')
  have hattributes : (doc.releaseText slot).attributes y = doc.attributes y :=
    (SameShape.ofTexts _).attributes_eq y
  have hattr : (doc.releaseText slot).attrLabel = doc.attrLabel := by
    funext a
    rw [attrLabel, attrLabel, htext]
    rfl
  simp only [labelOf, htext, hattributes, hattr]
  rfl

/-- A node gets a copy of a text as its value. -/
theorem LaidOut.relabelled_replaceValue (h : LaidOut doc lay) (hlegible : doc.Legible)
    (hx : doc.contains x = true) {value : String} (hshort : value.utf8ByteSize < 2 ^ 32) :
    Relabelled doc (doc.replaceValue x value).2 x (.withValue (copiedText (some value))) := by
  obtain ⟨old, hold⟩ := contains_iff.1 hx
  obtain ⟨slot, _, hkept, -⟩ | ⟨-, hlong⟩ := doc.ownText_cases value
  · let owned := (doc.ownText value).2
    let worded := owned.modifyNode x fun r => { r with value := slot }
    have hslot : (doc.ownText value).1 = some slot := congrArg Prod.fst hkept
    have howned : doc.ownText value = (some slot, owned) := Prod.ext hslot rfl
    have hreads : owned.textOf? slot = copiedText (some value) :=
      textOf?_of_ownText howned
    have hset : Relabelled owned worded x (.withValue (owned.textOf? slot)) :=
      relabelled_modifyNode (show owned.contains x = true from hx) slot
    rw [hreads] at hset
    have hdone : Relabelled doc worded x (.withValue (copiedText (some value))) :=
      hset.ofTexts h hlegible (.own _ _) hx
    have hreplaced : (doc.replaceValue x value).2 = worded.releaseText old.value := by
      rw [Document.replaceValue, hold]
      dsimp only
      rw [replaceText, howned]
    rw [hreplaced]
    exact ⟨hdone.contains, (labelOf_releaseText ..).trans hdone.label,
      fun hy hne => (labelOf_releaseText ..).trans (hdone.others hy hne),
      fun {y} hy => ((SameShape.ofTexts _).children_eq y).trans (hdone.children hy)⟩
  · exact absurd hshort hlong

/-! ## The open elements -/

/-- Nodes stand one in the other, the innermost first, and each of them reads as a tree if its
last children are left out: those of a list at the innermost one, and at the others the node
before. -/
inductive Stem (doc : Document) : (inner ids : List NodeId) → List Tree → Prop where
  | nil (inner : List NodeId) : Stem doc inner [] []
  | cons {inner ids : List NodeId} {id : NodeId} {t : Tree} {ts : List Tree} (cs : List NodeId)
      (contains : doc.contains id = true) (label : doc.labelOf id = t.label)
      (children : doc.children id = cs ++ inner) (trees : cs.map doc.tree = t.children)
      (outer : Stem doc [id] ids ts) : Stem doc inner (id :: ids) (t :: ts)

namespace Stem

theorem length_eq {inner : List NodeId} (h : Stem doc inner ids ts) : ids.length = ts.length := by
  induction h with
  | nil => rfl
  | cons _ _ _ _ _ _ ih => rw [List.length_cons, List.length_cons, ih]

/-- Around a node that the changed one is below, all reads as it did. -/
theorem changed (h : Stem doc [i] ids ts) (hlaid : LaidOut doc lay) (hlaid' : LaidOut doc' lay')
    (hchange : ChangedAt doc doc' x) (hx : Below doc.parent? i x) : Stem doc' [i] ids ts := by
  induction ids generalizing i ts with
  | nil =>
    cases h
    exact .nil _
  | cons id ids ih =>
    cases h with
    | cons cs hid hlabel hchildren htrees houter =>
      have hparent : doc.parent? i = some id := hlaid.mem_children.1 (by simp [hchildren])
      have hne : id ≠ x := by
        rintro rfl
        exact Below.not_parent hlaid.acyclic hparent hx
      exact .cons cs (hchange.contains hid) ((hchange.label hid hne).trans hlabel)
        ((hchange.children hid hne).trans hchildren)
        ((hchange.map_tree_beside hlaid hlaid' hchildren hx).trans htrees)
        (ih houter (.trans (.step hparent .self) hx))

/-- The innermost node is a tree, for nothing in it is left out. -/
theorem tree_head (h : Stem doc [] (c :: ids) (t :: ts)) (hlaid : LaidOut doc lay) :
    doc.tree c = t := by
  cases h with
  | cons _ hc hlabel hchildren htrees _ =>
    rw [hlaid.tree_eq hc, hlabel, hchildren, List.append_nil, htrees]
    cases t
    rfl

/-- The innermost node is no longer left out in the one around it. -/
theorem leave (h : Stem doc [] (c :: ids) (t :: u :: ts)) (hlaid : LaidOut doc lay) :
    Stem doc [] ids (u.addChild t :: ts) := by
  have hc := h.tree_head hlaid
  cases h with
  | cons _ _ _ _ _ houter =>
    cases houter with
    | cons cs hp hlabel hchildren htrees houter =>
      refine .cons (cs ++ [c]) hp hlabel (by rw [hchildren, List.append_nil]) ?_ houter
      rw [List.map_append, htrees, List.map_singleton, hc]
      rfl

/-- A new node is the innermost one. -/
theorem enter (h : Stem doc [] (c :: ids) (t :: ts)) (hlaid : LaidOut doc lay)
    (hlaid' : LaidOut doc' lay') (hlegible : doc.Legible) (hnew : Planted doc doc' c id l) :
    Stem doc' [] (id :: c :: ids) (.leaf l :: t :: ts) := by
  have hchange := hnew.changedAt hlaid hlegible
  have hid : doc'.contains id = true := by simp [hnew.contains]
  cases h with
  | cons cs hc hlabel hchildren htrees houter =>
    refine .cons [] hid hnew.label hnew.bare rfl (.cons cs (hchange.contains hc)
      ((hnew.labelOf_eq hlaid hlegible hc).trans hlabel) ?_ ?_ (houter.changed hlaid hlaid'
        hchange .self))
    · rw [hnew.children, hchildren, List.append_nil]
    · rw [← htrees]
      have hmap := hchange.map_tree_children hlaid hlaid'
      rwa [hchildren, List.append_nil] at hmap

/-- A new node stands behind all that is in the innermost one. -/
theorem plant (h : Stem doc [] (c :: ids) (t :: ts)) (hlaid : LaidOut doc lay)
    (hlaid' : LaidOut doc' lay') (hlegible : doc.Legible) (hnew : Planted doc doc' c id l) :
    Stem doc' [] (c :: ids) (t.addChild (.leaf l) :: ts) :=
  (h.enter hlaid hlaid' hlegible hnew).leave hlaid'

/-- The innermost node reads otherwise. -/
theorem relabel (h : Stem doc [] (c :: ids) (t :: ts)) (hlaid : LaidOut doc lay)
    (hlaid' : LaidOut doc' lay') (hnew : Relabelled doc doc' c f) :
    Stem doc' [] (c :: ids) (t.relabel f :: ts) := by
  have hchange := hnew.changedAt
  cases h with
  | cons cs hc hlabel hchildren htrees houter =>
    refine .cons cs (hchange.contains hc) (hnew.label.trans (congrArg f hlabel))
      ((hnew.children hc).trans hchildren) ?_ (houter.changed hlaid hlaid' hchange .self)
    have hmap := hchange.map_tree_children hlaid hlaid'
    rw [hchildren, List.append_nil] at hmap
    exact hmap.trans htrees

/-- The last node in the innermost one reads otherwise. -/
theorem relabelLast (h : Stem doc [] (c :: ids) (t :: ts)) (hlaid : LaidOut doc lay)
    (hlaid' : LaidOut doc' lay') (hlast : (doc.children c).getLast? = some x)
    (hnew : Relabelled doc doc' x f) : Stem doc' [] (c :: ids) (t.relabelLast f :: ts) := by
  have hchange := hnew.changedAt
  obtain ⟨before, hsplit⟩ := List.getLast?_eq_some_iff.1 hlast
  have hparent : doc.parent? x = some c := hlaid.mem_children.1 (by simp [hsplit])
  have hne : c ≠ x := by
    rintro rfl
    exact Below.not_parent hlaid.acyclic hparent .self
  cases h with
  | cons cs hc hlabel hchildren htrees houter =>
    refine .cons cs (hchange.contains hc) ((hchange.label hc hne).trans hlabel)
      ((hnew.children hc).trans hchildren) ?_
      (houter.changed hlaid hlaid' hchange (.step hparent .self))
    obtain rfl : cs = before ++ [x] := by rw [← hsplit, hchildren, List.append_nil]
    have hbefore := hchange.map_tree_beside hlaid hlaid' hsplit .self
    have hx := hnew.tree_self hlaid hlaid' (contains_of_parent? hparent)
    rw [List.map_append, List.map_singleton] at htrees ⊢
    rw [hbefore, hx]
    show _ = t.children.modifyLast (Tree.relabel f)
    rw [← htrees, List.modifyLast_concat]

/-- When all that is open is taken to be closed, the outermost node is the whole tree. -/
theorem tree_base {base : NodeId} {inner : List NodeId} {z : Sapling}
    (h : Stem doc [] (inner ++ [base]) (z.tip :: z.outer)) (hlaid : LaidOut doc lay) :
    doc.tree base = z.whole := by
  obtain ⟨tip, outer, inLast⟩ := z
  induction outer generalizing tip inner with
  | nil =>
    cases inner with
    | nil => exact h.tree_head hlaid
    | cons c inner => exact absurd h.length_eq (by simp)
  | cons u outer ih =>
    cases inner with
    | nil => exact absurd h.length_eq (by simp)
    | cons c inner => exact ih _ (h.leave hlaid)

end Stem

end Document

end XmlTree
