/-
  Proofs/RoundTrip.lean --- loading undoes saving.

  WHAT THIS FILE IS FOR.  What is saved comes back with every name and attribute, and with
  its other values as they are told apart in markup.  A settled tree has only values that
  come back as they are, up to the line ends of its character data.  A canonical tree has no
  such line ends, so it is loaded again as it was saved: node for node, with the same kinds,
  names, values and attributes.

  WHERE IT IS LOADED INTO does not matter.  A load drops whatever was there.
-/
import XmlTree.Proofs.Containment

set_option autoImplicit false

namespace XmlTree

/-- The names of a canonical tree are names to a reader. -/
theorem Tree.Canonical.named {t : Tree} (h : t.Canonical) : t.All TreeLabel.Named := by
  induction h with
  | @node label children hlabel _ _ _ ih =>
    refine .node ?_ ih
    unfold TreeLabel.Canonical at hlabel
    unfold TreeLabel.Named
    cases hl : label.kind with
    | element => simpa only [hl] using hlabel
    | pi =>
      simp only [hl] at hlabel
      exact ⟨hlabel.1, hlabel.2.1⟩
    | declaration => simpa only [hl] using hlabel
    | doctype => simp only [hl] at hlabel
    | _ => trivial

/-! ## Settled trees -/

/-- A node whose value comes back as it is, up to the line ends of character data.  Nothing is
asked of names. -/
def TreeLabel.Settled (l : TreeLabel) : Prop :=
  let value := l.valueText.toList
  match l.kind with
  | .pcdata => value ≠ []
  | .cdata => ¬ "]]>".toList <:+: value ∧ '\r' ∉ value
  | .comment => ¬ "--".toList <:+: value ∧ '\r' ∉ value ∧ value.getLast? ≠ some '-'
  | .pi => ¬ "?>".toList <:+: value ∧ value.head?.all (fun c => !isSpace c) = true
  | _ => True

/-- A tree whose nodes are settled, where character data stands in elements only and never
beside other character data. -/
inductive Tree.Settled : Tree → Prop where
  | node {label : TreeLabel} {children : List Tree} (label_settled : label.Settled)
      (inside : label.kind ≠ .element → ∀ t ∈ children, ¬ t.IsPcdata)
      (apart : children.IsChain fun t u => t.IsPcdata → ¬ u.IsPcdata)
      (below : ∀ t ∈ children, Settled t) : Settled (.node label children)

/-- The node, with its line ends unified if it is character data. -/
def TreeLabel.unified (l : TreeLabel) : TreeLabel :=
  if l.kind = .pcdata then
    { l with value := l.value.map fun value => String.ofList (unifyLineEnds value.toList) }
  else l

mutual

/-- The tree with the line ends of all its character data unified. -/
def Tree.unified : Tree → Tree
  | .node l children => .node l.unified (Tree.allUnified children)

/-- Trees side by side with the line ends of all their character data unified. -/
def Tree.allUnified : List Tree → List Tree
  | [] => []
  | t :: ts => t.unified :: Tree.allUnified ts

end

theorem TreeLabel.unified_eq {l : TreeLabel} (h : l.kind ≠ .pcdata) : l.unified = l := if_neg h

theorem Tree.allUnified_eq_map (ts : List Tree) : Tree.allUnified ts = ts.map Tree.unified := by
  induction ts with
  | nil => rfl
  | cons t ts ih => rw [Tree.allUnified, ih, List.map_cons]

theorem Tree.allUnified_append (ts us : List Tree) :
    Tree.allUnified (ts ++ us) = Tree.allUnified ts ++ Tree.allUnified us := by
  rw [allUnified_eq_map, allUnified_eq_map, allUnified_eq_map, List.map_append]

@[simp] theorem TreeLabel.kind_unified (l : TreeLabel) : l.unified.kind = l.kind := by
  unfold unified
  split <;> rfl

@[simp] theorem Tree.kind_unified (t : Tree) : t.unified.label.kind = t.label.kind := by
  cases t
  exact TreeLabel.kind_unified _

/-- A node that holds its own value is that node. -/
theorem TreeLabel.holding_self (l : TreeLabel) : l.holding l.valueText.toList = l.plain := by
  rw [TreeLabel.holding, String.ofList_toList]
  rfl

/-- Character data that holds its own value with unified line ends. -/
theorem TreeLabel.plain_unified {l : TreeLabel} (h : l.kind = .pcdata) :
    l.unified.plain = l.holding (unifyLineEnds l.valueText.toList) := by
  rw [unified, if_pos h]
  cases hv : l.value with
  | none =>
    simp only [TreeLabel.plain, holding, TreeLabel.valueText, hv]
    rfl
  | some value =>
    simp only [TreeLabel.plain, holding, TreeLabel.valueText, hv]
    rfl

theorem Tree.textOfAll_singleton (t : Tree) : Tree.textOfAll [t] = t.label.valueText.toList := by
  simp [Tree.textOfAll]

/-- Settled character data comes back by itself. -/
theorem Tree.Sayable.ofText_eq {t : Tree} (h : t.Sayable false) (hsettled : t.Settled)
    (htext : t.IsPcdata) :
    Tree.ofText false (unifyLineEnds t.label.valueText.toList) = [t.unified.plain] := by
  obtain ⟨l, children⟩ := t
  obtain ⟨-, ⟨hname, -, -⟩, hlawful, -⟩ := h
  obtain ⟨hlabel, -, -, -⟩ := hsettled
  have hl : l.kind = .pcdata := htext
  obtain rfl := hlawful.children_eq_nil (by rw [hl]; rfl)
  have hattributes := hlawful.attributes_eq_nil (by rw [hl]; rfl)
  have hnone : l.nameText = "" := by rw [TreeLabel.nameText, hname (by rw [hl]; rfl)]; rfl
  simp only [TreeLabel.Settled, hl] at hlabel
  rw [Tree.label, Tree.ofText, isEmpty_unifyLineEnds, Tree.unified, Tree.plain,
    TreeLabel.plain_unified hl, TreeLabel.holding_eq hattributes, hl, hnone]
  simp only [hlabel, Bool.false_or, List.isEmpty_iff, if_false]
  rfl

theorem Tree.ofText_nil (atTop : Bool) : Tree.ofText atTop (unifyLineEnds []) = [] := by
  cases atTop <;> rfl

/-- What does not begin with white space has none to drop. -/
theorem dropSpace_eq_self {cs : List Char} (h : cs.head?.all (fun c => !isSpace c) = true) :
    dropSpace cs = cs := by
  cases cs with
  | nil => rfl
  | cons c cs =>
    rw [List.head?_cons, Option.all_some, Bool.not_eq_true'] at h
    rw [dropSpace, List.dropWhile_cons_of_neg (by simp [h])]

/-- Trees that may stand side by side in content, at the top of a document or in an element,
where each is settled and no character data stands beside other character data or at the
top. -/
structure Tree.AllSettled (atTop : Bool) (ts : List Tree) : Prop where
  sayable : ∀ t ∈ ts, t.Sayable atTop
  settled : ∀ t ∈ ts, t.Settled
  apart : ts.IsChain fun t u => t.IsPcdata → ¬ u.IsPcdata
  top : atTop = true → ∀ t ∈ ts, ¬ t.IsPcdata

namespace Tree.AllSettled

variable {atTop : Bool} {ts : List Tree}

theorem right {texts : List Tree} (h : AllSettled atTop (texts ++ ts)) :
    AllSettled atTop ts where
  sayable t ht := h.sayable t (List.mem_append_right _ ht)
  settled t ht := h.settled t (List.mem_append_right _ ht)
  apart := (List.isChain_append.1 h.apart).2.1
  top hatTop t ht := h.top hatTop t (List.mem_append_right _ ht)

theorem tail {t : Tree} (h : AllSettled atTop (t :: ts)) : AllSettled atTop ts :=
  right (show AllSettled atTop ([t] ++ ts) from h)

theorem label {l : TreeLabel} {children : List Tree}
    (h : AllSettled atTop (.node l children :: ts)) : l.Settled := by
  obtain ⟨hlabel, -, -, -⟩ := h.settled _ List.mem_cons_self
  exact hlabel

/-- What is in an element is settled too. -/
theorem below {l : TreeLabel} {children : List Tree}
    (h : AllSettled atTop (.node l children :: ts)) (hl : l.kind = .element) :
    AllSettled false children := by
  obtain ⟨-, -, hapart, hbelow⟩ := h.settled _ List.mem_cons_self
  exact ⟨(h.sayable _ List.mem_cons_self).below hl, hbelow, hapart, nofun⟩

/-- There are not two texts side by side, and none at the top. -/
theorem texts_cases {texts : List Tree} (h : AllSettled atTop (texts ++ ts))
    (htexts : ∀ t ∈ texts, t.IsPcdata) : texts = [] ∨ ∃ t, texts = [t] ∧ atTop = false := by
  match texts with
  | [] => exact .inl rfl
  | [t] =>
    refine .inr ⟨t, rfl, Bool.eq_false_iff.2 fun hatTop => ?_⟩
    exact h.top hatTop t List.mem_cons_self (htexts t List.mem_cons_self)
  | t :: u :: more =>
    have hapart : t.IsPcdata → ¬ u.IsPcdata := (List.isChain_cons_cons.1 h.apart).1
    exact absurd (htexts u (by simp)) (hapart (htexts t List.mem_cons_self))

end Tree.AllSettled

/-- Settled trees come back as they were, with the line ends of character data unified. -/
theorem Tree.ComeBack.eq_allPlain {atTop : Bool} {ts us : List Tree} (h : ComeBack atTop ts us)
    (hall : AllSettled atTop ts) : us = Tree.allPlain (Tree.allUnified ts) := by
  induction h with
  | nil => rfl
  | texts htexts _ _ ih =>
    rw [ih hall.right]
    obtain rfl | ⟨t, rfl, rfl⟩ := hall.texts_cases htexts
    · exact congrArg (· ++ _) (Tree.ofText_nil _)
    · rw [Tree.textOfAll_singleton, (hall.sayable t List.mem_cons_self).ofText_eq
        (hall.settled t List.mem_cons_self) (htexts t List.mem_cons_self)]
      rfl
  | @element _ l _ _ _ _ hl _ _ ihInside ih =>
    rw [ih hall.tail, ihInside (hall.below hl), Tree.allUnified, Tree.allPlain, Tree.unified,
      l.unified_eq (by rw [hl]; decide), Tree.plain]
  | @declaration _ l _ _ hl _ ih =>
    rw [ih hall.tail, Tree.allUnified, Tree.allPlain, Tree.unified,
      l.unified_eq (by rw [hl]; decide)]
    rfl
  | @comment _ l _ _ hl _ ih =>
    have hlabel := hall.label
    simp only [TreeLabel.Settled, hl] at hlabel
    obtain ⟨hhyphens, hreturn, hend⟩ := hlabel
    rw [ih hall.tail, spacedHyphens_eq hhyphens hend, unifyLineEnds_of_not_mem hreturn,
      l.holding_self, Tree.allUnified, Tree.allPlain, Tree.unified,
      l.unified_eq (by rw [hl]; decide)]
    rfl
  | @pi _ l _ _ hl _ ih =>
    have hlabel := hall.label
    simp only [TreeLabel.Settled, hl] at hlabel
    obtain ⟨hmark, hspace⟩ := hlabel
    rw [ih hall.tail, partedMarks_of_markless hmark, dropSpace_eq_self hspace, l.holding_self,
      Tree.allUnified, Tree.allPlain, Tree.unified, l.unified_eq (by rw [hl]; decide)]
    rfl
  | @cdata _ l parts _ _ hl _ htogether hwhole _ ih =>
    have hlabel := hall.label
    simp only [TreeLabel.Settled, hl] at hlabel
    obtain ⟨hmark, hreturn⟩ := hlabel
    obtain ⟨part, rfl⟩ := List.length_eq_one_iff.1 (hwhole hmark)
    rw [List.flatten_singleton, unifyLineEnds_of_not_mem hreturn] at htogether
    rw [ih hall.tail, htogether, List.map_singleton, l.holding_self, Tree.allUnified,
      Tree.allPlain, Tree.unified, l.unified_eq (by rw [hl]; decide)]
    rfl

/-! ## Canonical trees are settled -/

theorem TreeLabel.Canonical.settled {l : TreeLabel} (h : l.Canonical) : l.Settled := by
  unfold Canonical at h
  unfold Settled
  cases hl : l.kind with
  | pcdata =>
    simp only [hl] at h
    exact h.1
  | cdata | comment =>
    simp only [hl] at h
    exact h
  | pi =>
    simp only [hl] at h
    exact h.2.2
  | _ => trivial

theorem TreeLabel.Canonical.unified_eq {l : TreeLabel} (h : l.Canonical) : l.unified = l := by
  by_cases hl : l.kind = .pcdata
  · simp only [Canonical, hl] at h
    have hvalue : l.value.map (fun value => String.ofList (unifyLineEnds value.toList)) =
        l.value := by
      cases hv : l.value with
      | none => rfl
      | some value =>
        have hreturn : '\r' ∉ value.toList := by simpa [TreeLabel.valueText, hv] using h.2
        rw [Option.map_some, unifyLineEnds_of_not_mem hreturn, String.ofList_toList]
    rw [unified, if_pos hl, hvalue]
  · exact TreeLabel.unified_eq hl

theorem Tree.Canonical.settled {t : Tree} (h : t.Canonical) : t.Settled := by
  induction h with
  | node hlabel hinside hapart _ ih => exact .node hlabel.settled hinside hapart ih

mutual

theorem Tree.Canonical.unified_eq (t : Tree) (h : t.Canonical) : t.unified = t := by
  match t with
  | .node l children =>
    obtain ⟨hlabel, -, -, hbelow⟩ := h
    rw [Tree.unified, hlabel.unified_eq, Tree.Canonical.allUnified_eq children hbelow]

theorem Tree.Canonical.allUnified_eq (ts : List Tree) (h : ∀ t ∈ ts, t.Canonical) :
    Tree.allUnified ts = ts := by
  match ts with
  | [] => rfl
  | t :: ts =>
    obtain ⟨ht, hrest⟩ := List.forall_mem_cons.1 h
    rw [Tree.allUnified, Tree.Canonical.unified_eq t ht, Tree.Canonical.allUnified_eq ts hrest]

end

namespace Document

variable {doc : Document}

/-! ## Saving and loading again -/

/-- A canonical unadorned tree is loaded again as it was saved. -/
theorem Whole.reloaded (h : Whole doc)
    (hcanonical : (doc.tree doc.root).Canonical) (hunadorned : (doc.tree doc.root).Unadorned)
    (helement : ∃ c ∈ doc.children doc.root, doc.kind c = .element) (single : Bool)
    (hsize : (doc.saveString "" (.exact single)).utf8ByteSize < 2 ^ 32) (into : Document) :
    let loaded := into.loadString (doc.saveString "" (.exact single)) .everything
    loaded.1 = ⟨.ok, 0, .utf8⟩ ∧
      (loaded.2.tree loaded.2.root).plain = (doc.tree doc.root).plain := by
  obtain ⟨hsayable, -⟩ := h.saveString_eq_written hcanonical.named hunadorned single
  obtain ⟨loaded, us, hbelow, hplain, hback⟩ := h.loadBelow_saved hcanonical.named hunadorned
    helement single hsize into (.inl rfl)
  have hloaded : into.loadString (doc.saveString "" (.exact single)) .everything =
      (⟨.ok, 0, .utf8⟩, loaded) := by
    rw [String.ofList_toList] at hbelow
    rw [loadString]
    simp only [hbelow]
  rw [h.tree_root_eq hunadorned] at hcanonical hsayable hback ⊢
  obtain ⟨-, hinside, hapart, hbelow⟩ := hcanonical
  have hsettled : Tree.AllSettled true _ :=
    ⟨hsayable, fun t ht => (hbelow t ht).settled, hapart, fun _ => hinside (by decide)⟩
  rw [hback.eq_allPlain hsettled, Tree.children, Tree.Canonical.allUnified_eq _ hbelow] at hplain
  dsimp only
  rw [hloaded]
  exact ⟨rfl, hplain⟩

/-- What edits have built is loaded again as it was saved, if its tree is canonical and has
an element at its top. -/
theorem Built.loadString_saveString (h : Built doc) (hcanonical : (doc.tree doc.root).Canonical)
    (helement : ∃ c ∈ doc.children doc.root, doc.kind c = .element) (single : Bool)
    (hsize : (doc.saveString "" (.exact single)).utf8ByteSize < 2 ^ 32) (into : Document) :
    let loaded := into.loadString (doc.saveString "" (.exact single)) .everything
    loaded.1.status = .ok ∧
      (loaded.2.tree loaded.2.root).plain = (doc.tree doc.root).plain := by
  obtain ⟨hresult, htree⟩ := h.reachable.whole.reloaded hcanonical
    (h.tidy.unadorned_tree doc.root) helement single hsize into
  exact ⟨congrArg LoadResult.status hresult, htree⟩

/-- One node of every kind, the element with a value that has to be escaped throughout. -/
def note : List Change :=
  [.insertElement ⟨⟨0, 1⟩⟩ "note" .last, .insertAttribute ⟨⟨1, 1⟩⟩ "to" "<\"&\r\n" .last,
    .insertChild ⟨⟨1, 1⟩⟩ .pcdata .last, .setValue ⟨⟨2, 1⟩⟩ " x < y ",
    .insertChild ⟨⟨1, 1⟩⟩ .cdata .last, .setValue ⟨⟨3, 1⟩⟩ "a < b",
    .insertChild ⟨⟨0, 1⟩⟩ .comment .first, .setValue ⟨⟨4, 1⟩⟩ "kept",
    .insertChild ⟨⟨0, 1⟩⟩ .declaration .first, .insertAttribute ⟨⟨5, 1⟩⟩ "version" "1.0" .last,
    .insertChild ⟨⟨1, 1⟩⟩ .pi .last, .setName ⟨⟨6, 1⟩⟩ "go", .setValue ⟨⟨6, 1⟩⟩ "now"]

theorem reloaded_note :
    let saved := (new.applyAll note).saveString "" (.exact false)
    let loaded := new.loadString saved .everything
    saved = "<?xml version=\"1.0\"?><!--kept--><note to=\"&lt;&quot;&amp;&#13;&#10;\">" ++
        " x &lt; y <![CDATA[a < b]]><?go now?></note>" ∧
      loaded.1.status = .ok ∧ (loaded.2.tree loaded.2.root).plain =
        ((new.applyAll note).tree (new.applyAll note).root).plain :=
  ⟨by decide +kernel, Built.loadString_saveString (Built.new.applyAll (by decide +kernel))
    (by decide +kernel) (by decide +kernel) false (by decide +kernel) new⟩

end Document

end XmlTree
