/-
  Proofs/Containment.lean --- no value breaks out of its construct.

  WHAT THIS FILE IS FOR.  A value may hold every mark of markup.  When a tree is saved and
  loaded again, its elements, instructions and comments are there again, one for one and at
  their places, and every attribute has its value.  What may change is said case by case: a
  section may come back as several, spaces may be added, line ends are unified, and character
  data that stands side by side is one text.

  WHAT IS NOT ASKED.  Nothing is asked of any value; only the names have to be names to a
  reader, because names are written as they are.
-/
import XmlTree.Proofs.Codecs
import XmlTree.Proofs.Derivation
import XmlTree.Proofs.Writing

set_option autoImplicit false

namespace XmlTree

/-! ## How a tree comes back -/

/-- The node with the texts that it reads as, and with another value. -/
def TreeLabel.holding (l : TreeLabel) (value : List Char) : TreeLabel :=
  { l.plain with value := some (String.ofList value) }

/-- Character data as a node: none at the top of a document, and none without any text. -/
def Tree.ofText (atTop : Bool) (cs : List Char) : List Tree :=
  if atTop || cs.isEmpty then [] else [.node ⟨.pcdata, some "", some (String.ofList cs), []⟩ []]

/-- The texts of trees that stand side by side. -/
def Tree.textOfAll (ts : List Tree) : List Char := ts.flatMap fun t => t.label.valueText.toList

/-- What trees that stand side by side, at the top of a document or in an element, come back
as when they are saved and loaded again. -/
inductive Tree.ComeBack : (atTop : Bool) → List Tree → List Tree → Prop where
  | nil {atTop : Bool} : ComeBack atTop [] []
  /-- character data side by side is one text, with its line ends unified -/
  | texts {atTop : Bool} {texts ts us : List Tree} (texts_pcdata : ∀ t ∈ texts, t.IsPcdata)
      (ends : ∀ t ∈ ts.head?, ¬ t.IsPcdata) (more : ComeBack atTop ts us) :
      ComeBack atTop (texts ++ ts) (Tree.ofText atTop (unifyLineEnds (Tree.textOfAll texts)) ++ us)
  /-- an element has its name, its attributes and, in their order, its children -/
  | element {atTop : Bool} {l : TreeLabel} {children back ts us : List Tree}
      (kind : l.kind = .element) (inside : ComeBack false children back)
      (more : ComeBack atTop ts us) :
      ComeBack atTop (.node l children :: ts) (.node l.plain back :: us)
  | declaration {atTop : Bool} {l : TreeLabel} {ts us : List Tree} (kind : l.kind = .declaration)
      (more : ComeBack atTop ts us) : ComeBack atTop (.node l [] :: ts) (.node l.plain [] :: us)
  /-- a comment may have got spaces after hyphens -/
  | comment {atTop : Bool} {l : TreeLabel} {ts us : List Tree} (kind : l.kind = .comment)
      (more : ComeBack atTop ts us) :
      ComeBack atTop (.node l [] :: ts)
        (.node (l.holding (unifyLineEnds (spacedHyphens l.valueText.toList))) [] :: us)
  /-- an instruction may have got spaces into its marks, and its first spaces are lost -/
  | pi {atTop : Bool} {l : TreeLabel} {ts us : List Tree} (kind : l.kind = .pi)
      (more : ComeBack atTop ts us) :
      ComeBack atTop (.node l [] :: ts)
        (.node (l.holding (dropSpace (partedMarks l.valueText.toList))) [] :: us)
  /-- a section is one or more, which are the text together -/
  | cdata {atTop : Bool} {l : TreeLabel} {parts : List (List Char)} {ts us : List Tree}
      (kind : l.kind = .cdata) (some_part : parts ≠ [])
      (together : parts.flatten = unifyLineEnds l.valueText.toList)
      (whole : ¬ "]]>".toList <:+: l.valueText.toList → parts.length = 1)
      (more : ComeBack atTop ts us) :
      ComeBack atTop (.node l [] :: ts) (parts.map (fun part => .node (l.holding part) []) ++ us)

/-- An element among the trees is an element among those that come back. -/
theorem Tree.ComeBack.exists_element {atTop : Bool} {ts us : List Tree} (h : ComeBack atTop ts us)
    (helement : ∃ t ∈ ts, t.label.kind = .element) : ∃ u ∈ us, u.label.kind = .element := by
  obtain ⟨t, ht, hkind⟩ := helement
  induction h with
  | nil => cases ht
  | texts htexts _ _ ih =>
    obtain htext | hrest := List.mem_append.1 ht
    · have hpcdata : t.label.kind = .pcdata := htexts t htext
      rw [hpcdata] at hkind
      cases hkind
    · obtain ⟨u, hu, hkind'⟩ := ih hrest
      exact ⟨u, List.mem_append_right _ hu, hkind'⟩
  | element hl _ _ _ _ => exact ⟨_, List.mem_cons_self, hl⟩
  | declaration hl _ ih | comment hl _ ih | pi hl _ ih =>
    obtain rfl | hrest := List.mem_cons.1 ht
    · rw [Tree.label, hl] at hkind
      cases hkind
    · obtain ⟨u, hu, hkind'⟩ := ih hrest
      exact ⟨u, List.mem_cons_of_mem _ hu, hkind'⟩
  | cdata hl _ _ _ _ ih =>
    obtain rfl | hrest := List.mem_cons.1 ht
    · rw [Tree.label, hl] at hkind
      cases hkind
    · obtain ⟨u, hu, hkind'⟩ := ih hrest
      exact ⟨u, List.mem_append_right _ hu, hkind'⟩

@[simp] theorem Tree.kind_plain (t : Tree) : t.plain.label.kind = t.label.kind := by
  cases t
  rfl

variable {single atTop : Bool}

/-! ## Runs -/

namespace Construct

/-- What is joined to two runs is joined to one. -/
theorem prepend_run_run (raw more : List Char) (items : List Construct) :
    prepend (run raw) (prepend (run more) items) = prepend (run (raw ++ more)) items := by
  obtain ⟨r, m, rest, hr, rfl, heq⟩ | ⟨heq, hnext⟩ := prepend_cases (run more) items
  · cases hr
    rw [heq]
    simp [prepend]
  · rw [heq]
    obtain ⟨r, m, rest, -, rfl, -⟩ | ⟨heq', -⟩ := prepend_cases (run (raw ++ more)) items
    · exact absurd (hnext rfl) (by simp [isRun])
    · rw [heq', prepend]

theorem prepend_of_not_run {item : Construct} (h : item.isRun = false) (items : List Construct) :
    prepend item items = item :: items := by
  obtain ⟨raw, _, _, rfl, -⟩ | ⟨heq, -⟩ := prepend_cases item items
  · cases h
  · exact heq

theorem isRun_joined (item : Construct) : item.joined.isRun = item.isRun := by
  cases item <;> rfl

/-- What is not character data is not joined to anything. -/
theorem allJoined_append {items : List Construct} (h : ∀ item ∈ items, item.isRun = false)
    (more : List Construct) : allJoined (items ++ more) = items.map joined ++ allJoined more := by
  induction items with
  | nil => rfl
  | cons item items ih =>
    obtain ⟨hitem, hrest⟩ := List.forall_mem_cons.1 h
    rw [List.cons_append, allJoined, ih hrest,
      prepend_of_not_run (by rw [isRun_joined, hitem])]
    rfl

/-- Two texts side by side are joined to one. -/
theorem allJoined_ofRun_append (raw more : List Char) (items : List Construct) :
    allJoined (ofRun raw ++ (ofRun more ++ items)) = allJoined (ofRun (raw ++ more) ++ items) := by
  cases raw with
  | nil => rfl
  | cons c cs =>
    cases more with
    | nil =>
      rw [List.append_nil]
      rfl
    | cons d ds => exact prepend_run_run _ _ _

theorem allTrees_append (options : ParseOptions) (atTop : Bool) (items more : List Construct) :
    allTrees options atTop (items ++ more) =
      allTrees options atTop items ++ allTrees options atTop more := by
  induction items with
  | nil => rfl
  | cons item items ih => rw [List.cons_append, allTrees, ih, allTrees, List.append_assoc]

/-- A text becomes a node of its own if no other text follows it. -/
theorem allTrees_ofRun_append (options : ParseOptions) (atTop : Bool) (raw : List Char)
    {items : List Construct} (h : (allJoined items).head?.any isRun = false) :
    allTrees options atTop (allJoined (ofRun raw ++ items)) =
      allTrees options atTop (ofRun raw) ++ allTrees options atTop (allJoined items) := by
  rw [← allTrees_append]
  refine congrArg (allTrees options atTop) ?_
  cases raw with
  | nil => rfl
  | cons c cs =>
    obtain ⟨_, _, _, -, hitems, -⟩ | ⟨heq, -⟩ := prepend_cases (run (c :: cs)) (allJoined items)
    · rw [hitems] at h
      cases h
    · exact heq

/-- Constructs that are no character data become trees of their own. -/
theorem allTrees_apart (options : ParseOptions) (atTop : Bool) (raw : List Char)
    {items : List Construct} (hsome : items ≠ []) (happart : ∀ item ∈ items, item.isRun = false)
    (more : List Construct) :
    allTrees options atTop (allJoined (ofRun raw ++ (items ++ more))) =
      allTrees options atTop (ofRun raw) ++ (allTrees options atTop (items.map joined) ++
        allTrees options atTop (allJoined more)) := by
  have hhead : (allJoined (items ++ more)).head?.any isRun = false := by
    obtain ⟨item, items, rfl⟩ := List.exists_cons_of_ne_nil hsome
    rw [allJoined_append happart]
    exact (isRun_joined item).trans (happart item List.mem_cons_self)
  rw [allTrees_ofRun_append _ _ _ hhead, allJoined_append happart, allTrees_append]

end Construct

/-! ## Trees -/

theorem isEmpty_unifyLineEnds (cs : List Char) : (unifyLineEnds cs).isEmpty = cs.isEmpty := by
  unfold unifyLineEnds
  split <;> rfl

theorem keepsRun_everything (atTop : Bool) (raw : List Char) :
    ParseOptions.everything.keepsRun atTop raw = !atTop := by
  have hwhite : ParseOptions.everything.contains .wsPcdata = true := by decide
  have hfragment : ParseOptions.everything.contains .fragment = false := by decide
  rw [ParseOptions.keepsRun, hwhite, hfragment, Bool.true_or, Bool.true_and, Bool.false_or]

/-- Escaped character data is read back as one text with its line ends unified. -/
theorem Tree.allPlain_ofRun (atTop : Bool) (cs : List Char) :
    Tree.allPlain (Construct.allTrees .everything atTop
      (Construct.ofRun (escaped (exactStyle single) .pcdata cs))) =
        Tree.ofText atTop (unifyLineEnds cs) := by
  obtain ⟨-, -, -, hskip, -⟩ := has_exactStyle single
  have htext : (convertPcdata .everything (escaped (exactStyle single) .pcdata cs)).text =
      unifyLineEnds cs :=
    text_convertPcdata_escaped (by decide) (by decide) (by decide) hskip cs
  rw [Tree.ofText, isEmpty_unifyLineEnds]
  cases hempty : cs.isEmpty with
  | true =>
    rw [List.isEmpty_iff.1 hempty, Bool.or_true]
    rfl
  | false =>
    have hraw : (escaped (exactStyle single) .pcdata cs).isEmpty = false := by
      simpa using escaped_ne_nil hskip .pcdata (by simpa using hempty)
    rw [Construct.ofRun, hraw, Bool.or_false, ← htext]
    simp only [Bool.false_eq_true, if_false, Construct.allTrees, Construct.trees,
      keepsRun_everything, List.append_nil]
    cases atTop <;> rfl

/-- A tree that is not character data is written as constructs that are none. -/
theorem Tree.Sayable.items_apart {t : Tree} (h : t.Sayable atTop) (hnot : ¬ t.IsPcdata) :
    t.items single ≠ [] ∧ ∀ item ∈ t.items single, item.isRun = false := by
  obtain ⟨l, children⟩ := t
  obtain hl | ⟨hleaf, -⟩ := h.kind_cases
  · rw [Tree.items]
    simp only [hl]
    exact ⟨List.cons_ne_nil _ _, List.forall_mem_singleton.2 rfl⟩
  · rw [Tree.items]
    cases hl : l.kind with
    | null | document | element | doctype =>
      rw [hl] at hleaf
      cases hleaf
    | pcdata => exact absurd hl hnot
    | cdata =>
      refine ⟨by simpa using cdataSections_ne_nil _, fun item hitem => ?_⟩
      obtain ⟨part, -, rfl⟩ := List.mem_map.1 hitem
      rfl
    | _ => exact ⟨List.cons_ne_nil _ _, List.forall_mem_singleton.2 rfl⟩

/-- What is written for an attribute is read back. -/
theorem TreeAttribute.plain_tree_raw (a : TreeAttribute) :
    ((a.raw single).tree .everything).plain = a.plain := by
  obtain ⟨-, -, -, hskip, -⟩ := has_exactStyle single
  have htext : (convertAttribute .everything
      (escaped (exactStyle single) .attribute a.valueText.toList)).text = a.valueText.toList :=
    (convertAttribute_escaped (by decide) (by decide) hskip _).2
  rw [RawAttribute.tree, TreeAttribute.raw, htext, String.ofList_toList]
  rfl

theorem TreeLabel.plain_attributes (as : List TreeAttribute) :
    ((as.map (TreeAttribute.raw single)).map (RawAttribute.tree .everything)).map
      TreeAttribute.plain = as.map TreeAttribute.plain := by
  rw [List.map_map, List.map_map]
  exact List.map_congr_left fun a _ => a.plain_tree_raw

/-- A node with a name and attributes but no value is read back. -/
theorem TreeLabel.plain_written {l : TreeLabel} (hvalue : l.value = none) :
    (TreeLabel.mk l.kind (some l.nameText) none ((l.attributes.map
      (TreeAttribute.raw single)).map (RawAttribute.tree .everything))).plain = l.plain := by
  have hempty : l.valueText = "" := by rw [TreeLabel.valueText, hvalue, Option.getD_none]
  rw [TreeLabel.plain, TreeLabel.plain, TreeLabel.plain_attributes, hempty]
  rfl

/-- A node without attributes, with another text. -/
theorem TreeLabel.holding_eq {l : TreeLabel} (hattributes : l.attributes = []) (value : List Char) :
    l.holding value = ⟨l.kind, some l.nameText, some (String.ofList value), []⟩ := by
  rw [TreeLabel.holding, TreeLabel.plain, hattributes, List.map_nil]

/-- The text of a comment or of a section is read with its line ends unified. -/
theorem text_sectionConversion_everything (cs : List Char) :
    (TreeBuilder.sectionConversion .everything cs).text = unifyLineEnds cs := by
  have heol : ParseOptions.everything.contains .eol = true := by decide
  rw [TreeBuilder.sectionConversion, if_pos heol, convertLineEnds]
  split
  · rfl
  · rename_i hreturn
    rw [unifyLineEnds_of_not_mem (by simpa using hreturn)]
    rfl

theorem TreeLabel.plain_ofText (kind : NodeKind) (cs : List Char) :
    (TreeLabel.ofText kind (TreeBuilder.sectionConversion .everything cs)).plain =
      ⟨kind, some "", some (String.ofList (unifyLineEnds cs)), []⟩ := by
  rw [TreeLabel.ofText, text_sectionConversion_everything]
  rfl

/-- The sections of a text come back as nodes side by side. -/
theorem Tree.allPlain_sections (atTop : Bool) (parts : List (List Char)) :
    Tree.allPlain (Construct.allTrees .everything atTop
      ((parts.map Construct.cdata).map Construct.joined)) =
        (parts.map unifyLineEnds).map fun part =>
          .node ⟨.cdata, some "", some (String.ofList part), []⟩ [] := by
  induction parts with
  | nil => rfl
  | cons part parts ih =>
    rw [List.map_cons, List.map_cons, Construct.allTrees, Tree.allPlain_append, ih, List.map_cons,
      List.map_cons, ← TreeLabel.plain_ofText]
    rfl

mutual

/-- A tree that is no character data comes back by itself. -/
theorem Tree.Sayable.comeBack {atTop : Bool} (t : Tree) (h : t.Sayable atTop)
    (hnot : ¬ t.IsPcdata) {ts us : List Tree} (hmore : ComeBack atTop ts us) :
    ComeBack atTop (t :: ts) (Tree.allPlain (Construct.allTrees .everything atTop
      ((t.items single).map Construct.joined)) ++ us) := by
  match t, id h with
  | .node l children, ⟨_, ⟨hname, hvalue, _⟩, hlawful, _⟩ =>
    rw [Tree.items]
    obtain hl | ⟨hleaf, -⟩ := h.kind_cases
    · have hinside := Tree.Sayable.allComeBack children (h.below hl) [] (List.forall_mem_nil _)
      have hback := ComeBack.element hl hinside hmore
      rw [← TreeLabel.plain_written (hvalue (by rw [hl]; rfl)), hl] at hback
      simp only [hl]
      exact hback
    · have hnameless : l.kind.hasName = false → l.nameText = "" := fun hkind => by
        rw [TreeLabel.nameText, hname hkind, Option.getD_none]
      cases hl : l.kind with
      | null | document | element | doctype =>
        rw [hl] at hleaf
        cases hleaf
      | pcdata => exact absurd hl hnot
      | cdata =>
        obtain rfl := hlawful.children_eq_nil (by rw [hl]; rfl)
        have hattributes := hlawful.attributes_eq_nil (by rw [hl]; rfl)
        have htogether : ((cdataSections l.valueText.toList).map unifyLineEnds).flatten =
            unifyLineEnds l.valueText.toList := by
          rw [← List.flatMap_def, flatMap_cdataSections]
        have hback := ComeBack.cdata hl (by simpa using cdataSections_ne_nil _) htogether
          (fun hwhole => by rw [cdataSections_of_markless hwhole]; rfl) hmore
        simp only [TreeLabel.holding_eq hattributes, hnameless (by rw [hl]; rfl), hl] at hback
        simp only
        rw [Tree.allPlain_sections]
        exact hback
      | comment =>
        obtain rfl := hlawful.children_eq_nil (by rw [hl]; rfl)
        have hattributes := hlawful.attributes_eq_nil (by rw [hl]; rfl)
        have hback := ComeBack.comment hl hmore
        rw [TreeLabel.holding_eq hattributes, hnameless (by rw [hl]; rfl), hl,
          ← TreeLabel.plain_ofText] at hback
        exact hback
      | pi =>
        obtain rfl := hlawful.children_eq_nil (by rw [hl]; rfl)
        have hattributes := hlawful.attributes_eq_nil (by rw [hl]; rfl)
        have hback := ComeBack.pi hl hmore
        rw [TreeLabel.holding_eq hattributes, hl] at hback
        cases hv : l.value with
        | none =>
          have hempty : l.valueText.toList = [] := by rw [TreeLabel.valueText, hv]; rfl
          rw [hempty] at hback
          exact hback
        | some value => exact hback
      | declaration =>
        obtain rfl := hlawful.children_eq_nil (by rw [hl]; rfl)
        have hback := ComeBack.declaration hl hmore
        rw [← TreeLabel.plain_written (hvalue (by rw [hl]; rfl)), hl] at hback
        exact hback

/-- Trees side by side come back, after texts that stand before them. -/
theorem Tree.Sayable.allComeBack {atTop : Bool} (ts : List Tree) (h : ∀ t ∈ ts, t.Sayable atTop)
    (texts : List Tree) (htexts : ∀ t ∈ texts, t.IsPcdata) :
    ComeBack atTop (texts ++ ts) (Tree.allPlain (Construct.allTrees .everything atTop
      (Construct.allJoined (Construct.ofRun (escaped (exactStyle single) .pcdata
        (Tree.textOfAll texts)) ++ Tree.allItems single ts)))) := by
  match ts with
  | [] =>
    rw [Tree.allItems, Construct.allTrees_ofRun_append _ _ _ (by rfl), Tree.allPlain_append,
      Tree.allPlain_ofRun]
    exact .texts htexts (by simp) .nil
  | t :: ts =>
    obtain ⟨ht, hrest⟩ := List.forall_mem_cons.1 h
    by_cases htext : t.IsPcdata
    · have hmore := Tree.Sayable.allComeBack ts hrest (texts ++ [t])
        (List.forall_mem_append.2 ⟨htexts, List.forall_mem_singleton.2 htext⟩)
      have hitems : t.items single =
          Construct.ofRun (escaped (exactStyle single) .pcdata t.label.valueText.toList) := by
        obtain ⟨l, children⟩ := t
        have hl : l.kind = .pcdata := htext
        rw [Tree.items, hl]
        rfl
      have htogether : Tree.textOfAll (texts ++ [t]) =
          Tree.textOfAll texts ++ t.label.valueText.toList := by
        simp [Tree.textOfAll]
      rw [htogether, escaped, List.flatMap_append, ← Construct.allJoined_ofRun_append,
        List.append_assoc, List.singleton_append] at hmore
      rw [Tree.allItems, hitems]
      exact hmore
    · have hmore := Tree.Sayable.comeBack t ht htext
        (Tree.Sayable.allComeBack ts hrest [] (List.forall_mem_nil _))
      obtain ⟨hsome, happart⟩ := ht.items_apart htext
      have hends : ∀ u ∈ (t :: ts).head?, ¬ u.IsPcdata := by
        rintro u ⟨⟩
        exact htext
      have hback := ComeBack.texts htexts hends hmore
      rw [Tree.allItems, Construct.allTrees_apart _ _ _ hsome happart, Tree.allPlain_append,
        Tree.allPlain_ofRun, Tree.allPlain_append]
      exact hback

end

/-- An element among trees is an element among those that are read where they are written. -/
theorem Tree.Sayable.exists_element_again {ts : List Tree} (h : ∀ t ∈ ts, t.Sayable atTop)
    (helement : ∃ t ∈ ts, t.label.kind = .element) (single : Bool) :
    ∃ t ∈ Construct.allTrees .everything atTop (Construct.allJoined (Tree.allItems single ts)),
      t.label.kind = .element := by
  have hback : Tree.ComeBack atTop ts (Tree.allPlain (Construct.allTrees .everything atTop
      (Construct.allJoined (Tree.allItems single ts)))) :=
    Tree.Sayable.allComeBack ts h [] (List.forall_mem_nil _)
  obtain ⟨u, hu, hkind⟩ := hback.exists_element helement
  rw [Tree.allPlain_eq_map] at hu
  obtain ⟨t, ht, rfl⟩ := List.mem_map.1 hu
  exact ⟨t, ht, by rwa [Tree.kind_plain] at hkind⟩

/-! ## Marks at the front -/

/-- At the top of a document that is no fragment, character data makes no difference. -/
theorem Construct.allTrees_ofRun_top {options : ParseOptions}
    (hfragment : options.contains .fragment = false) (raw : List Char) (items : List Construct) :
    allTrees options true (allJoined (ofRun raw ++ items)) =
      allTrees options true (allJoined items) := by
  have hdropped : ∀ cs, (run cs).trees options true = [] := fun cs => by
    rw [trees, ParseOptions.keepsRun, hfragment, Bool.not_true, Bool.false_or, Bool.and_false]
    rfl
  cases raw with
  | nil => rfl
  | cons c cs =>
    have hjoined : allJoined (ofRun (c :: cs) ++ items) =
        prepend (run (c :: cs)) (allJoined items) := rfl
    rw [hjoined]
    obtain ⟨first, more, rest, -, hitems, heq⟩ | ⟨heq, -⟩ :=
      prepend_cases (run (c :: cs)) (allJoined items)
    · rw [heq, hitems, allTrees, allTrees, hdropped, hdropped]
    · rw [heq, allTrees, hdropped, List.nil_append]

/-- Content without a mark at its front is content, and makes the same trees. -/
theorem Content.withoutMark {options : ParseOptions}
    (hfragment : options.contains .fragment = false) {items : List Construct} {text : List Char}
    (h : Content true items text) :
    ∃ others, Content true others (Encoding.withoutMark text) ∧
      Construct.allTrees options true (Construct.allJoined others) =
        Construct.allTrees options true (Construct.allJoined items) := by
  unfold Encoding.withoutMark
  split
  · rename_i hmark
    cases h with
    | nil => cases hmark
    | @leaf _ item items spelling rest hitem hmore =>
      cases hitem with
      | run hraw htagless =>
        obtain ⟨c, raw, rfl⟩ := List.exists_cons_of_ne_nil hraw
        rw [List.mem_cons, not_or] at htagless
        refine ⟨Construct.ofRun raw ++ items, (content_ofRun htagless.2).append hmore, ?_⟩
        rw [Construct.allTrees_ofRun_top hfragment]
        exact (Construct.allTrees_ofRun_top hfragment (c :: raw) items).symm
      | _ => cases hmark
    | element => cases hmark
  · exact ⟨items, h, rfl⟩

theorem Encoding.byteSize_withoutMark_le (cs : List Char) :
    byteSize (withoutMark cs) ≤ byteSize cs := by
  unfold withoutMark
  split
  · cases cs with
    | nil => exact Nat.le_refl _
    | cons c cs => exact Nat.le_add_left _ _
  · exact Nat.le_refl _

/-! ## Documents -/

namespace Document

variable {doc : Document}

/-- What is saved of a document is what its trees are written with. -/
theorem saveString_eq_written {l : TreeLabel} {ts : List Tree}
    (htree : doc.tree doc.root = .node l ts) (hl : l.kind = .document)
    (h : ∀ t ∈ ts, t.Sayable true ∨ t.label.kind = .doctype) (single : Bool) :
    doc.saveString "" (.exact single) = String.ofList (Tree.allWritten single ts) := by
  have hoptions : (FormatOptions.exact single).contains .writeBom = false ∧
      (FormatOptions.exact single).contains .noDeclaration = true := by
    cases single <;> decide
  obtain ⟨hraw, -⟩ := has_exactStyle single
  have hfinal : ∀ gap, spelled (if gap = Gap.line then lineBreak (exactStyle single) else []) =
      [] := by
    intro gap
    split <;> simp [lineBreak, hraw]
  rw [saveString_eq doc "" _ hoptions.1 hoptions.2, htree, Tree.markupPieces, Tree.pieces]
  simp only [hl, spelled_append]
  rw [← exactStyle, spelled_gap, List.nil_append, Tree.spelled_topPieces ts h, hfinal,
    List.append_nil]

/-- What is saved of a document with names that are names is written as content. -/
theorem Whole.saveString_eq_written (h : Whole doc)
    (hnamed : (doc.tree doc.root).All TreeLabel.Named)
    (hunadorned : (doc.tree doc.root).Unadorned) (single : Bool) :
    (∀ t ∈ (doc.tree doc.root).children, t.Sayable true) ∧
      doc.saveString "" (.exact single) =
        String.ofList (Tree.allWritten single (doc.tree doc.root).children) := by
  have htree := h.tree_root_eq hunadorned
  obtain ⟨lay, hrooted⟩ := h
  have hlawful := (hrooted.toLaidOut.lawful_tree hrooted.contains_root).1
  have hsayable : ∀ t ∈ (doc.tree doc.root).children, t.Sayable true := by
    rw [htree] at hnamed hunadorned hlawful ⊢
    obtain ⟨-, hnamed⟩ := hnamed
    obtain ⟨-, -, hunadorned⟩ := hunadorned
    obtain ⟨-, hallowed, hlawful⟩ := hlawful
    exact fun t ht => ⟨(hnamed t ht).mono fun _ => TreeLabel.Named.spellable, hunadorned t ht,
      hlawful t ht, hallowed t ht⟩
  refine ⟨hsayable, Document.saveString_eq_written (l := bareRoot) ?_ rfl
    (fun t ht => .inl (hsayable t ht)) single⟩
  rw [htree]
  rfl

/-- Trees that are written as content are loaded again, with the mark at the front of their
text or without it. -/
theorem loadBelow_of_sayable {ts : List Tree} (hsayable : ∀ t ∈ ts, t.Sayable true)
    (helement : ∃ t ∈ ts, t.label.kind = .element) (single : Bool)
    (hsize : byteSize (Tree.allWritten single ts) < 2 ^ 32) (into : Document) {text : List Char}
    (htext : text = Tree.allWritten single ts ∨
      text = Encoding.withoutMark (Tree.allWritten single ts)) :
    ∃ loaded us, into.reset.loadBelow into.reset.root (String.ofList text) .everything =
        (⟨.ok, 0⟩, loaded) ∧ (loaded.tree loaded.root).plain = .node bareRoot.plain us ∧
      Tree.ComeBack true ts us := by
  have hcontent : Content true (Tree.allItems single ts) (Tree.allWritten single ts) :=
    Tree.Sayable.allContent ts hsayable
  have hback : Tree.ComeBack true ts (Tree.allPlain (Construct.allTrees .everything true
      (Construct.allJoined (Tree.allItems single ts)))) :=
    Tree.Sayable.allComeBack _ hsayable [] (List.forall_mem_nil _)
  have hitems : ∃ items, Content true items text ∧
      Construct.allTrees .everything true (Construct.allJoined items) =
        Construct.allTrees .everything true
          (Construct.allJoined (Tree.allItems single ts)) := by
    obtain rfl | rfl := htext
    · exact ⟨_, hcontent, rfl⟩
    · exact hcontent.withoutMark (by decide)
  obtain ⟨items, hitems, htrees⟩ := hitems
  have hshort : byteSize text < 2 ^ 32 := by
    obtain rfl | rfl := htext
    · exact hsize
    · exact Nat.lt_of_le_of_lt (Encoding.byteSize_withoutMark_le _) hsize
  have hsome := Tree.Sayable.exists_element_again hsayable helement single
  rw [← htrees] at hback hsome
  obtain ⟨loaded, hbelow, -, hexact⟩ := loadBelow_of_content into (by decide) (by decide) hitems
    hshort (ParseOptions.accepts_of_element hsome)
  have hplain := Tree.plain_eq_of_exact_eq hexact
  exact ⟨loaded, _, hbelow, hplain, hback⟩

/-- An element at the top is an element among the trees there. -/
theorem Whole.exists_element_tree (h : Whole doc) (hunadorned : (doc.tree doc.root).Unadorned)
    (helement : ∃ c ∈ doc.children doc.root, doc.kind c = .element) :
    ∃ t ∈ (doc.tree doc.root).children, t.label.kind = .element := by
  rw [h.tree_root_eq hunadorned]
  obtain ⟨lay, hrooted⟩ := h
  exact hrooted.toLaidOut.exists_element_tree helement

/-- The text that is saved of a document is loaded again, with the mark at its front or
without it. -/
theorem Whole.loadBelow_saved (h : Whole doc) (hnamed : (doc.tree doc.root).All TreeLabel.Named)
    (hunadorned : (doc.tree doc.root).Unadorned)
    (helement : ∃ c ∈ doc.children doc.root, doc.kind c = .element) (single : Bool)
    (hsize : (doc.saveString "" (.exact single)).utf8ByteSize < 2 ^ 32) (into : Document)
    {text : List Char} (htext : text = (doc.saveString "" (.exact single)).toList ∨
      text = Encoding.withoutMark (doc.saveString "" (.exact single)).toList) :
    ∃ loaded us, into.reset.loadBelow into.reset.root (String.ofList text) .everything =
        (⟨.ok, 0⟩, loaded) ∧ (loaded.tree loaded.root).plain = .node bareRoot.plain us ∧
      Tree.ComeBack true (doc.tree doc.root).children us := by
  obtain ⟨hsayable, hsaved⟩ := h.saveString_eq_written hnamed hunadorned single
  rw [hsaved, String.toList_ofList] at htext
  rw [hsaved, ← byteSize_eq] at hsize
  exact loadBelow_of_sayable hsayable (h.exists_element_tree hunadorned helement) single hsize
    into htext

/-- A document whose names are names comes back, whatever its values are, in every encoding of
all characters. -/
theorem Whole.comesBack (h : Whole doc) (hnamed : (doc.tree doc.root).All TreeLabel.Named)
    (hunadorned : (doc.tree doc.root).Unadorned)
    (helement : ∃ c ∈ doc.children doc.root, doc.kind c = .element) (single : Bool) {e : Encoding}
    (hauto : e ≠ .auto) (hlatin : e ≠ .latin1)
    (hsize : (doc.saveString "" (.exact single)).utf8ByteSize < 2 ^ 32) (into : Document) :
    let saved := doc.save Sink.bytes [] "" (.exact single) e
    let loaded := into.loadBytes saved.2 .everything e
    saved.1 = .ok () ∧ loaded.1 = ⟨.ok, 0, e.concrete⟩ ∧
      Tree.ComeBack true (doc.tree doc.root).children
        (loaded.2.tree loaded.2.root).plain.children := by
  have hoptions : (FormatOptions.exact single).contains .writeBom = false ∧
      (FormatOptions.exact single).contains .noDeclaration = true := by
    cases single <;> decide
  have hconcrete : e.forOutput = e.concrete ∧ e.forOutput ≠ .latin1 := by
    cases e <;> first | exact absurd rfl hauto | exact absurd rfl hlatin | decide
  have hinput : ∀ bytes, e.forInput bytes = e.concrete := by
    cases e <;> first | exact absurd rfl hauto | exact fun _ => rfl
  have hsaved : doc.save Sink.bytes [] "" (.exact single) e =
      (.ok (), e.forOutput.encode (doc.saveString "" (.exact single))) :=
    save_bytes e doc "" _ hoptions.1 hoptions.2
  have hread := Encoding.decodeLossy_encode hconcrete.2 (doc.saveString "" (.exact single))
  obtain ⟨loaded, us, hbelow, hplain, hback⟩ :=
    h.loadBelow_saved hnamed hunadorned helement single hsize into (.inr rfl)
  have hloaded : into.loadBytes (e.forOutput.encode (doc.saveString "" (.exact single)))
      .everything e = (⟨.ok, 0, e.concrete⟩, loaded) := by
    rw [loadBytes]
    simp only [hinput, ← hconcrete.1, hread, hbelow]
  dsimp only
  rw [hsaved]
  dsimp only
  rw [hloaded, hplain]
  exact ⟨rfl, rfl, hback⟩

/-- No value breaks out of its construct: what edits have built comes back from its bytes,
whatever its values are, if its names are names and it has an element at its top. -/
theorem Built.loadBytes_save (h : Built doc) (hnamed : (doc.tree doc.root).All TreeLabel.Named)
    (helement : ∃ c ∈ doc.children doc.root, doc.kind c = .element) (single : Bool) {e : Encoding}
    (hauto : e ≠ .auto) (hlatin : e ≠ .latin1)
    (hsize : (doc.saveString "" (.exact single)).utf8ByteSize < 2 ^ 32) (into : Document) :
    let saved := doc.save Sink.bytes [] "" (.exact single) e
    let loaded := into.loadBytes saved.2 .everything e
    saved.1 = .ok () ∧ loaded.1.status = .ok ∧
      Tree.ComeBack true (doc.tree doc.root).children
        (loaded.2.tree loaded.2.root).plain.children := by
  intro saved loaded
  obtain ⟨hsaved, hloaded, hback⟩ := h.reachable.whole.comesBack hnamed
    (h.tidy.unadorned_tree doc.root) helement single hauto hlatin hsize into
  exact ⟨hsaved, congrArg LoadResult.status hloaded, hback⟩

/-- Values that hold the marks of all constructs, and a mark at the very front. -/
def hostile : List Change :=
  [.insertElement ⟨⟨0, 1⟩⟩ "a" .last, .insertAttribute ⟨⟨1, 1⟩⟩ "k" "'\"/><&\r\n" .last,
    .insertChild ⟨⟨1, 1⟩⟩ .pcdata .last, .setValue ⟨⟨2, 1⟩⟩ "</a>\r",
    .insertChild ⟨⟨1, 1⟩⟩ .pcdata .last, .setValue ⟨⟨3, 1⟩⟩ "\n&lt;",
    .insertChild ⟨⟨1, 1⟩⟩ .cdata .last, .setValue ⟨⟨4, 1⟩⟩ "]]>]]>\r\n",
    .insertChild ⟨⟨1, 1⟩⟩ .pi .last, .setName ⟨⟨5, 1⟩⟩ "go", .setValue ⟨⟨5, 1⟩⟩ " ??>?",
    .insertChild ⟨⟨0, 1⟩⟩ .comment .first, .setValue ⟨⟨6, 1⟩⟩ "-->--",
    .insertChild ⟨⟨0, 1⟩⟩ .pcdata .first, .setValue ⟨⟨7, 1⟩⟩ "\uFEFF<b/>"]

theorem loadBytes_hostile :
    let doc := new.applyAll hostile
    let saved := doc.save Sink.bytes [] "" (.exact true) .utf16be
    let loaded := new.loadBytes saved.2 .everything .utf16be
    doc.saveString "" (.exact true) =
        "\uFEFF&lt;b/&gt;<!--- ->- - --><a k='&apos;\"/>&lt;&amp;&#13;&#10;'>" ++
        "&lt;/a&gt;\r\n&amp;lt;<![CDATA[]]]]><![CDATA[>]]]]><![CDATA[>\r\n]]><?go  ?? >??></a>" ∧
      saved.1 = .ok () ∧ loaded.1.status = .ok ∧ Tree.ComeBack true (doc.tree doc.root).children
        (loaded.2.tree loaded.2.root).plain.children :=
  ⟨by decide +kernel, Built.loadBytes_save (Built.new.applyAll (by decide +kernel))
    (by decide +kernel) (by decide +kernel) true (by decide) (by decide) (by decide +kernel) new⟩

end Document

end XmlTree
