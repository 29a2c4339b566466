/-
  Proofs/Formatting.lean --- formatting changes nothing of what is read.

  WHAT THIS FILE IS FOR.  A tree may be written with line breaks and indentation, with each
  attribute on a line of its own, with end tags for empty elements and with either quote.
  Loaded again, it is the tree that is loaded where nothing of that was written.

  WHY.  White space goes before a tag or after one, and only where no character data stands
  beside it.  So it is a text by itself, and a text of white space is dropped.  The proof
  writes down which constructs formatted markup is made of, that its characters are theirs, and
  that they make the same trees.
-/
import XmlTree.Proofs.Containment

set_option autoImplicit false

namespace XmlTree

/-! ## Switches -/

namespace FormatOptions

/-- The switches that say how markup is laid out. -/
def layout : FormatOptions :=
  ((indent.union indentAttributes).union noEmptyElementTags).union attributeSingleQuote

theorem contains_union_right (a b : FormatOptions) : (a.union b).contains b = true := by
  have hbits : (a.bits ||| b.bits) &&& b.bits = b.bits := by
    rw [← UInt32.toNat_inj, UInt32.toNat_and, UInt32.toNat_or]
    refine Nat.eq_of_testBit_eq fun i => ?_
    rw [Nat.testBit_and, Nat.testBit_or]
    cases a.bits.toNat.testBit i <;> cases b.bits.toNat.testBit i <;> rfl
  exact beq_iff_eq.2 hbits

/-- What is not in the second of two sets of switches is in their union if it is in the first. -/
theorem contains_union_of_disjoint (a : FormatOptions) {b c : FormatOptions}
    (h : b.bits &&& c.bits = 0) : (a.union b).contains c = a.contains c := by
  have hbits : (a.bits ||| b.bits) &&& c.bits = a.bits &&& c.bits := by
    rw [← UInt32.toNat_inj] at h ⊢
    rw [UInt32.toNat_and] at h
    rw [UInt32.toNat_and, UInt32.toNat_or, Nat.and_or_distrib_right, h, UInt32.toNat_and]
    exact Nat.or_zero _
  exact congrArg (· == c.bits) hbits

/-- What is not in a set of switches is in no part of it. -/
theorem contains_eq_false {a b c : FormatOptions} (hpart : b.contains a = true)
    (h : b.bits &&& c.bits = 0) (hsome : c.bits ≠ 0) : a.contains c = false := by
  have hbits : a.bits &&& c.bits = 0 := by
    have hpart : b.bits &&& a.bits = a.bits := beq_iff_eq.1 hpart
    rw [← hpart, UInt32.and_comm b.bits, UInt32.and_assoc, h, UInt32.and_zero]
  have heq : (a.bits &&& c.bits == c.bits) = false := by
    rw [hbits, beq_eq_false_iff_ne]
    exact Ne.symm hsome
  exact heq

end FormatOptions

/-! ## Styles that only lay markup out -/

/-- The style writes every character, and indents with white space. -/
structure MarkupStyle.Spaces (style : MarkupStyle) (single : Bool) : Prop where
  escapes : style.has .noEscapes = false
  control : style.has .skipControlChars = false
  quote : style.has .attributeSingleQuote = single
  indent : Blank style.indent.toList

variable {style : MarkupStyle} {single : Bool}

theorem MarkupStyle.Spaces.flat (h : style.Spaces single) : style.flat.Spaces single where
  escapes := (FormatOptions.contains_union_of_disjoint _ (by decide)).trans h.escapes
  control := (FormatOptions.contains_union_of_disjoint _ (by decide)).trans h.control
  quote := (FormatOptions.contains_union_of_disjoint _ (by decide)).trans h.quote
  indent := List.forall_mem_nil _

theorem MarkupStyle.spaces_ofOptions {indent : String} {options : FormatOptions}
    (hindent : Blank indent.toList) (hescapes : options.contains .noEscapes = false)
    (hcontrol : options.contains .skipControlChars = false) :
    (MarkupStyle.ofOptions indent options).Spaces (options.contains .attributeSingleQuote) := by
  refine ⟨hescapes, hcontrol, rfl, ?_⟩
  unfold MarkupStyle.ofOptions
  simp only
  split
  · exact hindent
  · exact List.forall_mem_nil _

namespace MarkupStyle.Spaces

variable (h : style.Spaces single)
include h

/-- Only the quote makes a difference to what is written for a character. -/
theorem escaped_eq (ctx : TextContext) (cs : List Char) :
    escaped style ctx cs = escaped (exactStyle single) ctx cs := by
  obtain ⟨-, -, -, hcontrol, -⟩ := has_exactStyle single
  have hquote : (exactStyle single).has .attributeSingleQuote = single := by
    cases single <;> decide
  have hchar : escapedChar style ctx = escapedChar (exactStyle single) ctx := by
    funext c
    simp only [escapedChar, escapePieces, h.control, hcontrol, h.quote, hquote]
  rw [escaped, escaped, hchar]

theorem blank_indentation (depth : Nat) : Blank (spelled (indentation style depth)) := by
  unfold indentation
  split
  · exact List.forall_mem_nil _
  · intro c hc
    obtain ⟨s, hs, hc⟩ := List.mem_flatMap.1 hc
    exact h.indent c ((List.eq_of_mem_replicate hs) ▸ hc)

/-- A gap is white space. -/
theorem blank_gap (gap : Gap) (depth : Nat) : Blank (spelled (gap.pieces style depth)) := by
  have hbreak : Blank (spelled (lineBreak style)) := by
    unfold lineBreak
    split
    · exact List.forall_mem_nil _
    · exact List.forall_mem_singleton.2 rfl
  cases gap with
  | joined => exact List.forall_mem_nil _
  | indented => exact h.blank_indentation depth
  | line =>
    rw [Gap.pieces, spelled_append]
    exact List.forall_mem_append.2 ⟨hbreak, h.blank_indentation depth⟩

/-- An attribute is written after white space, between the quotes of the style. -/
theorem exists_attribute (depth : Nat) {a : TreeAttribute} (hname : IsName a.nameText) :
    ∃ space spelling, spelled (attributePieces style depth a) = space ++ spelling ∧ Blank space ∧
      space ≠ [] ∧ (a.raw single).SpelledBy spelling := by
  obtain ⟨-, -, -, hcontrol, -⟩ := has_exactStyle single
  have hquote : style.quote = String.singleton (quoteChar single) := by
    rw [MarkupStyle.quote, h.quote]
    cases single <;> rfl
  have hquotes : quoteChar single = '"' ∨ quoteChar single = '\'' := by
    cases single
    · exact .inl rfl
    · exact .inr rfl
  have hvalue : spelled (a.value.elim [] (textPieces style .attribute)) =
      escaped (exactStyle single) .attribute a.valueText.toList := by
    rw [← h.escaped_eq]
    cases hv : a.value with
    | none => simp [TreeAttribute.valueText, hv, escaped]
    | some value => simp [TreeAttribute.valueText, hv, spelled_textPieces h.escapes]
  have hnone : Blank [] := List.forall_mem_nil _
  have hspelled : (a.raw single).SpelledBy _ :=
    .mk hname hnone hnone hquotes
      (quote_not_mem_escaped hcontrol a.valueText.toList (quote_exactStyle single))
  have hwritten : ∀ separator, spelled (separator ++ writtenName a.name :: "=" :: style.quote ::
      (a.value.elim [] (textPieces style .attribute) ++ [style.quote])) =
        spelled separator ++ (a.nameText.toList ++ ([] ++ '=' :: ([] ++ quoteChar single ::
          (escaped (exactStyle single) .attribute a.valueText.toList ++ [quoteChar single])))) := by
    intro separator
    simp only [spelled_append, spelled_cons, spelled_nil, hvalue, writtenName_eq hname.ne_empty,
      hquote, String.toList_singleton, List.append_nil]
    rfl
  unfold attributePieces
  simp only
  split
  · refine ⟨_, _, hwritten _, ?_, by simp, hspelled⟩
    have hindentation := h.blank_indentation (depth + 1)
    rw [spelled_cons]
    exact List.forall_mem_cons.2 ⟨rfl, hindentation⟩
  · exact ⟨_, _, hwritten _, List.forall_mem_singleton.2 rfl, by simp, hspelled⟩

/-- Attributes are written as those that the style has the quotes for. -/
theorem attributesSpelledBy (depth : Nat) {as : List TreeAttribute}
    (hnames : ∀ a ∈ as, IsName a.nameText) {space : List Char} (hspace : Blank space) :
    AttributesSpelledBy (as.map (TreeAttribute.raw single))
      (spelled (attributesPieces style depth as) ++ space) := by
  induction as with
  | nil => exact .nil hspace
  | cons a as ih =>
    obtain ⟨ha, hrest⟩ := List.forall_mem_cons.1 hnames
    obtain ⟨apart, spelling, heq, hblank, hsome, hspelled⟩ := h.exists_attribute depth ha
    have hmore : AttributesSpelledBy _ _ := .cons hblank hsome hspelled (ih hrest)
    rw [attributesPieces, List.flatMap_cons, spelled_append, heq, List.append_assoc,
      List.append_assoc, List.map_cons]
    exact hmore

/-- What is written for a node without children is content. -/
theorem content_leaf {atTop : Bool} {l : TreeLabel} (hlabel : l.Spellable) (children : List Tree)
    (hkind : l.kind.isLeaf = true) (htop : l.kind = .declaration → atTop = true) :
    Content atTop ((Tree.node l children).items single) (spelled (leafPieces style l)) := by
  have hexact : Content atTop ((Tree.node l children).items single)
      (spelled (leafPieces (exactStyle single) l)) := by
    rw [hlabel.spelled_leafPieces]
    exact hlabel.content children hkind htop
  cases hl : l.kind with
  | null | document | element | doctype =>
    rw [hl] at hkind
    cases hkind
  | pcdata =>
    obtain ⟨-, -, hescapes, -⟩ := has_exactStyle single
    simp only [leafPieces, hl, spelled_textPieces hescapes] at hexact
    simp only [leafPieces, hl, spelled_textPieces h.escapes, h.escaped_eq]
    exact hexact
  | cdata | comment | pi =>
    simp only [leafPieces, hl] at hexact ⊢
    exact hexact
  | declaration =>
    simp only [TreeLabel.Spellable, hl] at hlabel
    obtain ⟨⟨hname, hdeclares⟩, hnames⟩ := hlabel
    have hattributes := h.flat.attributesSpelledBy 0 hnames (List.forall_mem_nil _)
    have hcontent : Content atTop
        [.declaration l.nameText (l.attributes.map (TreeAttribute.raw single))] _ :=
      (Construct.LeafSpelledBy.declaration (htop hl) hname hdeclares hattributes).content
    simp only [Tree.items, leafPieces, hl]
    refine hcontent.congr ?_
    simp [writtenName_eq hname.ne_empty, TreeLabel.nameText]

/-- An element without children is written in one of three ways. -/
theorem content_empty {atTop : Bool} (depth : Nat) {l : TreeLabel} (hname : IsName l.nameText)
    (hnames : ∀ a ∈ l.attributes, IsName a.nameText) :
    Content atTop [.element l.nameText (l.attributes.map (TreeAttribute.raw single)) []]
      ('<' :: (l.nameText.toList ++ (spelled (attributesPieces style depth l.attributes) ++
        spelled (emptyElementEnd style l)))) := by
  have hnone : Blank [] := List.forall_mem_nil _
  have hspace : Blank [' '] := List.forall_mem_singleton.2 rfl
  have hbare := h.attributesSpelledBy depth hnames hnone
  have hspaced := h.attributesSpelledBy depth hnames hspace
  unfold emptyElementEnd
  split
  · exact (Content.element hname hbare .nil hnone .nil).congr (by
      simp [writtenName_eq hname.ne_empty, TreeLabel.nameText])
  · split
    · exact (Construct.LeafSpelledBy.empty hname hbare).content.congr (by simp)
    · exact (Construct.LeafSpelledBy.empty hname hspaced).content.congr (by simp)

end MarkupStyle.Spaces

/-! ## Formatted constructs -/

/-- Whether a tree is character data, which is written without a gap before it. -/
def Tree.isText (t : Tree) : Bool := t.label.kind.isText

mutual

/-- The constructs that a tree is written with in a style, without those of the gap before it. -/
def Tree.formatted (style : MarkupStyle) (single : Bool) (depth : Nat) : Tree → List Construct
  | .node l children =>
    match l.kind with
    | .element =>
      let inner := Tree.allFormatted style single (depth + 1) .line children
      let last := if children.isEmpty then Gap.joined else Gap.after.lastGap .line children
      [.element l.nameText (l.attributes.map (TreeAttribute.raw single))
        (inner ++ Construct.ofRun (spelled (last.pieces style depth)))]
    | _ => (Tree.node l children).items single

/-- The constructs that trees side by side are written with in a style, after a gap. -/
def Tree.allFormatted (style : MarkupStyle) (single : Bool) (depth : Nat) (gap : Gap) :
    List Tree → List Construct
  | [] => []
  | t :: ts =>
    let before := if t.isText then [] else spelled (gap.pieces style depth)
    Construct.ofRun before ++
      (t.formatted style single depth ++ Tree.allFormatted style single depth (Gap.after t) ts)

end

variable {atTop : Bool}

theorem lessThan_not_mem_blank {cs : List Char} (h : Blank cs) : '<' ∉ cs := fun hmem =>
  absurd (h _ hmem) (by decide)

mutual

/-- The pieces of a tree are the gap before it and its formatted constructs. -/
theorem Tree.Sayable.exists_formatted {atTop : Bool} (hstyle : style.Spaces single) (t : Tree)
    (h : t.Sayable atTop) (depth : Nat) :
    ∃ text, Content atTop (t.formatted style single depth) text ∧ ∀ gap tail,
      spelled (t.pieces style depth gap tail) =
        (if t.isText then [] else spelled (gap.pieces style depth)) ++ (text ++ spelled tail) := by
  match t, id h with
  | .node l children, ⟨⟨hlabel, _⟩, ⟨_, hvalue, _⟩, _, _⟩ =>
    obtain hl | ⟨hleaf, htop⟩ := h.kind_cases
    · have hnone : l.value = none := hvalue (by rw [hl]; rfl)
      have hnames : IsName l.nameText ∧ ∀ a ∈ l.attributes, IsName a.nameText := by
        simpa only [TreeLabel.Spellable, TreeLabel.Named, hl] using hlabel
      have hname : writtenName l.name = l.nameText := writtenName_eq hnames.1.ne_empty
      obtain ⟨text, hinside, hpieces⟩ :=
        Tree.Sayable.exists_allFormatted hstyle children (h.below hl) (depth + 1) .line
      rw [Tree.formatted]
      cases children with
      | nil =>
        simp only [hl]
        refine ⟨_, hstyle.content_empty depth hnames.1 hnames.2, fun gap tail => ?_⟩
        rw [Tree.pieces]
        simp [hl, hnone, hname, Tree.isText, Tree.label, NodeKind.isText]
      | cons t ts =>
        have hblank := hstyle.blank_gap (Gap.after.lastGap .line (t :: ts)) depth
        have hcontent := hinside.append (content_ofRun (lessThan_not_mem_blank hblank))
        have hattributes := hstyle.attributesSpelledBy depth hnames.2 (List.forall_mem_nil _)
        simp only [hl]
        refine ⟨_, .element hnames.1 hattributes hcontent (List.forall_mem_nil _) .nil,
          fun gap tail => ?_⟩
        rw [Tree.pieces]
        simp [hl, hnone, hname, hpieces, endTag, Tree.isText, Tree.label, NodeKind.isText]
    · refine ⟨spelled (leafPieces style l), ?_, fun gap tail => ?_⟩
      · have hcontent := hstyle.content_leaf hlabel children hleaf htop
        rw [Tree.formatted]
        cases hl : l.kind with
        | element =>
          rw [hl] at hleaf
          cases hleaf
        | _ => exact hcontent
      · rw [Tree.pieces, Tree.isText, Tree.label]
        cases hl : l.kind with
        | null | document | element | doctype =>
          rw [hl] at hleaf
          cases hleaf
        | _ => simp [NodeKind.isText]

/-- The pieces of trees side by side are their formatted constructs. -/
theorem Tree.Sayable.exists_allFormatted {atTop : Bool} (hstyle : style.Spaces single)
    (ts : List Tree) (h : ∀ t ∈ ts, t.Sayable atTop) (depth : Nat) (gap : Gap) :
    ∃ text, Content atTop (Tree.allFormatted style single depth gap ts) text ∧ ∀ tail,
      spelled (Tree.allPieces style depth gap tail ts) = text ++ spelled tail := by
  match ts with
  | [] => exact ⟨[], .nil, fun _ => rfl⟩
  | t :: ts =>
    obtain ⟨ht, hrest⟩ := List.forall_mem_cons.1 h
    obtain ⟨text, hcontent, hpieces⟩ := Tree.Sayable.exists_formatted hstyle t ht depth
    obtain ⟨more, hmore, hpieces'⟩ :=
      Tree.Sayable.exists_allFormatted hstyle ts hrest depth (Gap.after t)
    have hbefore : Blank (if t.isText then [] else spelled (gap.pieces style depth)) := by
      split
      · exact List.forall_mem_nil _
      · exact hstyle.blank_gap gap depth
    refine ⟨_, (content_ofRun (lessThan_not_mem_blank hbefore)).append (hcontent.append hmore),
      fun tail => ?_⟩
    rw [Tree.allPieces, hpieces, hpieces', List.append_assoc, List.append_assoc]

end

/-! ## The same trees -/

/-- A text of white space is dropped. -/
theorem Construct.allTrees_blank {cs : List Char} (h : Blank cs) :
    allTrees .full atTop (ofRun cs) = [] := by
  have hwhite : ParseOptions.full.contains .wsPcdata = false := by decide
  have hdropped : ParseOptions.full.keepsRun atTop cs = false := by
    rw [ParseOptions.keepsRun, hwhite, List.all_eq_true.2 h]
    rfl
  unfold ofRun
  split
  · rfl
  · rw [allTrees, trees, if_neg (Bool.eq_false_iff.1 hdropped)]
    rfl

/-- Either quote is read alike. -/
theorem TreeAttribute.tree_raw (a : TreeAttribute) :
    (a.raw single).tree .full = ⟨some a.nameText, some a.valueText⟩ := by
  obtain ⟨-, -, -, hcontrol, -⟩ := has_exactStyle single
  have htext : (convertAttribute .full
      (escaped (exactStyle single) .attribute a.valueText.toList)).text = a.valueText.toList :=
    (convertAttribute_escaped (by decide) (by decide) hcontrol _).2
  rw [RawAttribute.tree, TreeAttribute.raw, htext, String.ofList_toList]

theorem TreeLabel.trees_raw (single : Bool) (as : List TreeAttribute) :
    (as.map (TreeAttribute.raw single)).map (RawAttribute.tree .full) =
      (as.map (TreeAttribute.raw false)).map (RawAttribute.tree .full) := by
  simp only [List.map_map, Function.comp_def, TreeAttribute.tree_raw]

/-- No quote is escaped in character data. -/
theorem escaped_pcdata (single : Bool) (cs : List Char) :
    escaped (exactStyle single) .pcdata cs = escaped (exactStyle false) .pcdata cs := by
  have hcontrol : ∀ single, (exactStyle single).has .skipControlChars = false := fun single => by
    obtain ⟨-, -, -, hcontrol, -⟩ := has_exactStyle single
    exact hcontrol
  have hchar :
      escapedChar (exactStyle single) .pcdata = escapedChar (exactStyle false) .pcdata := by
    funext c
    unfold escapedChar
    split
    · rename_i hescape
      have hdouble : c ≠ '"' := by
        rintro rfl
        exact absurd hescape (by decide)
      have hsingle : c ≠ '\'' := by
        rintro rfl
        exact absurd hescape (by decide)
      simp only [escapePieces, if_neg hdouble, if_neg hsingle, hcontrol]
    · rfl
  rw [escaped, escaped, hchar]

/-- What is no character data is formatted as constructs that are none. -/
theorem Tree.Sayable.formatted_apart {t : Tree} (h : t.Sayable atTop) (hnot : ¬ t.IsPcdata)
    (style : MarkupStyle) (single : Bool) (depth : Nat) : t.formatted style single depth ≠ [] ∧
      ∀ item ∈ t.formatted style single depth, item.isRun = false := by
  have hitems : t.items single ≠ [] ∧ ∀ item ∈ t.items single, item.isRun = false :=
    h.items_apart hnot
  obtain ⟨l, children⟩ := t
  rw [Tree.formatted]
  cases hl : l.kind with
  | element => exact ⟨List.cons_ne_nil _ _, List.forall_mem_singleton.2 rfl⟩
  | _ => exact hitems

mutual

/-- A tree that is not character data is read alike, however it is formatted. -/
theorem Tree.Sayable.trees_formatted {atTop : Bool} (hstyle : style.Spaces single) (t : Tree)
    (h : t.Sayable atTop) (hnot : ¬ t.IsPcdata) (depth : Nat) :
    Construct.allTrees .full atTop ((t.formatted style single depth).map Construct.joined) =
      Construct.allTrees .full atTop ((t.items false).map Construct.joined) := by
  match t, id h with
  | .node l children, _ =>
    rw [Tree.formatted]
    obtain hl | ⟨hleaf, -⟩ := h.kind_cases
    · let last := if children.isEmpty then Gap.joined else Gap.after.lastGap .line children
      have hlast : Gap.after.lastGap .line children = .joined →
          spelled (last.pieces style depth) = [] := fun hjoined => by
        simp [last, hjoined, Gap.pieces]
      have hinside := Tree.Sayable.allTrees_formatted hstyle children (h.below hl) (depth + 1)
        .line [] (absurd rfl) _ (hstyle.blank_gap last depth) hlast
      simp only [Tree.items, hl, List.map_cons, List.map_nil, Construct.joined,
        Construct.allTrees, Construct.trees, TreeLabel.trees_raw single]
      exact congrArg (fun ts => [Tree.node _ ts]) hinside
    · cases hl : l.kind with
      | null | document | element | doctype =>
        rw [hl] at hleaf
        cases hleaf
      | pcdata => exact absurd hl hnot
      | cdata | comment | pi | declaration =>
        simp only [Tree.items, hl, List.map_cons, List.map_nil, Construct.joined,
          Construct.allTrees, Construct.trees, TreeLabel.trees_raw single]

/-- Trees side by side are read alike, however they are formatted: after a text that no gap
follows, and before white space that goes after no text. -/
theorem Tree.Sayable.allTrees_formatted {atTop : Bool} (hstyle : style.Spaces single)
    (ts : List Tree) (h : ∀ t ∈ ts, t.Sayable atTop) (depth : Nat) (gap : Gap) (raw : List Char)
    (hraw : raw ≠ [] → gap = .joined) (final : List Char) (hfinal : Blank final)
    (hlast : Gap.after.lastGap gap ts = .joined → final = []) :
    Construct.allTrees .full atTop (Construct.allJoined (Construct.ofRun raw ++
        (Tree.allFormatted style single depth gap ts ++ Construct.ofRun final))) =
      Construct.allTrees .full atTop (Construct.allJoined (Construct.ofRun raw ++
        Tree.allItems false ts)) := by
  match ts with
  | [] =>
    rw [Tree.allFormatted, Tree.allItems, List.nil_append]
    by_cases hnone : raw = []
    · have hfinal' : Construct.allJoined (Construct.ofRun final) = Construct.ofRun final := by
        cases final <;> rfl
      rw [hnone]
      exact (congrArg _ hfinal').trans (Construct.allTrees_blank hfinal)
    · rw [hlast (hraw hnone)]
      rfl
  | t :: ts =>
    obtain ⟨ht, hrest⟩ := List.forall_mem_cons.1 h
    rw [Tree.allFormatted, Tree.allItems]
    by_cases htext : t.IsPcdata
    · -- the text is read together with the one before it
      obtain ⟨l, children⟩ := t
      have hl : l.kind = .pcdata := htext
      have hmore := Tree.Sayable.allTrees_formatted hstyle ts hrest depth .joined
        (raw ++ escaped (exactStyle false) .pcdata l.valueText.toList) (fun _ => rfl) final hfinal
      have hafter : Gap.after (.node l children) = .joined := by simp only [Gap.after, hl]
      rw [Gap.after.lastGap, hafter] at hlast
      have hbare : (Tree.node l children).isText = true := by rw [Tree.isText, Tree.label, hl]; rfl
      simp only [hbare, hafter, Tree.formatted, Tree.items, hl, if_true, escaped_pcdata single]
      simp only [List.append_assoc]
      rw [← Construct.allJoined_ofRun_append, ← Construct.allJoined_ofRun_append] at hmore
      exact hmore hlast
    · -- the gap is read together with the text before it, and one of the two is empty
      let before := if t.isText then [] else spelled (gap.pieces style depth)
      have hbefore : Blank before := by
        simp only [before]
        split
        · exact List.forall_mem_nil _
        · exact hstyle.blank_gap gap depth
      have hgap : Construct.allTrees .full atTop (Construct.ofRun (raw ++ before)) =
          Construct.allTrees .full atTop (Construct.ofRun raw) := by
        by_cases hnone : raw = []
        · rw [hnone, List.nil_append, Construct.allTrees_blank hbefore]
          rfl
        · have hjoined : before = [] := by simp [before, hraw hnone, Gap.pieces]
          rw [hjoined, List.append_nil]
      have hmore : Construct.allTrees .full atTop (Construct.allJoined
          (Tree.allFormatted style single depth (Gap.after t) ts ++ Construct.ofRun final)) =
            Construct.allTrees .full atTop (Construct.allJoined (Tree.allItems false ts)) :=
        Tree.Sayable.allTrees_formatted hstyle ts hrest depth (Gap.after t) [] (absurd rfl) final
          hfinal hlast
      have hhere := Tree.Sayable.trees_formatted hstyle t ht htext depth
      obtain ⟨hsome, happart⟩ := ht.formatted_apart htext style single depth
      have hitems : t.items false ≠ [] ∧ ∀ item ∈ t.items false, item.isRun = false :=
        ht.items_apart htext
      obtain ⟨hsome', happart'⟩ := hitems
      simp only [List.append_assoc]
      rw [Construct.allJoined_ofRun_append, Construct.allTrees_apart _ _ _ hsome happart,
        Construct.allTrees_apart _ _ _ hsome' happart', hgap, hhere, hmore]

end

/-! ## Documents -/

/-- An element among constructs is one among their trees. -/
theorem Construct.exists_element_allTrees (options : ParseOptions) (atTop : Bool)
    {items : List Construct} (h : ∃ name as content, element name as content ∈ items) :
    ∃ t ∈ allTrees options atTop (allJoined items), t.label.kind = .element := by
  obtain ⟨name, as, content, hmem⟩ := h
  induction items with
  | nil => cases hmem
  | cons item items ih =>
    rw [allJoined]
    obtain rfl | hmem := List.mem_cons.1 hmem
    · rw [prepend_of_not_run (by rfl)]
      exact ⟨_, List.mem_append_left _ List.mem_cons_self, rfl⟩
    · obtain ⟨t, ht, hkind⟩ := ih hmem
      obtain ⟨raw, more, rest, -, hitems, heq⟩ | ⟨heq, -⟩ :=
        prepend_cases item.joined (allJoined items)
      · -- what is joined is character data, so the element is behind it
        rw [hitems] at ht
        rw [heq]
        obtain hfirst | hrest := List.mem_append.1 ht
        · rw [trees] at hfirst
          split at hfirst
          · rw [List.mem_singleton.1 hfirst] at hkind
            cases hkind
          · cases hfirst
        · exact ⟨t, List.mem_append_right _ hrest, hkind⟩
      · rw [heq]
        exact ⟨t, List.mem_append_right _ ht, hkind⟩

/-- An element among trees is one among those that are read where they are written. -/
theorem Tree.exists_element_read (single : Bool) {ts : List Tree}
    (h : ∃ t ∈ ts, t.label.kind = .element) :
    ∃ t ∈ Construct.allTrees .full true (Construct.allJoined (Tree.allItems single ts)),
      t.label.kind = .element := by
  refine Construct.exists_element_allTrees _ _ ?_
  obtain ⟨⟨l, children⟩, ht, hl⟩ := h
  refine ⟨l.nameText, l.attributes.map (TreeAttribute.raw single),
    Tree.allItems single children, ?_⟩
  induction ts with
  | nil => cases ht
  | cons u us ih =>
    rw [Tree.allItems]
    obtain rfl | ht := List.mem_cons.1 ht
    · rw [Tree.label] at hl
      refine List.mem_append_left _ ?_
      simp only [Tree.items, hl]
      exact List.mem_cons_self
    · exact List.mem_append_right _ (ih ht)

namespace Document

variable {doc : Document}

/-- What is written of trees that may stand at the top of a document is content, in every style
that only lays markup out. -/
theorem exists_content_formatted {ts : List Tree} (hsayable : ∀ t ∈ ts, t.Sayable true)
    (hstyle : style.Spaces single) :
    ∃ items, Content true items (spelled ((Tree.node bareRoot ts).markupPieces style 0)) ∧
      Construct.allTrees .full true (Construct.allJoined items) =
        Construct.allTrees .full true (Construct.allJoined (Tree.allItems false ts)) := by
  let last := Gap.after.lastGap .indented ts
  let final := if last = .line then lineBreak style else []
  have hfinal : Blank (spelled final) := by
    have hbreak := hstyle.blank_gap .line 0
    rw [Gap.pieces, spelled_append] at hbreak
    simp only [final]
    split
    · exact fun c hc => hbreak c (List.mem_append_left _ hc)
    · exact List.forall_mem_nil _
  have hlast : last = .joined → spelled final = [] := fun hjoined => by simp [final, hjoined]
  have htop : spelled (Gap.indented.pieces style 0) = [] := by
    rw [Gap.pieces, indentation]
    split <;> rfl
  obtain ⟨text, hcontent, hpieces⟩ :=
    Tree.Sayable.exists_allFormatted hstyle ts hsayable 0 .indented
  have htrees := Tree.Sayable.allTrees_formatted hstyle ts hsayable 0 .indented [] (absurd rfl) _
    hfinal hlast
  refine ⟨_, (hcontent.append (content_ofRun (lessThan_not_mem_blank hfinal))).congr ?_, htrees⟩
  have hmarkup : (Tree.node bareRoot ts).markupPieces style 0 =
      Gap.indented.pieces style 0 ++ Tree.allPieces style 0 .indented final ts := rfl
  rw [hmarkup, spelled_append, htop, hpieces, List.nil_append]

/-- Content is loaded as the trees of its constructs. -/
theorem loadString_of_content (into : Document) {items : List Construct} {text : String}
    (h : Content true items text.toList) (hsize : text.utf8ByteSize < 2 ^ 32)
    (helement : ∃ t ∈ Construct.allTrees .full true (Construct.allJoined items),
      t.label.kind = .element) :
    let loaded := into.loadString text .full
    loaded.1 = ⟨.ok, 0, .utf8⟩ ∧ (loaded.2.tree loaded.2.root).exact =
      (Tree.node bareRoot (Construct.allTrees .full true (Construct.allJoined items))).exact := by
  obtain ⟨loaded, hbelow, -, hexact⟩ := loadBelow_of_content into (by decide) (by decide) h
    (by rwa [byteSize_toList]) (ParseOptions.accepts_of_element helement)
  rw [String.ofList_toList] at hbelow
  have hloaded : into.loadString text .full = (⟨.ok, 0, .utf8⟩, loaded) := by
    rw [loadString]
    simp only [hbelow]
  dsimp only
  rw [hloaded]
  exact ⟨rfl, hexact⟩

/-- What is saved of a document is loaded as the same trees in every style that only lays markup
out. -/
theorem Whole.loadString_styled (h : Whole doc) (hnamed : (doc.tree doc.root).All TreeLabel.Named)
    (hunadorned : (doc.tree doc.root).Unadorned)
    (helement : ∃ c ∈ doc.children doc.root, doc.kind c = .element) {indent : String}
    {options : FormatOptions} (hindent : Blank indent.toList)
    (hmark : options.contains .writeBom = false)
    (hdeclaration : options.contains .noDeclaration = true)
    (hescapes : options.contains .noEscapes = false)
    (hcontrol : options.contains .skipControlChars = false)
    (hsize : (doc.saveString indent options).utf8ByteSize < 2 ^ 32) (into : Document) :
    let loaded := into.loadString (doc.saveString indent options) .full
    loaded.1 = ⟨.ok, 0, .utf8⟩ ∧ (loaded.2.tree loaded.2.root).exact =
      (Tree.node bareRoot (Construct.allTrees .full true (Construct.allJoined
        (Tree.allItems false (doc.tree doc.root).children)))).exact := by
  obtain ⟨hsayable, -⟩ := h.saveString_eq_written hnamed hunadorned false
  have hread := Tree.exists_element_read false (h.exists_element_tree hunadorned helement)
  have hsaved := saveString_eq doc indent options hmark hdeclaration
  rw [h.tree_root_eq hunadorned] at hsayable hread hsaved ⊢
  rw [Tree.children] at hsayable hread ⊢
  obtain ⟨items, hcontent, htrees⟩ := exists_content_formatted hsayable
    (MarkupStyle.spaces_ofOptions hindent hescapes hcontrol)
  rw [← htrees] at hread ⊢
  refine loadString_of_content into ?_ hsize hread
  rw [hsaved, String.toList_ofList]
  exact hcontent

/-- What edits have built is loaded alike, however it is formatted: with line breaks and
indentation or without, with end tags for empty elements or without, and with either quote. -/
theorem Built.loadString_formatted (h : Built doc)
    (hnamed : (doc.tree doc.root).All TreeLabel.Named)
    (helement : ∃ c ∈ doc.children doc.root, doc.kind c = .element) {indent : String}
    (hindent : Blank indent.toList) {flags : FormatOptions}
    (hflags : FormatOptions.layout.contains flags = true)
    (hformatted : (doc.saveString indent (flags.union .noDeclaration)).utf8ByteSize < 2 ^ 32)
    (hraw : (doc.saveString "" (FormatOptions.raw.union .noDeclaration)).utf8ByteSize < 2 ^ 32)
    (into other : Document) :
    let formatted :=
      into.loadString (doc.saveString indent (flags.union .noDeclaration)) .full
    let raw :=
      other.loadString (doc.saveString "" (FormatOptions.raw.union .noDeclaration)) .full
    formatted.1 = ⟨.ok, 0, .utf8⟩ ∧ raw.1 = ⟨.ok, 0, .utf8⟩ ∧
      (formatted.2.tree formatted.2.root).exact = (raw.2.tree raw.2.root).exact := by
  have hwhole := h.reachable.whole
  have hunadorned := h.tidy.unadorned_tree doc.root
  have habsent : ∀ {switch : FormatOptions}, FormatOptions.noDeclaration.bits &&& switch.bits = 0 →
      FormatOptions.layout.bits &&& switch.bits = 0 → switch.bits ≠ 0 →
      (flags.union .noDeclaration).contains switch = false := fun hother hlayout hsome =>
    (FormatOptions.contains_union_of_disjoint flags hother).trans
      (FormatOptions.contains_eq_false hflags hlayout hsome)
  have hstyled := hwhole.loadString_styled hnamed hunadorned helement hindent
    (habsent (by decide) (by decide) (by decide))
    (FormatOptions.contains_union_right _ _) (habsent (by decide) (by decide) (by decide))
    (habsent (by decide) (by decide) (by decide)) hformatted into
  have hnone : Blank "".toList := List.forall_mem_nil _
  have hplain := hwhole.loadString_styled hnamed hunadorned helement hnone (by decide)
    (by decide) (by decide) (by decide) hraw other
  exact ⟨hstyled.1, hplain.1, hstyled.2.trans hplain.2.symm⟩

/-- Elements beside character data, beside white space that is a text, and by themselves. -/
def mixed : List Change :=
  [.insertElement ⟨⟨0, 1⟩⟩ "a" .last, .insertAttribute ⟨⟨1, 1⟩⟩ "k" "'\"" .last,
    .insertElement ⟨⟨1, 1⟩⟩ "b" .last, .insertElement ⟨⟨1, 1⟩⟩ "c" .last,
    .insertChild ⟨⟨3, 1⟩⟩ .pcdata .last, .setValue ⟨⟨4, 1⟩⟩ "\nx ",
    .insertElement ⟨⟨3, 1⟩⟩ "d" .last, .insertChild ⟨⟨3, 1⟩⟩ .comment .last,
    .insertChild ⟨⟨1, 1⟩⟩ .pcdata .last, .setValue ⟨⟨7, 1⟩⟩ " "]

theorem loadString_mixed :
    let doc := new.applyAll mixed
    let text := doc.saveString "\t" (FormatOptions.layout.union .noDeclaration)
    let formatted := new.loadString text .full
    let raw := new.loadString (doc.saveString "" (FormatOptions.raw.union .noDeclaration)) .full
    text = "<a\n\tk='&apos;\"'>\n\t<b></b>\n\t<c>\nx <d></d>\n\t\t<!---->\n\t</c> </a>\n" ∧
      formatted.1 = ⟨.ok, 0, .utf8⟩ ∧ raw.1 = ⟨.ok, 0, .utf8⟩ ∧
      (formatted.2.tree formatted.2.root).exact = (raw.2.tree raw.2.root).exact :=
  have hindent : Blank "\t".toList := List.forall_mem_singleton.2 rfl
  ⟨by decide +kernel, Built.loadString_formatted (Built.new.applyAll (by decide +kernel))
    (by decide +kernel) (by decide +kernel) hindent (by decide) (by decide +kernel)
    (by decide +kernel) new new⟩

end Document

end XmlTree
