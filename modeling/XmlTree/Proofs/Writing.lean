/-
  Proofs/Writing.lean --- what is written for a tree is content.

  WHAT THIS FILE IS FOR.  A tree is written as the constructs of its nodes, one after the
  other, and what stands inside of a construct never ends it.  So the text of a tree is
  content, whatever the values in the tree are; only its names have to be names.

  WHICH CONSTRUCTS.  A node is one construct, apart from two kinds: an empty text is nothing,
  and a section whose text holds the mark that ends it is several.
-/
import XmlTree.Proofs.Constructs
import XmlTree.Proofs.Sanitising
import XmlTree.Proofs.Showing

set_option autoImplicit false

namespace XmlTree

/-! ## Names -/

/-- A tree with the property at every node. -/
inductive Tree.All (p : TreeLabel → Prop) : Tree → Prop where
  | node {label : TreeLabel} {children : List Tree} (top : p label)
      (below : ∀ t ∈ children, All p t) : All p (.node label children)

theorem Tree.all_node {p : TreeLabel → Prop} {label : TreeLabel} {children : List Tree} :
    (Tree.node label children).All p ↔ p label ∧ ∀ t ∈ children, t.All p := by
  constructor
  · rintro ⟨htop, hbelow⟩
    exact ⟨htop, hbelow⟩
  · rintro ⟨htop, hbelow⟩
    exact .node htop hbelow

mutual

/-- Whether a tree has a property everywhere can be told by looking at its nodes. -/
def Tree.decideAll (p : TreeLabel → Prop) [DecidablePred p] : (t : Tree) → Decidable (t.All p)
  | .node _ children =>
    have := Tree.decideForall p children
    decidable_of_iff _ Tree.all_node.symm

/-- Whether trees side by side have a property everywhere can be told tree by tree. -/
def Tree.decideForall (p : TreeLabel → Prop) [DecidablePred p] :
    (ts : List Tree) → Decidable (∀ t ∈ ts, t.All p)
  | [] => isTrue (List.forall_mem_nil _)
  | t :: ts =>
    have := t.decideAll p
    have := Tree.decideForall p ts
    decidable_of_iff (t.All p ∧ ∀ t ∈ ts, t.All p) List.forall_mem_cons.symm

end

instance (p : TreeLabel → Prop) [DecidablePred p] (t : Tree) : Decidable (t.All p) :=
  t.decideAll p

/-- What holds of every node that is read holds everywhere in a subtree. -/
theorem Document.all_tree {doc : Document} {p : TreeLabel → Prop} (hp : ∀ id, p (doc.labelOf id))
    (hnull : p ⟨.null, none, none, []⟩) (id : NodeId) : (doc.tree id).All p := by
  have hdepth : ∀ depth id, (doc.treeUpTo depth id).All p := by
    intro depth
    induction depth with
    | zero => exact fun _ => .node hnull nofun
    | succ depth ih =>
      intro id
      refine .node (hp id) fun t ht => ?_
      obtain ⟨c, -, rfl⟩ := List.mem_map.1 ht
      exact ih c
  exact hdepth _ id

theorem Tree.All.mono {p q : TreeLabel → Prop} (h : ∀ l, p l → q l) {t : Tree} (ht : t.All p) :
    t.All q := by
  induction ht with
  | node htop _ ih => exact .node (h _ htop) ih

/-- A node whose names are names to a reader, and that is not a document type.  Nothing is
asked of any value. -/
def TreeLabel.Named (l : TreeLabel) : Prop :=
  match l.kind with
  | .element => IsName l.nameText ∧ ∀ a ∈ l.attributes, IsName a.nameText
  | .pi => IsName l.nameText ∧ eqIgnoringCase l.nameText.toList "xml".toList = false
  | .declaration => l.nameText = "xml" ∧ ∀ a ∈ l.attributes, IsName a.nameText
  | .doctype => False
  | _ => True

instance : DecidablePred TreeLabel.Named
  | ⟨.element, _, _, _⟩ | ⟨.declaration, _, _, _⟩ => inferInstanceAs (Decidable (_ ∧ ∀ a ∈ _, _))
  | ⟨.pi, _, _, _⟩ => inferInstanceAs (Decidable (_ ∧ _))
  | ⟨.doctype, _, _, _⟩ => inferInstanceAs (Decidable False)
  | ⟨.null, _, _, _⟩ | ⟨.document, _, _, _⟩ | ⟨.pcdata, _, _, _⟩ | ⟨.cdata, _, _, _⟩
  | ⟨.comment, _, _, _⟩ => inferInstanceAs (Decidable True)

/-- A named node, where the target of a declaration may be in upper case. -/
def TreeLabel.Spellable (l : TreeLabel) : Prop :=
  match l.kind with
  | .declaration => (IsName l.nameText ∧ eqIgnoringCase l.nameText.toList "xml".toList = true) ∧
      ∀ a ∈ l.attributes, IsName a.nameText
  | _ => l.Named

theorem TreeLabel.Named.spellable {l : TreeLabel} (h : l.Named) : l.Spellable := by
  unfold Spellable
  split
  · rename_i hl
    simp only [Named, hl] at h
    rw [h.1]
    exact ⟨by decide, h.2⟩
  · exact h

/-! ## The constructs of a tree -/

/-- An attribute as it is written. -/
def TreeAttribute.raw (single : Bool) (a : TreeAttribute) : RawAttribute :=
  ⟨a.nameText, escaped (exactStyle single) .attribute a.valueText.toList⟩

/-- Character data as a construct, if there is any. -/
def Construct.ofRun (raw : List Char) : List Construct := if raw.isEmpty then [] else [.run raw]

mutual

/-- The constructs that a tree is written with. -/
def Tree.items (single : Bool) : Tree → List Construct
  | .node l children =>
    let value := l.valueText.toList
    let attributes := l.attributes.map (TreeAttribute.raw single)
    match l.kind with
    | .element => [.element l.nameText attributes (Tree.allItems single children)]
    | .pcdata => Construct.ofRun (escaped (exactStyle single) .pcdata value)
    | .cdata => (cdataSections value).map .cdata
    | .comment => [.comment (spacedHyphens value)]
    | .pi => [.pi l.nameText (l.value.map fun _ => dropSpace (partedMarks value))]
    | .declaration => [.declaration l.nameText attributes]
    | _ => []

/-- The constructs that trees side by side are written with. -/
def Tree.allItems (single : Bool) : List Tree → List Construct
  | [] => []
  | t :: ts => t.items single ++ Tree.allItems single ts

end

variable {single atTop : Bool}

/-! ## Leaves -/

/-- Content after content is content. -/
theorem Content.append {items more : List Construct} {text rest : List Char}
    (h : Content atTop items text) (hmore : Content atTop more rest) :
    Content atTop (items ++ more) (text ++ rest) := by
  induction h with
  | nil => exact hmore
  | leaf hitem _ ih =>
    rw [List.append_assoc]
    exact .leaf hitem (ih hmore)
  | element hname has hinner hblank _ _ ih =>
    have hsplit := Content.element hname has hinner hblank (ih hmore)
    simpa using hsplit

theorem Content.congr {items : List Construct} {text other : List Char}
    (h : Content atTop items text) (heq : other = text) : Content atTop items other := heq ▸ h

theorem Construct.LeafSpelledBy.content {item : Construct} {spelling : List Char}
    (h : item.LeafSpelledBy atTop spelling) : Content atTop [item] spelling := by
  have hone := Content.leaf h .nil
  rwa [List.append_nil] at hone

/-- Attributes are written one after the other, with a space before each. -/
theorem attributesSpelledBy {as : List TreeAttribute} (h : ∀ a ∈ as, IsName a.nameText) :
    AttributesSpelledBy (as.map (TreeAttribute.raw single))
      (as.flatMap (TreeAttribute.spelling single)) := by
  have hquotes : quoteChar single = '"' ∨ quoteChar single = '\'' := by
    cases single
    · exact .inl rfl
    · exact .inr rfl
  obtain ⟨-, -, -, hskip, -⟩ := has_exactStyle single
  induction as with
  | nil => exact .nil (List.forall_mem_nil _)
  | cons a as ih =>
    obtain ⟨ha, hrest⟩ := List.forall_mem_cons.1 h
    have hnone : Blank [] := List.forall_mem_nil _
    have hspace : Blank [' '] := List.forall_mem_singleton.2 rfl
    have hvalue := RawAttribute.SpelledBy.mk ha hnone hnone hquotes
      (quote_not_mem_escaped hskip a.valueText.toList (quote_exactStyle single))
    exact .cons hspace (List.cons_ne_nil _ _) hvalue (ih hrest)

theorem content_ofRun {raw : List Char} (h : '<' ∉ raw) :
    Content atTop (Construct.ofRun raw) raw := by
  unfold Construct.ofRun
  split
  · rename_i hempty
    rw [List.isEmpty_iff.1 hempty]
    exact .nil
  · rename_i hraw
    exact (Construct.LeafSpelledBy.run (by simpa using hraw) h).content

/-- Sections that do not hold their own end are content. -/
theorem content_sections {parts : List (List Char)} (h : ∀ part ∈ parts, ¬ "]]>".toList <:+: part) :
    Content atTop (parts.map .cdata) (spelled (parts.flatMap sectionPieces)) := by
  induction parts with
  | nil => exact .nil
  | cons part parts ih =>
    obtain ⟨hpart, hrest⟩ := List.forall_mem_cons.1 h
    rw [List.flatMap_cons, spelled_append, spelled_sectionPieces]
    exact .leaf (.cdata hpart) (ih hrest)

/-- An instruction is content, whatever its text is. -/
theorem content_instruction {target : String} (hname : IsName target)
    (htarget : eqIgnoringCase target.toList "xml".toList = false) (value : List Char) :
    Content atTop [.pi target (some (dropSpace (partedMarks value)))]
      ("<?".toList ++ (target.toList ++ (' ' :: (partedMarks value ++ "?>".toList)))) := by
  let written := partedMarks value
  have hblank : Blank (' ' :: written.takeWhile isSpace) :=
    List.forall_mem_cons.2 ⟨rfl, fun c hc => List.mem_takeWhile_imp hc⟩
  have htrimmed : (dropSpace written).head?.all (fun c => !isSpace c) = true := by
    have hhead := List.head?_dropWhile_not isSpace written
    rw [dropSpace]
    cases hd : (written.dropWhile isSpace).head? with
    | none => rfl
    | some c =>
      rw [hd] at hhead
      simpa using hhead
  have hitem : (Construct.pi target (some (dropSpace written))).LeafSpelledBy atTop _ :=
    .pi hname htarget hblank (List.cons_ne_nil _ _) htrimmed
      (not_infix_dropSpace_partedMarks value)
  have hspelled : ' ' :: written.takeWhile isSpace ++ (dropSpace written ++ "?>".toList) =
      ' ' :: (written ++ "?>".toList) := by
    rw [List.cons_append, ← List.append_assoc, dropSpace, List.takeWhile_append_dropWhile]
  rw [hspelled] at hitem
  exact hitem.content

/-- The characters that a node without children is written with. -/
def TreeLabel.written (single : Bool) (l : TreeLabel) : List Char :=
  let value := l.valueText.toList
  match l.kind with
  | .pcdata => escaped (exactStyle single) .pcdata value
  | .cdata => spelled ((cdataSections value).flatMap sectionPieces)
  | .comment => "<!--".toList ++ (spacedHyphens value ++ "-->".toList)
  | .pi =>
    let text := if l.value.isSome then ' ' :: partedMarks value else []
    "<?".toList ++ (l.nameText.toList ++ (text ++ "?>".toList))
  | .declaration =>
    let attributes := l.attributes.flatMap (TreeAttribute.spelling single)
    "<?".toList ++ (l.nameText.toList ++ (attributes ++ "?>".toList))
  | .doctype =>
    let text := if l.value.isSome then ' ' :: value else []
    "<!DOCTYPE".toList ++ (text ++ ">".toList)
  | .null | .document | .element => []

/-- The kinds of nodes that may be in content and are no elements. -/
def NodeKind.isLeaf (k : NodeKind) : Bool :=
  k matches .pcdata | .cdata | .comment | .pi | .declaration

theorem NodeKind.hasChildren_of_isLeaf {k : NodeKind} (h : k.isLeaf = true) :
    k.hasChildren = false := by
  cases k with
  | document | element => cases h
  | _ => rfl

/-- The pieces of a node whose names are names are its characters. -/
theorem TreeLabel.Spellable.spelled_leafPieces {l : TreeLabel} (h : l.Spellable) :
    spelled (leafPieces (exactStyle single) l) = l.written single := by
  obtain ⟨-, -, hescapes, -, -, hflat, -⟩ := has_exactStyle single
  unfold TreeLabel.Spellable TreeLabel.Named at h
  unfold leafPieces TreeLabel.written
  cases hl : l.kind with
  | pcdata => exact spelled_textPieces hescapes _ _
  | cdata => exact congrArg spelled (cdataPieces_eq _)
  | comment =>
    have htext : spelled (commentTextPieces [] l.valueText.toList) = _ :=
      spelled_commentTextPieces _ _
    simp only [spelled_cons, spelled_append, spelled_nil, List.append_nil]
    exact congrArg (fun text => "<!--".toList ++ (text ++ "-->".toList)) htext
  | pi =>
    simp only [hl] at h
    have hwritten : writtenName l.name = l.nameText := writtenName_eq h.1.ne_empty
    cases hv : l.value with
    | none => simp [hwritten]
    | some value => simp [hwritten, spelled_piTextPieces, TreeLabel.valueText, hv]
  | declaration =>
    simp only [hl] at h
    have hwritten : writtenName l.name = l.nameText := writtenName_eq h.1.1.ne_empty
    simp [hwritten, hflat, spelled_attributesPieces 0 h.2]
  | doctype =>
    simp only [hl] at h
  | null | document | element => rfl

/-- What is written for a node without children is content, whatever its value is. -/
theorem TreeLabel.Spellable.content {l : TreeLabel} (h : l.Spellable) (children : List Tree)
    (hkind : l.kind.isLeaf = true) (htop : l.kind = .declaration → atTop = true) :
    Content atTop ((Tree.node l children).items single) (l.written single) := by
  obtain ⟨-, -, -, hskip, -⟩ := has_exactStyle single
  unfold TreeLabel.Spellable TreeLabel.Named at h
  rw [Tree.items]
  unfold TreeLabel.written
  cases hl : l.kind with
  | pcdata => exact content_ofRun (lessThan_not_mem_escaped hskip _)
  | cdata => exact content_sections fun _ => not_infix_of_mem_cdataSections
  | comment =>
    have hmark : ¬ "-->".toList <:+: spacedHyphens l.valueText.toList := fun hmem =>
      not_infix_spacedHyphens _
        ((show "--".toList <:+: "-->".toList from ⟨[], ['>'], rfl⟩).trans hmem)
    exact (Construct.LeafSpelledBy.comment hmark).content
  | pi =>
    simp only [hl] at h
    obtain ⟨hname, htarget⟩ := h
    cases hv : l.value with
    | none => exact (Construct.LeafSpelledBy.bare hname htarget).content
    | some value => exact content_instruction hname htarget l.valueText.toList
  | declaration =>
    simp only [hl] at h
    obtain ⟨⟨hname, hdeclares⟩, hnames⟩ := h
    exact (Construct.LeafSpelledBy.declaration (htop hl) hname hdeclares
      (attributesSpelledBy hnames)).content
  | null | document | element | doctype =>
    rw [hl] at hkind
    cases hkind

/-! ## Trees -/

/-- A tree that may stand in content: it obeys the rules for kinds, its names are names, and no
text is embedded in an element. -/
structure Tree.Sayable (atTop : Bool) (t : Tree) : Prop where
  spellable : t.All TreeLabel.Spellable
  unadorned : t.Unadorned
  lawful : t.Lawful
  allowed : (contentParent atTop).allowsChild t.label.kind = true

/-- What is below an element may stand in content. -/
theorem Tree.Sayable.below {l : TreeLabel} {children : List Tree}
    (h : (Tree.node l children).Sayable atTop) (hkind : l.kind = .element) :
    ∀ t ∈ children, t.Sayable false := by
  obtain ⟨⟨-, hnamed⟩, ⟨-, -, hunadorned⟩, ⟨-, hallowed, hlawful⟩, -⟩ := h
  rw [hkind] at hallowed
  exact fun t ht => ⟨hnamed t ht, hunadorned t ht, hlawful t ht, hallowed t ht⟩

/-- What may stand in content is an element or a node without children. -/
theorem Tree.Sayable.kind_cases {l : TreeLabel} {children : List Tree}
    (h : (Tree.node l children).Sayable atTop) :
    l.kind = .element ∨ l.kind.isLeaf = true ∧ (l.kind = .declaration → atTop = true) := by
  obtain ⟨⟨hlabel, -⟩, -, -, hallowed⟩ := h
  unfold TreeLabel.Spellable TreeLabel.Named at hlabel
  rw [Tree.label] at hallowed
  cases hl : l.kind with
  | element => exact .inl rfl
  | null | document =>
    rw [hl] at hallowed
    cases atTop <;> cases hallowed
  | doctype =>
    rw [hl] at hlabel
    cases hlabel
  | declaration =>
    refine .inr ⟨rfl, fun _ => ?_⟩
    rw [hl] at hallowed
    cases atTop
    · cases hallowed
    · rfl
  | _ => exact .inr ⟨rfl, fun h => by cases h⟩

mutual

/-- The characters that a tree is written with. -/
def Tree.written (single : Bool) : Tree → List Char
  | .node l children =>
    match l.kind with
    | .element =>
      let rest :=
        if children.isEmpty then "/>".toList
        else '>' :: (Tree.allWritten single children ++
          ("</".toList ++ (l.nameText.toList ++ ['>'])))
      '<' :: (l.nameText.toList ++ (l.attributes.flatMap (TreeAttribute.spelling single) ++ rest))
    | _ => l.written single

/-- The characters that trees side by side are written with. -/
def Tree.allWritten (single : Bool) : List Tree → List Char
  | [] => []
  | t :: ts => t.written single ++ Tree.allWritten single ts

end

theorem Tree.written_leaf {l : TreeLabel} (hkind : l.kind.isLeaf = true) (children : List Tree) :
    (Tree.node l children).written single = l.written single := by
  rw [Tree.written]
  cases hl : l.kind with
  | element =>
    rw [hl] at hkind
    cases hkind
  | _ => rfl

mutual

/-- A tree is written as its constructs. -/
theorem Tree.Sayable.content {atTop : Bool} (t : Tree) (h : t.Sayable atTop) :
    Content atTop (t.items single) (t.written single) := by
  match t, id h with
  | .node l children, ⟨⟨hlabel, _⟩, _, _, _⟩ =>
    obtain hl | ⟨hleaf, htop⟩ := h.kind_cases
    · have hnames : IsName l.nameText ∧ ∀ a ∈ l.attributes, IsName a.nameText := by
        simpa only [TreeLabel.Spellable, TreeLabel.Named, hl] using hlabel
      have hattributes : AttributesSpelledBy (l.attributes.map (TreeAttribute.raw single)) _ :=
        attributesSpelledBy hnames.2
      have hinside := Tree.Sayable.allContent children (h.below hl)
      rw [Tree.items, Tree.written]
      simp only [hl]
      cases children with
      | nil => exact (Construct.LeafSpelledBy.empty hnames.1 hattributes).content
      | cons t ts =>
        have hnone : Blank [] := List.forall_mem_nil _
        exact (Content.element hnames.1 hattributes hinside hnone .nil).congr (by simp)
    · rw [Tree.written_leaf hleaf]
      exact hlabel.content children hleaf htop

/-- Trees side by side are written as their constructs. -/
theorem Tree.Sayable.allContent {atTop : Bool} (ts : List Tree) (h : ∀ t ∈ ts, t.Sayable atTop) :
    Content atTop (Tree.allItems single ts) (Tree.allWritten single ts) := by
  match ts with
  | [] => exact .nil
  | t :: ts =>
    obtain ⟨ht, hrest⟩ := List.forall_mem_cons.1 h
    exact (Tree.Sayable.content t ht).append (Tree.Sayable.allContent ts hrest)

end

mutual

/-- The pieces of a tree are its characters, wherever it stands. -/
theorem Tree.Sayable.spelled_pieces {atTop : Bool} (t : Tree) (h : t.Sayable atTop) (depth : Nat)
    (gap : Gap) (tail : List String) :
    spelled (t.pieces (exactStyle single) depth gap tail) = t.written single ++ spelled tail := by
  match t, id h with
  | .node l children, ⟨⟨hlabel, _⟩, ⟨_, hvalue, _⟩, _, _⟩ =>
    obtain hl | ⟨hleaf, -⟩ := h.kind_cases
    · obtain ⟨hraw, -, -, -, htags, -, -⟩ := has_exactStyle single
      have hnone : l.value = none := hvalue (by rw [hl]; rfl)
      have hnames : IsName l.nameText ∧ ∀ a ∈ l.attributes, IsName a.nameText := by
        simpa only [TreeLabel.Spellable, TreeLabel.Named, hl] using hlabel
      have hname : writtenName l.name = l.nameText := writtenName_eq hnames.1.ne_empty
      have hattributes : spelled (attributesPieces (exactStyle single) depth l.attributes) =
          l.attributes.flatMap (TreeAttribute.spelling single) :=
        spelled_attributesPieces depth hnames.2
      have hinside := fun close => Tree.Sayable.spelled_allPieces children (h.below hl) (depth + 1)
        .line close
      rw [Tree.pieces, Tree.written]
      cases children with
      | nil => simp [hl, hnone, hname, spelled_gap, hattributes, emptyElementEnd, htags, hraw]
      | cons t ts => simp [hl, hnone, hname, spelled_gap, hattributes, endTag, hinside]
    · rw [Tree.written_leaf hleaf, ← hlabel.spelled_leafPieces, Tree.pieces]
      cases hl : l.kind with
      | null | document | element | doctype =>
        rw [hl] at hleaf
        cases hleaf
      | _ => simp only [spelled_append, spelled_gap, List.nil_append]

/-- The pieces of trees side by side are their characters. -/
theorem Tree.Sayable.spelled_allPieces {atTop : Bool} (ts : List Tree)
    (h : ∀ t ∈ ts, t.Sayable atTop) (depth : Nat) (gap : Gap) (tail : List String) :
    spelled (Tree.allPieces (exactStyle single) depth gap tail ts) =
      Tree.allWritten single ts ++ spelled tail := by
  match ts with
  | [] => rfl
  | t :: ts =>
    obtain ⟨ht, hrest⟩ := List.forall_mem_cons.1 h
    rw [Tree.allPieces, Tree.Sayable.spelled_pieces t ht, Tree.Sayable.spelled_allPieces ts hrest,
      Tree.allWritten, List.append_assoc]

end

/-- The pieces of a document type are its characters. -/
theorem Tree.spelled_pieces_doctype {l : TreeLabel} (hl : l.kind = .doctype) (children : List Tree)
    (depth : Nat) (gap : Gap) (tail : List String) :
    spelled ((Tree.node l children).pieces (exactStyle single) depth gap tail) =
      (Tree.node l children).written single ++ spelled tail := by
  rw [Tree.pieces, Tree.written]
  simp only [hl, spelled_append, spelled_gap, List.nil_append]
  rw [leafPieces, TreeLabel.written]
  simp only [hl]
  split <;> simp [TreeLabel.valueText]

/-- The pieces of trees as they stand at the top of a document are their characters. -/
theorem Tree.spelled_topPieces (ts : List Tree)
    (h : ∀ t ∈ ts, t.Sayable atTop ∨ t.label.kind = .doctype) (depth : Nat) (gap : Gap)
    (tail : List String) :
    spelled (Tree.allPieces (exactStyle single) depth gap tail ts) =
      Tree.allWritten single ts ++ spelled tail := by
  induction ts generalizing gap with
  | nil => rfl
  | cons t ts ih =>
    obtain ⟨ht, hrest⟩ := List.forall_mem_cons.1 h
    rw [Tree.allPieces, Tree.allWritten, List.append_assoc, ← ih hrest]
    obtain hsayable | hdoctype := ht
    · exact Tree.Sayable.spelled_pieces t hsayable depth gap _
    · obtain ⟨l, children⟩ := t
      exact Tree.spelled_pieces_doctype hdoctype children depth gap _

theorem Tree.allWritten_append (single : Bool) (ts us : List Tree) :
    Tree.allWritten single (ts ++ us) = Tree.allWritten single ts ++ Tree.allWritten single us := by
  induction ts with
  | nil => rfl
  | cons t ts ih => rw [List.cons_append, Tree.allWritten, ih, Tree.allWritten, List.append_assoc]

/-! ## Exact trees are written alike -/

theorem TreeLabel.nameText_exact (l : TreeLabel) : l.exact.nameText = l.nameText := by
  cases h : l.kind.hasName <;> simp [exact, nameText, h]

theorem TreeLabel.valueText_exact (l : TreeLabel) : l.exact.valueText = l.valueText := by
  cases h : l.kind.tellsEmpty <;> simp [exact, valueText, h]

theorem TreeLabel.value_exact {l : TreeLabel} (h : l.kind.tellsEmpty = true) :
    l.exact.value = l.value := by
  rw [exact, h]
  rfl

theorem TreeLabel.spelling_exact (l : TreeLabel) :
    l.exact.attributes.flatMap (TreeAttribute.spelling single) =
      l.attributes.flatMap (TreeAttribute.spelling single) :=
  List.flatMap_map ..

theorem TreeLabel.written_exact (l : TreeLabel) : l.exact.written single = l.written single := by
  unfold written
  rw [l.kind_exact]
  cases hl : l.kind with
  | pi | doctype =>
    simp only [l.nameText_exact, l.valueText_exact,
      TreeLabel.value_exact (show l.kind.tellsEmpty = true by rw [hl]; rfl)]
  | _ => simp only [l.nameText_exact, l.valueText_exact, l.spelling_exact]

mutual

/-- A tree is written as its exact tree. -/
theorem Tree.written_exact (t : Tree) : t.exact.written single = t.written single := by
  match t with
  | .node l children =>
    have hempty : (Tree.allExact children).isEmpty = children.isEmpty := by
      rw [Tree.allExact_eq_map, List.isEmpty_map]
    rw [Tree.exact, Tree.written, Tree.written, l.kind_exact, Tree.allWritten_exact children,
      hempty, l.nameText_exact, l.spelling_exact, l.written_exact]

theorem Tree.allWritten_exact (ts : List Tree) :
    Tree.allWritten single (Tree.allExact ts) = Tree.allWritten single ts := by
  match ts with
  | [] => rfl
  | t :: ts =>
    rw [Tree.allExact, Tree.allWritten, Tree.allWritten, Tree.written_exact t,
      Tree.allWritten_exact ts]

end

@[simp] theorem Tree.label_exact (t : Tree) : t.exact.label = t.label.exact := by
  cases t
  rfl

mutual

/-- What does not tell a label from its exact label does not tell a tree from its exact tree. -/
theorem Tree.all_exact {p : TreeLabel → Prop} (hp : ∀ l, p l.exact ↔ p l) (t : Tree) :
    t.exact.All p ↔ t.All p := by
  match t with
  | .node l children =>
    rw [Tree.exact, Tree.all_node, Tree.all_node, hp, Tree.forall_allExact hp children]

theorem Tree.forall_allExact {p : TreeLabel → Prop} (hp : ∀ l, p l.exact ↔ p l) (ts : List Tree) :
    (∀ t ∈ Tree.allExact ts, t.All p) ↔ ∀ t ∈ ts, t.All p := by
  match ts with
  | [] => exact Iff.rfl
  | t :: ts =>
    rw [Tree.allExact, List.forall_mem_cons, List.forall_mem_cons, Tree.all_exact hp t,
      Tree.forall_allExact hp ts]

end

theorem TreeLabel.spellable_exact (l : TreeLabel) : l.exact.Spellable ↔ l.Spellable := by
  have hattributes : (∀ a ∈ l.exact.attributes, IsName a.nameText) ↔
      ∀ a ∈ l.attributes, IsName a.nameText := List.forall_mem_map
  unfold Spellable Named
  rw [l.kind_exact, l.nameText_exact, hattributes]

/-- Whether a tree is unadorned is told node by node. -/
theorem Tree.unadorned_iff_all {t : Tree} : t.Unadorned ↔ t.All fun l =>
    (l.kind.hasName = false → l.name = none) ∧ (l.kind.hasValue = false → l.value = none) := by
  constructor
  · intro h
    induction h with
    | node hname hvalue _ ih => exact .node ⟨hname, hvalue⟩ ih
  · intro h
    induction h with
    | node htop _ ih => exact .node htop.1 htop.2 ih

theorem Tree.unadorned_exact (t : Tree) : t.exact.Unadorned ↔ t.Unadorned := by
  rw [unadorned_iff_all, unadorned_iff_all]
  refine Tree.all_exact (fun l => and_congr (imp_congr_right fun hkind => ?_)
    (imp_congr_right fun hkind => ?_)) t
  · have hnone : l.kind.hasName = false := hkind
    simp [TreeLabel.exact, hnone]
  · have hnone : l.kind.hasValue = false := hkind
    rw [TreeLabel.value_exact (by simp [NodeKind.tellsEmpty, hnone])]

mutual

theorem Tree.lawful_exact (t : Tree) : t.exact.Lawful ↔ t.Lawful := by
  match t with
  | .node l children =>
    have howns : l.exact.attributes ≠ [] ↔ l.attributes ≠ [] := by simp [TreeLabel.exact]
    have hallowed : (∀ t ∈ Tree.allExact children,
        l.exact.kind.allowsChild t.label.kind = true) ↔
          ∀ t ∈ children, l.kind.allowsChild t.label.kind = true := by
      rw [Tree.allExact_eq_map, List.forall_mem_map]
      simp only [Tree.label_exact]
      rfl
    have hbelow := Tree.forall_lawful_exact children
    rw [Tree.exact]
    constructor
    · rintro ⟨howns', hallowed', hbelow'⟩
      exact .node (fun hne => howns' (howns.2 hne)) (hallowed.1 hallowed') (hbelow.1 hbelow')
    · rintro ⟨howns', hallowed', hbelow'⟩
      exact .node (fun hne => howns' (howns.1 hne)) (hallowed.2 hallowed') (hbelow.2 hbelow')

theorem Tree.forall_lawful_exact (ts : List Tree) :
    (∀ t ∈ Tree.allExact ts, t.Lawful) ↔ ∀ t ∈ ts, t.Lawful := by
  match ts with
  | [] => exact Iff.rfl
  | t :: ts =>
    rw [Tree.allExact, List.forall_mem_cons, List.forall_mem_cons, Tree.lawful_exact t,
      Tree.forall_lawful_exact ts]

end

/-- Whether a tree may stand in content is told by its exact tree. -/
theorem Tree.sayable_exact {t : Tree} : t.exact.Sayable atTop ↔ t.Sayable atTop := by
  have hkind : t.exact.label.kind = t.label.kind := by
    rw [Tree.label_exact, TreeLabel.kind_exact]
  constructor
  · rintro ⟨hspellable, hunadorned, hlawful, hallowed⟩
    exact ⟨(Tree.all_exact TreeLabel.spellable_exact t).1 hspellable,
      t.unadorned_exact.1 hunadorned, t.lawful_exact.1 hlawful, hkind ▸ hallowed⟩
  · rintro ⟨hspellable, hunadorned, hlawful, hallowed⟩
    exact ⟨(Tree.all_exact TreeLabel.spellable_exact t).2 hspellable,
      t.unadorned_exact.2 hunadorned, t.lawful_exact.2 hlawful, hkind ▸ hallowed⟩

end XmlTree
