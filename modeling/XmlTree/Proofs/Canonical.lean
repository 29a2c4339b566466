/-
  Proofs/Canonical.lean --- trees that say in markup what they are.

  WHAT THIS FILE IS FOR.  Not every tree can be told from its markup: two texts side by
  side are written as one, a comment with two hyphens is changed, a name with a space in it
  is read as something else.  A canonical tree has none of that.  Here it is said what such
  a tree is, and which characters attributes and gaps are written with when no white space
  is added.
-/
import XmlTree.Document.Tree
import XmlTree.Proofs.Sanitising

set_option autoImplicit false

namespace XmlTree

/-! ## Options -/

/-- Options that write nothing that the tree does not hold, with attribute values between
apostrophes or between quotation marks. -/
def FormatOptions.exact (single : Bool) : FormatOptions :=
  let options := raw.union noDeclaration
  if single then options.union attributeSingleQuote else options

/-- Options that make a node of every construct, and of white space too. -/
def ParseOptions.everything : ParseOptions := full.union wsPcdata

/-- How a tree is written with the exact options. -/
def exactStyle (single : Bool) : MarkupStyle := .ofOptions "" (.exact single)

/-- The character around attribute values. -/
def quoteChar (single : Bool) : Char := if single then '\'' else '"'

theorem has_exactStyle (single : Bool) :
    (exactStyle single).has .raw = true ∧ (exactStyle single).has .indentAttributes = false ∧
      (exactStyle single).has .noEscapes = false ∧
      (exactStyle single).has .skipControlChars = false ∧
      (exactStyle single).has .noEmptyElementTags = false ∧
      (exactStyle single).flat = exactStyle single ∧ (exactStyle single).indent = "" := by
  cases single <;> decide

theorem quote_exactStyle (single : Bool) :
    (exactStyle single).quote = String.singleton (quoteChar single) := by
  cases single <;> decide

/-! ## Canonical trees -/

/-- The name of a node, empty when it has none. -/
def TreeLabel.nameText (l : TreeLabel) : String := l.name.getD ""

/-- The value of a node, empty when it has none. -/
def TreeLabel.valueText (l : TreeLabel) : String := l.value.getD ""

/-- The name of an attribute, empty when it has none. -/
def TreeAttribute.nameText (a : TreeAttribute) : String := a.name.getD ""

/-- The value of an attribute, empty when it has none. -/
def TreeAttribute.valueText (a : TreeAttribute) : String := a.value.getD ""

/-- A node whose own markup is read back as that node.  Attribute values may be any
text. -/
def TreeLabel.Canonical (l : TreeLabel) : Prop :=
  let value := l.valueText.toList
  match l.kind with
  | .element => IsName l.nameText ∧ ∀ a ∈ l.attributes, IsName a.nameText
  | .pcdata => value ≠ [] ∧ '\r' ∉ value
  | .cdata => ¬ "]]>".toList <:+: value ∧ '\r' ∉ value
  | .comment => ¬ "--".toList <:+: value ∧ '\r' ∉ value ∧ value.getLast? ≠ some '-'
  | .pi => IsName l.nameText ∧ eqIgnoringCase l.nameText.toList "xml".toList = false ∧
      ¬ "?>".toList <:+: value ∧ value.head?.all (fun c => !isSpace c) = true
  | .declaration => l.nameText = "xml" ∧ ∀ a ∈ l.attributes, IsName a.nameText
  | .doctype => False
  | .null | .document => True

/-- Whether a tree is a piece of character data. -/
def Tree.IsPcdata (t : Tree) : Prop := t.label.kind = .pcdata

/-- A tree whose nodes are canonical, where character data stands in elements only and never
beside other character data. -/
inductive Tree.Canonical : Tree → Prop where
  | node {label : TreeLabel} {children : List Tree} (label_canonical : label.Canonical)
      (inside : label.kind ≠ .element → ∀ t ∈ children, ¬ t.IsPcdata)
      (apart : children.IsChain fun t u => t.IsPcdata → ¬ u.IsPcdata)
      (below : ∀ t ∈ children, Canonical t) : Canonical (.node label children)

instance : (l : TreeLabel) → Decidable l.Canonical
  | ⟨.element, _, _, _⟩ | ⟨.declaration, _, _, _⟩ => inferInstanceAs (Decidable (_ ∧ ∀ a ∈ _, _))
  | ⟨.pcdata, _, _, _⟩ | ⟨.cdata, _, _, _⟩ => inferInstanceAs (Decidable (_ ∧ _))
  | ⟨.comment, _, _, _⟩ => inferInstanceAs (Decidable (_ ∧ _ ∧ _))
  | ⟨.pi, _, _, _⟩ => inferInstanceAs (Decidable (_ ∧ _ ∧ _ ∧ _))
  | ⟨.doctype, _, _, _⟩ => inferInstanceAs (Decidable False)
  | ⟨.null, _, _, _⟩ | ⟨.document, _, _, _⟩ => inferInstanceAs (Decidable True)

instance (t : Tree) : Decidable t.IsPcdata := inferInstanceAs (Decidable (t.label.kind = .pcdata))

theorem Tree.canonical_node {label : TreeLabel} {children : List Tree} :
    (Tree.node label children).Canonical ↔ label.Canonical ∧
      (label.kind ≠ .element → ∀ t ∈ children, ¬ t.IsPcdata) ∧
      children.IsChain (fun t u => t.IsPcdata → ¬ u.IsPcdata) ∧ ∀ t ∈ children, t.Canonical := by
  constructor
  · rintro ⟨hlabel, hinside, hapart, hbelow⟩
    exact ⟨hlabel, hinside, hapart, hbelow⟩
  · rintro ⟨hlabel, hinside, hapart, hbelow⟩
    exact ⟨hlabel, hinside, hapart, hbelow⟩

mutual

/-- Whether a tree is canonical can be told by looking at its nodes. -/
def Tree.decideCanonical : (t : Tree) → Decidable t.Canonical
  | .node _ children =>
    have := Tree.decideAllCanonical children
    decidable_of_iff _ Tree.canonical_node.symm

/-- Whether trees side by side are canonical can be told tree by tree. -/
def Tree.decideAllCanonical : (ts : List Tree) → Decidable (∀ t ∈ ts, t.Canonical)
  | [] => isTrue (List.forall_mem_nil _)
  | t :: ts =>
    have := t.decideCanonical
    have := Tree.decideAllCanonical ts
    decidable_of_iff (t.Canonical ∧ ∀ t ∈ ts, t.Canonical) List.forall_mem_cons.symm

end

instance (t : Tree) : Decidable t.Canonical := t.decideCanonical

/-- Nodes have a name and a value only if their kinds have one: no text is embedded in an
element. -/
inductive Tree.Unadorned : Tree → Prop where
  | node {label : TreeLabel} {children : List Tree}
      (name : label.kind.hasName = false → label.name = none)
      (value : label.kind.hasValue = false → label.value = none)
      (below : ∀ t ∈ children, Unadorned t) : Unadorned (.node label children)

/-! ## What attributes and gaps are written with -/

/-- The characters of an attribute. -/
def TreeAttribute.spelling (single : Bool) (a : TreeAttribute) : List Char :=
  ' ' :: (a.nameText.toList ++ '=' :: quoteChar single ::
    (escaped (exactStyle single) .attribute a.valueText.toList ++ [quoteChar single]))

variable {single : Bool}

theorem writtenName_eq {name : Option String} (h : name.getD "" ≠ "") :
    writtenName name = name.getD "" := by
  cases name with
  | none => exact absurd rfl h
  | some name => rfl

theorem spelled_attributePieces (depth : Nat) {a : TreeAttribute} (h : IsName a.nameText) :
    spelled (attributePieces (exactStyle single) depth a) = a.spelling single := by
  obtain ⟨-, howns, hescapes, -⟩ := has_exactStyle single
  have hvalue : spelled (a.value.elim [] (textPieces (exactStyle single) .attribute)) =
      escaped (exactStyle single) .attribute a.valueText.toList := by
    cases hv : a.value with
    | none => simp [TreeAttribute.valueText, hv, escaped]
    | some value => simp [TreeAttribute.valueText, hv, spelled_textPieces hescapes]
  simp only [attributePieces, howns, Bool.false_and, Bool.false_eq_true, if_false,
    spelled_append, spelled_cons, spelled_nil, hvalue, writtenName_eq h.ne_empty,
    quote_exactStyle, String.toList_singleton, List.append_nil]
  rfl

theorem spelled_attributesPieces (depth : Nat) {as : List TreeAttribute}
    (h : ∀ a ∈ as, IsName a.nameText) :
    spelled (attributesPieces (exactStyle single) depth as) =
      as.flatMap (TreeAttribute.spelling single) := by
  induction as with
  | nil => rfl
  | cons a as ih =>
    obtain ⟨ha, hrest⟩ := List.forall_mem_cons.1 h
    rw [attributesPieces, List.flatMap_cons, spelled_append, spelled_attributePieces depth ha,
      List.flatMap_cons]
    exact congrArg (a.spelling single ++ ·) (ih hrest)

theorem spelled_gap (depth : Nat) (gap : Gap) :
    spelled (gap.pieces (exactStyle single) depth) = [] := by
  obtain ⟨hraw, -, -, -, -, -, hindent⟩ := has_exactStyle single
  have hindentation : indentation (exactStyle single) depth = [] := by
    simp [indentation, hindent]
  cases gap <;> simp [Gap.pieces, hindentation, lineBreak, hraw]

end XmlTree
