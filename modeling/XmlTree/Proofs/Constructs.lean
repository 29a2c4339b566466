/-
  Proofs/Constructs.lean --- the grammar of markup.

  WHAT THIS FILE IS FOR.  A text is content when it is made of constructs one after the
  other: character data, elements with content of their own, comments, sections,
  instructions, and declarations at the top.  Here that is said as a relation between a
  text and the constructs it is made of, without any reader.

  WHAT IT LEAVES OPEN.  Character data may be cut into runs anywhere.  Runs that stand side
  by side are one to a reader, so constructs are joined before a tree is made of them.
-/
import Mathlib.Data.Nat.Bitwise
import XmlTree.Load.Builder
import XmlTree.Proofs.Canonical
import XmlTree.Proofs.Copying

set_option autoImplicit false

namespace XmlTree

/-! ## Constructs -/

/-- An attribute as it stands in a text: its name, and the characters between its quotes. -/
structure RawAttribute where
  name : String
  raw : List Char
  deriving DecidableEq, Repr, Inhabited

/-- One construct of a text, with its characters as they stand. -/
inductive Construct where
  /-- characters between tags -/
  | run (raw : List Char)
  | element (name : String) (attributes : List RawAttribute) (content : List Construct)
  | comment (raw : List Char)
  | cdata (raw : List Char)
  /-- a processing instruction, with what follows the space after its target -/
  | pi (target : String) (value : Option (List Char))
  | declaration (target : String) (attributes : List RawAttribute)
  deriving Repr, Inhabited

/-! ## Attributes -/

/-- White space, or nothing at all. -/
def Blank (cs : List Char) : Prop := ∀ c ∈ cs, isSpace c = true

instance (cs : List Char) : Decidable (Blank cs) :=
  inferInstanceAs (Decidable (∀ c ∈ cs, isSpace c = true))

/-- A name, `=` and a quoted value without its quote. -/
inductive RawAttribute.SpelledBy : RawAttribute → List Char → Prop where
  | mk {name : String} {raw before after : List Char} {quote : Char} (name_spelled : IsName name)
      (before_blank : Blank before) (after_blank : Blank after)
      (quotes : quote = '"' ∨ quote = '\'') (unquoted : quote ∉ raw) :
      SpelledBy ⟨name, raw⟩
        (name.toList ++ (before ++ '=' :: (after ++ quote :: (raw ++ [quote]))))

/-- Attributes, each after white space, and white space after the last one. -/
inductive AttributesSpelledBy : List RawAttribute → List Char → Prop where
  | nil {space : List Char} (blank : Blank space) : AttributesSpelledBy [] space
  | cons {a : RawAttribute} {as : List RawAttribute} {space spelling rest : List Char}
      (blank : Blank space) (apart : space ≠ []) (spelled : a.SpelledBy spelling)
      (more : AttributesSpelledBy as rest) :
      AttributesSpelledBy (a :: as) (space ++ (spelling ++ rest))

/-! ## Content -/

/-- A construct without content of its own.  A mark that ends one is the first of its kind,
since it does not stand in the text before it and none of its ends begins it. -/
inductive Construct.LeafSpelledBy (atTop : Bool) : Construct → List Char → Prop where
  | run {raw : List Char} (nonempty : raw ≠ []) (tagless : '<' ∉ raw) :
      LeafSpelledBy atTop (.run raw) raw
  | empty {name : String} {as : List RawAttribute} {spelling : List Char}
      (named : IsName name) (attributes : AttributesSpelledBy as spelling) :
      LeafSpelledBy atTop (.element name as []) ('<' :: (name.toList ++ (spelling ++ "/>".toList)))
  | comment {raw : List Char} (markless : ¬ "-->".toList <:+: raw) :
      LeafSpelledBy atTop (.comment raw) ("<!--".toList ++ (raw ++ "-->".toList))
  | cdata {raw : List Char} (markless : ¬ "]]>".toList <:+: raw) :
      LeafSpelledBy atTop (.cdata raw) ("<![CDATA[".toList ++ (raw ++ "]]>".toList))
  | bare {target : String} (named : IsName target)
      (instruction : eqIgnoringCase target.toList "xml".toList = false) :
      LeafSpelledBy atTop (.pi target none) ("<?".toList ++ (target.toList ++ "?>".toList))
  | pi {target : String} {space value : List Char} (named : IsName target)
      (instruction : eqIgnoringCase target.toList "xml".toList = false)
      (blank : Blank space) (apart : space ≠ [])
      (trimmed : value.head?.all (fun c => !isSpace c) = true)
      (markless : ¬ "?>".toList <:+: value) :
      LeafSpelledBy atTop (.pi target (some value))
        ("<?".toList ++ (target.toList ++ (space ++ (value ++ "?>".toList))))
  | declaration {target : String} {as : List RawAttribute} {spelling : List Char}
      (top : atTop = true) (named : IsName target)
      (declares : eqIgnoringCase target.toList "xml".toList = true)
      (attributes : AttributesSpelledBy as spelling) :
      LeafSpelledBy atTop (.declaration target as)
        ("<?".toList ++ (target.toList ++ (spelling ++ "?>".toList)))

/-- Constructs one after the other, at the top of a document or in an element. -/
inductive Content : (atTop : Bool) → List Construct → List Char → Prop where
  | nil {atTop : Bool} : Content atTop [] []
  | leaf {atTop : Bool} {item : Construct} {items : List Construct} {spelling rest : List Char}
      (spelled : item.LeafSpelledBy atTop spelling) (more : Content atTop items rest) :
      Content atTop (item :: items) (spelling ++ rest)
  | element {atTop : Bool} {name : String} {as : List RawAttribute}
      {inner items : List Construct} {spelling text space rest : List Char}
      (named : IsName name) (attributes : AttributesSpelledBy as spelling)
      (content : Content false inner text) (blank : Blank space)
      (more : Content atTop items rest) :
      Content atTop (.element name as inner :: items)
        ('<' :: (name.toList ++ (spelling ++ '>' :: (text ++
          ("</".toList ++ (name.toList ++ (space ++ '>' :: rest)))))))

namespace Construct

/-! ## Runs that are one -/

/-- Constructs with one more in front; character data beside character data is joined. -/
def prepend : Construct → List Construct → List Construct
  | run raw, run more :: items => run (raw ++ more) :: items
  | item, items => item :: items

mutual

/-- The construct with joined character data in its content. -/
def joined : Construct → Construct
  | element name as content => element name as (allJoined content)
  | item => item

/-- The constructs with all character data that stands side by side joined. -/
def allJoined : List Construct → List Construct
  | [] => []
  | item :: items => prepend item.joined (allJoined items)

end

/-- Whether a construct is character data. -/
def isRun : Construct → Bool
  | run _ => true
  | _ => false

mutual

/-- Whether no character data stands beside other character data in the content. -/
def apart : Construct → Bool
  | element _ _ content => allApart content
  | _ => true

/-- Whether no character data stands beside other character data. -/
def allApart : List Construct → Bool
  | [] => true
  | item :: items =>
    !(item.isRun && items.head?.any isRun) && (item.apart && allApart items)

end

end Construct

variable {atTop : Bool}

namespace Construct

theorem LeafSpelledBy.joined_eq {item : Construct} {spelling : List Char}
    (h : item.LeafSpelledBy atTop spelling) : item.joined = item := by
  cases h <;> rfl

theorem LeafSpelledBy.apart {item : Construct} {spelling : List Char}
    (h : item.LeafSpelledBy atTop spelling) : item.apart = true := by
  cases h <;> rfl

theorem allApart_cons {item : Construct} {items : List Construct} :
    allApart (item :: items) = true ↔
      (item.isRun = true → items.head?.any isRun = false) ∧ item.apart = true ∧
        allApart items = true := by
  rw [allApart, Bool.and_eq_true, Bool.and_eq_true, Bool.not_eq_true', Bool.and_eq_false_imp]

/-- Either two runs become one, or a construct goes in front. -/
theorem prepend_cases (item : Construct) (items : List Construct) :
    (∃ raw more rest, item = run raw ∧ items = run more :: rest ∧
        item.prepend items = run (raw ++ more) :: rest) ∨
      item.prepend items = item :: items ∧
        (item.isRun = true → items.head?.any isRun = false) := by
  match item, items with
  | run raw, run more :: rest => exact .inl ⟨raw, more, rest, rfl, rfl, rfl⟩
  | run _, [] | run _, element .. :: _ | run _, comment _ :: _ | run _, cdata _ :: _
  | run _, pi .. :: _ | run _, declaration .. :: _ => exact .inr ⟨rfl, fun _ => rfl⟩
  | element .., _ | comment _, _ | cdata _, _ | pi .., _ | declaration .., _ =>
    exact .inr ⟨rfl, fun h => by cases h⟩

/-- Everything stays apart when a construct is prepended. -/
theorem allApart_prepend {item : Construct} {items : List Construct} (hitem : item.apart = true)
    (hitems : allApart items = true) : allApart (item.prepend items) = true := by
  obtain ⟨raw, more, rest, rfl, rfl, heq⟩ | ⟨heq, hnext⟩ := prepend_cases item items
  · obtain ⟨hnext, -, hrest⟩ := allApart_cons.1 hitems
    rw [heq]
    exact allApart_cons.2 ⟨fun _ => hnext rfl, rfl, hrest⟩
  · rw [heq]
    exact allApart_cons.2 ⟨hnext, hitem, hitems⟩

end Construct

open Construct

/-- Content that does not begin with character data begins with a tag. -/
theorem Content.head {items : List Construct} {text : List Char} (h : Content atTop items text)
    (hrun : items.head?.any isRun = false) : text = [] ∨ text.head? = some '<' := by
  cases h with
  | nil => exact .inl rfl
  | leaf hitem _ =>
    cases hitem with
    | run => cases hrun
    | _ => exact .inr rfl
  | element => exact .inr rfl

/-- Character data is joined to the character data after it. -/
theorem Content.prepend {item : Construct} {items : List Construct} {spelling rest : List Char}
    (hitem : item.LeafSpelledBy atTop spelling) (hrest : Content atTop items rest) :
    Content atTop (item.prepend items) (spelling ++ rest) := by
  obtain ⟨raw, more, items, rfl, rfl, heq⟩ | ⟨heq, -⟩ := prepend_cases item items
  · cases hitem with
    | run hraw htagless =>
      cases hrest with
      | leaf hnext hmore =>
        cases hnext with
        | run _ htagless' =>
          rw [heq, ← List.append_assoc]
          refine .leaf (.run (List.append_ne_nil_of_left_ne_nil hraw _) ?_) hmore
          rw [List.mem_append, not_or]
          exact ⟨htagless, htagless'⟩
  · rw [heq]
    exact .leaf hitem hrest

/-- A text that is made of constructs is made of them when they are joined. -/
theorem Content.joined {items : List Construct} {text : List Char} (h : Content atTop items text) :
    Content atTop (allJoined items) text ∧ allApart (allJoined items) = true := by
  induction h with
  | nil => exact ⟨.nil, rfl⟩
  | leaf hitem _ ih =>
    rw [allJoined, hitem.joined_eq]
    exact ⟨ih.1.prepend hitem, allApart_prepend hitem.apart ih.2⟩
  | element hnamed hattributes _ hblank _ ihInner ihRest =>
    refine ⟨.element hnamed hattributes ihInner.1 hblank ihRest.1, ?_⟩
    exact allApart_cons.2 ⟨fun hrun => absurd hrun (by simp [isRun, Construct.joined]),
      ihInner.2, ihRest.2⟩

/-! ## Trees of constructs -/

namespace ParseOptions

/-- Options by which character data becomes a node of its own or is dropped as a whole. -/
structure KeepsTextApart (options : ParseOptions) : Prop where
  embed : options.contains .embedPcdata = false
  merge : options.contains .mergePcdata = false
  single : options.contains .wsPcdataSingle = false
  trim : options.contains .trimPcdata = false

instance (options : ParseOptions) : Decidable options.KeepsTextApart :=
  decidable_of_iff (options.contains .embedPcdata = false ∧ options.contains .mergePcdata = false ∧
      options.contains .wsPcdataSingle = false ∧ options.contains .trimPcdata = false)
    ⟨fun ⟨embed, merge, single, trim⟩ => ⟨embed, merge, single, trim⟩,
      fun ⟨embed, merge, single, trim⟩ => ⟨embed, merge, single, trim⟩⟩

/-- Options by which a piece of character data becomes a node of its own or is dropped, and
which of both does not depend on what stands around it.  What becomes a node may be trimmed. -/
structure MakesTextNodes (options : ParseOptions) : Prop where
  embed : options.contains .embedPcdata = false
  merge : options.contains .mergePcdata = false
  single : options.contains .wsPcdataSingle = false

theorem KeepsTextApart.makesTextNodes {options : ParseOptions} (h : options.KeepsTextApart) :
    options.MakesTextNodes :=
  ⟨h.embed, h.merge, h.single⟩

/-- Options by which every construct but a document type is read, and becomes a node. -/
structure KeepsMarkup (options : ParseOptions) : Prop where
  pi : options.contains .pi = true
  comments : options.contains .comments = true
  cdata : options.contains .cdata = true
  declaration : options.contains .declaration = true

instance (options : ParseOptions) : Decidable options.KeepsMarkup :=
  decidable_of_iff (options.contains .pi = true ∧ options.contains .comments = true ∧
      options.contains .cdata = true ∧ options.contains .declaration = true)
    ⟨fun ⟨pi, comments, cdata, declaration⟩ => ⟨pi, comments, cdata, declaration⟩,
      fun ⟨pi, comments, cdata, declaration⟩ => ⟨pi, comments, cdata, declaration⟩⟩

/-- A single switch is in a mask or it is not. -/
theorem and_flag (bits : UInt32) {i : Nat} {flag : UInt32} (h : flag.toNat = 2 ^ i) :
    bits &&& flag = 0 ∨ bits &&& flag = flag := by
  have hand : (bits &&& flag).toNat = (bits.toNat.testBit i).toNat * 2 ^ i := by
    rw [UInt32.toNat_and, h, Nat.and_two_pow]
  cases hbit : bits.toNat.testBit i with
  | false => exact .inl (UInt32.toNat_inj.1 (by rw [hand, hbit]; simp))
  | true => exact .inr (UInt32.toNat_inj.1 (by rw [hand, hbit, h]; simp))

/-- Of a single switch, some is all. -/
theorem intersects_flag {options flag : ParseOptions} {i : Nat} (h : flag.bits.toNat = 2 ^ i) :
    options.intersects flag = options.contains flag := by
  have hpos : flag.bits ≠ 0 := fun hzero => by
    rw [hzero] at h
    exact absurd h (Nat.two_pow_pos i).ne
  rw [intersects, contains]
  obtain hnone | hall := and_flag options.bits h
  · rw [hnone, bne_self_eq_false, beq_eq_false_iff_ne.2 hpos.symm]
  · rw [hall, beq_self_eq_true, bne_iff_ne.2 hpos]

theorem intersects_union (a b c : ParseOptions) :
    a.intersects (b.union c) = (a.intersects b || a.intersects c) := by
  have hor : a.bits &&& (b.bits ||| c.bits) = (a.bits &&& b.bits) ||| (a.bits &&& c.bits) := by
    rw [← UInt32.toNat_inj]
    simp [Nat.and_or_distrib_left]
  rw [Bool.eq_iff_iff, Bool.or_eq_true, intersects, intersects, intersects, union, hor,
    bne_iff_ne, bne_iff_ne, bne_iff_ne, Ne, UInt32.or_eq_zero_iff, not_and_or]

/-- Either of two switches asks for white space. -/
theorem intersects_space (options : ParseOptions) :
    options.intersects (.union .wsPcdata .wsPcdataSingle) =
      (options.contains .wsPcdata || options.contains .wsPcdataSingle) := by
  rw [intersects_union, intersects_flag (i := 3) rfl, intersects_flag (i := 10) rfl]

end ParseOptions

/-- Whether character data becomes a node, at the top of a document or in an element. -/
def ParseOptions.keepsRun (options : ParseOptions) (atTop : Bool) (raw : List Char) : Bool :=
  (options.contains .wsPcdata || !raw.all isSpace) && (options.contains .fragment || !atTop)

/-- Whether character data becomes a node, by options that may trim it. -/
def ParseOptions.keepsText (options : ParseOptions) (atTop : Bool) (raw : List Char) : Bool :=
  ((options.contains .wsPcdata && !options.contains .trimPcdata) || !raw.all isSpace) &&
    (options.contains .fragment || !atTop)

/-- Character data is dropped for one of two reasons. -/
theorem ParseOptions.keepsText_eq_false_iff {options : ParseOptions} {atTop : Bool}
    {raw : List Char} :
    options.keepsText atTop raw = false ↔
      (raw.all isSpace && !(options.contains .wsPcdata && !options.contains .trimPcdata)) = true ∨
        (atTop && !options.contains .fragment) = true := by
  rw [keepsText]
  cases raw.all isSpace <;> cases options.contains .wsPcdata && !options.contains .trimPcdata <;>
    cases options.contains .fragment <;> cases atTop <;> decide

theorem ParseOptions.keepsText_eq_keepsRun {options : ParseOptions} (h : options.KeepsTextApart)
    (atTop : Bool) (raw : List Char) :
    options.keepsText atTop raw = options.keepsRun atTop raw := by
  rw [keepsText, keepsRun, h.trim, Bool.not_false, Bool.and_true]

/-- The attribute that an attribute of a text becomes. -/
def RawAttribute.tree (options : ParseOptions) (a : RawAttribute) : TreeAttribute :=
  ⟨some a.name, some (String.ofList (convertAttribute options a.raw).text)⟩

/-- The node without attributes that a text becomes. -/
def TreeLabel.ofText (kind : NodeKind) (conversion : Conversion) : TreeLabel :=
  ⟨kind, none, some (String.ofList conversion.text), []⟩

@[simp] theorem TreeLabel.kind_ofText (kind : NodeKind) (conversion : Conversion) :
    (TreeLabel.ofText kind conversion).kind = kind := rfl

mutual

/-- The nodes that a construct becomes: one, or none for character data that is dropped. -/
def Construct.trees (options : ParseOptions) (atTop : Bool) : Construct → List Tree
  | .run raw =>
    if options.keepsRun atTop raw then
      [.node (.ofText .pcdata (convertPcdata options raw)) []]
    else []
  | .element name as content =>
    [.node ⟨.element, some name, none, as.map (RawAttribute.tree options)⟩
      (Construct.allTrees options false content)]
  | .comment raw => [.node (.ofText .comment (TreeBuilder.sectionConversion options raw)) []]
  | .cdata raw => [.node (.ofText .cdata (TreeBuilder.sectionConversion options raw)) []]
  | .pi target value => [.node ⟨.pi, some target, value.map String.ofList, []⟩ []]
  | .declaration target as =>
    [.node ⟨.declaration, some target, none, as.map (RawAttribute.tree options)⟩ []]

/-- The nodes that constructs become, in their order. -/
def Construct.allTrees (options : ParseOptions) (atTop : Bool) : List Construct → List Tree
  | [] => []
  | item :: items => item.trees options atTop ++ Construct.allTrees options atTop items

end

/-- Character data at the top becomes a node only in a fragment. -/
theorem Construct.fragment_of_isPcdata {options : ParseOptions} {items : List Construct} {t : Tree}
    (ht : t ∈ allTrees options true items) (htext : t.IsPcdata) :
    options.contains .fragment = true := by
  induction items with
  | nil => cases ht
  | cons item items ih =>
    obtain hfirst | hrest := List.mem_append.1 ht
    · cases item with
      | run raw =>
        rw [trees] at hfirst
        split at hfirst
        · rename_i hkept
          simpa [ParseOptions.keepsRun] using (Bool.and_eq_true_iff.1 hkept).2
        · cases hfirst
      | _ =>
        obtain rfl := List.mem_singleton.1 hfirst
        cases htext
    · exact ih hrest

/-- The kind of the node that content stands in. -/
def contentParent (atTop : Bool) : NodeKind := if atTop then .document else .element

/-- A tree without children that may stand in content. -/
theorem Tree.lawful_leaf {l : TreeLabel} {parent : NodeKind}
    (howns : l.attributes ≠ [] → l.kind.hasAttributes = true)
    (hname : l.kind.hasName = false → l.name = none)
    (hvalue : l.kind.hasValue = false → l.value = none)
    (hallowed : parent.allowsChild l.kind = true) :
    (Tree.node l []).Lawful ∧ (Tree.node l []).Unadorned ∧
      parent.allowsChild (Tree.node l []).label.kind = true :=
  ⟨.node howns (List.forall_mem_nil _) (List.forall_mem_nil _),
    .node hname hvalue (List.forall_mem_nil _), hallowed⟩

/-- The trees of content may stand where the content stands, and nothing but names, values
and attributes is in their nodes. -/
theorem Content.lawful_trees (options : ParseOptions) {items : List Construct} {text : List Char}
    (h : Content atTop items text) :
    ∀ t ∈ Construct.allTrees options atTop items,
      t.Lawful ∧ t.Unadorned ∧ (contentParent atTop).allowsChild t.label.kind = true := by
  have hanywhere : ∀ {atTop kind}, kind ∉ [NodeKind.null, .document, .declaration, .doctype] →
      (contentParent atTop).allowsChild kind = true := by
    intro atTop kind hkind
    cases atTop <;> cases kind <;> first | rfl | exact absurd hkind (by decide)
  induction h with
  | nil => exact List.forall_mem_nil _
  | leaf hitem _ ih =>
    refine List.forall_mem_append.2 ⟨?_, ih⟩
    cases hitem with
    | run =>
      rw [Construct.trees]
      split
      · exact List.forall_mem_singleton.2 (Tree.lawful_leaf (fun h => absurd rfl h)
          (fun _ => rfl) (fun h => by cases h) (hanywhere (by simp)))
      · exact List.forall_mem_nil _
    | empty =>
      exact List.forall_mem_singleton.2 (Tree.lawful_leaf (fun _ => rfl) (fun h => by cases h)
        (fun _ => rfl) (hanywhere (by simp)))
    | comment | cdata =>
      exact List.forall_mem_singleton.2 (Tree.lawful_leaf (fun h => absurd rfl h)
        (fun _ => rfl) (fun h => by cases h) (hanywhere (by simp)))
    | bare | pi =>
      exact List.forall_mem_singleton.2 (Tree.lawful_leaf (fun h => absurd rfl h)
        (fun h => by cases h) (fun h => by cases h) (hanywhere (by simp)))
    | declaration htop =>
      subst htop
      exact List.forall_mem_singleton.2 (Tree.lawful_leaf (fun _ => rfl) (fun h => by cases h)
        (fun _ => rfl) rfl)
  | element _ _ _ _ _ ihInner ihRest =>
    refine List.forall_mem_append.2 ⟨List.forall_mem_singleton.2 ⟨?_, ?_, hanywhere ?_⟩, ihRest⟩
    · exact .node (fun _ => rfl) (fun t ht => (ihInner t ht).2.2) fun t ht => (ihInner t ht).1
    · exact .node (fun h => by cases h) (fun _ => rfl) fun t ht => (ihInner t ht).2.1
    · simp [Tree.label]

end XmlTree
