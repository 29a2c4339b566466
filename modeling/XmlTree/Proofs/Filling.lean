/-
  Proofs/Filling.lean --- what a text says is what a document holds after it is loaded.

  WHAT THIS FILE IS FOR.  A load drops whatever was there and adds what the events of the
  text say below a new document node.  So if the events say trees, these trees are the whole
  content of the document, and the load is answered as the reader ended.
-/
import XmlTree.Proofs.Built
import XmlTree.Proofs.Rebuilding
import XmlTree.Proofs.Resuming

set_option autoImplicit false

namespace XmlTree

/-- Whether a text that was read counts as loaded, when nodes of the given kinds stand at the
top: it is empty, or it may be without an element there, or it has one. -/
def ParseOptions.accepts (options : ParseOptions) (text : List Char) (kinds : List NodeKind) :
    Bool :=
  text.isEmpty || options.contains .fragment || kinds.contains .element

theorem ParseOptions.accepts_of_fragment {options : ParseOptions} {text : List Char}
    {kinds : List NodeKind} (h : options.contains .fragment = true) :
    options.accepts text kinds = true := by
  rw [accepts, h, Bool.or_true, Bool.true_or]

theorem ParseOptions.accepts_of_element {options : ParseOptions} {text : List Char}
    {ts : List Tree} (h : ∃ t ∈ ts, t.label.kind = .element) :
    options.accepts text (ts.map fun t => t.label.kind) = true := by
  have hmem : NodeKind.element ∈ ts.map fun t => t.label.kind := List.mem_map.2 h
  rw [accepts, List.contains_iff_mem.2 hmem, Bool.or_true]

/-- The texts of an event are not too long if the text is not that they stand in. -/
theorem LoadEvent.Within.short {text : List Char} {e : LoadEvent} (h : e.Within text)
    (hsize : byteSize text < 2 ^ 32) : e.Short := by
  have hshort : ∀ s : Span, s.Within text → byteSize s.text < 2 ^ 32 := fun s hs =>
    Nat.lt_of_le_of_lt hs.byteSize_le hsize
  cases e with
  | text raw closing => exact hshort raw h
  | comment raw | cdata raw => exact hshort raw h
  | «attribute» name raw =>
    cases raw with
    | none => trivial
    | some raw => exact hshort raw (h.2 raw rfl)
  | _ => trivial

theorem Transcript.ofText_short {text : List Char} (hsize : byteSize text < 2 ^ 32)
    (mode : ReaderMode) : ∀ e ∈ (ofText mode text).events, e.Short :=
  fun e he => (ofText_within mode text e he).short hsize

namespace Document

variable {doc into : Document}

/-! ## The document that a text is loaded into -/

theorem node?_root_reset (into : Document) :
    into.reset.node? into.reset.root = some (.detached .document 0) := by
  let cleared : Document :=
    ⟨into.nodes.clear, into.attrs.clear, into.texts.clear, into.root, 0, false, none⟩
  have hsound : cleared.nodes.Sound := SlotStore.sound_clear
  exact (node?_allocNode hsound .document _).trans (if_pos rfl)

/-- Nothing stands below the document node of an empty document. -/
theorem lists_root_reset (into : Document) :
    into.reset.children into.reset.root = [] ∧ into.reset.attributes into.reset.root = [] := by
  have hnode := node?_root_reset into
  constructor
  · have hfirst : into.reset.firstChild? into.reset.root = none := by
      rw [firstChild?, hnode]
      rfl
    rw [children, hfirst, chain_none]
  · have hfirst : into.reset.firstAttribute? into.reset.root = none := by
      rw [firstAttribute?, hnode]
      rfl
    rw [attributes, hfirst, chain_none]

/-- The document node without anything below it. -/
def bareRoot : TreeLabel := ⟨.document, none, none, []⟩

/-- The empty document with a text that is to be loaded. -/
def loadStart (into : Document) (text : String) : Document :=
  { into.reset with texts := (into.reset.texts.addBuffer text).2 }

/-- Where a text is loaded that replaces the content of a document. -/
def loadTarget (into : Document) (text : String) (options : ParseOptions) : LoadTarget :=
  ⟨into.reset.root, (into.reset.texts.addBuffer text).1, options⟩

theorem kind_loadStart (into : Document) (text : String) :
    (into.loadStart text).kind into.reset.root = .document := by
  have hnode : (into.loadStart text).node? into.reset.root = _ := node?_root_reset into
  rw [kind, hnode]
  rfl

theorem ready_loadStart {text : List Char} (hsize : byteSize text < 2 ^ 32)
    {options : ParseOptions} (hoptions : options.KeepsTextApart) :
    (into.loadTarget (String.ofList text) options).Ready text
      (into.loadStart (String.ofList text)) where
  source := by simp [loadTarget, loadStart, TextStore.addBuffer, TextStore.source?]
  size := hsize
  options := hoptions

/-- A text that is being loaded, before its first event. -/
def loadStarted (into : Document) (text : String) : TreeBuilder :=
  ⟨into.loadStart text, [], into.reset.root⟩

/-- Events that say trees make them the content of the document. -/
theorem foldl_after_loadStarted (into : Document) {text : List Char} (hsize : byteSize text < 2 ^ 32)
    {options : ParseOptions} (hoptions : options.KeepsTextApart) {ts : List Tree}
    {es : List LoadEvent} (hsaid : Tree.AllSaidBy options text ts es)
    (hheard : ∀ raw closing, .text raw closing ∈ es → options.keepsRun false raw.text = true)
    (hlawful : (Tree.node bareRoot ts).Lawful) (hunadorned : ∀ t ∈ ts, t.Unadorned)
    (htop : ∀ t ∈ ts, t.IsPcdata → options.contains .fragment = true) :
    let loaded := (es.foldl (TreeBuilder.after (into.loadTarget (String.ofList text) options))
      (into.loadStarted (String.ofList text))).doc
    Whole loaded ∧ loaded.root = into.reset.root ∧
      (Tree.node bareRoot ts).StandsAt loaded (fun _ => True) loaded.root := by
  intro loaded
  let start := into.loadStart (String.ofList text)
  let root := into.reset.root
  let b : TreeBuilder := into.loadStarted (String.ofList text)
  have hstart : Whole start := (whole_reset into).sameShape (.ofTexts _)
  have hkind : b.doc.kind (b.cursor (into.loadTarget (String.ofList text) options)) = .document :=
    kind_loadStart into _
  cases hlawful with
  | node _ hallowed hbelow =>
    obtain ⟨ids, doc, owner, hfold, hwhole, hkept, hlist, hall⟩ :=
      TreeBuilder.foldl_after_trees (b := b) ts es hsaid hbelow hunadorned hstart
        (ready_loadStart hsize hoptions) (fun t ht => by rw [hkind]; exact hallowed t ht)
        hheard (fun t ht htext => .inl (htop t ht htext))
    have hloaded : loaded = doc := congrArg TreeBuilder.doc hfold
    have hthere : start.contains root = true :=
      contains_of_kind_ne (by rw [show start.kind root = .document from hkind]; decide)
    have hroot : doc.root = root := by
      refine (hwhole.eq_root ?_).symm
      rw [hkept.kind hthere]
      exact hkind
    obtain ⟨hchildren, hattributes⟩ := lists_root_reset into
    have hnode : start.NodeBears bareRoot root :=
      ⟨_, node?_root_reset into, rfl, .null, .null, fun _ => rfl, fun _ => rfl⟩
    rw [hloaded]
    refine ⟨hwhole, hroot, ?_⟩
    rw [hroot, Tree.StandsAt]
    refine ⟨trivial, ⟨hkept.nodeBears hnode, ?_⟩, ?_⟩
    · rw [hkept.attributes hthere fun h => h, show b.doc.attributes root = [] from hattributes]
      exact .nil
    · have hids : doc.children root = ids := by
        have hlist : doc.children root = start.children root ++ ids := hlist
        rw [hlist, show start.children root = [] from hchildren, List.nil_append]
      rw [hids]
      exact hall.mono fun _ _ => trivial

/-- The nodes where trees stand have the kinds of the trees. -/
theorem kinds_of_allStandAt {Among : NodeId → Prop} {ts : List Tree} {ids : List NodeId}
    (h : Tree.AllStandAt doc Among ts ids) : ids.map doc.kind = ts.map fun t => t.label.kind := by
  induction ts generalizing ids with
  | nil =>
    obtain rfl : ids = [] := h
    rfl
  | cons t ts ih =>
    obtain ⟨id, rest, rfl, ht, hts⟩ := h
    obtain ⟨l, children⟩ := t
    rw [Tree.StandsAt] at ht
    obtain ⟨-, ⟨⟨r, hr, hkind, -⟩, -⟩, -⟩ := ht
    rw [List.map_cons, List.map_cons, ih hts, kind, hr]
    exact congrArg (· :: _) hkind

/-- What a load answers that replaces the content of a document, and what it leaves. -/
theorem loadBelow_reset (into : Document) (text : List Char) (options : ParseOptions) :
    let target := into.loadTarget (String.ofList text) options
    let read := Transcript.ofText ⟨options, true⟩ text
    let done := (into.loadStarted (String.ofList text)).carriedOut target read
    let filled := (done.events.foldl (TreeBuilder.after target)
      (into.loadStarted (String.ofList text))).doc
    let last := (String.ofList text).utf8ByteSize - 1
    into.reset.loadBelow into.reset.root (String.ofList text) options =
      (match done.fault with
        | some fault => ⟨fault.status, min fault.offset last⟩
        | none =>
          if options.accepts text ((filled.children into.reset.root).map filled.kind)
          then ⟨.ok, 0⟩ else ⟨.noDocumentElement, last⟩, filled) := by
  intro target read done filled last
  have hmode : (into.reset.kind into.reset.root == .document) = true := by
    rw [show into.reset.kind into.reset.root = .document from kind_loadStart into ""]
    rfl
  have hnone : (into.loadStart (String.ofList text)).children into.reset.root = [] :=
    (lists_root_reset into).1
  have hempty : (String.ofList text).isEmpty = text.isEmpty := by
    cases text with
    | nil => rfl
    | cons d more => simp
  have hkinds : ((filled.children into.reset.root).map filled.kind).contains .element =
      (filled.children into.reset.root).any fun c => filled.kind c == .element := by
    rw [List.contains_eq_any_beq, List.any_map]
    simp only [Function.comp_def, BEq.comm]
  have haccepts :
      options.accepts text ((filled.children into.reset.root).map filled.kind) =
        ((String.ofList text).isEmpty || (options.contains .fragment ||
          ((filled.children into.reset.root).drop ((into.loadStart (String.ofList text)).children
            into.reset.root).length).any fun c => filled.kind c == .element)) := by
    rw [hnone, List.length_nil, List.drop_zero, ParseOptions.accepts, hempty, hkinds,
      Bool.or_assoc]
  have hloaded := loadBelow_eq into.reset into.reset.root (String.ofList text) options
  simp only [hmode, String.toList_ofList] at hloaded
  rw [haccepts]
  exact hloaded

/-! ## The tree of a whole document -/

/-- The tree of an unadorned document is a bare document node with trees below it. -/
theorem Whole.tree_root_eq (h : Whole doc) (hunadorned : (doc.tree doc.root).Unadorned) :
    doc.tree doc.root = .node bareRoot ((doc.children doc.root).map doc.tree) := by
  obtain ⟨lay, hrooted⟩ := h
  have htree := hrooted.toLaidOut.tree_eq hrooted.contains_root
  have hlawful := (hrooted.toLaidOut.lawful_tree hrooted.contains_root).1
  have hkind : (doc.labelOf doc.root).kind = .document := by
    rw [kind_labelOf, hrooted.root_kind]
  rw [htree] at hlawful hunadorned ⊢
  have hattributes := hlawful.attributes_eq_nil (by rw [hkind]; rfl)
  cases hunadorned with
  | node hname hvalue _ =>
    have hname := hname (by rw [hkind]; rfl)
    have hvalue := hvalue (by rw [hkind]; rfl)
    refine congrArg (Tree.node · _) ?_
    cases hl : doc.labelOf doc.root with
    | mk kind name value attributes =>
      rw [hl] at hkind hname hvalue hattributes
      simp only at hkind hname hvalue hattributes
      rw [bareRoot, hkind, hname, hvalue, hattributes]

/-- The tree of a child has its kind. -/
theorem LaidOut.kind_tree {lay : Layout} (h : LaidOut doc lay) {c p : NodeId}
    (hc : c ∈ doc.children p) : (doc.tree c).label.kind = doc.kind c :=
  (h.lawful_tree (contains_of_parent? (h.mem_children.1 hc))).2

/-- An element among the children is one among their trees. -/
theorem LaidOut.exists_element_tree {lay : Layout} (h : LaidOut doc lay) {p : NodeId}
    (helement : ∃ c ∈ doc.children p, doc.kind c = .element) :
    ∃ t ∈ (doc.children p).map doc.tree, t.label.kind = .element := by
  obtain ⟨c, hc, hkind⟩ := helement
  exact ⟨doc.tree c, List.mem_map_of_mem hc, (h.kind_tree hc).trans hkind⟩

end Document

end XmlTree
