/-
  Proofs/Planting.lean --- what one event adds to a document.

  WHAT THIS FILE IS FOR.  As long as every piece of character data becomes a node of its own,
  an event does one of three things: it adds one node at the end of the innermost open element,
  or one attribute at the end of those of the tag that was opened last, or nothing.  The label
  of that node can be told from the event, the options and the loaded text; how the document
  stores it is not asked.

  RANGES.  A name or value that was not converted is a range of the loaded text, whose ends are
  words.  What is read there is the same for every document that the text is loaded into, also
  if the words have wrapped.
-/
import XmlTree.Proofs.Duplicating
import XmlTree.Proofs.Rebuilding

set_option autoImplicit false

namespace XmlTree

open Document

/-! ## What an event says -/

/-- What the range of a piece of a loaded text reads as. -/
def Span.readIn (source : String) (s : Span) : String :=
  let start := (UInt32.ofNat s.start).toNat
  (sliceBytes? source start (start + (UInt32.ofNat (s.stop - s.start)).toNat)).getD ""

/-- What a converted piece of a loaded text reads as; nothing is left of a new text without
characters. -/
def Conversion.readIn (source : String) (raw : Span) : Conversion → Option String
  | .verbatim skipped text => some (Span.readIn source ⟨raw.start + skipped, text⟩)
  | .fresh text => copiedText (some (String.ofList text))

namespace LoadEvent

/-- The node that an event adds, without what comes to stand below it, if it adds one.  Whether
it is added at the top of a document decides about character data. -/
def nodeLabel? (options : ParseOptions) (source : String) (atTop : Bool) :
    LoadEvent → Option TreeLabel
  | .text raw _ =>
    if options.keepsText atTop raw.text then
      some ⟨.pcdata, none, (convertPcdata options raw.text).readIn source raw, []⟩
    else none
  | .openElement name => some ⟨.element, some (name.readIn source), none, []⟩
  | .closeElement | .attribute _ _ => none
  | .comment raw =>
    some ⟨.comment, none, (TreeBuilder.sectionConversion options raw.text).readIn source raw, []⟩
  | .cdata raw =>
    some ⟨.cdata, none, (TreeBuilder.sectionConversion options raw.text).readIn source raw, []⟩
  | .pi target value => some ⟨.pi, some (target.readIn source), value.map (Span.readIn source), []⟩
  | .declaration target => some ⟨.declaration, some (target.readIn source), none, []⟩
  | .doctype body => some ⟨.doctype, none, some (body.readIn source), []⟩

/-- The open elements after an event that added a node. -/
def openNodes (id : NodeId) (open_ : List NodeId) : LoadEvent → List NodeId
  | .openElement _ => id :: open_
  | _ => open_

/-- The node that attributes go to after an event that added a node. -/
def owner (id owner : NodeId) : LoadEvent → NodeId
  | .openElement _ | .declaration _ => id
  | _ => owner

end LoadEvent

/-- The attribute that an event says. -/
def Span.attributeIn (options : ParseOptions) (source : String) (name : Span) (raw : Option Span) :
    TreeAttribute :=
  ⟨some (name.readIn source), raw.bind fun raw =>
    (convertAttribute options raw.text).readIn source raw⟩

/-! ## One node, one attribute -/

namespace Document

variable {doc doc' : Document} {lay : Layout} {parent id owner : NodeId} {l : TreeLabel}
  {a : TreeAttribute}

/-- A node with a label is new at the end of the children of another one, and that is all. -/
structure Planted (doc doc' : Document) (parent id : NodeId) (l : TreeLabel) : Prop
    extends Added doc doc' parent id where
  contains : ∀ x, doc'.contains x = (decide (x = id) || doc.contains x)
  label : doc'.labelOf id = l
  bare : doc'.children id = []

/-- An attribute is new at the end of those of a node, and that is all. -/
structure Adorned (doc doc' : Document) (owner : NodeId) (a : TreeAttribute) : Prop where
  kept : Kept doc doc' (fun _ => False) (· = owner)
  contains : ∀ x, doc'.contains x = doc.contains x
  attributes : (doc'.attributes owner).map doc'.attrLabel =
    (doc.attributes owner).map doc.attrLabel ++ [a]

theorem Planted.ofTexts {texts : TextStore} (htexts : doc.texts.Extends texts)
    (h : Planted { doc with texts } doc' parent id l) : Planted doc doc' parent id l where
  toAdded := h.toAdded.ofTexts htexts
  contains := h.contains
  label := h.label
  bare := h.bare

/-- A node without attributes is what its record says. -/
theorem labelOf_of_bare {r : NodeRecord} (hr : doc.node? id = some r)
    (hnone : doc.attributes id = []) :
    doc.labelOf id = ⟨r.kind, doc.textOf? r.name, doc.textOf? r.value, []⟩ := by
  simp only [labelOf, hr, hnone, List.map_nil]

/-- A new node with its texts is put at the end of the children of a node. -/
theorem Rooted.planted (h : Rooted doc lay) {kind : NodeKind} {name value : TextSlot}
    (hname : doc.texts.Legible name) (hvalue : doc.texts.Legible value)
    (hallowed : (doc.kind parent).allowsChild kind = true) :
    let made := (doc.allocNode kind).2.modifyNode (doc.allocNode kind).1 fun r =>
      { r with name, value }
    Planted doc (made.link parent .last (doc.allocNode kind).1) parent (doc.allocNode kind).1
      ⟨kind, doc.textOf? name, doc.textOf? value, []⟩ := by
  intro made
  obtain ⟨hadded, ⟨r, hr, hkind, hr₁, hr₂⟩, hchildren, hattributes⟩ := h.added name value hallowed
  refine ⟨hadded, fun x => ?_, ?_, hchildren⟩
  · have hsame : SameShape (doc.allocNode kind).2 made := .modifyNode _ fun _ => rfl
    rw [contains_link, hsame.contains_eq, contains_allocNode h.nodes]
  · refine (labelOf_of_bare hr hattributes).trans ?_
    rw [hkind, hr₁, hr₂]
    exact congrArg₂ (fun name value => TreeLabel.mk kind name value [])
      (textOf?_extends hname hadded.kept.texts) (textOf?_extends hvalue hadded.kept.texts)

/-- The attribute that was put at the end of those of a node gets its texts. -/
theorem Rooted.adorned (h : Rooted doc lay) (hlegible : doc.Legible)
    (howns : (doc.kind owner).hasAttributes = true)
    (hsame : SameShape (doc.allocAttr.2.linkAttr owner .last doc.allocAttr.1) doc')
    (hkept : Kept doc doc' (fun _ => False) (· = owner)) {r : AttrRecord}
    (hr : doc'.attr? doc.allocAttr.1 = some r) :
    Adorned doc doc' owner ⟨doc'.textOf? r.name, doc'.textOf? r.value⟩ where
  kept := hkept
  contains x := by
    rw [hsame.contains_eq, contains_linkAttr]
    rfl
  attributes := by
    obtain ⟨-, -, hlist, -, -⟩ := h.added_attr howns
    rw [hsame.attributes_eq, hlist, List.map_append, hkept.map_attrLabel h.toLaidOut hlegible,
      List.map_singleton, attrLabel, hr]
    rfl

end Document

namespace TreeBuilder

variable {b : TreeBuilder} {target : LoadTarget} {source : String}

/-! ## Texts -/

theorem textOf?_rangeSlot {doc : Document} (hsource : doc.texts.source? target.buffer = some source)
    (s : Span) : doc.textOf? (rangeSlot target s) = some (s.readIn source) := by
  have hbuffer : doc.texts.buffer target.buffer = source := by
    rw [TextStore.buffer, hsource]
    rfl
  rw [Span.readIn, ← hbuffer]
  rfl

/-- A piece of the loaded text is converted, and its slot reads as what it becomes. -/
theorem exists_conversionSlot (hsource : b.doc.texts.source? target.buffer = some source)
    {raw : Span} {conversion : Conversion} (hshort : conversion.refusal? raw = none) :
    ∃ slot texts, b.conversionSlot target raw conversion =
        (some slot, { b with doc := { b.doc with texts } }) ∧ b.doc.texts.Extends texts ∧
      texts.Legible slot ∧
      ({ b.doc with texts } : Document).textOf? slot = conversion.readIn source raw := by
  cases conversion with
  | verbatim skipped text =>
    exact ⟨_, b.doc.texts, rfl, .refl _, ⟨source, hsource⟩, textOf?_rangeSlot hsource _⟩
  | fresh text =>
    obtain ⟨slot, b', hslot, -⟩ | ⟨-, hlong⟩ := b.conversionSlot_cases target raw (.fresh text)
    · obtain rfl : (b.conversionSlot target raw (.fresh text)).2 = b' := congrArg Prod.snd hslot
      have hfirst : (b.doc.ownText (String.ofList text)).1 = some slot := congrArg Prod.fst hslot
      have howned : b.doc.ownText (String.ofList text) =
          (some slot, (b.doc.ownText (String.ofList text)).2) := Prod.ext hfirst rfl
      exact ⟨slot, _, hslot, .own _ _, TextStore.legible_own _ (congrArg Prod.fst howned),
        textOf?_of_ownText howned⟩
    · exact absurd hlong (Conversion.refusal?_eq_none_iff.1 hshort)

/-! ## Steps of the builder -/

/-- A node is pushed with its texts. -/
theorem planted_push (hwhole : Whole b.doc) {kind : NodeKind} {name value : TextSlot}
    (hname : b.doc.texts.Legible name) (hvalue : b.doc.texts.Legible value)
    (hallowed : (b.doc.kind (b.cursor target)).allowsChild kind = true) :
    ∃ id doc, b.push target kind name value = (id, { b with doc }) ∧
      Planted b.doc doc (b.cursor target) id
        ⟨kind, b.doc.textOf? name, b.doc.textOf? value, []⟩ := by
  obtain ⟨doc, openNodes, owner⟩ := b
  obtain ⟨lay, hrooted⟩ := hwhole
  exact ⟨_, _, rfl, hrooted.planted hname hvalue hallowed⟩

/-- A node is pushed whose value is a converted piece of the loaded text. -/
theorem planted_converted (hwhole : Whole b.doc)
    (hsource : b.doc.texts.source? target.buffer = some source) {kind : NodeKind}
    (hallowed : (b.doc.kind (b.cursor target)).allowsChild kind = true) {raw : Span}
    {conversion : Conversion} (hshort : conversion.refusal? raw = none) :
    ∃ id doc, b.withSlot target raw conversion (fun slot b => (b.push target kind .null slot).2) =
        (none, { b with doc }) ∧
      Planted b.doc doc (b.cursor target) id
        ⟨kind, none, conversion.readIn source raw, []⟩ := by
  obtain ⟨slot, texts, hslot, htexts, hlegible, hreads⟩ := exists_conversionSlot hsource hshort
  let converted : TreeBuilder := { b with doc := { b.doc with texts } }
  have hwhole' : Whole converted.doc := hwhole.sameShape (.ofTexts texts)
  have hallowed' : (converted.doc.kind (converted.cursor target)).allowsChild kind = true :=
    hallowed
  obtain ⟨id, doc, hpush, hplanted⟩ :=
    planted_push hwhole' TextStore.legible_null hlegible hallowed'
  rw [show converted.doc.textOf? slot = conversion.readIn source raw from hreads] at hplanted
  refine ⟨id, doc, ?_, hplanted.ofTexts htexts⟩
  rw [withSlot, hslot]
  exact congrArg (fun pushed : NodeId × TreeBuilder => (none, pushed.2)) hpush

/-- An attribute is added to the node that was opened last. -/
theorem adorned_addAttribute (hwhole : Whole b.doc) (hlegible : b.doc.Legible)
    (hsource : b.doc.texts.source? target.buffer = some source)
    (howns : (b.doc.kind b.owner).hasAttributes = true) {name : Span} {raw : Option Span}
    (hshort : (LoadEvent.attribute name raw).refusal? target.options = none) :
    ∃ doc, b.after target (.attribute name raw) = { b with doc } ∧
      Adorned b.doc doc b.owner (name.attributeIn target.options source raw) := by
  obtain ⟨lay, hrooted⟩ := id hwhole
  obtain ⟨-, hkept, -, -, hfresh⟩ := hrooted.added_attr howns
  obtain ⟨r, hr, -, hvalue⟩ := exists_linked hrooted.attrs b.owner
  let id := b.doc.allocAttr.1
  let linked := b.doc.allocAttr.2.linkAttr b.owner .last id
  let named := linked.modifyAttr id fun r => { r with name := rangeSlot target name }
  have hsame : SameShape linked named := .modifyAttr _ fun _ => rfl
  have hnamed : Kept b.doc named (fun _ => False) (· = b.owner) :=
    hkept.modifyAttr hfresh fun _ => rfl
  have hrecord : named.attr? id = some { r with name := rangeSlot target name } := by
    rw [attr?_modifyAttr, if_pos rfl, hr]
    rfl
  cases raw with
  | none =>
    have hadorned := hrooted.adorned hlegible howns hsame hnamed hrecord
    have hname : named.textOf? (rangeSlot target name) = some (name.readIn source) :=
      textOf?_rangeSlot (hnamed.texts.source? hsource) name
    rw [hname, hvalue] at hadorned
    exact ⟨named, rfl, hadorned⟩
  | some raw =>
    obtain ⟨slot, texts, hslot, htexts, hread, hreads⟩ :=
      exists_conversionSlot (b := { b with doc := named }) (hnamed.texts.source? hsource) hshort
    let converted : Document := { named with texts }
    let done := converted.modifyAttr id fun r => { r with value := slot }
    have hdone : Kept b.doc done (fun _ => False) (· = b.owner) :=
      (hnamed.trans_same (kept_ofTexts htexts)).modifyAttr hfresh fun _ => rfl
    have hsame' : SameShape linked done :=
      (hsame.trans (.ofTexts texts)).trans (.modifyAttr _ fun _ => rfl)
    have hrecord' : done.attr? id =
        some { r with name := rangeSlot target name, value := slot } := by
      rw [attr?_modifyAttr, if_pos rfl]
      exact congrArg (Option.map fun r => { r with value := slot }) hrecord
    have hadorned := hrooted.adorned hlegible howns hsame' hdone hrecord'
    have hname : done.textOf? (rangeSlot target name) = some (name.readIn source) :=
      textOf?_rangeSlot (hdone.texts.source? hsource) name
    have hvalue' : done.textOf? slot =
      (convertAttribute target.options raw.text).readIn source raw := hreads
    rw [hname, hvalue'] at hadorned
    refine ⟨done, ?_, hadorned⟩
    show (withSlot { b with doc := named } target raw (convertAttribute target.options raw.text)
      _).2 = _
    rw [withSlot, hslot]
    rfl

/-- Markup that stands for a node adds it, and what is open then is told by the event. -/
theorem planted_markup {belowDocument atTop : Bool} {p : EventPlace}
    (h : Building belowDocument target b p)
    (hsource : b.doc.texts.source? target.buffer = some source) {e : LoadEvent}
    (he : e.Fits belowDocument p) (hshort : e.refusal? target.options = none)
    (hmarkup : ∀ raw closing, e ≠ .text raw closing)
    {l : TreeLabel} (hl : e.nodeLabel? target.options source atTop = some l) :
    ∃ id doc, b.after target e = ⟨doc, e.openNodes id b.openNodes, e.owner id b.owner⟩ ∧
      Planted b.doc doc (b.cursor target) id l := by
  have hrange : ∀ s : Span, b.doc.texts.Legible (rangeSlot target s) := fun _ => ⟨source, hsource⟩
  have hreads := textOf?_rangeSlot hsource
  cases e with
  | text raw closing => exact absurd rfl (hmarkup raw closing)
  | openElement name =>
    cases hl
    obtain ⟨id, doc, hpush, hplanted⟩ := planted_push h.whole (hrange name) TextStore.legible_null
      (h.cursor_allows (show NodeKind.element ∉ _ by decide))
    rw [hreads name] at hplanted
    refine ⟨id, doc, ?_, hplanted⟩
    simp only [after, add, hpush]
    rfl
  | closeElement => cases hl
  | «attribute» name raw => cases hl
  | comment raw =>
    cases hl
    obtain ⟨id, doc, hadd, hplanted⟩ := planted_converted h.whole hsource
      (h.cursor_allows (show NodeKind.comment ∉ _ by decide)) hshort
    exact ⟨id, doc, congrArg Prod.snd hadd, hplanted⟩
  | cdata raw =>
    cases hl
    obtain ⟨id, doc, hadd, hplanted⟩ := planted_converted h.whole hsource
      (h.cursor_allows (show NodeKind.cdata ∉ _ by decide)) hshort
    exact ⟨id, doc, congrArg Prod.snd hadd, hplanted⟩
  | pi name value =>
    cases hl
    have hvalue : b.doc.texts.Legible (value.elim .null (rangeSlot target)) ∧
        b.doc.textOf? (value.elim .null (rangeSlot target)) = value.map (Span.readIn source) := by
      cases value with
      | none => exact ⟨TextStore.legible_null, rfl⟩
      | some value => exact ⟨hrange value, hreads value⟩
    obtain ⟨id, doc, hpush, hplanted⟩ := planted_push h.whole (hrange name) hvalue.1
      (h.cursor_allows (show NodeKind.pi ∉ _ by decide))
    rw [hreads name, hvalue.2] at hplanted
    exact ⟨id, doc, congrArg Prod.snd hpush, hplanted⟩
  | declaration name =>
    cases hl
    obtain ⟨hbelow, hdepth⟩ := he
    obtain ⟨id, doc, hpush, hplanted⟩ := planted_push h.whole (hrange name) TextStore.legible_null
      (h.cursor_allows_top hbelow hdepth
        (show NodeKind.document.allowsChild .declaration = true from rfl))
    rw [hreads name] at hplanted
    refine ⟨id, doc, ?_, hplanted⟩
    simp only [after, add, hpush]
    rfl
  | doctype body =>
    cases hl
    obtain ⟨hbelow, hdepth⟩ := he
    obtain ⟨id, doc, hpush, hplanted⟩ := planted_push h.whole TextStore.legible_null (hrange body)
      (h.cursor_allows_top hbelow hdepth
        (show NodeKind.document.allowsChild .doctype = true from rfl))
    rw [hreads body] at hplanted
    exact ⟨id, doc, congrArg Prod.snd hpush, hplanted⟩

/-- An event that stands for a node is refused for its own text only. -/
theorem refusal?_of_nodeLabel? (hoptions : target.options.MakesTextNodes) {e : LoadEvent}
    {l : TreeLabel} (hl : e.nodeLabel? target.options source
      (b.doc.kind (b.cursor target) == .document) = some l) :
    refusal? target b e = e.refusal? target.options := by
  cases e with
  | text raw closing =>
    rw [LoadEvent.nodeLabel?] at hl
    split at hl
    · rename_i hkeeps
      rw [refusal?, add, addText_eq_of_makesTextNodes hoptions, if_pos hkeeps]
      exact b.withSlot_fst target raw _ _
    · cases hl
  | _ => exact refusal?_of_markup fun _ _ => LoadEvent.noConfusion

/-- An event that stands for a node adds it, and what is open then is told by the event. -/
theorem planted_add {belowDocument : Bool} {p : EventPlace}
    (h : Building belowDocument target b p)
    (hsource : b.doc.texts.source? target.buffer = some source)
    (hoptions : target.options.MakesTextNodes) {e : LoadEvent} (he : e.Fits belowDocument p)
    (hheeded : refusal? target b e = none) {l : TreeLabel}
    (hl : e.nodeLabel? target.options source
      (b.doc.kind (b.cursor target) == .document) = some l) :
    ∃ id doc, b.after target e = ⟨doc, e.openNodes id b.openNodes, e.owner id b.owner⟩ ∧
      Planted b.doc doc (b.cursor target) id l := by
  have hshort : e.refusal? target.options = none :=
    (refusal?_of_nodeLabel? hoptions hl).symm.trans hheeded
  cases e with
  | text raw closing =>
    rw [LoadEvent.nodeLabel?] at hl
    split at hl
    · rename_i hkeeps
      cases hl
      obtain ⟨id, doc, hpush, hplanted⟩ := planted_converted h.whole hsource
        (h.cursor_allows (show NodeKind.pcdata ∉ _ by decide)) hshort
      refine ⟨id, doc, ?_, hplanted⟩
      rw [after, add, addText_eq_of_makesTextNodes hoptions, if_pos hkeeps]
      exact congrArg Prod.snd hpush
    · cases hl
  | _ => exact planted_markup h hsource he hshort (fun _ _ => LoadEvent.noConfusion) hl

/-- Character data that becomes no node is passed over. -/
theorem add_text_of_dropped (hoptions : target.options.MakesTextNodes) {raw : Span} {closing : Bool}
    (hl : (LoadEvent.text raw closing).nodeLabel? target.options source
      (b.doc.kind (b.cursor target) == .document) = none) :
    b.add target (.text raw closing) = (none, b) := by
  rw [LoadEvent.nodeLabel?] at hl
  split at hl
  · cases hl
  · rename_i hdropped
    rw [add, addText_eq_of_makesTextNodes hoptions, if_neg hdropped]

end TreeBuilder

end XmlTree
