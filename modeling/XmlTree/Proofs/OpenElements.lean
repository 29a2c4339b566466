/-
  Proofs/OpenElements.lean --- the elements that are open while a text is loaded.

  WHAT THIS FILE IS FOR.  The reader knows the names of the open tags, and the builder which
  elements stand for them.  An end tag is compared with the name of the innermost open element,
  which is looked up in the tree: through the handle of the node and the slot of its name.
  Whatever is added to the tree keeps both, so this is the name of the tag that was opened.
-/
import XmlTree.Proofs.Composing

set_option autoImplicit false

namespace XmlTree

namespace Document

variable {doc doc' doc'' : Document} {x : NodeId} {name : List Char}

/-! ## What every step keeps -/

/-- Texts are kept, and so are nodes with their kinds and names. -/
structure KeepsNames (doc doc' : Document) : Prop where
  texts : doc.texts.Extends doc'.texts
  node : ∀ {x r}, doc.node? x = some r →
    ∃ r', doc'.node? x = some r' ∧ r'.kind = r.kind ∧ r'.name = r.name

namespace KeepsNames

theorem refl (doc : Document) : KeepsNames doc doc := ⟨.refl _, fun hr => ⟨_, hr, rfl, rfl⟩⟩

theorem trans (h : KeepsNames doc doc') (h' : KeepsNames doc' doc'') : KeepsNames doc doc'' where
  texts := h.texts.trans h'.texts
  node hr := by
    obtain ⟨r', hr', hkind, hname⟩ := h.node hr
    obtain ⟨r'', hr'', hkind', hname'⟩ := h'.node hr'
    exact ⟨r'', hr'', hkind'.trans hkind, hname'.trans hname⟩

theorem of_texts {texts : TextStore} (h : doc.texts.Extends texts) :
    KeepsNames doc { doc with texts } :=
  ⟨h, fun hr => ⟨_, hr, rfl, rfl⟩⟩

theorem modifyNode {id : NodeId} {f : NodeRecord → NodeRecord}
    (hf : ∀ r, (f r).kind = r.kind ∧ (f r).name = r.name) :
    KeepsNames doc (doc.modifyNode id f) where
  texts := .refl _
  node {x r} hr := by
    rw [node?_modifyNode, hr]
    split
    · exact ⟨f r, rfl, hf r⟩
    · exact ⟨r, rfl, rfl, rfl⟩

theorem modifyAttr (id : AttrId) (f : AttrRecord → AttrRecord) :
    KeepsNames doc (doc.modifyAttr id f) :=
  ⟨.refl _, fun hr => ⟨_, hr, rfl, rfl⟩⟩

theorem linkAttr (owner : NodeId) (place : Place AttrId) (id : AttrId) :
    KeepsNames doc (doc.linkAttr owner place id) where
  texts := by
    rw [texts_linkAttr]
    exact .refl _
  node hr := by
    rw [node?_linkAttr, hr]
    exact ⟨_, rfl, rfl, rfl⟩

theorem of_kept {Fed Dressed : NodeId → Prop} (h : Kept doc doc' Fed Dressed) :
    KeepsNames doc doc' where
  texts := h.texts
  node hr := by
    obtain ⟨r', hr', hkind, hname, -⟩ := h.node hr
    exact ⟨r', hr', hkind, hname⟩

theorem replaceValue (id : NodeId) (value : String) :
    KeepsNames doc (doc.replaceValue id value).2 := by
  unfold Document.replaceValue
  split
  · refine replaceText_induction (refl doc) fun slot owned howned => ?_
    have hdrawn := Drawn.of_ownText howned
    obtain ⟨-, rfl⟩ := eq_of_ownText howned
    have hkept : KeepsNames doc (doc.ownText value).2 := of_texts hdrawn.texts
    have hset : KeepsNames doc ((doc.ownText value).2.modifyNode id fun r =>
        { r with value := slot }) := hkept.trans (modifyNode fun _ => ⟨rfl, rfl⟩)
    exact hset.trans (of_texts (.release _ _))
  · exact refl doc

theorem kind_eq (h : KeepsNames doc doc') (hx : doc.contains x = true) :
    doc'.kind x = doc.kind x := by
  obtain ⟨r, hr⟩ := contains_iff.1 hx
  obtain ⟨r', hr', hkind, -⟩ := h.node hr
  rw [kind, kind, hr, hr']
  exact hkind

end KeepsNames

/-- A node bears a name that is kept. -/
def Named (doc : Document) (x : NodeId) (name : List Char) : Prop :=
  ∃ r, doc.node? x = some r ∧ doc.texts.Holds r.name (String.ofList name)

theorem Named.name_eq (h : doc.Named x name) : doc.name x = String.ofList name := by
  obtain ⟨r, hr, hname⟩ := h
  rw [Document.name, hr]
  exact hname.get_eq

theorem Named.keeps (h : doc.Named x name) (hkeeps : KeepsNames doc doc') : doc'.Named x name := by
  obtain ⟨r, hr, hname⟩ := h
  obtain ⟨r', hr', -, heq⟩ := hkeeps.node hr
  exact ⟨r', hr', heq ▸ hkeeps.texts.holds hname⟩

/-- A value that was replaced is read again. -/
theorem value_replaceValue {value : String} (hx : doc.contains x = true)
    (hdone : doc.replaceValue x value = (true, doc')) : doc'.value x = value := by
  obtain ⟨old, hold⟩ := contains_iff.1 hx
  rw [Document.replaceValue, hold] at hdone
  obtain ⟨slot, owned, howned, -, hput⟩ | ⟨hput, -⟩ := doc.replaceText_cases value old.value
    fun slot doc => doc.modifyNode x fun r => { r with value := slot }
  · obtain rfl := congrArg Prod.snd (hput.symm.trans hdone)
    have hheld : owned.texts.Holds slot value := by
      obtain ⟨hslot, rfl⟩ := eq_of_ownText howned
      exact TextStore.holds_own _ hslot
    have hnode : owned.node? x = some old := (node?_of_ownText howned x).trans hold
    rw [Document.value]
    dsimp only
    rw [show ∀ (d : Document) s, (d.releaseText s).node? x = d.node? x from fun _ _ => rfl,
      node?_modifyNode, if_pos rfl, hnode]
    exact ((TextStore.Extends.release _ _).holds hheld).get_eq
  · cases hput.symm.trans hdone

end Document

open Document

namespace TreeBuilder

variable {b b' : TreeBuilder} {target : LoadTarget} {belowDocument : Bool} {p : EventPlace}

/-! ## Steps of the builder -/

theorem keepsNames_conversionSlot {raw : Span} {conversion : Conversion} {slot : TextSlot}
    (hslot : b.conversionSlot target raw conversion = (some slot, b')) :
    KeepsNames b.doc b'.doc ∧ b'.openNodes = b.openNodes ∧ b'.owner = b.owner := by
  obtain rfl : (b.conversionSlot target raw conversion).2 = b' := congrArg Prod.snd hslot
  cases conversion with
  | verbatim => exact ⟨.refl _, rfl, rfl⟩
  | fresh text => exact ⟨.of_texts (.own _ _), rfl, rfl⟩

theorem keepsNames_push (hwhole : Whole b.doc) {kind : NodeKind} (name value : TextSlot)
    (hallowed : (b.doc.kind (b.cursor target)).allowsChild kind = true) :
    KeepsNames b.doc (b.push target kind name value).2.doc ∧
      ∃ r, (b.push target kind name value).2.doc.node? (b.push target kind name value).1 = some r ∧
        r.name = name := by
  obtain ⟨doc, openNodes, owner⟩ := b
  obtain ⟨lay, hrooted⟩ := hwhole
  obtain ⟨hadded, ⟨r, hr, -, hname, -⟩, -⟩ := hrooted.added name value hallowed
  exact ⟨.of_kept hadded.kept, r, hr, hname⟩

/-- Character data opens and closes nothing. -/
theorem keepsNames_addText (h : Building belowDocument target b p) (raw : Span) (closing : Bool) :
    KeepsNames b.doc (b.addText target raw closing).2.doc ∧
      (b.addText target raw closing).2.openNodes = b.openNodes := by
  refine addText_induction (P := fun b' => KeepsNames b.doc b'.doc ∧ b'.openNodes = b.openNodes)
    ⟨.refl _, rfl⟩ ?_ ?_ ?_
  · intro _ _ slot b' hslot
    obtain ⟨hkeeps, hopen, -⟩ := keepsNames_conversionSlot hslot
    exact ⟨hkeeps.trans (.modifyNode fun _ => ⟨rfl, rfl⟩), hopen⟩
  · intro previous _ value
    exact ⟨.replaceValue previous value, rfl⟩
  · intro _ slot b' hslot
    obtain ⟨hkeeps, hopen, -⟩ := keepsNames_conversionSlot hslot
    have hdone := (h.conversionSlot hslot).1
    exact ⟨hkeeps.trans (keepsNames_push hdone.whole _ _ (hdone.cursor_allows (by decide))).1,
      hopen⟩

theorem keepsNames_addSection (h : Building belowDocument target b p) {kind : NodeKind}
    (raw : Span) (hkind : kind ∉ [NodeKind.null, .document, .declaration, .doctype]) :
    KeepsNames b.doc (b.addSection target kind raw).2.doc ∧
      (b.addSection target kind raw).2.openNodes = b.openNodes := by
  refine withSlot_induction (P := fun b' => KeepsNames b.doc b'.doc ∧ b'.openNodes = b.openNodes)
    ⟨.refl _, rfl⟩ fun slot b' hslot => ?_
  obtain ⟨hkeeps, hopen, -⟩ := keepsNames_conversionSlot hslot
  have hdone := (h.conversionSlot hslot).1
  exact ⟨hkeeps.trans (keepsNames_push hdone.whole _ _ (hdone.cursor_allows hkind)).1, hopen⟩

/-- An attribute opens and closes nothing either, and more of them go to the same node. -/
theorem keepsNames_addAttribute (b : TreeBuilder) (target : LoadTarget) (name : Span)
    (raw : Option Span) :
    KeepsNames b.doc (b.addAttribute target name raw).2.doc ∧
      (b.addAttribute target name raw).2.openNodes = b.openNodes ∧
      (b.addAttribute target name raw).2.owner = b.owner := by
  have hnamed : KeepsNames b.doc (b.addAttributeName target name).2.doc := by
    have halloc : KeepsNames b.doc b.doc.allocAttr.2 := ⟨.refl _, fun hr => ⟨_, hr, rfl, rfl⟩⟩
    exact (halloc.trans (.linkAttr _ _ _)).trans (.modifyAttr _ _)
  cases raw with
  | none => exact ⟨hnamed, rfl, rfl⟩
  | some raw =>
    refine withSlot_induction (P := fun b' => KeepsNames b.doc b'.doc ∧
      b'.openNodes = b.openNodes ∧ b'.owner = b.owner) ⟨hnamed, rfl, rfl⟩ fun slot b' hslot => ?_
    obtain ⟨hkeeps, hrest⟩ := keepsNames_conversionSlot hslot
    exact ⟨(hnamed.trans hkeeps).trans (.modifyAttr _ _), hrest⟩

/-- Whatever an event adds, names are kept. -/
theorem keepsNames_add (h : Building belowDocument target b p) {e : LoadEvent}
    (he : e.Fits belowDocument p) : KeepsNames b.doc (b.after target e).doc := by
  cases e with
  | text raw closing => exact (keepsNames_addText h raw closing).1
  | openElement name => exact (keepsNames_push h.whole _ _ (h.cursor_allows (by decide))).1
  | closeElement => exact .refl _
  | «attribute» name raw => exact (keepsNames_addAttribute b target name raw).1
  | comment raw => exact (keepsNames_addSection h raw (by decide)).1
  | cdata raw => exact (keepsNames_addSection h raw (by decide)).1
  | pi name value => exact (keepsNames_push h.whole _ _ (h.cursor_allows (by decide))).1
  | declaration name =>
    exact (keepsNames_push h.whole _ _ (h.cursor_allows_top he.1 he.2 (by decide))).1
  | doctype body =>
    exact (keepsNames_push h.whole _ _ (h.cursor_allows_top he.1 he.2 (by decide))).1

/-! ## The state of a load -/

/-- The tree that is being built belongs to a text that is being read: it may be built on, the
text is kept, and the open elements bear the names of the open tags. -/
structure Tracks (belowDocument : Bool) (target : LoadTarget) (source : String)
    (b : TreeBuilder) (names : List (List Char)) (tagOpen : Bool) : Prop where
  building : Building belowDocument target b ⟨names.length, tagOpen⟩
  top : belowDocument = (b.doc.kind target.base == .document)
  short : source.utf8ByteSize < 2 ^ 32
  source : b.doc.texts.source? target.buffer = some source
  named : List.Forall₂ b.doc.Named b.openNodes names

namespace Tracks

variable {source : String} {names : List (List Char)} {tagOpen : Bool}

/-- Whether the cursor is the document node. -/
theorem atTop_eq (h : Tracks belowDocument target source b names tagOpen) :
    (b.doc.kind (b.cursor target) == .document) = (belowDocument && names.isEmpty) := by
  cases hopen : b.openNodes with
  | nil =>
    have hnames : names = [] := by
      have := h.named
      rw [hopen] at this
      cases this
      rfl
    rw [cursor, hopen, List.head?_nil, Option.getD_none, ← h.top, hnames, List.isEmpty_nil,
      Bool.and_true]
  | cons x xs =>
    obtain ⟨name, outer, hnames⟩ : ∃ name outer, names = name :: outer := by
      have := h.named
      rw [hopen] at this
      cases this
      exact ⟨_, _, rfl⟩
    have hkind := h.building.elements x (by rw [hopen]; exact List.mem_cons_self)
    rw [cursor, hopen, List.head?_cons, Option.getD_some, hkind, hnames, List.isEmpty_cons,
      Bool.and_false]
    rfl

theorem step (h : Tracks belowDocument target source b names tagOpen) {tagOpen' : Bool}
    (hbuilding : Building belowDocument target b' ⟨names.length, tagOpen'⟩)
    (hkeeps : KeepsNames b.doc b'.doc) (hopen : b'.openNodes = b.openNodes) :
    Tracks belowDocument target source b' names tagOpen' where
  building := hbuilding
  top := by
    rw [hkeeps.kind_eq (contains_of_hasChildren h.building.base)]
    exact h.top
  short := h.short
  source := hkeeps.texts.source? h.source
  named := by
    rw [hopen]
    exact h.named.imp fun _ _ hnamed => hnamed.keeps hkeeps

/-- An event that neither opens nor closes an element. -/
theorem after (h : Tracks belowDocument target source b names tagOpen) {e : LoadEvent}
    (he : e.Fits belowDocument ⟨names.length, tagOpen⟩) {tagOpen' : Bool}
    (hplace : e.place ⟨names.length, tagOpen⟩ = ⟨names.length, tagOpen'⟩)
    (hopen : (b.after target e).openNodes = b.openNodes) :
    Tracks belowDocument target source (b.after target e) names tagOpen' :=
  h.step (hplace ▸ h.building.add he) (keepsNames_add h.building he) hopen

/-- Behind a construct attributes cannot be added any more. -/
theorem anywhere (h : Tracks belowDocument target source b names tagOpen) :
    Tracks belowDocument target source b names false :=
  h.step (h.building.sameShape (.refl _) rfl nofun) (.refl _) rfl

/-! ### Slots of the text -/

/-- The slot of a piece of the text holds the piece. -/
theorem holds_rangeSlot (h : Tracks belowDocument target source b names tagOpen) {s : Span}
    (hs : s.Within source.toList) :
    b.doc.texts.Holds (rangeSlot target s) (String.ofList s.text) := by
  obtain ⟨pre, post, htext, hstart⟩ := hs
  have hsource := h.source
  have hsize := h.short
  rw [← byteSize_toList, htext] at hsize
  rw [← String.ofList_toList (s := source), htext] at hsource
  have hholds := TextStore.holds_borrowed hsource hsize
  rwa [← hstart] at hholds

/-- There is a slot for a converted piece, and it holds what the piece was converted to. -/
theorem holds_conversionSlot (h : Tracks belowDocument target source b names tagOpen) {raw : Span}
    (hraw : raw.Within source.toList) {conversion : Conversion}
    (hpiece : conversion.PieceOf raw.text)
    (hshrinks : byteSize conversion.text ≤ byteSize raw.text) :
    ∃ slot b', b.conversionSlot target raw conversion = (some slot, b') ∧
      b'.doc.texts.Holds slot (String.ofList conversion.text) := by
  have hsize : byteSize raw.text < 2 ^ 32 := by
    refine Nat.lt_of_le_of_lt hraw.byteSize_le ?_
    rw [byteSize_toList]
    exact h.short
  obtain ⟨slot, b', hslot, -⟩ | ⟨-, hlong⟩ := b.conversionSlot_cases target raw conversion
  · refine ⟨slot, b', hslot, ?_⟩
    cases conversion with
    | verbatim skipped text =>
      obtain ⟨hsome, rfl⟩ := Prod.mk.inj hslot
      obtain rfl := Option.some.inj hsome
      exact h.holds_rangeSlot (hraw.piece hpiece)
    | fresh text =>
      obtain ⟨hsome, rfl⟩ := Prod.mk.inj hslot
      exact TextStore.holds_own _ hsome
  · exact absurd hlong (Conversion.not_tooLong_of_le hshrinks hsize)

/-! ### Tags -/

/-- An element is opened, and its node bears the name of the tag. -/
theorem openElement (h : Tracks belowDocument target source b names tagOpen) {name : Span}
    (hname : name.Within source.toList) :
    Tracks belowDocument target source (b.after target (.openElement name)) (name.text :: names)
      true := by
  have hadded := h.building.add (e := .openElement name) trivial
  have hallowed : (b.doc.kind (b.cursor target)).allowsChild .element = true :=
    h.building.cursor_allows (by decide)
  obtain ⟨hkeeps, r, hr, hslot⟩ := keepsNames_push h.building.whole (rangeSlot target name) .null
    hallowed
  refine ⟨hadded, ?_, h.short, hkeeps.texts.source? h.source, .cons ⟨r, hr, ?_⟩ ?_⟩
  · exact h.top.trans (congrArg (· == NodeKind.document)
      (hkeeps.kind_eq (contains_of_hasChildren h.building.base)).symm)
  · rw [hslot]
    exact hkeeps.texts.holds (h.holds_rangeSlot hname)
  · exact h.named.imp fun _ _ hnamed => hnamed.keeps hkeeps

/-- The innermost open element is closed. -/
theorem closeElement {name : List Char} {outer : List (List Char)}
    (h : Tracks belowDocument target source b (name :: outer) tagOpen) :
    Tracks belowDocument target source (b.after target .closeElement) outer false := by
  refine ⟨h.building.add (e := .closeElement) (Nat.succ_pos _), h.top, h.short, h.source, ?_⟩
  have hnamed := h.named
  show List.Forall₂ b.doc.Named b.openNodes.tail outer
  cases hopen : b.openNodes with
  | nil => rw [hopen] at hnamed; cases hnamed
  | cons x xs =>
    rw [hopen] at hnamed
    cases hnamed with
    | cons _ hrest => exact hrest

/-- An attribute is added to the tag that was opened last, which stays open. -/
theorem «attribute» (h : Tracks belowDocument target source b names true) (name : Span)
    (raw : Option Span) :
    Tracks belowDocument target source (b.after target (.attribute name raw)) names true :=
  h.after (e := .attribute name raw) rfl rfl (keepsNames_addAttribute b target name raw).2.1

end Tracks

end TreeBuilder

end XmlTree
