/-
  Proofs/Legibility.lean --- what a slot reads as does not change.

  WHAT THIS FILE IS FOR.  A slot that stands in a record leads to a text that was kept: a
  loaded text, or a copy.  So it reads the same ever after, whatever is kept later.  A range
  of a loaded text may be the wrong one, for its words wrap, but it stays the same wrong
  range of the same text.

  HOW IT IS SHOWN.  Leading to a text is a law that asks the same in every role, and it admits
  every range of the text that is being loaded.
-/
import XmlTree.Proofs.SlotLaws

set_option autoImplicit false

namespace XmlTree

namespace TextStore

variable {s s' : TextStore} {slot : TextSlot} {text : String}

/-! ## Slots that lead to a text -/

/-- A slot that leads to no text, into a loaded text, or to a copy. -/
def Legible (s : TextStore) : TextSlot → Prop
  | .null => True
  | .source buffer _ _ => ∃ text, s.source? buffer = some text
  | .copied range => ∃ text, s.Holds (.copied range) text

theorem legible_null : s.Legible .null := trivial

theorem Legible.extends (h : s.Legible slot) (he : s.Extends s') : s'.Legible slot := by
  cases slot with
  | null => trivial
  | source buffer start length =>
    obtain ⟨text, htext⟩ := h
    exact ⟨text, he.source? htext⟩
  | copied range =>
    obtain ⟨text, htext⟩ := h
    exact ⟨text, he.holds htext⟩

/-- What is kept later does not change what a slot reads as. -/
theorem Legible.get_eq (h : s.Legible slot) (he : s.Extends s') : s'.get slot = s.get slot := by
  cases slot with
  | null => rfl
  | source buffer start length =>
    obtain ⟨text, htext⟩ := h
    have hbuffer : s'.buffer buffer = s.buffer buffer := by
      rw [TextStore.buffer, TextStore.buffer, htext, he.source? htext]
    rw [get, get, hbuffer]
  | copied range =>
    obtain ⟨text, htext⟩ := h
    rw [htext.get_eq, (he.holds htext).get_eq]

theorem Holds.legible (h : s.Holds slot text) : s.Legible slot := by
  cases slot with
  | null => trivial
  | source buffer start length =>
    cases h with
    | source hsource _ _ => exact ⟨_, hsource⟩
  | copied range => exact ⟨text, h⟩

theorem legible_own (s : TextStore) (h : (s.own text).1 = some slot) :
    (s.own text).2.Legible slot :=
  (holds_own s h).legible

/-- Giving space back does not change what any slot reads as. -/
theorem get_release (s : TextStore) (slot slot' : TextSlot) :
    (s.release slot).get slot' = s.get slot' := by
  cases slot <;> cases slot' <;> rfl

end TextStore

/-- A slot leads to a text, whatever its role is. -/
def SlotLaw.legible : SlotLaw where
  Admits _ s slot := s.Legible slot
  null := TextStore.legible_null
  own := TextStore.legible_own
  mono := TextStore.Legible.extends

namespace Document

variable {doc doc' : Document}

/-- Every slot that stands in a record leads to a text. -/
def Legible (doc : Document) : Prop := doc.Obeys .legible

namespace Legible

theorem drawn (h : Legible doc) (hd : Drawn doc doc') : Legible doc' := Obeys.drawn h hd

theorem slots (h : Legible doc) {role : SlotRole} {slot : TextSlot} (huse : doc.Uses role slot) :
    doc.texts.Legible slot :=
  Obeys.slots h huse

end Legible

end Document

/-! ## Loads -/

/-- The document of a builder is legible, and so are the ranges of the text that is being
loaded. -/
structure TreeBuilder.Legible (target : LoadTarget) (b : TreeBuilder) : Prop where
  doc : b.doc.Legible
  loaded : ∃ text, b.doc.texts.source? target.buffer = some text

namespace TreeBuilder.Legible

variable {target : LoadTarget} {b b' : TreeBuilder}

theorem rangeSlot (h : Legible target b) (s : Span) :
    b.doc.texts.Legible (rangeSlot target s) := h.loaded

/-- A builder is legible after a step that obeys the law. -/
theorem of_obeys (h : Legible target b) (hobeys : Obeys .legible b.doc.texts b') :
    Legible target b' where
  doc := hobeys.doc
  loaded := by
    obtain ⟨text, htext⟩ := h.loaded
    exact ⟨text, hobeys.texts.source? htext⟩

theorem obeys (h : Legible target b) : Obeys .legible b.doc.texts b := ⟨h.doc, .refl _⟩

/-- All ranges of a text that was kept are admitted. -/
theorem admitted_conversion {s : TextStore} {text : String}
    (htext : s.source? target.buffer = some text) (role : SlotRole) (raw : Span)
    (conversion : Conversion) : conversion.Admitted .legible role target s raw := by
  cases conversion with
  | verbatim => exact ⟨text, htext⟩
  | fresh => trivial

theorem admitted {s : TextStore} {text : String} (htext : s.source? target.buffer = some text)
    (e : LoadEvent) : e.Admitted .legible target s := by
  have hconversion := admitted_conversion htext
  cases e with
  | text raw closing => exact fun _ kind => hconversion _ _ _
  | openElement name | declaration name | doctype name => exact ⟨text, htext⟩
  | closeElement => trivial
  | «attribute» name raw => exact ⟨⟨text, htext⟩, fun value _ => hconversion _ _ _⟩
  | comment raw | cdata raw => exact hconversion _ _ _
  | pi name value => exact ⟨⟨text, htext⟩, fun _ _ => ⟨text, htext⟩⟩

theorem conversionSlot (h : Legible target b) {raw : Span} {conversion : Conversion}
    {slot : TextSlot} (hslot : b.conversionSlot target raw conversion = (some slot, b')) :
    Legible target b' ∧ b'.doc.texts.Legible slot := by
  obtain ⟨text, htext⟩ := h.loaded
  obtain ⟨hdone, hadmits⟩ := h.obeys.conversionSlot hslot
  exact ⟨h.of_obeys hdone, hadmits (admitted_conversion htext .name raw conversion)⟩

theorem push (h : Legible target b) (kind : NodeKind) {name value : TextSlot}
    (hname : b.doc.texts.Legible name) (hvalue : b.doc.texts.Legible value) :
    Legible target (b.push target kind name value).2 :=
  h.of_obeys (h.obeys.push kind hname hvalue)

theorem addAttribute (h : Legible target b) (name : Span) (raw : Option Span) :
    Legible target (b.addAttribute target name raw).2 := by
  obtain ⟨text, htext⟩ := h.loaded
  exact h.of_obeys (h.obeys.addAttribute (admitted htext (.attribute name raw)))

/-- Whatever an event says, the document stays legible. -/
theorem add (h : Legible target b) (e : LoadEvent) : Legible target (b.after target e) := by
  obtain ⟨text, htext⟩ := h.loaded
  exact h.of_obeys (h.obeys.add (admitted htext e))

end TreeBuilder.Legible

theorem SlotLaw.admitsLoads_legible : SlotLaw.legible.AdmitsLoads := fun s _ text _ e _ =>
  TreeBuilder.Legible.admitted (s.extends_addBuffer text).2 e

/-- Whatever is done to a document, its texts can be read. -/
theorem Document.Reachable.legible {doc : Document} (h : Reachable doc) : Legible doc :=
  h.obeys SlotLaw.admitsLoads_legible

end XmlTree
