/-
  Proofs/Wording.lean --- where a text that is there is never empty.

  WHAT THIS FILE IS FOR.  A slot may lead to a text and that text may be empty: the text of an
  instruction that has nothing but white space, a comment or an attribute value without any
  characters.  A name is never of that kind, nor is the text that is embedded in an element.
  What the reader takes for a name has a first character, and what it takes for character data
  has one that is left after trimming, or it is dropped.

  WORDS.  The length of a range wraps at 32 bits, so this is said of documents whose loaded
  texts are shorter than that.
-/
import XmlTree.Proofs.Asking
import XmlTree.Proofs.Composing
import XmlTree.Proofs.Writing

set_option autoImplicit false

namespace XmlTree

/-! ## What is read -/

/-- Names and character data of an event have characters. -/
def LoadEvent.Worded : LoadEvent → Prop
  | .text raw _ => raw.text ≠ []
  | .openElement name | .declaration name | .attribute name _ | .pi name _ => name.text ≠ []
  | _ => True

theorem LoadEvent.Said.worded {options : ParseOptions} {e : LoadEvent} (h : e.Said options) :
    e.Worded := by
  cases e with
  | text | openElement | «attribute» => exact h
  | pi | declaration => exact h.1
  | _ => trivial

/-- Whatever a text is, no name and no character data that is read from it is empty. -/
theorem Transcript.ofText_worded (mode : ReaderMode) (text : List Char) :
    ∀ e ∈ (ofText mode text).events, e.Worded :=
  fun e he => (ofText_said mode text e he).worded

/-! ## What is kept -/

theorem mem_dropSpace {d : Char} {cs : List Char} (hd : d ∈ cs) (hspace : isSpace d = false) :
    d ∈ dropSpace cs := by
  have hsplit : d ∈ cs.takeWhile isSpace ++ cs.dropWhile isSpace := by
    rwa [List.takeWhile_append_dropWhile]
  refine (List.mem_append.1 hsplit).resolve_left fun hmem => ?_
  rw [List.mem_takeWhile_imp hmem] at hspace
  cases hspace

theorem mem_dropTrailingSpace {d : Char} {cs : List Char} (hd : d ∈ cs)
    (hspace : isSpace d = false) : d ∈ dropTrailingSpace cs :=
  List.mem_reverse.2 (mem_dropSpace (List.mem_reverse.2 hd) hspace)

/-- Character data that is left where it stands has a character, unless all of it is white space
that is trimmed. -/
theorem ne_nil_of_convertPcdata {options : ParseOptions} {cs piece : List Char} {skipped : Nat}
    (hcs : cs ≠ []) (htrim : cs.all isSpace = true → options.contains .trimPcdata = false)
    (h : convertPcdata options cs = .verbatim skipped piece) : piece ≠ [] := by
  cases hoption : options.contains .trimPcdata with
  | false =>
    simp only [convertPcdata, hoption, Bool.false_eq_true, if_false] at h
    split at h
    · cases h
    · obtain ⟨-, rfl⟩ := Conversion.verbatim.inj h
      exact hcs
  | true =>
    obtain ⟨d, hd, hspace⟩ : ∃ d ∈ cs, isSpace d = false := by
      simpa [hoption] using htrim
    simp only [convertPcdata, hoption, if_true] at h
    split at h
    · cases h
    · obtain ⟨-, rfl⟩ := Conversion.verbatim.inj h
      exact List.ne_nil_of_mem (mem_dropTrailingSpace (mem_dropSpace hd hspace) hspace)

namespace TextStore

variable {s s' : TextStore} {slot : TextSlot}

/-- A slot that leads to no text or to one that has characters, unless the loaded text is so long
that the words of a range wrap. -/
def Worded (s : TextStore) : TextSlot → Prop
  | .null => True
  | .source buffer start length => ∃ text, s.source? buffer = some text ∧
      (text.utf8ByteSize < 2 ^ 32 → ∃ word, word ≠ "" ∧ s.Holds (.source buffer start length) word)
  | .copied range => ∃ word, word ≠ "" ∧ s.Holds (.copied range) word

theorem Worded.extends (h : s.Worded slot) (he : s.Extends s') : s'.Worded slot := by
  cases slot with
  | null => trivial
  | source buffer start length =>
    obtain ⟨text, htext, hshort⟩ := h
    refine ⟨text, he.source? htext, fun hsize => ?_⟩
    obtain ⟨word, hne, hword⟩ := hshort hsize
    exact ⟨word, hne, he.holds hword⟩
  | copied range =>
    obtain ⟨word, hne, hword⟩ := h
    exact ⟨word, hne, he.holds hword⟩

/-- An empty text becomes the null slot. -/
theorem worded_own (s : TextStore) {text : String} (h : (s.own text).1 = some slot) :
    (s.own text).2.Worded slot := by
  have hholds := s.holds_own h
  obtain ⟨-, hown⟩ | ⟨_, hne, hown⟩ | ⟨-, hown⟩ := s.own_cases text
  · obtain rfl : TextSlot.null = slot := Option.some.inj ((congrArg Prod.fst hown).symm.trans h)
    trivial
  · obtain rfl := Option.some.inj ((congrArg Prod.fst hown).symm.trans h)
    refine ⟨text, ?_, hholds⟩
    rintro rfl
    exact absurd hne (Nat.lt_irrefl 0)
  · cases (congrArg Prod.fst hown).symm.trans h

/-- The range of a piece of a loaded text that has characters. -/
theorem worded_rangeSlot {target : LoadTarget} {text : List Char}
    (hsource : s.source? target.buffer = some (String.ofList text)) {span : Span}
    (hwithin : span.Within text) (hspan : span.text ≠ []) :
    s.Worded (TreeBuilder.rangeSlot target span) := by
  refine ⟨_, hsource, fun hsize => ⟨String.ofList span.text, ?_, ?_⟩⟩
  · simpa [String.ext_iff] using hspan
  · obtain ⟨pre, post, rfl, hstart⟩ := hwithin
    rw [← byteSize_eq] at hsize
    have hholds := holds_borrowed hsource hsize
    rwa [← hstart] at hholds

/-- Every loaded text is shorter than the words of a range can tell. -/
def Short (s : TextStore) : Prop := ∀ text ∈ s.buffers, text.utf8ByteSize < 2 ^ 32

instance (s : TextStore) : Decidable s.Short :=
  inferInstanceAs (Decidable (∀ text ∈ s.buffers, _))

/-- A slot that leads to a text leads to one that has characters. -/
theorem Worded.get_ne (h : s.Worded slot) (hshort : s.Short) (hslot : slot.isNull = false) :
    s.get slot ≠ "" := by
  cases slot with
  | null => cases hslot
  | source buffer start length =>
    obtain ⟨text, htext, hword⟩ := h
    obtain ⟨word, hne, hword⟩ := hword (hshort text (Array.mem_of_getElem? htext))
    rwa [hword.get_eq]
  | copied range =>
    obtain ⟨word, hne, hword⟩ := h
    rwa [hword.get_eq]

end TextStore

/-! ## Documents -/

/-- Whether a text in a role is never there and empty: names, and what is embedded in an
element. -/
def SlotRole.wantsWord : SlotRole → Bool
  | .name | .attrName | .value .element => true
  | _ => false

/-- The text of a slot is not empty if it is there, in roles that want that. -/
def SlotLaw.worded : SlotLaw where
  Admits role s slot := role.wantsWord = true → s.Worded slot
  null _ := trivial
  own s h _ := s.worded_own h
  mono h he hrole := (h hrole).extends he

/-- All ranges that an event leads to are admitted if its names and character data have
characters. -/
theorem LoadEvent.Worded.admitted {target : LoadTarget} {s : TextStore} {text : List Char}
    (hsource : s.source? target.buffer = some (String.ofList text)) {e : LoadEvent}
    (he : e.Worded) (hwithin : e.Within text) : e.Admitted .worded target s := by
  have hunasked : ∀ {role} {raw : Span} {conversion : Conversion}, role.wantsWord = false →
      conversion.Admitted .worded role target s raw := by
    intro role raw conversion hrole
    cases conversion with
    | verbatim skipped piece => exact fun hwants => absurd (hrole.symm.trans hwants) (by decide)
    | fresh text => trivial
  cases e with
  | text raw closing =>
    intro htrim kind
    cases hconversion : convertPcdata target.options raw.text with
    | fresh text => trivial
    | verbatim skipped piece =>
      have hpiece := convertPcdata_pieceOf target.options raw.text
      rw [hconversion] at hpiece
      exact fun _ => TextStore.worded_rangeSlot hsource (Span.Within.piece hwithin hpiece)
        (ne_nil_of_convertPcdata he htrim hconversion)
  | openElement name | declaration name =>
    exact fun _ => TextStore.worded_rangeSlot hsource hwithin he
  | closeElement => trivial
  | «attribute» name raw =>
    exact ⟨fun _ => TextStore.worded_rangeSlot hsource hwithin.1 he, fun _ _ => hunasked rfl⟩
  | comment raw | cdata raw => exact hunasked rfl
  | pi name value =>
    exact ⟨fun _ => TextStore.worded_rangeSlot hsource hwithin.1 he, fun _ _ => nofun⟩
  | doctype body => exact nofun

theorem SlotLaw.admitsLoads_worded : SlotLaw.worded.AdmitsLoads := by
  intro s base text mode e he
  have hsource : (s.addBuffer text).2.source? (s.addBuffer text).1 =
      some (String.ofList text.toList) := by
    rw [String.ofList_toList]
    exact (s.extends_addBuffer text).2
  exact LoadEvent.Worded.admitted hsource (Transcript.ofText_worded mode _ e he)
    (Transcript.ofText_within mode _ e he)

/-- No name of a node or of its attributes is there and empty, nor is the text that is embedded in
an element. -/
structure TreeLabel.Worded (l : TreeLabel) : Prop where
  name : l.name ≠ some ""
  value : l.kind = .element → l.value ≠ some ""
  attributes : ∀ a ∈ l.attributes, a.name ≠ some ""

namespace Document

variable {doc : Document}

/-- A slot of a role that wants a word does not read as the empty text. -/
theorem Obeys.textOf?_ne (h : doc.Obeys .worded) (hshort : doc.texts.Short) {role : SlotRole}
    {slot : TextSlot} (huse : doc.Uses role slot) (hrole : role.wantsWord = true) :
    doc.textOf? slot ≠ some "" := by
  rw [textOf?]
  cases hslot : slot.isNull with
  | true => exact (Option.some_ne_none "").symm
  | false =>
    intro heq
    exact (h.slots huse hrole).get_ne hshort hslot (Option.some.inj heq)

theorem Obeys.worded_labelOf (h : doc.Obeys .worded) (hshort : doc.texts.Short) (id : NodeId) :
    (doc.labelOf id).Worded := by
  unfold labelOf
  cases hr : doc.node? id with
  | none => exact ⟨nofun, nofun, nofun⟩
  | some r =>
    refine ⟨h.textOf?_ne hshort (.name hr) rfl, fun hkind => ?_, fun a ha => ?_⟩
    · exact h.textOf?_ne hshort (.value hr) (by rw [show r.kind = .element from hkind]; rfl)
    · obtain ⟨attr, -, rfl⟩ := List.mem_map.1 ha
      unfold attrLabel
      cases hattr : doc.attr? attr with
      | none => exact nofun
      | some r => exact h.textOf?_ne hshort (.attrName hattr) rfl

/-- Whatever is done to a document, no name in it is there and empty. -/
theorem Reachable.worded_tree (h : Reachable doc) (hshort : doc.texts.Short) (id : NodeId) :
    (doc.tree id).All TreeLabel.Worded :=
  all_tree ((h.obeys SlotLaw.admitsLoads_worded).worded_labelOf hshort)
    ⟨nofun, nofun, nofun⟩ id

end Document

end XmlTree
