/-
  Proofs/Ranges.lean --- a range of a loaded text is exact if its numbers are words.

  WHAT THIS FILE IS FOR.  A range of a loaded text is kept as the byte where it begins and its
  length, both as words of 32 bits, and nothing looks whether they fit: a text of any length is
  taken in, and a number that is too great wraps.  So a range reads as what stands between its
  ends, and tells where it begins, exactly if both numbers are words.  If they are not, some
  other text is read or told, and nothing says so.

  DOCUMENTS.  A name or value that was not converted is such a range.  Whatever is done to a
  document, each range that stands in a record is that of a piece which the reader said of a
  loaded text, in the role in which the range stands there.  All of them are exact if the loaded
  texts are shorter than words can tell.
-/
import XmlTree.Proofs.ByteCursors
import XmlTree.Proofs.Composing
import XmlTree.Proofs.Pages
import XmlTree.Proofs.Wording

set_option autoImplicit false

namespace XmlTree

/-! ## Ranges of a store -/

namespace TextStore

variable {s : TextStore} {buffer start stop : Nat} {text piece : String} {slot : TextSlot}

/-- The slot reads as `piece`, and tells that it begins at byte `start` of a loaded text. -/
def ReadsAt (s : TextStore) (slot : TextSlot) (piece : String) (start : Nat) : Prop :=
  s.get slot = piece ∧ slot.sourceOffset? = some start

theorem sourceOffset?_borrowed (buffer start stop : Nat) :
    (TextSlot.borrowed buffer start stop).sourceOffset? = some (start % 2 ^ 32) :=
  congrArg some UInt32.toNat_ofNat'

theorem get_borrowed (hsource : s.source? buffer = some text) (start stop : Nat) :
    s.get (.borrowed buffer start stop) =
      (sliceBytes? text (start % 2 ^ 32)
        (start % 2 ^ 32 + (stop - start) % 2 ^ 32)).getD "" := by
  rw [TextSlot.borrowed, get, TextStore.buffer, hsource, Option.getD_some, UInt32.toNat_ofNat',
    UInt32.toNat_ofNat']

/-- A range is exact if and only if the byte where it begins and its length are words. -/
theorem readsAt_borrowed_iff (hsource : s.source? buffer = some text)
    (hpiece : sliceBytes? text start stop = some piece) :
    s.ReadsAt (.borrowed buffer start stop) piece start ↔
      start < 2 ^ 32 ∧ piece.utf8ByteSize < 2 ^ 32 := by
  have hstop := (start_add_size hpiece).1
  have hlength : stop - start = piece.utf8ByteSize := by omega
  rw [ReadsAt, sourceOffset?_borrowed, get_borrowed hsource, hlength]
  constructor
  · rintro ⟨hget, hoffset⟩
    have hstart : start % 2 ^ 32 = start := Option.some.inj hoffset
    -- what is read is no longer than the word that the length became
    have hsize := (size_slice_le text (start % 2 ^ 32) (piece.utf8ByteSize % 2 ^ 32)).1
    rw [hget] at hsize
    omega
  · rintro ⟨hstart, hsize⟩
    rw [Nat.mod_eq_of_lt hstart, Nat.mod_eq_of_lt hsize, hstop, hpiece]
    exact ⟨rfl, rfl⟩

end TextStore

/-! ## Pieces that are said -/

/-- The part of a piece that a conversion leaves as it stands. -/
def Conversion.kept? (raw : Span) : Conversion → Option Span
  | .verbatim skipped text => some ⟨raw.start + skipped, text⟩
  | .fresh _ => none

theorem Conversion.within_of_kept? {conversion : Conversion} {raw piece : Span}
    {text : List Char} (hraw : raw.Within text) (hof : conversion.PieceOf raw.text)
    (h : conversion.kept? raw = some piece) : piece.Within text := by
  cases conversion with
  | verbatim skipped kept =>
    obtain rfl := Option.some.inj h
    exact hraw.piece hof
  | fresh => cases h

/-- The pieces of a text that an event says in a role. -/
inductive LoadEvent.Says (options : ParseOptions) : LoadEvent → SlotRole → Span → Prop where
  | text {raw piece : Span} {closing : Bool} {kind : NodeKind}
      (h : (convertPcdata options raw.text).kept? raw = some piece) :
      Says options (.text raw closing) (.value kind) piece
  | openElement {name : Span} : Says options (.openElement name) .name name
  | attrName {name : Span} {raw : Option Span} : Says options (.attribute name raw) .attrName name
  | attrValue {name raw piece : Span}
      (h : (convertAttribute options raw.text).kept? raw = some piece) :
      Says options (.attribute name (some raw)) .attrValue piece
  | comment {raw piece : Span}
      (h : (TreeBuilder.sectionConversion options raw.text).kept? raw = some piece) :
      Says options (.comment raw) (.value .comment) piece
  | cdata {raw piece : Span}
      (h : (TreeBuilder.sectionConversion options raw.text).kept? raw = some piece) :
      Says options (.cdata raw) (.value .cdata) piece
  | target {name : Span} {value : Option Span} : Says options (.pi name value) .name name
  | instruction {name value : Span} : Says options (.pi name (some value)) (.value .pi) value
  | declaration {name : Span} : Says options (.declaration name) .name name
  | doctype {body : Span} : Says options (.doctype body) (.value .doctype) body

theorem LoadEvent.Says.within {options : ParseOptions} {e : LoadEvent} {role : SlotRole}
    {piece : Span} {text : List Char} (h : e.Says options role piece) (he : e.Within text) :
    piece.Within text := by
  cases h with
  | text h => exact Conversion.within_of_kept? he (convertPcdata_pieceOf _ _) h
  | openElement | declaration | doctype => exact he
  | attrName | target => exact he.1
  | attrValue h =>
    exact Conversion.within_of_kept? (he.2 _ rfl) (convertAttribute_inPlace _ _).pieceOf h
  | comment h | cdata h =>
    exact Conversion.within_of_kept? he (sectionConversion_inPlace _ _).pieceOf h
  | instruction => exact he.2 _ rfl

/-- The reader says the piece of the text in the role, in some mode. -/
def Span.SaidIn (piece : Span) (text : String) (role : SlotRole) : Prop :=
  ∃ mode, ∃ e ∈ (Transcript.ofText mode text.toList).events, e.Says mode.options role piece

/-- What is said of a text stands in it. -/
theorem Span.SaidIn.slice {piece : Span} {text : String} {role : SlotRole}
    (h : piece.SaidIn text role) :
    sliceBytes? text piece.start piece.stop = some (String.ofList piece.text) := by
  obtain ⟨mode, e, he, htold⟩ := h
  exact (htold.within (Transcript.ofText_within mode _ e he)).slice

/-! ## Ranges of a document -/

/-- A slot is no range of a loaded text, or that of a piece which is said in its role. -/
def SlotLaw.said : SlotLaw where
  Admits role s slot := slot.isBorrowed = true → ∃ buffer text piece,
    s.source? buffer = some text ∧ Span.SaidIn piece text role ∧
      slot = .borrowed buffer piece.start piece.stop
  null h := nomatch h
  own {role text slot} s hslot hborrowed := by
    -- a copy is no range
    obtain ⟨-, hown⟩ | ⟨_, -, hown⟩ | ⟨-, hown⟩ := s.own_cases text
    · obtain rfl := Option.some.inj ((congrArg Prod.fst hown).symm.trans hslot)
      cases hborrowed
    · obtain rfl := Option.some.inj ((congrArg Prod.fst hown).symm.trans hslot)
      cases hborrowed
    · cases (congrArg Prod.fst hown).symm.trans hslot
  mono h he hborrowed := by
    obtain ⟨buffer, text, piece, hsource, hsaid, rfl⟩ := h hborrowed
    exact ⟨buffer, text, piece, he.source? hsource, hsaid, rfl⟩

section

variable {target : LoadTarget} {s : TextStore} {text : String} {role : SlotRole}

theorem SlotLaw.admits_rangeSlot (hsource : s.source? target.buffer = some text) {piece : Span}
    (hsaid : piece.SaidIn text role) :
    SlotLaw.said.Admits role s (TreeBuilder.rangeSlot target piece) :=
  fun _ => ⟨_, text, piece, hsource, hsaid, rfl⟩

theorem Conversion.admitted_said (hsource : s.source? target.buffer = some text) {raw : Span}
    {conversion : Conversion}
    (hsaid : ∀ piece, conversion.kept? raw = some piece → piece.SaidIn text role) :
    conversion.Admitted .said role target s raw := by
  cases conversion with
  | verbatim skipped kept => exact SlotLaw.admits_rangeSlot hsource (hsaid _ rfl)
  | fresh => trivial

/-- The ranges that an event leads to are those of the pieces that it says. -/
theorem LoadEvent.admitted_said (hsource : s.source? target.buffer = some text) {e : LoadEvent}
    (hsaid : ∀ role piece, e.Says target.options role piece → piece.SaidIn text role) :
    e.Admitted .said target s := by
  have hrange : ∀ role piece, e.Says target.options role piece →
      SlotLaw.said.Admits role s (TreeBuilder.rangeSlot target piece) :=
    fun role piece htold => SlotLaw.admits_rangeSlot hsource (hsaid role piece htold)
  cases e with
  | text raw closing =>
    exact fun _ kind => Conversion.admitted_said hsource fun piece h => hsaid _ piece (.text h)
  | openElement name => exact hrange _ _ .openElement
  | closeElement => trivial
  | «attribute» name raw =>
    refine ⟨hrange _ _ .attrName, ?_⟩
    rintro value hvalue
    obtain rfl : raw = some value := hvalue
    exact Conversion.admitted_said hsource fun piece h => hsaid _ piece (.attrValue h)
  | comment raw =>
    exact Conversion.admitted_said hsource fun piece h => hsaid _ piece (.comment h)
  | cdata raw =>
    exact Conversion.admitted_said hsource fun piece h => hsaid _ piece (.cdata h)
  | pi name value =>
    refine ⟨hrange _ _ .target, ?_⟩
    rintro text' hvalue
    obtain rfl : value = some text' := hvalue
    exact hrange _ _ .instruction
  | declaration name => exact hrange _ _ .declaration
  | doctype body => exact hrange _ _ .doctype

end

theorem SlotLaw.admitsLoads_said : SlotLaw.said.AdmitsLoads := by
  intro s base text mode e he
  refine LoadEvent.admitted_said (s.extends_addBuffer text).2 ?_
  intro role piece htold
  exact ⟨mode, e, he, htold⟩

/-- What a slot in use of a document is when it is a range of a loaded text: the range of a piece
that the reader said of that text in the role of the slot.  And whatever piece it is the range of,
it is exact if and only if the byte where the piece begins and its length are words. -/
structure Document.Ranged (doc : Document) (role : SlotRole) (slot : TextSlot) (buffer : Nat)
    (text : String) : Prop where
  source : doc.texts.source? buffer = some text
  said : ∃ piece : Span, piece.SaidIn text role ∧ slot = .borrowed buffer piece.start piece.stop
  exact_iff : ∀ piece : Span, piece.SaidIn text role →
    slot = .borrowed buffer piece.start piece.stop →
      (doc.texts.ReadsAt slot (String.ofList piece.text) piece.start ↔
        piece.start < 2 ^ 32 ∧ byteSize piece.text < 2 ^ 32)

namespace Document

variable {doc : Document} {role : SlotRole} {slot : TextSlot}

theorem Reachable.ranged (h : Reachable doc) (huse : doc.Uses role slot)
    (hborrowed : slot.isBorrowed = true) : ∃ buffer text, doc.Ranged role slot buffer text := by
  obtain ⟨buffer, text, piece, hsource, hsaid, heq⟩ :=
    (h.obeys SlotLaw.admitsLoads_said).slots huse hborrowed
  refine ⟨buffer, text, hsource, ⟨piece, hsaid, heq⟩, ?_⟩
  rintro piece' hsaid' rfl
  rw [byteSize_eq]
  exact TextStore.readsAt_borrowed_iff hsource hsaid'.slice

/-- As long as the loaded texts are shorter than words can tell, every range in use is exact. -/
theorem Reachable.readsAt (h : Reachable doc) (hshort : doc.texts.Short)
    (huse : doc.Uses role slot) (hborrowed : slot.isBorrowed = true) :
    ∃ (buffer : Nat) (text : String) (piece : Span), doc.texts.source? buffer = some text ∧
      piece.SaidIn text role ∧ doc.texts.ReadsAt slot (String.ofList piece.text) piece.start := by
  obtain ⟨buffer, text, hsource, ⟨piece, hsaid, heq⟩, hexact⟩ := h.ranged huse hborrowed
  refine ⟨buffer, text, piece, hsource, hsaid, (hexact piece hsaid heq).2 ?_⟩
  have hinside : piece.stop ≤ text.utf8ByteSize := by
    obtain ⟨mode, e, he, htold⟩ := hsaid
    obtain ⟨pre, post, htext, hstart⟩ := htold.within (Transcript.ofText_within mode _ e he)
    rw [← byteSize_toList, htext, byteSize_append, byteSize_append, Span.stop, hstart]
    exact Nat.le_add_right _ _
  have hsize := hshort text (Array.mem_of_getElem? hsource)
  rw [Span.stop] at hinside
  omega

end Document

/-! ## Texts of any length -/

namespace TextStore

end TextStore

end XmlTree
