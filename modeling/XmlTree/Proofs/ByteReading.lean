/-
  Proofs/ByteReading.lean --- no alarm is raised while a text is loaded.

  WHAT THIS FILE IS FOR.  The pass over the bytes of a text is compared with the reader, which
  turns the characters of the text into events, and the builder, which carries the events out.
  Construct by construct both come to the same: the same tree, the same fault or the same place
  to go on from.  So no alarm is raised on the way, since neither reader nor builder knows any.

  WHAT IS KEPT.  Between two constructs the scanner stands where the reader's cursor stands,
  between two characters, and the open elements bear the names of the open tags.
-/
import XmlTree.Proofs.Asking
import XmlTree.Proofs.ByteCursors
import XmlTree.Proofs.ByteDoctypes

set_option autoImplicit false

namespace XmlTree

open Document TreeBuilder

/-! ## Outcomes that are carried out -/

section

variable (belowDocument : Bool) (target : LoadTarget) (source : String) (b : TreeBuilder)

/-- What the pass comes to where an attribute is read. -/
def Reader.AttributeOutcome.CarriedOut (names : List (List Char)) :
    Reader.AttributeOutcome → Except LoadStop (Scanner × TreeBuilder) → Prop
  | .next e c, w => w = .ok (c.scanner source, b.after target e) ∧ c.On source.toList ∧
      Tracks belowDocument target source (b.after target e) names true
  | .fault es offset, w =>
      w = .error (.fault .badAttribute offset (es.foldl (TreeBuilder.after target) b).doc)

/-- What the pass comes to where attributes are read, with the end of their tag. -/
def Reader.AttributesOutcome.CarriedOut (names : List (List Char)) :
    Reader.AttributesOutcome → Except LoadStop (Scanner × TreeBuilder) → Prop
  | .closed es empty c, w =>
      let read := es.foldl (TreeBuilder.after target) b
      w = .ok (c.scanner source, if empty then read.after target .closeElement else read) ∧
        c.On source.toList ∧ Tracks belowDocument target source read names true
  | .fault es status offset, w =>
      w = .error (.fault status offset (es.foldl (TreeBuilder.after target) b).doc)

/-- What the pass comes to where a construct is read. -/
def ReadOutcome.CarriedOut : ReadOutcome → Except LoadStop (Scanner × TreeBuilder) → Prop
  | .next es names c, w =>
      w = .ok (c.scanner source, es.foldl (TreeBuilder.after target) b) ∧ c.On source.toList ∧
        Tracks belowDocument target source (es.foldl (TreeBuilder.after target) b) names false
  | .fault es status offset, w =>
      w = .error (.fault status offset (es.foldl (TreeBuilder.after target) b).doc)

end

namespace Watch

variable {belowDocument : Bool} {target : LoadTarget} {source : String} {b : TreeBuilder}
  {names : List (List Char)} {tagOpen : Bool} {c : Cursor} {s : Scanner} {piece : Span}

/-! ## Slots -/

/-- A piece of the text is sliced out and recorded. -/
theorem range_eq (h : Tracks belowDocument target source b names tagOpen) (hs : s.text = source)
    (hpiece : piece.Within source.toList) :
    range target s b piece.start piece.stop = .ok (rangeSlot target piece) := by
  have hget := (h.holds_rangeSlot hpiece).get_eq
  rw [range, hs, hpiece.slice]
  exact if_pos hget

/-- A piece of the text is converted and recorded, for it is not too long. -/
theorem exists_converted (h : Tracks belowDocument target source b names tagOpen)
    (hpiece : piece.Within source.toList) {conversion : Conversion}
    (hconversion : conversion.PieceOf piece.text)
    (hshrinks : byteSize conversion.text ≤ byteSize piece.text) :
    ∃ slot b', b.conversionSlot target piece conversion = (some slot, b') ∧
      converted target b piece.start (String.ofList piece.text) (some conversion) =
        .ok (slot, b') := by
  obtain ⟨slot, b', hslot, hholds⟩ := h.holds_conversionSlot hpiece hconversion hshrinks
  have hrecord : record b' slot (String.ofList conversion.text) = .ok slot := if_pos hholds.get_eq
  refine ⟨slot, b', hslot, ?_⟩
  simp only [converted, sound, String.toList_ofList, hslot, hrecord, bind, Except.bind]
  rfl

/-! ## Character data -/

theorem contains_joinsTo? {previous : NodeId} (h : b.joinsTo? target = some previous) :
    b.doc.contains previous = true := by
  unfold joinsTo? at h
  split at h
  · have hkind := beq_iff_eq.1 (Option.mem_filter_iff.1 h).2
    exact contains_of_kind_ne (by rw [hkind]; decide)
  · cases h

/-- What the pass comes to where the builder has added something, or has refused it. -/
def answer : Option LoadFault × TreeBuilder → Except LoadStop TreeBuilder
  | (none, b) => .ok b
  | (some refused, b) => fault refused.status refused.offset b

theorem text_eq (h : Tracks belowDocument target source b names tagOpen)
    (hon : c.On source.toList) :
    let raw := (c.takeWhile (· != '<')).1
    text target (c.scanner source) b raw.start raw.stop = answer (b.addText target raw
      (beginsWith "</".toList (c.takeWhile (· != '<')).2.rest)) := by
  obtain ⟨hraw, htag⟩ := hon.takeWhile (· != '<')
  have hoffset := c.offset_takeWhile (· != '<')
  generalize (c.takeWhile (· != '<')).1 = raw at *
  generalize (c.takeWhile (· != '<')).2 = tag at *
  have hclosing : ((c.scanner source).moveTo raw.stop).beginsWith (utf8 "</".toList) =
      beginsWith "</".toList tag.rest := by
    rw [← htag.beginsWith_eq (isAscii_of_all rfl), Cursor.moveTo_scanner, ← hoffset]
    rfl
  have hspace : (Scanner.ofText (String.ofList raw.text)).rest.all isSpaceByte =
      raw.text.all isSpace := by
    rw [(Scanner.Stands.ofList raw.text).rest, byteClass_space.all_utf8]
  obtain ⟨slot, b', hslot, hconverted⟩ := exists_converted h hraw
    (convertPcdata_pieceOf target.options raw.text) (byteSize_convertPcdata_le target.options _)
  simp only [text, Cursor.text_scanner, hraw.slice, sound, hclosing, hspace, convertPcdata?_eq,
    hconverted, addText, withSlot, hslot, bind, Except.bind, pure, Except.pure]
  split
  · rfl
  · split
    · rfl
    · split
      · rfl
      · cases hprevious : b.joinsTo? target with
        | some previous =>
          dsimp only
          rcases hdone : b.doc.replaceValue previous (b.doc.value previous ++
            String.ofList (convertPcdata target.options raw.text).text) with ⟨replaced, doc⟩
          cases replaced with
          | true => exact if_pos (value_replaceValue (contains_joinsTo? hprevious) hdone)
          | false => rfl
        | none => rfl

/-! ## Attributes -/

/-- The builder adds an attribute when its name is known, and its value later. -/
theorem nameAttribute_eq (b : TreeBuilder) (target : LoadTarget) (name : Span) :
    nameAttribute b b.owner (rangeSlot target name) =
      (b.doc.allocAttr.1, b.after target (.attribute name none)) := rfl

theorem valueAttribute_eq {name raw : Span} {slot : TextSlot} {b' : TreeBuilder}
    (hslot : (b.after target (.attribute name none)).conversionSlot target raw
      (convertAttribute target.options raw.text) = (some slot, b')) :
    valueAttribute b' b.doc.allocAttr.1 slot = b.after target (.attribute name (some raw)) := by
  have hnamed : (b.addAttributeName target name).2.conversionSlot target raw _ = _ := hslot
  rw [after, add, addAttribute]
  dsimp only
  rw [withSlot, hnamed]
  rfl

theorem oneAttribute_carriedOut (h : Tracks belowDocument target source b names true)
    (hon : c.On source.toList) :
    (Reader.readAttribute c).CarriedOut belowDocument target source b names
      (oneAttribute target (c.scanner source) b b.owner) := by
  unfold oneAttribute Reader.readAttribute
  rw [hon.readName_eq]
  cases hname : c.name? with
  | none => rfl
  | some found =>
    obtain ⟨name, after⟩ := found
    obtain ⟨hwithin, hafter⟩ := hon.name? hname
    -- the attribute is there before its value is looked for: a fault in the value leaves it
    have hnamed := h.attribute name none
    have hrange : range target (after.scanner source) b name.start name.stop = _ :=
      range_eq h rfl hwithin
    simp only [hrange, nameAttribute_eq, hafter.skipSpace_eq,
      hafter.skipSpace.eat_eq (show IsAscii '=' by decide), bind, Except.bind]
    by_cases heq : after.skipSpace.rest.head? = some '='
    · have hvalue := (hafter.skipSpace.skip 1).skipSpace
      simp only [if_pos heq, (hafter.skipSpace.skip 1).skipSpace_eq]
      generalize (after.skipSpace.skip 1).skipSpace = value at hvalue ⊢
      cases hrest : value.rest with
      | nil =>
        rw [hvalue.peek?_nil hrest]
        rfl
      | cons quote tail =>
        obtain ⟨byte, hpeek, -, hmark⟩ := hvalue.peek?_cons hrest
        simp only [hpeek, hmark (show IsAscii '"' by decide), hmark (show IsAscii '\'' by decide)]
        split
        · rename_i hquote
          have hascii := isAscii_of_quote hquote
          obtain rfl : byte = quote.toUInt8 := (hmark hascii).2 rfl
          have hinner := hvalue.skip 1
          rw [Cursor.advance_one (congrArg List.head? hrest) hascii]
          generalize value.skip 1 = inner at hinner ⊢
          rw [hinner.findByte?_eq hascii]
          cases hup : inner.upTo? [quote] with
          | none => rfl
          | some found =>
            obtain ⟨raw, last⟩ := found
            obtain ⟨hraw, hlast⟩ := hinner.upTo? hup
            obtain ⟨hstart, hstop⟩ := Cursor.start_of_upTo? hup
            have hmoved : (inner.scanner source).moveTo (raw.stop + 1) = last.scanner source := by
              rw [Cursor.moveTo_scanner, Cursor.scanner, hstop, byteSize_cons, byteSize_nil,
                utf8Size_of_isAscii hascii]
            obtain ⟨slot, b', hslot, hconverted⟩ := exists_converted hnamed hraw
              (convertAttribute_inPlace target.options raw.text).pieceOf
              (byteSize_convertAttribute_le target.options _)
            simp only [Option.map_some, Cursor.text_scanner, Cursor.position_scanner, ← hstart,
              hraw.slice, sound, convertAttribute?_eq, hconverted, valueAttribute_eq hslot, hmoved,
              hlast.any_peek? byteClass_nameStart]
            split
            · rfl
            · exact ⟨rfl, hlast, h.attribute name (some raw)⟩
        · rfl
    · simp only [if_neg heq]
      rfl

/-- Only an element is popped, the innermost one that is open. -/
theorem pop_eq (h : Tracks belowDocument target source b names tagOpen) {id : NodeId}
    (hid : b.openNodes.head? = some id) : pop b id = .ok (b.after target .closeElement) :=
  if_pos ⟨hid, h.building.elements id (List.mem_of_head? hid)⟩

theorem carriedOut_after {e : LoadEvent} {o : Reader.AttributesOutcome}
    {w : Except LoadStop (Scanner × TreeBuilder)}
    (h : o.CarriedOut belowDocument target source (b.after target e) names w) :
    (o.after e).CarriedOut belowDocument target source b names w := by
  cases o with
  | closed es empty next => exact h
  | fault es status offset => exact h

theorem attributes_carriedOut (inDeclaration : Bool) {owner : NodeId} {rounds : Nat}
    (hrounds : c.rest.length < rounds) (h : Tracks belowDocument target source b names true)
    (hon : c.On source.toList) (howner : b.owner = owner)
    (hopen : inDeclaration = false → b.openNodes.head? = some owner) :
    (Reader.readAttributes inDeclaration c).CarriedOut belowDocument target source b names
      (attributes target inDeclaration owner rounds (c.scanner source) b) := by
  induction rounds generalizing b c with
  | zero => exact absurd hrounds (Nat.not_lt_zero _)
  | succ rounds ih =>
    have hlength := c.length_skipSpace_le
    have hhere := hon.skipSpace
    rw [Reader.readAttributes_eq, attributes, hon.skipSpace_eq]
    generalize c.skipSpace = here at hlength hhere ⊢
    dsimp only
    cases hrest : here.rest with
    | nil =>
      rw [hhere.peek?_nil hrest]
      rfl
    | cons ch tail =>
      obtain ⟨byte, hpeek, hclass, hmark⟩ := hhere.peek?_cons hrest
      have hstep : ∀ m, IsAscii m → ch = m →
          (here.scanner source).advance 1 = (here.skip 1).scanner source := by
        rintro m hm rfl
        exact Cursor.advance_one (congrArg List.head? hrest) hm
      simp only [hpeek, hclass byteClass_nameStart, hmark (show IsAscii '/' by decide),
        hmark (show IsAscii '>' by decide), hmark (show IsAscii '?' by decide)]
      split
      · have hone := oneAttribute_carriedOut h hhere
        have hattribute := Reader.readAttribute_events here
        rw [howner] at hone
        cases hread : Reader.readAttribute here with
        | next e next =>
          rw [hread] at hone hattribute
          obtain ⟨name, raw, rfl⟩ := hattribute e (List.mem_singleton_self _)
          obtain ⟨hdone, hnext, htracks⟩ := hone
          have hshorter := Reader.length_of_readAttribute hread
          rw [hdone]
          refine carriedOut_after (ih (by omega) htracks hnext ?_ fun hdeclaration => ?_)
          · exact (keepsNames_addAttribute b target name raw).2.2.trans howner
          · exact (congrArg List.head? (keepsNames_addAttribute b target name raw).2.1).trans
              (hopen hdeclaration)
        | fault es offset =>
          rw [hread] at hone
          rw [show oneAttribute target (here.scanner source) b owner = _ from hone]
          rfl
      · split
        · rename_i hempty
          rw [Bool.and_eq_true, decide_eq_true_eq, Bool.not_eq_true'] at hempty
          rw [hstep '/' (by decide) hempty.1, (hhere.skip 1).eat_eq (by decide), Reader.closeTag]
          split
          · simp only [pop_eq h (hopen hempty.2)]
            exact ⟨rfl, (hhere.skip 1).skip 1, h⟩
          · rfl
        · split
          · rename_i hclose
            rw [Bool.and_eq_true, decide_eq_true_eq] at hclose
            rw [hstep '>' (by decide) hclose.1]
            exact ⟨rfl, hhere.skip 1, h⟩
          · split
            · rename_i hdeclaration
              rw [Bool.and_eq_true, decide_eq_true_eq] at hdeclaration
              rw [hstep '?' (by decide) hdeclaration.1, (hhere.skip 1).eat_eq (by decide),
                Reader.closeTag]
              split
              · exact ⟨rfl, (hhere.skip 1).skip 1, h⟩
              · rfl
            · rfl

/-! ## Elements -/

theorem openElement_eq (b : TreeBuilder) (target : LoadTarget) (name : Span) :
    openElement target b (rangeSlot target name) =
      ((b.after target (.openElement name)).owner, b.after target (.openElement name)) := rfl

/-- Beyond ASCII every character may stand in a name. -/
theorem isAscii_of_not_isNameChar {d : Char} (h : isNameChar d = false) : IsAscii d := by
  by_contra hd
  rw [← byteClass_name.beyond 0x80 d (by decide) hd] at h
  exact absurd h (by decide)

/-- The scanner goes round often enough. -/
theorem length_lt_size (hon : c.On source.toList) :
    c.rest.length < (c.scanner source).size + 1 := by
  have htotal := hon.total_eq
  have hlength := length_le_byteSize c.rest
  rw [Cursor.total] at htotal
  rw [Cursor.size_scanner]
  omega

theorem startTag_carriedOut (h : Tracks belowDocument target source b names false)
    (hon : c.On source.toList) :
    (Reader.readStartTag names c).CarriedOut belowDocument target source b
      (startTag target (c.scanner source) b) := by
  unfold startTag Reader.readStartTag
  rw [hon.readName_eq]
  cases hname : c.name? with
  | none => rfl
  | some found =>
    obtain ⟨name, after⟩ := found
    obtain ⟨hwithin, hafter⟩ := hon.name? hname
    obtain ⟨-, hend⟩ := Cursor.end_of_name? hname
    have hopened := h.openElement hwithin
    have hrange : range target (after.scanner source) b name.start name.stop = _ :=
      range_eq h rfl hwithin
    simp only [hrange, openElement_eq, bind, Except.bind]
    cases hrest : after.rest with
    | nil =>
      rw [hafter.peek?_nil hrest]
      rfl
    | cons ch tail =>
      obtain ⟨byte, hpeek, hclass, hmark⟩ := hafter.peek?_cons hrest
      -- what ends a name is one byte long, so the scanner gets behind it in one step
      have hascii : IsAscii ch := by
        rw [hrest] at hend
        exact isAscii_of_not_isNameChar (by simpa using hend)
      have hstep : (after.scanner source).advance 1 = (after.skip 1).scanner source :=
        Cursor.advance_one (congrArg List.head? hrest) hascii
      simp only [hpeek, hclass byteClass_space, hmark (show IsAscii '/' by decide),
        hmark (show IsAscii '>' by decide), hstep,
        (hafter.skip 1).eat_eq (show IsAscii '>' by decide)]
      split
      · exact ⟨rfl, hafter.skip 1, hopened.anywhere⟩
      · split
        · split
          · have hpop : pop (b.after target (.openElement name))
                (b.after target (.openElement name)).owner = _ := pop_eq hopened rfl
            simp only [hpop]
            exact ⟨rfl, (hafter.skip 1).skip 1, hopened.closeElement⟩
          · rfl
        · split
          · have hattributes := attributes_carriedOut false (length_lt_size hafter) hopened hafter
              rfl fun _ => rfl
            cases hread : Reader.readAttributes false after with
            | closed es empty last =>
              rw [hread] at hattributes
              obtain ⟨hdone, hlast, htracks⟩ := hattributes
              rw [hdone]
              cases empty with
              | true =>
                refine ⟨?_, hlast, ?_⟩
                · rw [List.foldl_cons, List.foldl_append]
                  rfl
                · rw [List.foldl_cons, List.foldl_append]
                  exact htracks.closeElement
              | false => exact ⟨rfl, hlast, htracks.anywhere⟩
            | fault es status offset =>
              rw [hread] at hattributes
              exact hattributes
          · have hoffset : after.offset + 1 = (after.skip 1).offset :=
              congrArg Scanner.position hstep
            rw [Cursor.position_scanner, hoffset]
            rfl

/-- The name of an end tag is read, or nothing at all if none stands there. -/
theorem exists_readName (hon : c.On source.toList) :
    ∃ found name after, c.name?.getD (⟨c.offset, []⟩, c) = (name, after) ∧
      (c.scanner source).readName = (found, after.scanner source) ∧
      found.elim c.offset (·.2) = name.stop ∧ name.start = c.offset ∧
      name.Within source.toList ∧ after.On source.toList ∧ after.offset = name.stop := by
  rw [hon.readName_eq]
  cases hname : c.name? with
  | none =>
    have hempty : Cursor.On source.toList ⟨c.offset, [] ++ c.rest⟩ := hon
    exact ⟨none, ⟨c.offset, []⟩, c, rfl, rfl, rfl, rfl, hempty.append.1, hon, rfl⟩
  | some found =>
    obtain ⟨name, after⟩ := found
    obtain ⟨hwithin, hafter⟩ := hon.name? hname
    have hstart : name.start = c.offset :=
      (congrArg (fun found => found.1.start) (Cursor.takeWhile_of_name? hname)).symm
    exact ⟨_, name, after, rfl, rfl, rfl, hstart, hwithin, hafter, (Cursor.end_of_name? hname).1⟩

theorem endTag_carriedOut (h : Tracks belowDocument target source b names false)
    (hon : c.On source.toList) (hslash : c.rest.head? = some '/') :
    (Reader.readEndTag names (c.skip 1)).CarriedOut belowDocument target source b
      (endTag (c.scanner source) b) := by
  have hmark := hon.skip 1
  have hnamed := h.named
  unfold endTag Reader.readEndTag
  rw [Cursor.advance_one hslash (by decide)]
  generalize c.skip 1 = mark at hmark ⊢
  -- as many names are open as elements, so both lists are empty or neither is
  cases names with
  | nil =>
    cases hopen : b.openNodes with
    | nil => rfl
    | cons id ids => rw [hopen] at hnamed; cases hnamed
  | cons expected outer =>
    cases hopen : b.openNodes with
    | nil => rw [hopen] at hnamed; cases hnamed
    | cons id ids =>
      rw [hopen] at hnamed
      cases hnamed with
      | cons hname _ =>
        obtain ⟨found, name, after, hread, hscan, hstop, hstart, hwithin, hafter, hoffset⟩ :=
          exists_readName hmark
        have hpop : pop b id = _ := pop_eq h (congrArg List.head? hopen)
        have hend : decide (name.stop = source.utf8ByteSize) = after.rest.isEmpty := by
          rw [Bool.eq_iff_iff, decide_eq_true_iff, List.isEmpty_iff, ← hoffset]
          exact hafter.offset_eq_iff
        have hslice : sliceBytes? source mark.offset name.stop = some (String.ofList name.text) :=
          hstart ▸ hwithin.slice
        have hsame : String.ofList name.text = String.ofList expected ↔ name.text = expected :=
          String.ofList_inj
        simp only [hread, hscan, Cursor.text_scanner, Cursor.position_scanner, Cursor.size_scanner,
          hstop, hslice, sound, hname.name_eq, String.toList_ofList, hpop, hafter.skipSpace_eq,
          hafter.skipSpace.eat_eq (show IsAscii '>' by decide), bind, Except.bind, ne_eq, hsame]
        by_cases heq : name.text = expected
        · rw [if_pos heq, if_neg (not_not_intro heq)]
          split
          · exact ⟨rfl, hafter.skipSpace.skip 1, h.closeElement⟩
          · rfl
        · rw [if_neg heq, if_pos heq, hoffset]
          rw [hend]
          split
          · rfl
          · rfl

/-! ## Instructions and declarations -/

theorem declare_eq (b : TreeBuilder) (target : LoadTarget) (name : Span) :
    declare target b (rangeSlot target name) =
      ((b.after target (.declaration name)).owner, b.after target (.declaration name)) := rfl

/-- The place behind the next mark, if there is one. -/
theorem moveTo_upTo? {mark : List Char} {raw : Span} {next : Cursor}
    (h : c.upTo? mark = some (raw, next)) :
    (c.scanner source).moveTo (raw.stop + byteSize mark) = next.scanner source :=
  congrArg (Scanner.mk source) (Cursor.start_of_upTo? h).2.symm

theorem instruction_carriedOut (h : Tracks belowDocument target source b names false)
    (hon : c.On source.toList) (name : Span) :
    (Reader.readInstruction names name c).CarriedOut belowDocument target source b
      (instruction target (c.scanner source) b (rangeSlot target name)) := by
  have hadded : ∀ value, Tracks belowDocument target source (b.after target (.pi name value)) names
      false := fun value => h.after (e := .pi name value) trivial rfl rfl
  unfold instruction Reader.readInstruction
  cases hrest : c.rest with
  | nil =>
    rw [hon.peek?_nil hrest]
    rfl
  | cons ch tail =>
    obtain ⟨byte, hpeek, hclass, hmark⟩ := hon.peek?_cons hrest
    simp only [hpeek, hclass byteClass_space, hmark (show IsAscii '?' by decide)]
    split
    · rename_i hquestion
      subst hquestion
      rw [Cursor.advance_one (congrArg List.head? hrest) (by decide),
        (hon.skip 1).eat_eq (by decide)]
      split
      · exact ⟨rfl, (hon.skip 1).skip 1, hadded none⟩
      · rfl
    · split
      · have hvalue := hon.skipSpace
        rw [hon.skipSpace_eq, hvalue.findMark?_eq "?>".toList (isAscii_of_all rfl) (by decide)]
        cases hup : c.skipSpace.upTo? "?>".toList with
        | none =>
          simp only [Option.map_none, Cursor.size_scanner, ← hon.total_eq]
          rfl
        | some found =>
          obtain ⟨value, next⟩ := found
          obtain ⟨hwithin, hnext⟩ := hvalue.upTo? hup
          have hrange : range target (c.skipSpace.scanner source) b value.start value.stop = _ :=
            range_eq h rfl hwithin
          have hmoved : (c.skipSpace.scanner source).moveTo (value.stop + 2) = _ := moveTo_upTo? hup
          simp only [Option.map_some, Cursor.position_scanner, ← (Cursor.start_of_upTo? hup).1,
            hrange, hmoved]
          exact ⟨rfl, hnext, hadded (some value)⟩
      · rfl

theorem skipSpace_skipSpace (c : Cursor) : c.skipSpace.skipSpace = c.skipSpace := by
  have hhead := (c.split_takeWhile isSpace).2.2
  have hnone : c.skipSpace.rest.takeWhile isSpace = [] :=
    takeWhile_append_of_head (List.forall_mem_nil _) hhead
  rw [Cursor.skipSpace, hnone, Cursor.skip]
  simp

/-- A declaration closes no element. -/
theorem not_empty_of_readAttributes {es : List LoadEvent} {empty : Bool} {next : Cursor}
    (h : Reader.readAttributes true c = .closed es empty next) : empty = false := by
  have hclose : ∀ {c : Cursor} {es : List LoadEvent} {closes : Bool} {status : LoadStatus},
      Reader.closeTag c closes status = .closed es empty next → empty = closes := by
    intro c es closes status hread
    simp only [Reader.closeTag] at hread
    split at hread
    · cases hread
      rfl
    · cases hread
  fun_induction Reader.readAttributes true c generalizing es with
  | case1 => cases h
  | case2 =>
    rename_i after hread ih
    cases hlater : Reader.readAttributes true after with
    | closed es' empty' next' =>
      rw [hlater] at h ih
      cases h
      exact ih rfl
    | fault => rw [hlater] at h; cases h
  | case3 => cases h
  | case4 =>
    rename_i hempty
    simp at hempty
  | case5 =>
    rename_i hend
    simp at hend
  | case6 => exact hclose h
  | case7 => cases h

theorem declaration_carriedOut (h : Tracks belowDocument target source b names false)
    (hon : c.On source.toList) (hbelow : belowDocument = true) (hnames : names = []) (name : Span) :
    (Reader.readDeclaration names name c).CarriedOut belowDocument target source b
      (declaration target (c.scanner source) b (rangeSlot target name)) := by
  have hdeclared : Tracks belowDocument target source (b.after target (.declaration name)) names
      true := h.after (e := .declaration name) ⟨hbelow, congrArg List.length hnames⟩ rfl rfl
  unfold declaration Reader.readDeclaration
  rw [declare_eq]
  cases hrest : c.rest with
  | nil =>
    simp only [hon.peek?_nil hrest]
    rfl
  | cons ch tail =>
    obtain ⟨byte, hpeek, hclass, hmark⟩ := hon.peek?_cons hrest
    simp only [hpeek, hclass byteClass_space, hmark (show IsAscii '?' by decide)]
    split
    · rename_i hquestion
      subst hquestion
      rw [Cursor.advance_one (congrArg List.head? hrest) (by decide),
        (hon.skip 1).eat_eq (by decide)]
      split
      · exact ⟨rfl, (hon.skip 1).skip 1, hdeclared.anywhere⟩
      · rfl
    · split
      · have hlength := length_lt_size hon.skipSpace
        have hattributes := attributes_carriedOut true hlength hdeclared hon.skipSpace rfl nofun
        rw [hon.skipSpace_eq]
        rw [Reader.readAttributes_eq, skipSpace_skipSpace,
          ← Reader.readAttributes_eq] at hattributes
        cases hread : Reader.readAttributes true c with
        | closed es empty last =>
          rw [hread] at hattributes
          obtain ⟨hdone, hlast, htracks⟩ := hattributes
          rw [not_empty_of_readAttributes hread] at hdone
          exact ⟨hdone, hlast, htracks.anywhere⟩
        | fault es status offset =>
          rw [hread] at hattributes
          exact hattributes
      · rfl

/-- What is not asked for is passed over. -/
theorem passed_carriedOut (h : Tracks belowDocument target source b names false)
    (hon : c.On source.toList) :
    ReadOutcome.CarriedOut belowDocument target source b
      (match c.upTo? "?>".toList with
      | some (_, c) => .next [] names c
      | none => .fault [] .badPi c.total)
      (match (c.scanner source).findMark? (utf8 "?>".toList) with
      | some stop => pure ((c.scanner source).moveTo (stop + 2), b)
      | none => fault .badPi (c.scanner source).size b) := by
  rw [hon.findMark?_eq "?>".toList (isAscii_of_all rfl) (by decide)]
  cases hup : c.upTo? "?>".toList with
  | none =>
    rw [hon.total_eq]
    rfl
  | some found =>
    obtain ⟨raw, next⟩ := found
    have hmoved : (c.scanner source).moveTo (raw.stop + 2) = _ := moveTo_upTo? hup
    simp only [Option.map_some, hmoved]
    exact ⟨rfl, (hon.upTo? hup).2, h⟩

theorem question_carriedOut (h : Tracks belowDocument target source b names false)
    (hon : c.On source.toList) (hquestion : c.rest.head? = some '?') :
    (Reader.readQuestion ⟨target.options, belowDocument⟩ names (c.skip 1)).CarriedOut belowDocument
      target source b (question target (c.scanner source) b) := by
  have hmark := hon.skip 1
  unfold question Reader.readQuestion
  rw [Cursor.advance_one hquestion (by decide), hmark.readName_eq]
  cases hname : (c.skip 1).name? with
  | none => rfl
  | some found =>
    obtain ⟨name, after⟩ := found
    obtain ⟨hwithin, hafter⟩ := hmark.name? hname
    have hrange : range target (after.scanner source) b name.start name.stop = _ :=
      range_eq h rfl hwithin
    simp only [Cursor.text_scanner, hwithin.slice, sound, String.toList_ofList, hrange, h.atTop_eq,
      bind, Except.bind]
    split
    · split
      · exact passed_carriedOut h hafter
      · split
        · rename_i htop
          rw [Bool.and_eq_true, List.isEmpty_iff] at htop
          exact declaration_carriedOut h hafter htop.1 htop.2 name
        · rw [← (Cursor.end_of_name? hname).1]
          rfl
    · split
      · exact passed_carriedOut h hafter
      · exact instruction_carriedOut h hafter name

/-! ## Comments, CDATA sections, document types -/

theorem delimited_carriedOut (h : Tracks belowDocument target source b names false)
    (hon : c.On source.toList) {mark : List Char} (hmark : ∀ m ∈ mark, IsAscii m) (hne : mark ≠ [])
    (wanted : Bool) {kind : NodeKind} {event : Span → LoadEvent} (status : LoadStatus)
    (hadd : ∀ raw, b.after target (event raw) = (b.addSection target kind raw).2)
    (hadded : ∀ raw, Tracks belowDocument target source (b.after target (event raw)) names false) :
    (Reader.readDelimited names c mark wanted event status).CarriedOut belowDocument target source b
      (delimited target (c.scanner source) b (utf8 mark) wanted kind status) := by
  unfold delimited Reader.readDelimited
  rw [hon.findMark?_eq mark hmark hne]
  cases hup : c.upTo? mark with
  | none => rfl
  | some found =>
    obtain ⟨raw, next⟩ := found
    obtain ⟨hwithin, hnext⟩ := hon.upTo? hup
    have hmoved : (c.scanner source).moveTo (raw.stop + (utf8 mark).length) =
        next.scanner source := by
      rw [length_utf8]
      exact moveTo_upTo? hup
    obtain ⟨slot, b', hslot, hconverted⟩ := exists_converted h hwithin
      (sectionConversion_inPlace target.options raw.text).pieceOf
      (byteSize_sectionConversion_le target.options _)
    cases wanted with
    | false => exact ⟨congrArg (fun s => Except.ok (s, b)) hmoved, hnext, h⟩
    | true =>
      simp only [Option.map_some, if_true, hmoved, Cursor.text_scanner, Cursor.position_scanner,
        ← (Cursor.start_of_upTo? hup).1, hwithin.slice, sound, String.toList_ofList, bind,
        Except.bind, hconverted]
      refine ⟨?_, hnext, hadded raw⟩
      rw [List.foldl_cons, List.foldl_nil, hadd, addSection, withSlot, hslot]
      rfl

/-- The body of a document type begins behind white space, in the bytes as in the characters. -/
theorem doctypeBody (hon : c.On source.toList) {raw rest : List Char}
    (hrest : c.rest = raw ++ rest) :
    let space := raw.takeWhile isSpace
    let body : Span := ⟨(c.skip space.length).offset, raw.drop space.length⟩
    body.Within source.toList ∧ body.stop = c.offset + byteSize raw ∧
      body.start = c.offset +
        (((c.scanner source).rest.take (byteSize raw)).takeWhile isSpaceByte).length := by
  obtain ⟨before, hstands⟩ := hon.stands
  have hraw : raw.takeWhile isSpace ++ raw.dropWhile isSpace = raw :=
    List.takeWhile_append_dropWhile
  have htake : (c.scanner source).rest.take (byteSize raw) = utf8 raw := by
    rw [hstands.rest, hrest, utf8_append, ← length_utf8, List.take_left]
  have hskip : c.skip (raw.takeWhile isSpace).length =
      ⟨c.offset + byteSize (raw.takeWhile isSpace), raw.dropWhile isSpace ++ rest⟩ := by
    have hcursor : c = ⟨c.offset, raw.takeWhile isSpace ++ (raw.dropWhile isSpace ++ rest)⟩ := by
      rw [← List.append_assoc, hraw, ← hrest]
    conv => lhs; rw [hcursor]
    exact Cursor.skip_append _ _ _
  have hwithin := hon.skip (raw.takeWhile isSpace).length
  have hbytes := congrArg byteSize hraw
  rw [byteSize_append] at hbytes
  simp only [htake, byteClass_space.takeWhile_utf8, length_utf8, drop_length_takeWhile, Span.stop]
  rw [hskip] at hwithin ⊢
  refine ⟨hwithin.append.1, ?_, rfl⟩
  simp only
  omega

theorem doctype_carriedOut (h : Tracks belowDocument target source b names false)
    (hon : c.On source.toList) (hkeyword : "DOCTYPE".toList <+: c.rest) :
    (Reader.readDoctype ⟨target.options, belowDocument⟩ names c).CarriedOut belowDocument target
      source b (doctype target (c.scanner source) b) := by
  have hstep : (c.scanner source).advance "DOCTYPE".length =
      (c.skip "DOCTYPE".length).scanner source :=
    Cursor.advance (isAscii_of_all rfl) hkeyword
  have hinner := hon.skip "DOCTYPE".length
  unfold doctype Reader.readDoctype
  rw [h.atTop_eq, hstep]
  generalize c.skip "DOCTYPE".length = inner at hinner ⊢
  dsimp only
  split
  · rename_i htop
    rw [Bool.and_eq_true, List.isEmpty_iff] at htop
    obtain ⟨before, hstands⟩ := hinner.stands
    have hsize := hstands.size
    have htotal := hinner.total_eq
    have hend := doctypeEnd?_eq hstands
      (show byteSize inner.rest < (inner.scanner source).size + 1 by omega) 0
    rw [hend]
    cases htail : XmlTree.doctypeEnd? 0 inner.rest with
    | none =>
      rw [htotal]
      rfl
    | some tail =>
      obtain ⟨raw, rest, rfl, hrest, -⟩ := scansTo_of_doctypeEnd? htail
      obtain ⟨hwithin, hstop, hstart⟩ := doctypeBody hinner hrest
      have hraw : inner.rest.take (inner.rest.length - ('>' :: rest).length) = raw := by
        simp [hrest]
      have hplace : source.utf8ByteSize - byteSize ('>' :: rest) = inner.offset + byteSize raw := by
        rw [← htotal, Cursor.total, hrest, byteSize_append]
        omega
      have hnext : (inner.scanner source).moveTo (inner.offset + byteSize raw + 1) =
          (inner.skip (raw.length + 1)).scanner source := by
        have hmark : inner.rest.take (raw.length + 1) = raw ++ ['>'] := by
          rw [hrest, List.take_length_add_append]
          rfl
        rw [Cursor.skip, hmark, byteSize_append]
        rfl
      have hrange := range_eq (s := inner.scanner source) h rfl hwithin
      rw [hstop, hstart] at hrange
      simp only [Option.map_some, hraw, Cursor.size_scanner, hplace, sound, hnext, bind,
        Except.bind, Cursor.position_scanner, Nat.add_sub_cancel_left, hrange]
      cases target.options.contains .doctype with
      | false => exact ⟨rfl, hinner.skip _, h⟩
      | true =>
        refine ⟨rfl, hinner.skip _, ?_⟩
        exact h.after (e := .doctype _) ⟨htop.1, congrArg List.length htop.2⟩ rfl rfl
  · rfl

theorem exclamation_carriedOut (h : Tracks belowDocument target source b names false)
    (hon : c.On source.toList) (hexclamation : c.rest.head? = some '!') :
    (Reader.readExclamation ⟨target.options, belowDocument⟩ names (c.skip 1)).CarriedOut
      belowDocument target source b (exclamation target (c.scanner source) b) := by
  have hmark := hon.skip 1
  unfold exclamation Reader.readExclamation
  rw [Cursor.advance_one hexclamation (by decide)]
  generalize c.skip 1 = mark at hmark ⊢
  have hadvance : ∀ {word : List Char}, (∀ m ∈ word, IsAscii m) → beginsWith word mark.rest = true →
      (mark.scanner source).advance word.length = (mark.skip word.length).scanner source :=
    fun hword hbegins => Cursor.advance hword (beginsWith_iff.1 hbegins)
  have hdash := hmark.peek?_eq_some_iff (show IsAscii '-' by decide)
  have hbracket := hmark.peek?_eq_some_iff (show IsAscii '[' by decide)
  dsimp only
  rw [hmark.beginsWith_eq (isAscii_of_all rfl), hmark.beginsWith_eq (isAscii_of_all rfl),
    hmark.beginsWith_eq (isAscii_of_all rfl)]
  split
  · rename_i hcomment
    have hnext : (mark.scanner source).advance 2 = (mark.skip 2).scanner source :=
      hadvance (isAscii_of_all rfl) hcomment
    rw [hnext]
    exact delimited_carriedOut h (hmark.skip 2) (isAscii_of_all rfl) (by decide) _ _ (fun _ => rfl)
      fun raw => h.after (e := .comment raw) trivial rfl
        (keepsNames_addSection h.building raw (by decide)).2
  · split
    · rename_i hcdata
      have hnext : (mark.scanner source).advance 7 = (mark.skip 7).scanner source :=
        hadvance (isAscii_of_all rfl) hcdata
      rw [hnext]
      exact delimited_carriedOut h (hmark.skip 7) (isAscii_of_all rfl) (by decide) _ _
        (fun _ => rfl) fun raw => h.after (e := .cdata raw) trivial rfl
          (keepsNames_addSection h.building raw (by decide)).2
    · split
      · rename_i hdoctype
        exact doctype_carriedOut h hmark (beginsWith_iff.1 hdoctype)
      · simp only [hdash, hbracket]
        split
        · rfl
        · split
          · rfl
          · rfl

/-! ## Whole texts -/

theorem markup_carriedOut (h : Tracks belowDocument target source b names false)
    (hon : c.On source.toList) :
    (Reader.readMarkup ⟨target.options, belowDocument⟩ names c).CarriedOut belowDocument target
      source b (markup target (c.scanner source) b) := by
  unfold markup Reader.readMarkup
  cases hrest : c.rest with
  | nil =>
    rw [hon.peek?_nil hrest]
    rfl
  | cons ch tail =>
    obtain ⟨byte, hpeek, hclass, hmark⟩ := hon.peek?_cons hrest
    have hhead : ∀ {m : Char}, ch = m → c.rest.head? = some m := by
      rintro m rfl
      exact congrArg List.head? hrest
    simp only [hpeek, hclass byteClass_nameStart, hmark (show IsAscii '/' by decide),
      hmark (show IsAscii '?' by decide), hmark (show IsAscii '!' by decide)]
    split
    · exact startTag_carriedOut h hon
    · split
      · rename_i hslash
        exact endTag_carriedOut h hon (hhead hslash)
      · split
        · rename_i hquestion
          exact question_carriedOut h hon (hhead hquestion)
        · split
          · rename_i hexclamation
            exact exclamation_carriedOut h hon (hhead hexclamation)
          · rfl

/-- The next tag begins behind the characters before it. -/
theorem findTagStart?_eq (hon : c.On source.toList) :
    (c.scanner source).findTagStart? =
      match (c.takeWhile (· != '<')).2.rest with
      | [] => none
      | _ :: _ => some (c.takeWhile (· != '<')).2.offset := by
  obtain ⟨hall, hsplit, hhead⟩ := c.split_takeWhile (· != '<')
  have hoffset := c.offset_takeWhile (· != '<')
  have hstart : (c.takeWhile (· != '<')).1.start = c.offset := rfl
  have hfind : (c.scanner source).findTagStart? = (c.upTo? ['<']).map (·.1.stop) :=
    hon.findByte?_eq (show IsAscii '<' by decide)
  generalize (c.takeWhile (· != '<')).1 = raw at *
  generalize (c.takeWhile (· != '<')).2 = tag at *
  have hnone : ¬ ['<'] <:+: raw.text := by
    rw [List.singleton_infix_iff]
    intro hmem
    exact absurd (hall '<' hmem) (by decide)
  rw [hfind, Cursor.upTo?, hsplit]
  cases hrest : tag.rest with
  | nil =>
    rw [List.append_nil, cutAt?_eq_none_iff.2 hnone]
    rfl
  | cons d more =>
    obtain rfl : d = '<' := by simpa [hrest] using hhead
    have hcut := cutAt?_append more (Reader.unbordered_singleton '<') hnone
    rw [show '<' :: more = ['<'] ++ more from rfl, hcut, hoffset, Span.stop, hstart]
    rfl

/-- At the end of the text nothing may be open any more. -/
theorem run_end (h : Tracks belowDocument target source b names false) (hon : c.On source.toList)
    (hrest : c.rest = []) (rounds : Nat) :
    run target (rounds + 1) (c.scanner source) b =
      if names.isEmpty then .ok b else fault .endElementMismatch c.offset b := by
  have hopen : b.openNodes.isEmpty = names.isEmpty := by
    have hlength := h.named.length_eq
    rw [Bool.eq_iff_iff, List.isEmpty_iff_length_eq_zero, List.isEmpty_iff_length_eq_zero, hlength]
  rw [run, hon.atEnd_eq, hrest, hopen, hon.offset_eq_iff.2 hrest]
  rfl

end Watch

namespace Transcript

/-- What the pass comes to where so much was carried out. -/
def comesTo (target : LoadTarget) (b : TreeBuilder) (t : Transcript) : Except LoadStop TreeBuilder :=
  let built := t.events.foldl (TreeBuilder.after target) b
  match t.fault with
  | none => .ok built
  | some fault => .error (.fault fault.status fault.offset built.doc)

/-- What the pass comes to where a whole text is read. -/
def built (target : LoadTarget) (b : TreeBuilder) (t : Transcript) : Except LoadStop TreeBuilder :=
  (b.carriedOut target t).comesTo target b

variable {target : LoadTarget} {b : TreeBuilder} {es : List LoadEvent}

/-- If none of the events is refused that come first, one goes on from what was built of them. -/
theorem built_after (h : (b.heeded target es).1 = none) (t : Transcript) :
    (t.after es).built target b = t.built target (es.foldl (TreeBuilder.after target) b) := by
  have hheeded : b.carriedOut target (t.after es) =
      (TreeBuilder.carriedOut target (es.foldl (TreeBuilder.after target) b) t).after es :=
    heeded_after h
  rw [built, hheeded]
  simp only [comesTo, after, List.foldl_append]
  rfl

/-- If one of them is refused, nothing that comes later is looked at. -/
theorem built_after_of_some {refused : LoadFault} (h : (b.heeded target es).1 = some refused)
    (t : Transcript) : (t.after es).built target b = built target b ⟨es, none⟩ := by
  have hheeded : b.carriedOut target (t.after es) = b.carriedOut target ⟨es, none⟩ :=
    heeded_after_of_some h
  rw [built, hheeded]
  rfl

theorem built_of_none (h : (b.heeded target es).1 = none) :
    built target b ⟨es, none⟩ = .ok (es.foldl (TreeBuilder.after target) b) := by
  have hdone := built_after h ⟨[], none⟩
  rwa [after, List.append_nil] at hdone

theorem exists_stop {refused : LoadFault} (h : (b.heeded target es).1 = some refused) :
    ∃ stop, built target b ⟨es, none⟩ = .error stop := by
  have hfault : (b.carriedOut target ⟨es, none⟩).fault = some refused :=
    congrArg (· <|> none) h
  rw [built, comesTo, hfault]
  exact ⟨_, rfl⟩

/-- A text is read to its end, and a tag may be open there. -/
theorem built_end (target : LoadTarget) (b : TreeBuilder) (names : List (List Char))
    (offset : Nat) :
    built target b ⟨[], if names.isEmpty then none else some ⟨.endElementMismatch, offset⟩⟩ =
      if names.isEmpty then .ok b else Watch.fault .endElementMismatch offset b := by
  cases names <;> rfl

end Transcript

namespace Watch

variable {belowDocument : Bool} {target : LoadTarget} {source : String} {b : TreeBuilder}
  {names : List (List Char)} {c : Cursor}

/-- What one event comes to. -/
theorem answer_add (target : LoadTarget) (b : TreeBuilder) (raw : Span) (closing : Bool) :
    answer (b.addText target raw closing) =
      Transcript.built target b ⟨[.text raw closing], none⟩ := by
  have hrefusal : refusal? target b (.text raw closing) = (b.addText target raw closing).1 := rfl
  have hafter : b.after target (.text raw closing) = (b.addText target raw closing).2 := rfl
  rw [Transcript.built, carriedOut, Transcript.heeded, LoadEvent.heeded, hrefusal]
  cases hdone : b.addText target raw closing with
  | mk refused b' =>
    cases refused with
    | none =>
      rw [hdone] at hafter
      show _ = Except.ok (b.after target (.text raw closing))
      rw [hafter]
      rfl
    | some refused =>
      -- nothing is left of a text that is refused
      have hsame : b' = b := by
        have := addText_of_some (congrArg Prod.fst hdone)
        rwa [hdone] at this
      rw [hsame]
      rfl

/-- Characters between tags are added, if there are any. -/
theorem textEvents_built (h : Tracks belowDocument target source b names false)
    (hon : c.On source.toList) :
    let tag := (c.takeWhile (· != '<')).2
    let events := Reader.textEvents (c.takeWhile (· != '<')).1 (beginsWith "</".toList tag.rest)
    textBefore target (c.scanner source) b tag.offset = Transcript.built target b ⟨events, none⟩ ∧
      Tracks belowDocument target source (events.foldl (TreeBuilder.after target) b) names
        false := by
  have htext := text_eq h hon
  have hoffset := c.offset_takeWhile (· != '<')
  have hstart : (c.takeWhile (· != '<')).1.start = c.offset := rfl
  dsimp only at htext ⊢
  generalize (c.takeWhile (· != '<')).1 = raw at *
  generalize (c.takeWhile (· != '<')).2 = tag at *
  rw [textBefore, Cursor.position_scanner, ← hstart, hoffset, Reader.textEvents]
  cases hempty : raw.text.isEmpty with
  | true =>
    rw [List.isEmpty_iff] at hempty
    refine ⟨if_neg ?_, h⟩
    rw [Span.stop, hempty, byteSize_nil]
    exact Nat.lt_irrefl _
  | false =>
    have hpos := length_le_byteSize raw.text
    have hlength : raw.text.length ≠ 0 := by simpa using hempty
    refine ⟨(if_pos ?_).trans (htext.trans (answer_add target b raw _)),
      h.after (e := .text raw _) trivial rfl (keepsNames_addText h.building raw _).2⟩
    rw [Span.stop]
    omega

/-- A round adds the text before the next tag, and reads the tag if there is one. -/
theorem run_step (hon : c.On source.toList) (hrest : c.rest ≠ []) (rounds : Nat)
    (b : TreeBuilder) :
    let tag := (c.takeWhile (· != '<')).2
    run target (rounds + 1) (c.scanner source) b =
      (textBefore target (c.scanner source) b tag.offset >>= fun b =>
        match tag.rest with
        | [] => run target rounds (tag.scanner source) b
        | _ :: _ => markup target ((tag.skip 1).scanner source) b >>= fun next =>
            run target rounds next.1 next.2) := by
  obtain ⟨-, -, hhead⟩ := c.split_takeWhile (· != '<')
  have hfind := findTagStart?_eq hon
  have htag := (hon.takeWhile (· != '<')).2
  have hmore : c.rest.isEmpty = false := by rwa [List.isEmpty_eq_false_iff]
  dsimp only
  generalize (c.takeWhile (· != '<')).2 = tag at *
  rw [run, hon.atEnd_eq, hmore, hfind]
  cases hnext : tag.rest with
  | nil =>
    have hend := htag.offset_eq_iff.2 hnext
    have hmoved : (c.scanner source).moveTo source.utf8ByteSize = tag.scanner source := by
      rw [← hend]
      rfl
    have hlt : c.offset < source.utf8ByteSize := by
      have hle := length_le_byteSize c.rest
      have hpos := List.length_pos_of_ne_nil hrest
      rw [← hon.total_eq, Cursor.total]
      omega
    rw [textBefore, hend, Cursor.position_scanner, if_pos hlt]
    simp only [Bool.false_eq_true, if_false, Cursor.size_scanner, hmoved]
  | cons d more =>
    obtain rfl : d = '<' := by simpa [hnext] using hhead
    have hmoved : (c.scanner source).moveTo (tag.offset + 1) = (tag.skip 1).scanner source :=
      Cursor.advance_one (congrArg List.head? hnext) (by decide)
    simp only [Bool.false_eq_true, if_false, hmoved]

/-- Every piece of what is read as a construct stands in the text. -/
theorem allWithin_readMarkup (mode : ReaderMode) (names : List (List Char))
    (hon : c.On source.toList) (hoffset : 1 ≤ c.offset) :
    AllWithin source.toList (Reader.readMarkup mode names c).events := by
  have hstep : (Reader.readMarkup mode names c).Resumes source.toList [] 0 _ :=
    Reader.readMarkup_resumes beginsTag_nil hon hoffset
  cases hread : Reader.readMarkup mode names c with
  | next es names' next =>
    rw [hread] at hstep
    exact hstep.1
  | fault es status offset =>
    rw [hread] at hstep
    exact hstep.1

/-- Markup of the text is not refused, for its texts are not too long. -/
theorem heeded_readMarkup (h : Tracks belowDocument target source b names false) {tag : Cursor}
    (htag : tag.On source.toList) {d : Char} {more : List Char} (hnext : tag.rest = d :: more)
    (b : TreeBuilder) :
    let es := (Reader.readMarkup ⟨target.options, belowDocument⟩ names (tag.skip 1)).events
    (b.heeded target es).1 = none := by
  have hsize : byteSize source.toList < 2 ^ 32 := (byteSize_toList source).trans_lt h.short
  have hmarkup := Reader.readMarkup_markup ⟨target.options, belowDocument⟩ names (tag.skip 1)
  have hwithin := allWithin_readMarkup ⟨target.options, belowDocument⟩ names (htag.skip 1)
    (Reader.one_le_offset_skip hnext)
  refine congrArg Prod.fst (LoadEvent.heeded_eq_self fun b e he => ?_)
  rw [refusal?_of_markup]
  · exact ((hwithin e he).short hsize).refusal? target.options
  · rintro raw closing rfl
    exact hmarkup _ he

/-- Reading to the end of the text comes to what the reader and the builder come to. -/
theorem run_eq {rounds : Nat} (hrounds : c.rest.length < rounds)
    (h : Tracks belowDocument target source b names false) (hon : c.On source.toList) :
    run target rounds (c.scanner source) b =
      (Reader.readAll ⟨target.options, belowDocument⟩ names c).built target b := by
  induction rounds generalizing b c names with
  | zero => exact absurd hrounds (Nat.not_lt_zero _)
  | succ rounds ih =>
    by_cases hrest : c.rest = []
    · have hhead : c.rest.head?.all (fun d => !(d != '<')) = true := by rw [hrest]; rfl
      rw [run_end h hon hrest, Reader.readAll_tag hhead, hrest]
      exact (Transcript.built_end target b names c.offset).symm
    · obtain ⟨-, hsplit, hhead⟩ := c.split_takeWhile (· != '<')
      obtain ⟨htext, hadded⟩ := textEvents_built h hon
      have htag := (hon.takeWhile (· != '<')).2
      rw [run_step hon hrest, Reader.readAll_front]
      generalize (c.takeWhile (· != '<')).1 = raw at *
      generalize (c.takeWhile (· != '<')).2 = tag at *
      generalize Reader.textEvents raw (beginsWith "</".toList tag.rest) = events at *
      rw [htext]
      cases hheeded : (b.heeded target events).1 with
      | some refused =>
        -- the text is refused, and the pass ends there
        obtain ⟨stop, hstop⟩ := Transcript.exists_stop hheeded
        rw [Transcript.built_after_of_some hheeded, hstop]
        rfl
      | none =>
        have hdone : Transcript.built target b ⟨events, none⟩ =
            .ok (events.foldl (TreeBuilder.after target) b) := Transcript.built_of_none hheeded
        rw [Transcript.built_after hheeded, hdone, Reader.readAll_tag hhead]
        generalize events.foldl (TreeBuilder.after target) b = b' at hadded ⊢
        cases hnext : tag.rest with
        | nil =>
          -- the last text takes a round, and the end is noticed in the next one
          have hlength := congrArg List.length hsplit
          have hpos := List.length_pos_of_ne_nil hrest
          obtain ⟨rounds, rfl⟩ : ∃ n, rounds = n + 1 := Nat.exists_eq_add_one_of_ne_zero (by omega)
          have hend := run_end hadded htag hnext rounds
          exact hend.trans (Transcript.built_end target b' names tag.offset).symm
        | cons d more =>
          have hmarkup := markup_carriedOut hadded (htag.skip 1)
          have hkept := heeded_readMarkup hadded htag hnext b'
          have hskipped : (tag.skip 1).rest.length + 1 = tag.rest.length := by
            rw [hnext]
            simp [Cursor.skip, hnext]
          have hwhole := congrArg List.length hsplit
          rw [List.length_append] at hwhole
          let goOn (next : Scanner × TreeBuilder) := run target rounds next.1 next.2
          cases hread : Reader.readMarkup ⟨target.options, belowDocument⟩ names (tag.skip 1) with
          | next es names' next =>
            have hlength := Reader.length_of_readMarkup hread
            rw [hread] at hmarkup hkept
            obtain ⟨hdone, hon', htracks⟩ := hmarkup
            refine (congrArg (· >>= goOn) hdone).trans ?_
            exact (ih (by omega) htracks hon').trans (Transcript.built_after hkept _).symm
          | fault es status offset =>
            rw [hread] at hmarkup hkept
            have hstop := Transcript.built_after hkept ⟨[], some ⟨status, offset⟩⟩
            rw [Transcript.after, List.append_nil] at hstop
            exact (congrArg (· >>= goOn) hmarkup).trans hstop.symm

end Watch

end XmlTree
