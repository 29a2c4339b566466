/-
  Proofs/Composing.lean --- loading a text in two parts.

  WHAT THIS FILE IS FOR.  A text is loaded, and another one is loaded behind it, below the
  document node.  If the first is read without a fault and the second begins with a tag, this
  comes to the same as loading both written as one: the load ends in the same way, at the same
  place, and with the same tree, which is a partial one if there is a fault.

  HOW.  The events of the joined text are those of the first part and then those of the second
  with later places.  Both builders get on in step: the documents are the same but for where
  their texts stand, so whatever the options make a builder ask about the node that is last, or
  first, or empty, the answers are the same.

  A TEXT THAT IS TOO LONG to be copied is refused by both builders, at the same place.

  WHERE ATTRIBUTES GO.  At the seam the builder of the joined text still knows which node it
  opened last, and the other one starts at the document node.  No attribute comes before a tag
  is opened, so neither is used.
-/
import XmlTree.Proofs.Acceptance
import XmlTree.Proofs.Codecs
import XmlTree.Proofs.Derivation
import XmlTree.Proofs.Filling
import XmlTree.Proofs.Joining
import XmlTree.Proofs.Resuming

set_option autoImplicit false

namespace XmlTree

/-! ## Pieces of a text -/

/-- What a conversion leaves as it stands is a piece of its input. -/
def Conversion.PieceOf (cs : List Char) : Conversion → Prop
  | .verbatim skipped text =>
    ∃ before after, cs = before ++ (text ++ after) ∧ skipped = byteSize before
  | .fresh _ => True

theorem Conversion.InPlace.pieceOf {conversion : Conversion} {cs : List Char}
    (h : conversion.InPlace cs) : conversion.PieceOf cs := by
  cases h with
  | verbatim => exact ⟨[], [], by simp, rfl⟩
  | fresh => trivial

/-- Trimming leaves a piece. -/
theorem convertPcdata_pieceOf (options : ParseOptions) (cs : List Char) :
    (convertPcdata options cs).PieceOf cs := by
  cases htrim : options.contains .trimPcdata with
  | false => exact (convertPcdata_inPlace htrim cs).pieceOf
  | true =>
    simp only [convertPcdata, htrim, if_true]
    split
    · trivial
    · have hfront : cs.takeWhile isSpace ++ dropSpace cs = cs := List.takeWhile_append_dropWhile
      have hend : dropTrailingSpace (dropSpace cs) ++
          ((dropSpace cs).reverse.takeWhile isSpace).reverse = dropSpace cs := by
        rw [dropTrailingSpace, ← List.reverse_append, List.takeWhile_append_dropWhile,
          List.reverse_reverse]
      refine ⟨cs.takeWhile isSpace, _, by rw [hend, hfront], ?_⟩
      have hsize := byteSize_append (cs.takeWhile isSpace) (dropSpace cs)
      rw [hfront] at hsize
      omega

theorem Span.Within.piece {text : List Char} {s : Span} (h : s.Within text) {skipped : Nat}
    {piece : List Char} (hpiece : (Conversion.verbatim skipped piece).PieceOf s.text) :
    (⟨s.start + skipped, piece⟩ : Span).Within text := by
  obtain ⟨pre, post, rfl, hstart⟩ := h
  obtain ⟨before, after, hsplit, rfl⟩ := hpiece
  refine ⟨pre ++ before, after ++ post, ?_, ?_⟩
  · rw [hsplit]
    simp
  · rw [byteSize_append, hstart]

/-! ## Two builders in step -/

/-- A fault with `n` more bytes before the text. -/
def LoadFault.later (n : Nat) (fault : LoadFault) : LoadFault := ⟨fault.status, fault.offset + n⟩

variable {first second : String} {loaded : List String} {text : List Char} {n : Nat}

/-- Both builders go below the same node with the same options.  A piece of the text that the
one loads stands in the joined text, `n` bytes later. -/
structure LoadTarget.Joined (first second : String) (loaded : List String) (text : List Char)
    (n : Nat) (target target' : LoadTarget) : Prop where
  base : target'.base = target.base
  options : target'.options = target.options
  source : loaded[target.buffer]? = some (String.ofList text)
  size : byteSize text < 2 ^ 32
  range : ∀ s, TreeBuilder.rangeSlot target' (s.later n) =
    (TreeBuilder.rangeSlot target s).joined first.utf8ByteSize

namespace TreeBuilder

/-- The documents are the same but for where their texts stand, and so is what is open; where
attributes go counts only behind a tag. -/
structure Joined (first second : String) (loaded : List String) (tagOpen : Bool)
    (b b' : TreeBuilder) : Prop where
  doc : b.doc.Joined first second loaded b'.doc
  openNodes : b'.openNodes = b.openNodes
  owner : tagOpen = true → b'.owner = b.owner

namespace Joined

variable {target target' : LoadTarget} {b b' : TreeBuilder} {tagOpen : Bool} {doc' : Document}

theorem cursor_eq (h : Joined first second loaded tagOpen b b')
    (ht : target.Joined first second loaded text n target') :
    b'.cursor target' = b.cursor target := by
  rw [TreeBuilder.cursor, TreeBuilder.cursor, h.openNodes, ht.base]

/-- A piece of the loaded text is held. -/
theorem anchors_rangeSlot (h : Joined first second loaded tagOpen b b')
    (ht : target.Joined first second loaded text n target') {s : Span} (hs : s.Within text) :
    b.doc.texts.Anchors (rangeSlot target s) := by
  obtain ⟨pre, post, rfl, hstart⟩ := hs
  have hsource : b.doc.texts.source? target.buffer =
      some (String.ofList (pre ++ s.text ++ post)) := by
    rw [TextStore.source?, ← Array.getElem?_toList, h.doc.texts.buffers]
    exact ht.source
  have hholds := TextStore.holds_borrowed hsource ht.size
  rw [← hstart] at hholds
  exact hholds.anchors

/-- A converted piece is held, in the document of either builder. -/
theorem conversionSlot (h : Joined first second loaded tagOpen b b')
    (ht : target.Joined first second loaded text n target') {raw : Span} (hraw : raw.Within text)
    {conversion : Conversion} (hpiece : conversion.PieceOf raw.text) :
    (b'.conversionSlot target' (raw.later n) conversion).1 =
        (b.conversionSlot target raw conversion).1.map (TextSlot.joined first.utf8ByteSize) ∧
      Joined first second loaded tagOpen (b.conversionSlot target raw conversion).2
        (b'.conversionSlot target' (raw.later n) conversion).2 ∧
      ∀ {slot}, (b.conversionSlot target raw conversion).1 = some slot →
        (b.conversionSlot target raw conversion).2.doc.texts.Anchors slot := by
  cases conversion with
  | verbatim skipped piece =>
    have hlater : (⟨(raw.later n).start + skipped, piece⟩ : Span) =
        (⟨raw.start + skipped, piece⟩ : Span).later n := by
      simp only [Span.later, Nat.add_right_comm]
    refine ⟨?_, h, fun {slot} hslot => ?_⟩
    · rw [TreeBuilder.conversionSlot, hlater, ht.range]
      rfl
    · cases hslot
      exact h.anchors_rangeSlot ht (hraw.piece hpiece)
  | fresh piece =>
    obtain ⟨hslot, hdoc⟩ := h.doc.ownText (String.ofList piece)
    exact ⟨hslot, ⟨hdoc, h.openNodes, h.owner⟩, fun hown => TextStore.anchors_own _ hown⟩

/-- A node is added at the end of the same node. -/
theorem push (h : Joined first second loaded tagOpen b b')
    (ht : target.Joined first second loaded text n target') (kind : NodeKind)
    {name value : TextSlot} (hname : b.doc.texts.Anchors name)
    (hvalue : b.doc.texts.Anchors value) :
    (b'.push target' kind (name.joined first.utf8ByteSize) (value.joined first.utf8ByteSize)).1 =
        (b.push target kind name value).1 ∧
      Joined first second loaded tagOpen (b.push target kind name value).2
        (b'.push target' kind (name.joined first.utf8ByteSize)
          (value.joined first.utf8ByteSize)).2 := by
  have hcursor := h.cursor_eq ht
  obtain ⟨doc, openNodes, owner⟩ := b
  obtain ⟨doc', openNodes', owner'⟩ := b'
  obtain ⟨hid, halloc⟩ := h.doc.allocNode kind
  have hmade : Document.Joined first second loaded
      ((doc.allocNode kind).2.modifyNode (doc.allocNode kind).1 fun r => { r with name, value })
      ((doc'.allocNode kind).2.modifyNode (doc.allocNode kind).1 fun r =>
        { r with
          name := name.joined first.utf8ByteSize
          value := value.joined first.utf8ByteSize }) := by
    refine halloc.modifyNode _ ?_ fun _ _ => ⟨hname, hvalue⟩
    exact fun _ => rfl
  refine ⟨hid, ?_, h.openNodes, h.owner⟩
  have hcursor' : openNodes'.head?.getD target'.base = openNodes.head?.getD target.base := hcursor
  simp only [TreeBuilder.push, hid, hcursor']
  exact hmade.link _ _

/-- What both builders did came to the same: both refused a text, at the same place, or neither. -/
structure InStep (first second : String) (loaded : List String) (n : Nat) (tagOpen : Bool)
    (done done' : Option LoadFault × TreeBuilder) : Prop where
  fault : done'.1 = done.1.map (·.later n)
  joined : Joined first second loaded tagOpen done.2 done'.2

/-- Both builders go on with a converted piece, or neither does. -/
theorem withSlot (h : Joined first second loaded tagOpen b b')
    (ht : target.Joined first second loaded text n target') {raw : Span} (hraw : raw.Within text)
    {conversion : Conversion} (hpiece : conversion.PieceOf raw.text)
    {next next' : TextSlot → TreeBuilder → TreeBuilder}
    (hnext : ∀ {slot c c'}, Joined first second loaded tagOpen c c' →
      c.doc.texts.Anchors slot → Joined first second loaded tagOpen (next slot c)
        (next' (slot.joined first.utf8ByteSize) c')) :
    InStep first second loaded n tagOpen (b.withSlot target raw conversion next)
      (b'.withSlot target' (raw.later n) conversion next') := by
  obtain ⟨hslot, hconverted, hheld⟩ := h.conversionSlot ht hraw hpiece
  obtain ⟨slot, converted, hmade, -, hdone⟩ | ⟨hlong, hdone⟩ :=
    b.withSlot_cases target raw conversion next
  · have hmade' : b'.conversionSlot target' (raw.later n) conversion =
        (some (slot.joined first.utf8ByteSize), _) := Prod.ext (by rw [hslot, hmade]; rfl) rfl
    rw [hmade] at hconverted hheld
    rw [hdone, TreeBuilder.withSlot, hmade']
    exact ⟨rfl, hnext hconverted (hheld rfl)⟩
  · obtain ⟨-, -, -, hshort, -⟩ | ⟨-, hdone'⟩ :=
      b'.withSlot_cases target' (raw.later n) conversion next'
    · exact absurd hlong hshort
    · rw [hdone, hdone']
      exact ⟨rfl, h⟩

theorem keepsSpace_eq (h : Joined first second loaded tagOpen b b')
    (ht : target.Joined first second loaded text n target') (closing : Bool) :
    b'.keepsSpace target' closing = b.keepsSpace target closing := by
  simp only [keepsSpace, ht.options, h.cursor_eq ht, h.doc.firstChild?_eq]

theorem embedsNext_eq (h : Joined first second loaded tagOpen b b')
    (ht : target.Joined first second loaded text n target') :
    b'.embedsNext target' = b.embedsNext target := by
  simp only [embedsNext, ht.options, h.cursor_eq ht, h.doc.node?_eq]
  cases b.doc.node? (b.cursor target) with
  | none => rfl
  | some r => simp only [Option.map_some, NodeRecord.joined, TextSlot.isNull_joined]

theorem joinsTo?_eq (h : Joined first second loaded tagOpen b b')
    (ht : target.Joined first second loaded text n target') :
    b'.joinsTo? target' = b.joinsTo? target := by
  simp only [joinsTo?, ht.options, h.cursor_eq ht, h.doc.lastChild?_eq, h.doc.kind_eq]

theorem addText (h : Joined first second loaded tagOpen b b')
    (ht : target.Joined first second loaded text n target') {raw : Span} (hraw : raw.Within text)
    (closing : Bool) :
    InStep first second loaded n tagOpen (b.addText target raw closing)
      (b'.addText target' (raw.later n) closing) := by
  have hpiece := convertPcdata_pieceOf target.options raw.text
  simp only [TreeBuilder.addText, Span.text_later, h.keepsSpace_eq ht, h.embedsNext_eq ht,
    h.joinsTo?_eq ht, h.cursor_eq ht, h.doc.kind_eq, ht.options]
  split
  · exact ⟨rfl, h⟩
  · split
    · exact ⟨rfl, h⟩
    · split
      · refine h.withSlot ht hraw hpiece fun {slot c c'} hconverted hheld => ?_
        refine ⟨hconverted.doc.modifyNode _ ?_ fun r hr => ?_, hconverted.openNodes,
          hconverted.owner⟩
        · exact fun _ => rfl
        · exact ⟨(hconverted.doc.anchored.of_node hr).name, hheld⟩
      · cases b.joinsTo? target with
        | some previous =>
          simp only [h.doc.value_eq]
          obtain ⟨hsame, hdoc⟩ := h.doc.replaceValue previous
            (b.doc.value previous ++ String.ofList (convertPcdata target.options raw.text).text)
          revert hsame hdoc
          generalize b.doc.replaceValue previous _ = replaced
          generalize b'.doc.replaceValue previous _ = replaced'
          obtain ⟨done, doc⟩ := replaced
          obtain ⟨done', doc'⟩ := replaced'
          rintro rfl hdoc
          cases done' with
          | true => exact ⟨rfl, hdoc, h.openNodes, h.owner⟩
          | false => exact ⟨rfl, hdoc, h.openNodes, h.owner⟩
        | none =>
          exact h.withSlot ht hraw hpiece fun hconverted hheld =>
            (hconverted.push ht .pcdata TextStore.anchors_null hheld).2

theorem addSection (h : Joined first second loaded tagOpen b b')
    (ht : target.Joined first second loaded text n target') (kind : NodeKind) {raw : Span}
    (hraw : raw.Within text) :
    InStep first second loaded n tagOpen (b.addSection target kind raw)
      (b'.addSection target' kind (raw.later n)) := by
  have hpiece := (sectionConversion_inPlace target.options raw.text).pieceOf
  simp only [TreeBuilder.addSection, Span.text_later, ht.options]
  exact h.withSlot ht hraw hpiece fun hconverted hheld =>
    (hconverted.push ht kind TextStore.anchors_null hheld).2

theorem addAttribute (h : Joined first second loaded true b b')
    (ht : target.Joined first second loaded text n target') {name : Span}
    (hname : name.Within text) {raw : Option Span} (hraw : ∀ s ∈ raw, s.Within text) :
    InStep first second loaded n true (b.addAttribute target name raw)
      (b'.addAttribute target' (name.later n) (raw.map (·.later n))) := by
  obtain ⟨doc, openNodes, owner⟩ := b
  obtain ⟨doc', openNodes', owner'⟩ := b'
  obtain rfl : owner' = owner := h.owner rfl
  obtain ⟨hid, halloc⟩ := h.doc.allocAttr
  have hlinked : Joined first second loaded true
      ⟨doc.allocAttr.2.linkAttr owner' .last doc.allocAttr.1, openNodes, owner'⟩
      ⟨doc'.allocAttr.2.linkAttr owner' .last doc.allocAttr.1, openNodes', owner'⟩ :=
    ⟨halloc.linkAttr _ _, h.openNodes, h.owner⟩
  have hnamed : Joined first second loaded true
      ⟨(doc.allocAttr.2.linkAttr owner' .last doc.allocAttr.1).modifyAttr doc.allocAttr.1
        fun r => { r with name := rangeSlot target name }, openNodes, owner'⟩
      ⟨(doc'.allocAttr.2.linkAttr owner' .last doc.allocAttr.1).modifyAttr doc.allocAttr.1
        fun r => { r with name := rangeSlot target' (name.later n) }, openNodes', owner'⟩ := by
    refine ⟨hlinked.doc.modifyAttr _ ?_ fun r hr => ?_, h.openNodes, h.owner⟩
    · intro r
      rw [ht.range]
      rfl
    · exact ⟨hlinked.anchors_rangeSlot ht hname, (hlinked.doc.anchored.of_attr hr).value⟩
  unfold TreeBuilder.addAttribute addAttributeName
  simp only [show doc'.allocAttr.1 = doc.allocAttr.1 from hid]
  cases raw with
  | none => exact ⟨rfl, hnamed⟩
  | some raw =>
    have hpiece := (convertAttribute_inPlace target.options raw.text).pieceOf
    simp only [Option.map_some, Span.text_later, ht.options]
    refine hnamed.withSlot ht (hraw raw rfl) hpiece fun {slot c c'} hconverted hheld => ?_
    refine ⟨hconverted.doc.modifyAttr _ ?_ fun r hr => ?_, hconverted.openNodes, hconverted.owner⟩
    · exact fun _ => rfl
    · exact ⟨(hconverted.doc.anchored.of_attr hr).name, hheld⟩

theorem anywhere (h : Joined first second loaded tagOpen b b') :
    Joined first second loaded false b b' :=
  ⟨h.doc, h.openNodes, nofun⟩

theorem InStep.anywhere {done done' : Option LoadFault × TreeBuilder}
    (h : InStep first second loaded n tagOpen done done') :
    InStep first second loaded n false done done' :=
  ⟨h.fault, h.joined.anywhere⟩

/-- Whatever an event says, it comes to the same in both documents. -/
theorem add (ht : target.Joined first second loaded text n target') {belowDocument : Bool}
    {p : EventPlace} (h : Joined first second loaded p.tagOpen b b') {e : LoadEvent}
    (hfits : e.Fits belowDocument p) (hwithin : e.Within text) :
    InStep first second loaded n (e.place p).tagOpen (b.add target e)
      (b'.add target' (e.later n)) := by
  have hnull : b.doc.texts.Anchors .null := TextStore.anchors_null
  cases e with
  | text raw closing => exact (h.addText ht hwithin closing).anywhere
  | openElement name =>
    obtain ⟨hid, hpushed⟩ := h.push ht .element (h.anchors_rangeSlot ht hwithin) hnull
    simp only [TreeBuilder.add, LoadEvent.later, ht.range]
    exact ⟨rfl, hpushed.doc, congrArg₂ List.cons hid h.openNodes, fun _ => hid⟩
  | closeElement => exact ⟨rfl, h.doc, congrArg List.tail h.openNodes, Bool.noConfusion⟩
  | «attribute» name raw =>
    have htag : p.tagOpen = true := hfits
    rw [htag] at h
    exact h.addAttribute ht hwithin.1 hwithin.2
  | comment raw => exact (h.addSection ht .comment hwithin).anywhere
  | cdata raw => exact (h.addSection ht .cdata hwithin).anywhere
  | pi name value =>
    have hvalue : b.doc.texts.Anchors (value.elim .null (rangeSlot target)) := by
      cases value with
      | none => exact hnull
      | some value => exact h.anchors_rangeSlot ht (hwithin.2 value rfl)
    have hslot : (value.map (·.later n)).elim .null (rangeSlot target') =
        (value.elim .null (rangeSlot target)).joined first.utf8ByteSize := by
      cases value with
      | none => rfl
      | some value => exact ht.range value
    simp only [TreeBuilder.add, LoadEvent.later, ht.range, hslot]
    exact ⟨rfl, (h.push ht .pi (h.anchors_rangeSlot ht hwithin.1) hvalue).2.anywhere⟩
  | declaration name =>
    obtain ⟨hid, hpushed⟩ := h.push ht .declaration (h.anchors_rangeSlot ht hwithin) hnull
    simp only [TreeBuilder.add, LoadEvent.later, ht.range]
    exact ⟨rfl, hpushed.doc, hpushed.openNodes, fun _ => hid⟩
  | doctype body =>
    simp only [TreeBuilder.add, LoadEvent.later, ht.range]
    exact ⟨rfl, (h.push ht .doctype hnull (h.anchors_rangeSlot ht hwithin)).2.anywhere⟩

/-- Both builders carry out the same events. -/
theorem heeded (ht : target.Joined first second loaded text n target') {belowDocument : Bool}
    {p : EventPlace} (h : Joined first second loaded p.tagOpen b b') {es : List LoadEvent}
    (hfits : FitsAll belowDocument p es) (hwithin : AllWithin text es) :
    b'.heeded target' (es.map (·.later n)) =
      ((b.heeded target es).1.map (·.later n), (b.heeded target es).2.map (·.later n)) := by
  induction es generalizing b b' p with
  | nil => rfl
  | cons e es ih =>
    obtain ⟨he, hrest⟩ := hfits
    obtain ⟨hwithin, hwithinAll⟩ := List.forall_mem_cons.1 hwithin
    obtain ⟨hfault, hjoined⟩ := h.add ht he hwithin
    have hrefusal : refusal? target' b' (e.later n) = (refusal? target b e).map (·.later n) := hfault
    rw [List.map_cons, TreeBuilder.heeded, TreeBuilder.heeded, LoadEvent.heeded, LoadEvent.heeded,
      hrefusal]
    cases refusal? target b e with
    | some fault =>
      refine Prod.ext rfl ?_
      cases e <;> rfl
    | none =>
      exact congrArg (fun done : Option LoadFault × List LoadEvent =>
        (done.1, e.later n :: done.2)) (ih hjoined hrest hwithinAll)

/-- Both builders end in the same way, at the same place. -/
theorem carriedOut (ht : target.Joined first second loaded text n target') {belowDocument : Bool}
    {p : EventPlace} (h : Joined first second loaded p.tagOpen b b') {t : Transcript}
    (hfits : FitsAll belowDocument p t.events) (hwithin : AllWithin text t.events) :
    b'.carriedOut target' (t.later n) = (b.carriedOut target t).later n := by
  have hevents := h.heeded ht hfits hwithin
  show (⟨(b'.heeded target' (t.events.map (·.later n))).2,
      (b'.heeded target' (t.events.map (·.later n))).1 <|> t.fault.map (·.later n)⟩ : Transcript) =
    ⟨(b.heeded target t.events).2.map (·.later n),
      ((b.heeded target t.events).1 <|> t.fault).map (·.later n)⟩
  rw [hevents]
  cases (b.heeded target t.events).1 with
  | some fault => rfl
  | none => rfl

/-- Whatever is carried out, both documents get on in step. -/
theorem foldl_add (ht : target.Joined first second loaded text n target') {belowDocument : Bool}
    {p : EventPlace} (h : Joined first second loaded p.tagOpen b b') {es : List LoadEvent}
    (hfits : FitsAll belowDocument p es) (hwithin : AllWithin text es) :
    Joined first second loaded (es.foldl LoadEvent.place p).tagOpen
      (es.foldl (after target) b)
      ((es.map (·.later n)).foldl (after target') b') := by
  induction es generalizing b b' p with
  | nil => exact h
  | cons e es ih =>
    obtain ⟨he, hrest⟩ := hfits
    obtain ⟨hwithin, hwithinAll⟩ := List.forall_mem_cons.1 hwithin
    exact ih (h.add ht he hwithin).joined hrest hwithinAll

end Joined

end TreeBuilder

/-! ## Loads -/

namespace LoadTarget.Joined

/-- The first text is loaded in the place of both. -/
theorem ofFirst (base : NodeId) (options : ParseOptions)
    (hsize : (first ++ second).utf8ByteSize < 2 ^ 32) :
    LoadTarget.Joined first second [first] first.toList 0 ⟨base, 0, options⟩
      ⟨base, 0, options⟩ where
  base := rfl
  options := rfl
  source := by simp
  size := by
    rw [String.utf8ByteSize_append] at hsize
    rw [byteSize_toList]
    omega
  range _ := rfl

/-- The second text is loaded behind the first. -/
theorem ofSecond (base : NodeId) (options : ParseOptions)
    (hsize : (first ++ second).utf8ByteSize < 2 ^ 32) :
    LoadTarget.Joined first second [first, second] second.toList first.utf8ByteSize
      ⟨base, 1, options⟩ ⟨base, 0, options⟩ where
  base := rfl
  options := rfl
  source := by simp
  size := by
    rw [String.utf8ByteSize_append] at hsize
    rw [byteSize_toList]
    omega
  range s := by
    have hlength : (s.later first.utf8ByteSize).stop - (s.later first.utf8ByteSize).start =
        s.stop - s.start := by
      simp only [Span.stop, Span.later]
      omega
    rw [TreeBuilder.rangeSlot, TreeBuilder.rangeSlot, TextSlot.borrowed, TextSlot.borrowed, hlength,
      TextSlot.joined, ← UInt32.ofNat_add]
    rfl

end LoadTarget.Joined

namespace Transcript

/-- How the load of a fragment with `size` bytes ends, and where. -/
def outcome (t : Transcript) (size : Nat) : LoadFault :=
  t.fault.elim ⟨.ok, 0⟩ fun fault => ⟨fault.status, min fault.offset (size - 1)⟩

theorem outcome_later (t : Transcript) (es : List LoadEvent) {k size : Nat} (hsize : 0 < size) :
    (((t.later k).after es).outcome (k + size)).status = (t.outcome size).status ∧
      ((t.outcome size).status ≠ .ok →
        (((t.later k).after es).outcome (k + size)).offset = (t.outcome size).offset + k) := by
  obtain ⟨events, fault⟩ := t
  cases fault with
  | none => exact ⟨rfl, fun h => absurd rfl h⟩
  | some fault =>
    refine ⟨rfl, fun _ => ?_⟩
    show min (fault.offset + k) (k + size - 1) = min fault.offset (size - 1) + k
    omega

end Transcript

namespace Document

variable {doc : Document} {options : ParseOptions}

/-- A fragment is loaded below the document node. -/
theorem loadBelow_fragment (hfragment : options.contains .fragment = true) {base : NodeId}
    (hbase : doc.kind base = .document) (text : String) :
    let start : TreeBuilder := ⟨{ doc with texts := (doc.texts.addBuffer text).2 }, [], base⟩
    let target : LoadTarget := ⟨base, (doc.texts.addBuffer text).1, options⟩
    let done := start.carriedOut target (Transcript.ofText ⟨options, true⟩ text.toList)
    doc.loadBelow base text options =
      (done.outcome text.utf8ByteSize,
        (done.events.foldl (TreeBuilder.after target) start).doc) := by
  intro start target done
  have hmode : (doc.kind base == .document) = true := by
    rw [hbase]
    rfl
  have hloaded := loadBelow_eq doc base text options
  simp only [hmode, hfragment, Bool.true_or, Bool.or_true, if_true] at hloaded
  refine hloaded.trans (Prod.ext ?_ rfl)
  unfold Transcript.outcome
  cases done.fault with
  | some fault => rfl
  | none => rfl

/-- A fragment replaces the content of a document. -/
theorem loadString_fragment (into : Document) (hfragment : options.contains .fragment = true)
    (text : String) :
    let target : LoadTarget := ⟨into.reset.root, 0, options⟩
    let done := (into.loadStarted text).carriedOut target
      (Transcript.ofText ⟨options, true⟩ text.toList)
    let outcome := done.outcome text.utf8ByteSize
    into.loadString text options = (⟨outcome.status, outcome.offset, .utf8⟩,
      (done.events.foldl (TreeBuilder.after target) (into.loadStarted text)).doc) := by
  have hroot : into.reset.kind into.reset.root = .document := kind_loadStart into text
  rw [loadString, loadBelow_fragment hfragment hroot]
  rfl

/-- A fragment is added below the document node. -/
theorem appendBytes_fragment (hfragment : options.contains .fragment = true) {base : NodeId}
    (hbase : doc.kind base = .document) {text : String} (hbegins : "<".toList <+: text.toList) :
    let start : TreeBuilder :=
      ⟨{ doc.forgetOrder with texts := (doc.texts.addBuffer text).2 }, [], base⟩
    let target : LoadTarget := ⟨base, doc.texts.buffers.size, options⟩
    let done := start.carriedOut target (Transcript.ofText ⟨options, true⟩ text.toList)
    let outcome := done.outcome text.utf8ByteSize
    doc.appendBytes base (Encoding.utf8.encode text) options .utf8 =
      (⟨outcome.status, outcome.offset, .utf8⟩,
        (done.events.foldl (TreeBuilder.after target) start).doc) := by
  have hdecode : Encoding.utf8.decodeLossy (Encoding.utf8.encode text) = text := by
    obtain ⟨rest, hrest⟩ := hbegins
    have hwithout : Encoding.withoutMark text.toList = text.toList := by
      rw [← hrest]
      rfl
    rw [Encoding.decodeLossy_encode (by decide), hwithout, String.ofList_toList]
  have hbase' : doc.forgetOrder.kind base = .document := hbase
  have hinput : Encoding.utf8.forInput (Encoding.utf8.encode text) = .utf8 := rfl
  have hchildren : NodeKind.document.hasChildren = true := rfl
  rw [appendBytes, hbase, if_pos hchildren]
  simp only [hinput, hdecode, loadBelow_fragment hfragment hbase']
  rfl

/-- A text that is read to its end leaves nothing open: the builder stands at the document
node. -/
theorem building_of_read (into : Document) {text : String}
    (hread : (Transcript.ofText ⟨options, true⟩ text.toList).fault = none) :
    let b := (Transcript.ofText ⟨options, true⟩ text.toList).events.foldl
      (TreeBuilder.after ⟨into.reset.root, 0, options⟩) (into.loadStarted text)
    b.openNodes = [] ∧ b.doc.kind into.reset.root = .document ∧ b.doc.root = into.reset.root := by
  intro b
  have hstart : Building true ⟨into.reset.root, 0, options⟩ (into.loadStarted text) ⟨0, false⟩ :=
    .start ((whole_reset into).sameShape (.ofTexts _)) (kind_root_reset into)
      fun _ => kind_loadStart into text
  have hdone := hstart.foldl_add (Transcript.ofText_fits ⟨options, true⟩ text.toList)
  have hdepth := Reader.readAll_closes ⟨options, true⟩ [] (.ofText text.toList) false hread
  have hkind := hdone.document rfl
  refine ⟨List.eq_nil_of_length_eq_zero (hdone.depth.trans hdepth), hkind, ?_⟩
  exact (hdone.whole.eq_root hkind).symm

/-- After the first text, the builder of the second one stands at the document node, where the
builder of the joined text stands too. -/
theorem joined_seam (into : Document) {a b : String} (hsize : (a ++ b).utf8ByteSize < 2 ^ 32)
    (hread : (Transcript.ofText ⟨options, true⟩ a.toList).fault = none) :
    let first := Transcript.ofText ⟨options, true⟩ a.toList
    let target : LoadTarget := ⟨into.reset.root, 0, options⟩
    let doc := (first.events.foldl (TreeBuilder.after target) (into.loadStarted a)).doc
    ((into.loadStarted (a ++ b)).heeded target first.events).1 =
        ((into.loadStarted a).heeded target first.events).1 ∧
      doc.texts.buffers.size = 1 ∧
      TreeBuilder.Joined a b [a, b] false
        ⟨{ doc.forgetOrder with texts := (doc.texts.addBuffer b).2 }, [], into.reset.root⟩
        (first.events.foldl (TreeBuilder.after target) (into.loadStarted (a ++ b))) := by
  intro first target doc
  have hstart : TreeBuilder.Joined a b [a] false (into.loadStarted a)
      (into.loadStarted (a ++ b)) := ⟨.start into hsize, rfl, nofun⟩
  have hfits := Transcript.ofText_fits ⟨options, true⟩ a.toList
  have hwithin := Transcript.ofText_within ⟨options, true⟩ a.toList
  have hplaces : first.events.map (·.later 0) = first.events := by simp
  have hheeded := TreeBuilder.Joined.heeded (p := ⟨0, false⟩)
    (.ofFirst into.reset.root options hsize) hstart hfits hwithin
  have hfirst := TreeBuilder.Joined.foldl_add (p := ⟨0, false⟩)
    (.ofFirst into.reset.root options hsize) hstart hfits hwithin
  rw [hplaces] at hheeded hfirst
  obtain ⟨hopen, -, -⟩ := building_of_read into hread
  refine ⟨?_, ?_, hfirst.doc.loadSecond, hfirst.openNodes.trans hopen, nofun⟩
  · rw [hheeded]
    cases ((into.loadStarted a).heeded target first.events).1 <;> rfl
  · rw [← Array.length_toList]
    exact congrArg List.length hfirst.doc.texts.buffers

/-- Events of the first text and then those of the second make the same document, and end in the
same way, whether the texts are loaded one after the other or as one. -/
theorem joined_carriedOut (into : Document) {a b : String}
    (hsize : (a ++ b).utf8ByteSize < 2 ^ 32)
    (hread : (Transcript.ofText ⟨options, true⟩ a.toList).fault = none)
    (hheeded : ((into.loadStarted a).heeded ⟨into.reset.root, 0, options⟩
      (Transcript.ofText ⟨options, true⟩ a.toList).events).1 = none) :
    let first := Transcript.ofText ⟨options, true⟩ a.toList
    let second := Transcript.ofText ⟨options, true⟩ b.toList
    let target : LoadTarget := ⟨into.reset.root, 0, options⟩
    let doc := (first.events.foldl (TreeBuilder.after target) (into.loadStarted a)).doc
    let target' : LoadTarget := ⟨into.reset.root, doc.texts.buffers.size, options⟩
    let start : TreeBuilder :=
      ⟨{ doc.forgetOrder with texts := (doc.texts.addBuffer b).2 }, [], into.reset.root⟩
    let done := start.carriedOut target' second
    let whole := (into.loadStarted (a ++ b)).carriedOut target
      ((second.later a.utf8ByteSize).after first.events)
    whole = (done.later a.utf8ByteSize).after first.events ∧
      Joined a b [a, b] (done.events.foldl (TreeBuilder.after target') start).doc
        (whole.events.foldl (TreeBuilder.after target) (into.loadStarted (a ++ b))).doc := by
  intro first second target doc target' start done whole
  obtain ⟨hsame, hbuffer, hseam⟩ := joined_seam into hsize hread
  have hbuffer' : target' = ⟨into.reset.root, 1, options⟩ := by
    show (⟨_, doc.texts.buffers.size, _⟩ : LoadTarget) = _
    rw [hbuffer]
  have hjoined : LoadTarget.Joined a b [a, b] b.toList a.utf8ByteSize target' target := by
    rw [hbuffer']
    exact .ofSecond into.reset.root options hsize
  have hfits := Transcript.ofText_fits ⟨options, true⟩ b.toList
  have hwithin := Transcript.ofText_within ⟨options, true⟩ b.toList
  have hcut : LoadEvent.CutShort done.events second.events :=
    TreeBuilder.heeded_cutShort target' start second.events
  have hwhole : whole = (done.later a.utf8ByteSize).after first.events := by
    have hafter : whole = _ := Transcript.heeded_after (hsame.trans hheeded)
    rw [hafter]
    exact congrArg (Transcript.after · first.events)
      (hseam.carriedOut hjoined (p := ⟨0, false⟩) hfits hwithin)
  refine ⟨hwhole, ?_⟩
  rw [hwhole]
  show Joined a b [a, b] _ ((first.events ++
    done.events.map (LoadEvent.later a.utf8ByteSize)).foldl (TreeBuilder.after target)
      (into.loadStarted (a ++ b))).doc
  rw [List.foldl_append]
  refine (hseam.foldl_add hjoined (p := ⟨0, false⟩) (hcut.fits hfits) ?_).doc
  exact hcut.forall_mem (fun _ _ hraw => ⟨hraw.1, nofun⟩) hwithin

/-- Loading a text in two parts, the second of which begins with a tag that is no end tag, comes
to the same as loading it at once: the status, the place of a fault, and the tree, which may be
a partial one. -/
theorem loadString_append (into : Document) {a b : String}
    (hfragment : options.contains .fragment = true)
    (haccepted : (into.loadString a options).1.status = .ok) (hbegins : "<".toList <+: b.toList)
    (hclosing : ¬ "</".toList <+: b.toList) (hsize : (a ++ b).utf8ByteSize < 2 ^ 32) :
    let first := into.loadString a options
    let second := first.2.appendBytes first.2.root (Encoding.utf8.encode b) options .utf8
    let whole := into.loadString (a ++ b) options
    second.1.status = whole.1.status ∧
      (whole.1.status ≠ .ok → whole.1.offset = second.1.offset + a.utf8ByteSize) ∧
      second.2.tree second.2.root = whole.2.tree whole.2.root := by
  intro first second whole
  let mode : ReaderMode := ⟨options, true⟩
  have hread : (Transcript.ofText mode a.toList).fault = none := (read_of_ok into haccepted).1
  have hheeded : ((into.loadStarted a).heeded ⟨into.reset.root, 0, options⟩
      (Transcript.ofText mode a.toList).events).1 = none := (read_of_ok into haccepted).2
  have happend : Transcript.ofText mode (a ++ b).toList =
      ((Transcript.ofText mode b.toList).later a.utf8ByteSize).after
        (Transcript.ofText mode a.toList).events := by
    rw [String.toList_append, ← byteSize_toList]
    refine Transcript.ofText_append ?_ (beginsWith_eq_false hclosing) hread
    obtain ⟨rest, hrest⟩ := hbegins
    rw [← hrest]
    rintro d ⟨⟩
    rfl
  obtain ⟨-, hkind, hroot⟩ := building_of_read into hread
  let doc : Document := ((Transcript.ofText mode a.toList).events.foldl
    (TreeBuilder.after ⟨into.reset.root, 0, options⟩) (into.loadStarted a)).doc
  have hfirst : first.2 = doc := by
    have hloaded : first.2 = _ := congrArg Prod.snd (loadString_fragment into hfragment a)
    rw [hloaded, TreeBuilder.carriedOut, Transcript.heeded_eq_self hheeded]
  have hsecond : second =
      doc.appendBytes into.reset.root (Encoding.utf8.encode b) options .utf8 := by
    have hbase : doc.root = into.reset.root := hroot
    show first.2.appendBytes first.2.root _ _ _ = _
    rw [hfirst, hbase]
  have hbase : doc.kind into.reset.root = .document := hkind
  have hwhole : whole = _ := loadString_fragment into hfragment (a ++ b)
  obtain ⟨hdone, hjoined⟩ := joined_carriedOut into hsize hread hheeded
  rw [hdone] at hjoined
  have hbytes : 0 < b.utf8ByteSize := by
    obtain ⟨rest, hrest⟩ := hbegins
    rw [← byteSize_toList, ← hrest, byteSize_append]
    exact Nat.add_pos_left (by decide) _
  obtain ⟨hstatus, hoffset⟩ := Transcript.outcome_later _
    (Transcript.ofText mode a.toList).events (k := a.utf8ByteSize) hbytes
  rw [hsecond, appendBytes_fragment hfragment hbase hbegins, hwhole, happend, hdone,
    String.utf8ByteSize_append]
  refine ⟨hstatus.symm, fun h => hoffset (hstatus ▸ h), ?_⟩
  exact (hjoined.tree_eq _).symm.trans (congrArg (Document.tree _) hjoined.root.symm)

/-- Text is joined across the seam, and what stood there before a fault is in both trees. -/
theorem loadString_seam :
    let options := (ParseOptions.default.union .fragment).union .mergePcdata
    let first := new.loadString "<a k='v'/>x" options
    let second := first.2.appendBytes first.2.root (Encoding.utf8.encode "<!--c-->y<b>&lt;</c>")
      options .utf8
    let whole := new.loadString "<a k='v'/>x<!--c-->y<b>&lt;</c>" options
    second.1.status = .endElementMismatch ∧ second.1.offset = 18 ∧ whole.1.offset = 29 ∧
      (second.2.children second.2.root).map second.2.value = ["", "xy", ""] ∧
      second.2.tree second.2.root = whole.2.tree whole.2.root := by
  obtain ⟨-, -, htree⟩ := loadString_append new
    (show (((ParseOptions.default.union .fragment).union .mergePcdata).contains .fragment) = true by
      decide)
    (show (new.loadString "<a k='v'/>x" _).1.status = .ok by decide +kernel)
    (b := "<!--c-->y<b>&lt;</c>") (by decide) (by decide) (by decide +kernel)
  exact ⟨by decide +kernel, by decide +kernel, by decide +kernel, by decide +kernel, htree⟩

end Document

end XmlTree
