/-
  Proofs/Announcing.lean --- what saved bytes tell about their encoding.

  WHAT THIS FILE IS FOR.  Bytes can be loaded without saying what they are encoded in; it is
  then found from the bytes themselves.  A byte order mark tells it, and so do the null bytes
  of wide units beside the first `<`.  Without either, bytes are taken for UTF-8 unless a
  declaration at their front names Latin-1.

  WHOSE DECLARATION.  A document without a declaration gets one when it is saved, and it says
  what is true.  A declaration that the document has is written as it is, whatever encoding the
  bytes are in.  So it may name Latin-1 where the bytes are UTF-8, or not name it where they
  are Latin-1.  The text is then found only if it is ASCII.

  WHERE IT STANDS.  What tells the encoding is looked for at the very front.  A declaration
  behind a comment is one that the document has, so no other is added, and nobody finds it.  An
  instruction at the front that begins like a declaration, as `<?xml-stylesheet` does, is taken
  for one.
-/
import Mathlib.Data.String.Basic
import XmlTree.Proofs.Declaring

set_option autoImplicit false

namespace XmlTree

namespace Encoding

/-! ## The two encodings that a declaration decides between -/

/-- A character takes one byte of UTF-8 if it is one of ASCII, and more otherwise. -/
theorem one_lt_length_utf8Bytes {c : Char} (h : ¬ c.toNat < 128) : 1 < (utf8Bytes c).length := by
  unfold utf8Bytes
  simp only [h, if_false]
  split
  · exact Nat.one_lt_two
  · split
    · exact Nat.succ_lt_succ (Nat.succ_pos 1)
    · exact Nat.succ_lt_succ (Nat.succ_pos 2)

theorem ofScalar_cases (n : Nat) {width size : Nat} (hlow : 1 < width) (hhigh : width ≤ size) :
    (∃ k, Segment.ofScalar n width = .malformed k) ∨
      ∃ c k, Segment.ofScalar n width = .char c k ∧ 1 < k ∧ k ≤ size := by
  unfold Segment.ofScalar
  split
  · exact .inr ⟨_, _, rfl, hlow, hhigh⟩
  · exact .inl ⟨_, rfl⟩

/-- A byte below 128 is a character of its own in UTF-8; any other one begins a longer character
or none. -/
theorem utf8Segment_cases (lead : UInt8) (rest : Bytes) :
    lead.toNat < 128 ∧ utf8Segment lead rest = .char (latin1Char lead) 1 ∨
      128 ≤ lead.toNat ∧ ((∃ n, utf8Segment lead rest = .malformed n) ∨
        ∃ c n, utf8Segment lead rest = .char c n ∧ 1 < n ∧ n ≤ rest.length + 1) := by
  by_cases hsmall : lead < 0x80
  · exact .inl ⟨UInt8.lt_iff_toNat_lt.1 hsmall, if_pos hsmall⟩
  · refine .inr ⟨Nat.le_of_not_lt fun h => hsmall (UInt8.lt_iff_toNat_lt.2 h), ?_⟩
    -- by the lead byte, and by how many of the bytes that it asks for follow it
    fun_cases utf8Segment lead rest
    all_goals first
      | contradiction
      | exact .inl ⟨_, rfl⟩
      | exact ofScalar_cases _ (by decide) (by simp only [List.length_cons]; omega)

theorem length_segments_le (e : Encoding) (bytes : Bytes) :
    (e.segments bytes).length ≤ bytes.length := by
  induction bytes using segments.induct e with
  | case1 => simp [segments]
  | case2 first rest s ih =>
    rw [segments, List.length_cons, List.length_cons]
    refine Nat.succ_le_succ (Nat.le_trans ih ?_)
    rw [List.length_drop]
    exact Nat.sub_le _ _

theorem length_le_misread (cs : List Char) : cs.length ≤ (misread cs).length := by
  induction cs with
  | nil => exact Nat.le_refl _
  | cons c cs ih =>
    have hpos : 0 < (misread [c]).length :=
      List.length_pos_iff.2 fun hnil => List.cons_ne_nil c [] (misread_eq_nil hnil)
    rw [misread_cons, List.length_append, List.length_cons]
    omega

/-- What is UTF-8 is read as it was meant in Latin-1 if it is ASCII, and not otherwise. -/
theorem misread_eq_self_iff (cs : List Char) : misread cs = cs ↔ Ascii cs := by
  refine ⟨fun h => ?_, misread_ascii⟩
  induction cs with
  | nil => exact List.forall_mem_nil _
  | cons c cs ih =>
    rw [misread_cons] at h
    by_cases hc : c.toNat < 128
    · rw [misread_singleton hc] at h
      exact List.forall_mem_cons.2 ⟨hc, ih (List.cons.inj h).2⟩
    · -- a longer character is read as more than one
      have hlong : 1 < (misread [c]).length := by
        rw [misread, List.length_map, List.flatMap_singleton]
        exact one_lt_length_utf8Bytes hc
      have htotal := congrArg List.length h
      have hrest := length_le_misread cs
      rw [List.length_append, List.length_cons] at htotal
      omega

/-- What is Latin-1 is read as it was meant in UTF-8 if it is ASCII, and not otherwise. -/
theorem segments_utf8_latin1 {cs : List Char} (h : Narrow cs) :
    (utf8.segments (cs.map latin1Byte)).map Segment.charOrReplacement = cs ↔ Ascii cs := by
  induction cs with
  | nil => simp [segments, Ascii]
  | cons c cs ih =>
    obtain ⟨hc, hrest⟩ := List.forall_mem_cons.1 h
    have hhere : utf8.segment (latin1Byte c) (cs.map latin1Byte) =
        utf8Segment (latin1Byte c) (cs.map latin1Byte) := rfl
    have hcons : Ascii (c :: cs) ↔ c.toNat < 128 ∧ Ascii cs := List.forall_mem_cons
    rw [List.map_cons, segments, hhere, List.map_cons, hcons]
    have hbyte : (latin1Byte c).toNat = c.toNat := by
      rw [latin1Byte, if_pos hc, toNat_ofNat_of_lt hc]
    obtain ⟨hsmall, hsegment⟩ | ⟨hlarge, ⟨n, hsegment⟩ | ⟨d, n, hsegment, hlow, hhigh⟩⟩ :=
      utf8Segment_cases (latin1Byte c) (cs.map latin1Byte)
    · have hchar : latin1Char (latin1Byte c) = c := by
        rw [latin1Char_latin1Byte, narrow_of_lt hc]
      rw [hbyte] at hsmall
      rw [hsegment]
      simp only [Segment.charOrReplacement, hchar, Segment.width, Nat.sub_self, List.drop_zero,
        List.cons.injEq, true_and, hsmall, ih hrest]
    · rw [hsegment]
      refine iff_of_false (fun heq => ?_) fun hascii => by omega
      have hreplaced : '\uFFFD' = c := (List.cons.inj heq).1
      rw [← hreplaced] at hc
      exact absurd hc (by decide)
    · -- a longer character leaves fewer characters than there are bytes
      rw [hsegment]
      refine iff_of_false (fun heq => ?_) fun hascii => by omega
      have hlength := congrArg List.length (List.cons.inj heq).2
      have hle := utf8.length_segments_le ((cs.map latin1Byte).drop (n - 1))
      have hwidth : (Segment.char d n).width = n := rfl
      rw [List.length_map, hwidth] at hlength
      rw [hlength, List.length_drop, List.length_map] at hle
      rw [List.length_map] at hhigh
      omega

/-! ## What is found at the front -/

/-- The text begins with a construct other than an element. -/
def BeginsConstruct (cs : List Char) : Prop :=
  ∃ c rest, cs = '<' :: c :: rest ∧ (c = '?' ∨ c = '!')

theorem BeginsConstruct.beginsTag {cs : List Char} (h : BeginsConstruct cs) : BeginsTag cs := by
  obtain ⟨c, rest, hbegins, hc⟩ := h
  refine ⟨c :: rest, hbegins, fun hnull => ?_⟩
  obtain rfl : c = '\x00' := Option.some.inj hnull
  obtain hc | hc := hc <;> cases hc

variable {e : Encoding} {text : String}

/-- Without a mark and wide units, the declaration decides. -/
theorem detect_narrow (he : e = utf8 ∨ e = latin1) (h : BeginsConstruct text.toList) :
    detect (e.encode text) = if declaresLatin1 (e.encode text) then latin1 else utf8 := by
  obtain ⟨c, rest, hbegins, hc⟩ := h
  rw [encode, hbegins]
  obtain rfl | rfl := he <;> obtain rfl | rfl := hc <;> rfl

/-- The text that bytes are taken for when nobody says what they are encoded in. -/
def sniffed (bytes : Bytes) : String := (auto.forInput bytes).decodeLossy bytes

theorem sniffed_eq {bytes : Bytes} (h : detect bytes = e) : sniffed bytes = e.decodeLossy bytes :=
  congrArg (decodeLossy · bytes) h

/-! ## What a text that begins so is taken for -/

theorem sniffed_marked (he : e.forOutput = e) (hlatin : e ≠ latin1)
    (h : BeginsConstruct text.toList) : sniffed (e.byteOrderMark ++ e.encode text) = text := by
  rw [sniffed_eq (detect_marked he hlatin h.beginsTag)]
  exact decodeLossy_marked hlatin text

theorem sniffed_wide (he : e.forOutput = e) (hlatin : e ≠ latin1) (hutf8 : e ≠ utf8)
    (h : BeginsConstruct text.toList) : sniffed (e.encode text) = text := by
  rw [sniffed_eq (detect_unmarked_wide he hlatin hutf8 h.beginsTag)]
  exact decodeLossy_unmarked hlatin h.beginsTag

/-- What is UTF-8 is found if no declaration names Latin-1, or if both read the same. -/
theorem sniffed_utf8 (h : BeginsConstruct text.toList) :
    sniffed (utf8.encode text) = text ↔
      declaresLatin1 (utf8.encode text) = false ∨ Ascii text.toList := by
  have hdetect := detect_narrow (.inl rfl) h
  cases hdeclares : declaresLatin1 (utf8.encode text) with
  | false =>
    rw [hdeclares] at hdetect
    rw [sniffed_eq hdetect]
    exact iff_of_true (decodeLossy_unmarked (by decide) h.beginsTag) (.inl rfl)
  | true =>
    have hread : latin1.decodeLossy (utf8.encode text) = String.ofList (misread text.toList) :=
      latin1_decodeLossy (utf8.encode text)
    rw [hdeclares] at hdetect
    rw [sniffed_eq hdetect, if_pos rfl, hread, String.ofList_eq, misread_eq_self_iff]
    simp

/-- What is Latin-1 is found if a declaration names it, or if both read the same. -/
theorem sniffed_latin1 (h : BeginsConstruct text.toList) (hnarrow : Narrow text.toList) :
    sniffed (latin1.encode text) = text ↔
      declaresLatin1 (latin1.encode text) = true ∨ Ascii text.toList := by
  have hdetect := detect_narrow (.inr rfl) h
  cases hdeclares : declaresLatin1 (latin1.encode text) with
  | true =>
    rw [hdeclares] at hdetect
    rw [sniffed_eq hdetect, if_pos rfl, decodeLossy_latin1, narrowText, map_narrow hnarrow,
      String.ofList_toList]
    simp
  | false =>
    have hbytes : latin1.encode text = text.toList.map latin1Byte := List.map_eq_flatMap.symm
    have hmark : utf8.dropByteOrderMark (text.toList.map latin1Byte) =
        text.toList.map latin1Byte := by
      obtain ⟨c, rest, hbegins, -⟩ := h
      rw [hbegins]
      rfl
    rw [hdeclares] at hdetect
    rw [sniffed_eq hdetect, if_neg (by decide), decodeLossy_eq, hbytes, hmark,
      String.ofList_eq, segments_utf8_latin1 hnarrow]
    simp

/-- Without wide units, what is written is found if its bytes declare what they are in. -/
theorem sniffed_narrow (he : e = utf8 ∨ e = latin1) (h : BeginsConstruct text.toList)
    (hnarrow : e = latin1 → Narrow text.toList) :
    sniffed (e.encode text) = text ↔
      (declaresLatin1 (e.encode text) = true ↔ e = latin1) ∨ Ascii text.toList := by
  obtain rfl | rfl := he
  · rw [sniffed_utf8 h, ← Bool.not_eq_true, iff_false_right (by decide : ¬ utf8 = latin1)]
  · rw [sniffed_latin1 h (hnarrow rfl), iff_true_right rfl]

end Encoding

/-- A declaration is written on one line. -/
theorem MarkupStyle.has_raw_flat (style : MarkupStyle) :
    style.flat.has .raw = true := by
  have hbits : style.flat.options.bits &&& FormatOptions.raw.bits = FormatOptions.raw.bits := by
    refine UInt32.toBitVec_inj.1 (BitVec.eq_of_getElem_eq fun i hi => ?_)
    simp only [MarkupStyle.flat, FormatOptions.union, UInt32.toBitVec_and, UInt32.toBitVec_or,
      BitVec.getElem_and, BitVec.getElem_or]
    cases style.options.bits.toBitVec[i] <;> simp
  exact beq_iff_eq.2 hbits

namespace Document

variable {doc : Document}

/-! ## How a text begins -/

open Encoding (BeginsConstruct)

theorem declaration_begins (options : FormatOptions) (e : Encoding) (more : List Char) :
    BeginsConstruct (spelled (declarationPieces options e) ++ more) :=
  ⟨_, _, rfl, .inl rfl⟩

/-- A declaration that is added names Latin-1 if that is what the bytes are in. -/
theorem declaresLatin1_added (options : FormatOptions) {e : Encoding} (he : e = .utf8 ∨ e = .latin1)
    (more : List Char) :
    Encoding.declaresLatin1 ((spelled (declarationPieces options e) ++ more).flatMap e.encodeChar) =
      decide (e = .latin1) := by
  obtain rfl | rfl := he <;> rfl

/-- What stands at the top, other than an element and character data, is written as a construct
of its own. -/
theorem leaf_begins (style : MarkupStyle) {l : TreeLabel}
    (hallowed : NodeKind.document.allowsChild l.kind = true) (helement : l.kind ≠ .element)
    (hpcdata : l.kind ≠ .pcdata) (more : List Char) :
    BeginsConstruct (spelled (leafPieces style l) ++ more) := by
  unfold leafPieces
  cases hl : l.kind with
  | element => exact absurd hl helement
  | pcdata => exact absurd hl hpcdata
  | null | document => simp [hl, NodeKind.allowsChild] at hallowed
  | cdata =>
    unfold cdataPieces
    simp only
    split <;> exact ⟨_, _, rfl, .inr rfl⟩
  | comment | doctype => exact ⟨_, _, rfl, .inr rfl⟩
  | pi | declaration => exact ⟨_, _, rfl, .inl rfl⟩

/-- No indentation stands before the first tree. -/
theorem spelled_indentation_zero (style : MarkupStyle) : spelled (indentation style 0) = [] := by
  unfold indentation
  split <;> rfl

/-- A tree without children at the top is written as its node, with the others behind it. -/
theorem spelled_first (style : MarkupStyle) {t : Tree}
    (hallowed : NodeKind.document.allowsChild t.label.kind = true)
    (helement : t.label.kind ≠ .element) (tail : List String) :
    spelled (t.pieces style 0 .indented tail) =
      spelled (leafPieces style t.label) ++ spelled tail := by
  obtain ⟨l, children⟩ := t
  rw [Tree.pieces]
  simp only [Tree.label] at hallowed helement ⊢
  cases hl : l.kind with
  | element => exact absurd hl helement
  | null | document => simp [hl, NodeKind.allowsChild] at hallowed
  | pcdata | cdata => simp only [spelled_append]
  | comment | doctype | pi | declaration =>
    simp only [spelled_append, Gap.pieces, spelled_indentation_zero, List.nil_append]

/-- Where a declaration stands before the first element, a construct other than an element
stands first. -/
theorem exists_first_of_hasDeclaration (hdeclaration : doc.hasDeclaration = true) :
    ∃ c cs, doc.children doc.root = c :: cs ∧ doc.kind c ≠ .element := by
  unfold hasDeclaration at hdeclaration
  cases hchildren : doc.children doc.root with
  | nil => simp [hchildren] at hdeclaration
  | cons c cs =>
    refine ⟨c, cs, rfl, fun helement => ?_⟩
    simp [hchildren, helement] at hdeclaration

/-- A document with a declaration is written as its first node, which is not an element, and the
others behind it. -/
theorem exists_first_written (h : Whole doc) (hdeclaration : doc.hasDeclaration = true)
    (indent : String) (options : FormatOptions) (e : Encoding) :
    ∃ c cs more, doc.children doc.root = c :: cs ∧
      NodeKind.document.allowsChild (doc.labelOf c).kind = true ∧
      (doc.labelOf c).kind ≠ .element ∧ (doc.writtenText indent options e).toList =
        spelled (leafPieces (.ofOptions indent options) (doc.labelOf c)) ++ more := by
  obtain ⟨lay, hrooted⟩ := h
  obtain ⟨c, cs, hchildren, helement⟩ := exists_first_of_hasDeclaration hdeclaration
  have hparent : doc.parent? c = some doc.root :=
    hrooted.toLaidOut.mem_children.1 (hchildren ▸ List.mem_cons_self)
  have hlabel : (doc.tree c).label = doc.labelOf c := by
    rw [hrooted.toLaidOut.tree_eq (contains_of_parent? hparent)]
    rfl
  have hallowed : NodeKind.document.allowsChild (doc.kind c) = true := by
    rw [← hrooted.root_kind]
    exact hrooted.allowed hparent
  have hroot : (doc.labelOf doc.root).kind = .document := by
    rw [kind_labelOf, hrooted.root_kind]
  rw [← kind_labelOf] at hallowed helement
  refine ⟨c, cs, ?_⟩
  rw [toList_writtenText, addedDeclaration, hdeclaration,
    hrooted.toLaidOut.tree_eq hrooted.contains_root, hchildren, List.map_cons,
    Tree.markupPieces, Tree.pieces, hroot]
  simp only [Bool.not_true, Bool.and_false, Bool.false_eq_true, if_false, spelled_nil,
    List.nil_append, spelled_append, Gap.pieces, spelled_indentation_zero, Tree.allPieces]
  rw [spelled_first _ (hlabel ▸ hallowed) (hlabel ▸ helement), hlabel]
  exact ⟨_, trivial, hallowed, helement, rfl⟩

/-- A document without character data at the top is written with a construct other than an
element first, its own or the declaration that is added. -/
theorem writtenText_begins (h : Whole doc)
    (hpcdata : ∀ c ∈ doc.children doc.root, doc.kind c ≠ .pcdata) (indent : String)
    {options : FormatOptions} (hoptions : options.contains .noDeclaration = false)
    (e : Encoding) : BeginsConstruct (doc.writtenText indent options e).toList := by
  cases hdeclaration : doc.hasDeclaration with
  | false =>
    rw [toList_writtenText, addedDeclaration, hoptions, hdeclaration]
    exact declaration_begins _ _ _
  | true =>
    obtain ⟨c, cs, more, hchildren, hallowed, helement, htext⟩ :=
      exists_first_written h hdeclaration indent options e
    have hkind : (doc.labelOf c).kind ≠ .pcdata := by
      rw [kind_labelOf]
      exact hpcdata c (hchildren ▸ List.mem_cons_self)
    rw [htext]
    exact leaf_begins _ hallowed helement hkind more

/-! ## What the first node says -/

/-- An instruction and a declaration are written with their end. -/
theorem infix_leaf (style : MarkupStyle) {l : TreeLabel}
    (hkind : l.kind = .declaration ∨ l.kind = .pi) :
    "?>".toList <:+: spelled (leafPieces style l) := by
  refine List.IsSuffix.isInfix ?_
  obtain hkind | hkind := hkind
  · simp only [leafPieces, hkind, spelled_cons, spelled_append, spelled_nil, List.append_nil,
      ← List.append_assoc]
    exact List.suffix_append _ _
  · simp only [leafPieces, hkind, spelled_cons, spelled_append, spelled_nil, List.append_nil,
      ← List.append_assoc]
    exact List.suffix_append _ _

/-- Only an instruction and a declaration say something, and it stands inside of them. -/
theorem saysLatin1_leaf (style : MarkupStyle) {l : TreeLabel}
    (hallowed : NodeKind.document.allowsChild l.kind = true) (helement : l.kind ≠ .element)
    (hpcdata : l.kind ≠ .pcdata) (more : List Char) :
    SaysLatin1 (spelled (leafPieces style l) ++ more) ↔
      (l.kind = .declaration ∨ l.kind = .pi) ∧ SaysLatin1 (spelled (leafPieces style l)) := by
  by_cases hkind : l.kind = .declaration ∨ l.kind = .pi
  · rw [saysLatin1_append (infix_leaf style hkind), and_iff_right hkind]
  · refine iff_of_false ?_ fun h => hkind h.1
    rintro ⟨⟨rest, hbegins⟩, -⟩
    -- the others begin with `<!`
    unfold leafPieces at hbegins
    cases hl : l.kind with
    | element => exact absurd hl helement
    | pcdata => exact absurd hl hpcdata
    | null | document => simp [hl, NodeKind.allowsChild] at hallowed
    | pi => exact hkind (.inr hl)
    | declaration => exact hkind (.inl hl)
    | comment | doctype =>
      rw [hl] at hbegins
      cases hbegins
    | cdata =>
      rw [hl] at hbegins
      unfold cdataPieces at hbegins
      simp only at hbegins
      split at hbegins <;> cases hbegins

/-- A value without characters of markup is written as it is. -/
theorem spelled_plain (style : MarkupStyle) (ctx : TextContext) {value : String}
    (h : ∀ c ∈ value.toList, needsEscape ctx c = false) :
    spelled (textPieces style ctx value) = value.toList := by
  cases hescapes : style.has .noEscapes with
  | true => simp [textPieces, hescapes]
  | false =>
    have hchar : ∀ c ∈ value.toList, escapedChar style ctx c = [c] := by
      intro c hc
      rw [escapedChar, h c hc]
      rfl
    rw [spelled_textPieces hescapes, escaped, List.flatMap_congr hchar, List.flatMap_singleton']

/-- A declaration says that the bytes are in Latin-1 if the value of its `encoding` does, where
nothing before that attribute has the word in it. -/
theorem saysLatin1_attribute (style : MarkupStyle) {l : TreeLabel} {as bs : List TreeAttribute}
    {value : String} (hkind : l.kind = .declaration) (hname : l.name = some "xml")
    (hattributes : l.attributes = as ++ ⟨some "encoding", some value⟩ :: bs)
    (hvalue : ∀ c ∈ value.toList, needsEscape .attribute c = false)
    (hword : ¬ "encoding".toList <:+:
      "<?xml".toList ++ spelled (attributesPieces style.flat 0 as) ++ [' '])
    (hmark : ¬ "?>".toList <:+:
      "<?xml".toList ++ spelled (attributesPieces style.flat 0 l.attributes)) :
    SaysLatin1 (spelled (leafPieces style l)) ↔ IsLatin1Name value.toList := by
  obtain ⟨quote, hquote, hkinds⟩ : ∃ quote, style.flat.quote = String.singleton quote ∧
      (quote = '"' ∨ quote = '\'') := by
    unfold MarkupStyle.quote
    split
    · exact ⟨'\'', rfl, .inr rfl⟩
    · exact ⟨'"', rfl, .inl rfl⟩
  have hraw := style.has_raw_flat
  have hattribute : spelled (attributePieces style.flat 0 ⟨some "encoding", some value⟩) =
      ' ' :: ("encoding".toList ++ '=' :: quote :: (value.toList ++ [quote])) := by
    simp only [attributePieces, hraw, Bool.not_true, Bool.and_false, Bool.false_eq_true, if_false,
      Option.elim_some, spelled_append, spelled_cons, spelled_nil, hquote, String.toList_singleton,
      spelled_plain style.flat .attribute hvalue]
    rfl
  have hleaf : spelled (leafPieces style l) =
      "<?xml".toList ++ spelled (attributesPieces style.flat 0 l.attributes) ++ "?>".toList := by
    simp only [leafPieces, hkind, hname, writtenName, Option.getD_some, spelled_cons,
      spelled_append, spelled_nil, List.append_nil]
    rfl
  have hnames : NamesEncoding
      ("<?xml".toList ++ spelled (attributesPieces style.flat 0 l.attributes)) value.toList := by
    refine ⟨_, ['='], quote, spelled (attributesPieces style.flat 0 bs), ?_, hword, ?_, hkinds, ?_⟩
    · rw [hattributes, attributesPieces, List.flatMap_append, List.flatMap_cons, spelled_append,
        spelled_append, hattribute]
      simp only [attributesPieces, List.append_assoc, List.cons_append, List.nil_append]
    · exact List.forall_mem_singleton.2 (.inr rfl)
    · intro hmem
      have hplain := hvalue quote hmem
      obtain rfl | rfl := hkinds <;> cases hplain
  constructor
  · rintro ⟨-, inside, after, name, htext, hfirst, hnames', hlatin⟩
    -- the first mark is the end of the declaration, so the two stand in the same text
    have hcut := cutAt?_append [] (by decide : Unbordered "?>".toList) hmark
    rw [List.append_nil, ← hleaf, htext, cutAt?_append after (by decide) hfirst] at hcut
    obtain ⟨rfl, -⟩ := Prod.mk.inj (Option.some.inj hcut)
    rwa [Encoding.namesEncoding_unique hnames hnames']
  · intro hlatin
    refine ⟨?_, _, [], value.toList, by rw [hleaf, List.append_nil], hmark, hnames, hlatin⟩
    rw [hleaf, List.append_assoc]
    exact List.prefix_append _ _

/-- The first node is a declaration, or an instruction, and says that the bytes are in Latin-1:
what is written for it begins with `<?xml`, and before the first `?>` has a name of Latin-1 in
quotes behind the first `encoding`. -/
def AnnouncesLatin1 (doc : Document) (indent : String) (options : FormatOptions) : Prop :=
  ∃ c cs, doc.children doc.root = c :: cs ∧ (doc.kind c = .declaration ∨ doc.kind c = .pi) ∧
    SaysLatin1 (spelled (leafPieces (.ofOptions indent options) (doc.labelOf c)))

/-- A document with a declaration says what its first node says. -/
theorem saysLatin1_written (h : Whole doc)
    (hpcdata : ∀ c ∈ doc.children doc.root, doc.kind c ≠ .pcdata)
    (hdeclaration : doc.hasDeclaration = true) (indent : String) (options : FormatOptions)
    (e : Encoding) : SaysLatin1 (doc.writtenText indent options e).toList ↔
      doc.AnnouncesLatin1 indent options := by
  obtain ⟨c, cs, more, hchildren, hallowed, helement, htext⟩ :=
    exists_first_written h hdeclaration indent options e
  have hkind : (doc.labelOf c).kind ≠ .pcdata := by
    rw [kind_labelOf]
    exact hpcdata c (hchildren ▸ List.mem_cons_self)
  rw [htext, saysLatin1_leaf _ hallowed helement hkind, kind_labelOf]
  constructor
  · rintro ⟨hfirst, hsays⟩
    exact ⟨c, cs, hchildren, hfirst, hsays⟩
  · rintro ⟨c', cs', hchildren', hfirst, hsays⟩
    rw [hchildren] at hchildren'
    obtain ⟨rfl, -⟩ := List.cons.inj hchildren'
    exact ⟨hfirst, hsays⟩

/-! ## What saved bytes are taken for -/

/-- A document is written with a declaration that names Latin-1 if the bytes are in it, unless it
has one of its own. -/
theorem declaresLatin1_written (indent : String) {options : FormatOptions}
    (hoptions : options.contains .noDeclaration = false) {e : Encoding}
    (he : e.forOutput = .utf8 ∨ e.forOutput = .latin1) (hdeclaration : doc.hasDeclaration = false) :
    Encoding.declaresLatin1 (e.forOutput.encode (doc.writtenText indent options e)) =
      decide (e.forOutput = .latin1) := by
  rw [Encoding.encode, toList_writtenText, addedDeclaration, hoptions, hdeclaration]
  exact declaresLatin1_added options he _

/-- What is written declares what it is in, unless the document has a declaration and its first node
announces something else. -/
theorem declaresLatin1_written_iff (h : Whole doc)
    (hpcdata : ∀ c ∈ doc.children doc.root, doc.kind c ≠ .pcdata) (indent : String)
    {options : FormatOptions} (hoptions : options.contains .noDeclaration = false) {e : Encoding}
    (he : e.forOutput = .utf8 ∨ e.forOutput = .latin1)
    (hnarrow : e.forOutput = .latin1 → Narrow (doc.writtenText indent options e).toList) :
    (Encoding.declaresLatin1 (e.forOutput.encode (doc.writtenText indent options e)) = true ↔
      e.forOutput = .latin1) ↔
        doc.hasDeclaration = false ∨
          (doc.AnnouncesLatin1 indent options ↔ e.forOutput = .latin1) := by
  cases hdeclaration : doc.hasDeclaration with
  | false =>
    rw [declaresLatin1_written indent hoptions he hdeclaration, decide_eq_true_iff]
    exact iff_of_true Iff.rfl (.inl rfl)
  | true =>
    rw [Encoding.declaresLatin1_encode he hnarrow,
      saysLatin1_written h hpcdata hdeclaration indent options e]
    simp only [Bool.true_eq_false, false_or]

/-- The bytes that are saved of a document without character data at the top are taken for the
text that they were written from, unless the document has a declaration of its own, nothing else in
the bytes tells the encoding, the text is not ASCII and what the first node announces is not so. -/
theorem Reachable.sniffed_save (h : Reachable doc)
    (hpcdata : ∀ c ∈ doc.children doc.root, doc.kind c ≠ .pcdata) (indent : String)
    {options : FormatOptions} (hoptions : options.contains .noDeclaration = false) {e : Encoding}
    (hnarrow : e = .latin1 → Narrow (doc.writtenText indent options e).toList) :
    let text := doc.writtenText indent options e
    let saved := doc.save Sink.bytes [] indent options e
    saved.1 = .ok () ∧
      (Encoding.sniffed saved.2 = text ↔
        doc.hasDeclaration = false ∨ Ascii text.toList ∨
          e.forOutput ≠ .latin1 ∧ (e.forOutput ≠ .utf8 ∨ options.contains .writeBom = true) ∨
          (doc.AnnouncesLatin1 indent options ↔ e = .latin1)) := by
  intro text saved
  have hbegins : BeginsConstruct text.toList :=
    writtenText_begins h.whole hpcdata indent hoptions e
  have hidem : e.forOutput.forOutput = e.forOutput := by cases e <;> rfl
  have hsaved : saved = (.ok (), writtenMark options e ++ e.forOutput.encode text) :=
    save_bytes_eq doc indent options e
  rw [hsaved]
  refine ⟨rfl, ?_⟩
  dsimp only
  by_cases hmark : options.contains .writeBom = true ∧ e.forOutput ≠ .latin1
  · obtain ⟨hbom, hlatin⟩ := hmark
    have hmarked : writtenMark options e = e.forOutput.byteOrderMark := by
      simp [writtenMark, hbom, hlatin]
    rw [hmarked]
    exact iff_of_true (Encoding.sniffed_marked hidem hlatin hbegins)
      (.inr (.inr (.inl ⟨hlatin, .inr hbom⟩)))
  have hunmarked : writtenMark options e = [] := by
    rw [writtenMark, if_neg]
    simpa using hmark
  rw [hunmarked, List.nil_append]
  by_cases hwide : e.forOutput ≠ .latin1 ∧ e.forOutput ≠ .utf8
  · exact iff_of_true (Encoding.sniffed_wide hidem hwide.1 hwide.2 hbegins)
      (.inr (.inr (.inl ⟨hwide.1, .inl hwide.2⟩)))
  have he : e.forOutput = .utf8 ∨ e.forOutput = .latin1 := by
    rw [← not_ne_iff, ← not_ne_iff, ← not_and_or, and_comm]
    exact hwide
  have hlatin : e.forOutput = .latin1 ↔ e = .latin1 := by cases e <;> decide
  have hnarrow' : e.forOutput = .latin1 → Narrow text.toList := fun he => hnarrow (hlatin.1 he)
  have hsilent : ¬ (e.forOutput ≠ .latin1 ∧
      (e.forOutput ≠ .utf8 ∨ options.contains .writeBom = true)) := by
    rintro ⟨hne, hutf8 | hbom⟩
    · exact hwide ⟨hne, hutf8⟩
    · exact hmark ⟨hbom, hne⟩
  rw [Encoding.sniffed_narrow he hbegins hnarrow',
    declaresLatin1_written_iff h.whole hpcdata indent hoptions he hnarrow', hlatin,
    or_iff_right hsilent]
  exact or_assoc.trans (or_congr_right or_comm)

/-- A declaration that names no encoding, before an element with a character beyond ASCII. -/
def undeclared : List Change :=
  [.insertElement ⟨⟨0, 1⟩⟩ "a" .last, .setContent ⟨⟨1, 1⟩⟩ "\u00E9",
    .insertChild ⟨⟨0, 1⟩⟩ .declaration .first]

/-- Saved in Latin-1 they are taken for UTF-8, and the character is lost. -/
theorem sniffed_undeclared :
    let doc := new.applyAll undeclared
    let text := doc.writtenText "" .raw .latin1
    let saved := doc.save Sink.bytes [] "" .raw .latin1
    Reachable doc ∧ (∀ c ∈ doc.children doc.root, doc.kind c ≠ .pcdata) ∧
      FormatOptions.raw.contains .noDeclaration = false ∧
      FormatOptions.raw.contains .noEscapes = false ∧ Narrow text.toList ∧
      saved.1 = .ok () ∧ text = "<?xml?><a>\u00E9</a>" ∧
      Encoding.sniffed saved.2 = "<?xml?><a>\uFFFD</a>" ∧ Encoding.sniffed saved.2 ≠ text :=
  ⟨Reachable.new.applyAll (by decide), by decide +kernel, by decide, by decide, by decide +kernel,
    by decide +kernel, by decide +kernel, by decide +kernel, by decide +kernel⟩

/-- With an encoding in the declaration they are taken for what they are. -/
theorem sniffed_declared :
    let doc := new.applyAll (undeclared ++ [.insertAttribute ⟨⟨3, 1⟩⟩ "encoding" "Latin1" .last])
    let text := doc.writtenText "" .raw .latin1
    let saved := doc.save Sink.bytes [] "" .raw .latin1
    text = "<?xml encoding=\"Latin1\"?><a>\u00E9</a>" ∧ saved.1 = .ok () ∧
      Encoding.sniffed saved.2 = text := by
  intro doc text saved
  have hreachable : Reachable doc := Reachable.new.applyAll (by decide)
  have hoptions : FormatOptions.raw.contains .noDeclaration = false := by decide
  have hannounced := hreachable.sniffed_save (by decide +kernel) "" hoptions
    (e := .latin1) fun _ => by decide +kernel
  have hsays : doc.AnnouncesLatin1 "" .raw := by
    have hattributes : (doc.labelOf ⟨⟨3, 1⟩⟩).attributes =
        [] ++ ⟨some "encoding", some "Latin1"⟩ :: [] := by decide +kernel
    have hplain : "Latin1".toList.all (fun c => !needsEscape .attribute c) = true := by decide
    have hvalue : ∀ c ∈ "Latin1".toList, needsEscape .attribute c = false := fun c hc => by
      simpa using List.all_eq_true.1 hplain c hc
    refine ⟨⟨⟨3, 1⟩⟩, [⟨⟨1, 1⟩⟩], by decide +kernel, .inl (by decide +kernel), ?_⟩
    exact (saysLatin1_attribute _ (by decide +kernel) (by decide +kernel) hattributes hvalue
      (by decide +kernel) (by decide +kernel)).2 (.inl (by decide +kernel))
  exact ⟨by decide +kernel, hannounced.1,
    hannounced.2.2 (.inr (.inr (.inr (iff_of_true hsays rfl))))⟩

end Document
end XmlTree
