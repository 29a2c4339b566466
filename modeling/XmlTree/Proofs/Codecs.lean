/-
  Proofs/Codecs.lean --- every encoding of all characters is read back.

  WHAT THIS FILE IS FOR.  In UTF-16 and UTF-32 a character is cut off by its units, as it is
  in UTF-8 by its lead byte.  So bytes that a text was written with are read as that text,
  in whichever of these encodings, with no malformed segment in it.

  THE MARK.  Reading takes one byte order mark off the front.  A text that begins with the
  character U+FEFF is therefore read without it: that character is written with the bytes of
  the mark.
-/
import XmlTree.Proofs.Utf8

set_option autoImplicit false

namespace XmlTree

namespace Encoding

/-! ## Units -/

/-- The two bytes of a unit give it back. -/
theorem exists_bytes16 (order : ByteOrder) {u : Nat} (h : u < 0x10000) :
    ∃ a b, order.bytes16 u = [a, b] ∧ order.unit16 a b = u := by
  have hlow : (UInt8.ofNat (u % 256)).toNat = u % 256 := toNat_ofNat_of_lt (by omega)
  have hhigh : (UInt8.ofNat (u / 256)).toNat = u / 256 := toNat_ofNat_of_lt (by omega)
  cases order with
  | lowFirst =>
    refine ⟨_, _, rfl, ?_⟩
    rw [ByteOrder.unit16, hlow, hhigh]
    omega
  | highFirst =>
    refine ⟨_, _, rfl, ?_⟩
    rw [ByteOrder.unit16, hlow, hhigh]
    omega

/-- The four bytes of a unit give it back. -/
theorem exists_bytes32 (order : ByteOrder) {u : Nat} (h : u < 0x100000000) :
    ∃ a b c d, order.bytes32 u = [a, b, c, d] ∧ order.unit32 a b c d = u := by
  have h₀ : (UInt8.ofNat (u % 256)).toNat = u % 256 := toNat_ofNat_of_lt (by omega)
  have h₁ : (UInt8.ofNat (u / 256 % 256)).toNat = u / 256 % 256 := toNat_ofNat_of_lt (by omega)
  have h₂ : (UInt8.ofNat (u / 65536 % 256)).toNat = u / 65536 % 256 :=
    toNat_ofNat_of_lt (by omega)
  have h₃ : (UInt8.ofNat (u / 16777216)).toNat = u / 16777216 := toNat_ofNat_of_lt (by omega)
  cases order with
  | lowFirst =>
    refine ⟨_, _, _, _, rfl, ?_⟩
    rw [ByteOrder.unit32, h₀, h₁, h₂, h₃]
    omega
  | highFirst =>
    refine ⟨_, _, _, _, rfl, ?_⟩
    rw [ByteOrder.unit32, h₀, h₁, h₂, h₃]
    omega

/-! ## One character -/

/-- A character is one unit or a pair of surrogates, whatever follows it. -/
theorem utf16Segment_utf16Bytes (order : ByteOrder) (c : Char) (rest : Bytes) :
    ∃ lead more, utf16Bytes order c = lead :: more ∧
      utf16Segment order lead (more ++ rest) = .char c (more.length + 1) := by
  have hvalid : c.toNat < 0xD800 ∨ 0xDFFF < c.toNat ∧ c.toNat < 0x110000 := c.valid
  simp only [utf16Bytes]
  split
  · rename_i hsmall
    obtain ⟨a, b, hbytes, hunit⟩ := exists_bytes16 order hsmall
    have hhigh : isHighSurrogate c.toNat = false := by
      rw [isHighSurrogate, Bool.and_eq_false_iff, decide_eq_false_iff_not, decide_eq_false_iff_not]
      omega
    refine ⟨a, [b], hbytes, ?_⟩
    simp only [utf16Segment, List.cons_append, hunit, hhigh, Bool.false_eq_true, if_false]
    exact ofScalar_toNat c 2
  · rename_i hlarge
    have hlead : 0xD800 + (c.toNat - 0x10000) / 1024 < 0xDC00 := by omega
    have htrail : 0xDC00 + (c.toNat - 0x10000) % 1024 < 0xE000 := by omega
    obtain ⟨a, b, hbytes, hunit⟩ := exists_bytes16 order (Nat.lt_trans hlead (by decide))
    obtain ⟨a', b', hbytes', hunit'⟩ := exists_bytes16 order (Nat.lt_trans htrail (by decide))
    have hhigh : isHighSurrogate (0xD800 + (c.toNat - 0x10000) / 1024) = true := by
      rw [isHighSurrogate, Bool.and_eq_true, decide_eq_true_iff, decide_eq_true_iff]
      omega
    have hlow : isLowSurrogate (0xDC00 + (c.toNat - 0x10000) % 1024) = true := by
      rw [isLowSurrogate, Bool.and_eq_true, decide_eq_true_iff, decide_eq_true_iff]
      omega
    have hpair : 0x10000 + (0xD800 + (c.toNat - 0x10000) / 1024 - 0xD800) * 1024 +
        (0xDC00 + (c.toNat - 0x10000) % 1024 - 0xDC00) = c.toNat := by omega
    refine ⟨a, [b, a', b'], by rw [hbytes, hbytes']; rfl, ?_⟩
    simp only [utf16Segment, List.cons_append, hunit, hhigh, hunit', hlow, if_true, hpair]
    exact ofScalar_toNat c 4

/-- A character is one unit, whatever follows it. -/
theorem utf32Segment_bytes32 (order : ByteOrder) (c : Char) (rest : Bytes) :
    ∃ lead more, order.bytes32 c.toNat = lead :: more ∧
      utf32Segment order lead (more ++ rest) = .char c (more.length + 1) := by
  have hvalid : c.toNat < 0xD800 ∨ 0xDFFF < c.toNat ∧ c.toNat < 0x110000 := c.valid
  obtain ⟨a, b, c', d, hbytes, hunit⟩ :=
    exists_bytes32 order (show c.toNat < 0x100000000 by omega)
  refine ⟨a, [b, c', d], hbytes, ?_⟩
  simp only [utf32Segment, List.cons_append, hunit]
  exact ofScalar_toNat c 4

/-! ## Whole texts -/

variable {e : Encoding}

/-- Every encoding but Latin-1 has all characters. -/
theorem selfDelimiting_of_ne_latin1 (h : e ≠ latin1) : e.SelfDelimiting := by
  intro c rest
  cases e with
  | latin1 => exact absurd rfl h
  | auto | utf8 => exact utf8Segment_utf8Bytes c rest
  | utf16le | utf16 => exact utf16Segment_utf16Bytes .lowFirst c rest
  | utf16be => exact utf16Segment_utf16Bytes .highFirst c rest
  | utf32le | utf32 | wchar => exact utf32Segment_bytes32 .lowFirst c rest
  | utf32be => exact utf32Segment_bytes32 .highFirst c rest

/-- The mark is how the character U+FEFF is written. -/
theorem byteOrderMark_eq (h : e ≠ latin1) : e.byteOrderMark = e.encodeChar '\uFEFF' := by
  cases e with
  | latin1 => exact absurd rfl h
  | _ => decide +kernel

/-- A text without the character U+FEFF at its front. -/
def withoutMark (cs : List Char) : List Char := if cs.head? = some '\uFEFF' then cs.tail else cs

/-- The mark is taken off where the text begins with its character, and only there. -/
theorem dropByteOrderMark_flatMap (h : e ≠ latin1) (cs : List Char) :
    e.dropByteOrderMark (cs.flatMap e.encodeChar) = (withoutMark cs).flatMap e.encodeChar := by
  have hdelimits := selfDelimiting_of_ne_latin1 h
  unfold dropByteOrderMark withoutMark
  simp only [byteOrderMark_eq h]
  split
  · rename_i hmark
    obtain ⟨rest, hrest⟩ := List.isPrefixOf_iff_prefix.1 hmark
    -- the first segment is the mark, and it is the first character
    have hsegments := hdelimits.segments_append '\uFEFF' rest
    rw [hrest, hdelimits.segments_flatMap] at hsegments
    cases cs with
    | nil => cases hsegments
    | cons c cs =>
      obtain ⟨hfirst, -⟩ := List.cons.inj hsegments
      obtain ⟨rfl, -⟩ := Segment.char.inj hfirst
      rw [List.flatMap_cons, List.drop_left, List.head?_cons, if_pos rfl, List.tail_cons]
  · rename_i hmark
    split
    · rename_i hhead
      obtain ⟨rest, rfl⟩ := List.head?_eq_some_iff.1 hhead
      rw [List.flatMap_cons] at hmark
      exact absurd (List.isPrefixOf_iff_prefix.2 (List.prefix_append _ _)) hmark
    · rfl

/-- A text that is written is read back, without a mark at its front. -/
theorem decodeLossy_encode (h : e ≠ latin1) (text : String) :
    e.decodeLossy (e.encode text) = String.ofList (withoutMark text.toList) := by
  have hchars : ((withoutMark text.toList).map fun c =>
      Segment.char c (e.encodeChar c).length).map Segment.charOrReplacement =
        withoutMark text.toList := by
    rw [List.map_map]
    exact List.map_id _
  rw [decodeLossy_eq, encode, dropByteOrderMark_flatMap h,
    (selfDelimiting_of_ne_latin1 h).segments_flatMap, hchars]

end Encoding

end XmlTree
