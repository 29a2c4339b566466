/-
  Proofs/Detection.lean --- bytes of markup are taken for what they are.

  WHAT THIS FILE IS FOR.  Markup begins with `<`, and that is what the encoding of bytes is found
  by where nobody says it.  The tests for it overlap: the mark of UTF-16 with the low byte first
  is how that of UTF-32 begins, and a `<` in the one is how a `<` in the other begins.  Here it is
  shown that a text that was written in an encoding of all characters is read back from its bytes
  alone, in the encoding that it was written in.

  WHAT IS LEFT OUT.  Only a null character right behind the `<` makes the one look like the other.
  Without a mark, UTF-8 is told apart from Latin-1 by a declaration, so a text that begins like
  one is not looked at here.
-/
import Mathlib.Data.String.Basic
import XmlTree.Proofs.Decoding

set_option autoImplicit false

namespace XmlTree

namespace Encoding

/-- The text begins with `<`, and no null character is behind that. -/
def BeginsTag (cs : List Char) : Prop := ∃ rest, cs = '<' :: rest ∧ rest.head? ≠ some '\x00'

variable {e : Encoding} {text : String}

/-! ## The bytes of a character -/

/-- Only the null character begins with a null byte in UTF-8. -/
theorem utf8Bytes_head_ne_zero {c : Char} (hc : c ≠ '\x00') :
    ∃ lead more, utf8Bytes c = lead :: more ∧ lead ≠ 0 := by
  obtain ⟨lead, more, hbytes, hsegment⟩ := utf8Segment_utf8Bytes c []
  refine ⟨lead, more, hbytes, ?_⟩
  rintro rfl
  have hzero : utf8Segment 0 (more ++ []) = .char '\x00' 1 := rfl
  rw [hzero] at hsegment
  exact hc (Segment.char.inj hsegment).1.symm

/-- Only the null character begins with two null bytes in UTF-16. -/
theorem utf16Bytes_head_ne_zero {c : Char} (hc : c ≠ '\x00') :
    ∃ low high more, utf16Bytes .lowFirst c = low :: high :: more ∧ ¬ (low = 0 ∧ high = 0) := by
  obtain ⟨low, more, hbytes, hsegment⟩ := utf16Segment_utf16Bytes .lowFirst c []
  cases more with
  | nil => cases hsegment
  | cons high more =>
    refine ⟨low, high, more, hbytes, ?_⟩
    rintro ⟨rfl, rfl⟩
    have hunit : isHighSurrogate (ByteOrder.unit16 .lowFirst 0 0) = false := by decide
    simp only [utf16Segment, List.cons_append, hunit, Bool.false_eq_true, if_false] at hsegment
    rw [show ByteOrder.unit16 .lowFirst 0 0 = ('\x00').toNat from rfl, ofScalar_toNat] at hsegment
    exact hc (Segment.char.inj hsegment).1.symm

/-- Bytes of UTF-8 that begin with characters of ASCII are those of a text that does. -/
theorem prefix_of_utf8_ascii {mark cs rest : List Char} (hmark : ∀ c ∈ mark, c.toNat < 128)
    (h : (cs.flatMap utf8.encodeChar).map latin1Char = mark ++ rest) : mark <+: cs := by
  induction mark generalizing cs with
  | nil => exact List.nil_prefix
  | cons m mark ih =>
    obtain ⟨hm, hmark⟩ := List.forall_mem_cons.1 hmark
    cases cs with
    | nil => cases h
    | cons c cs =>
      obtain ⟨lead, more, hbytes, hsegment⟩ := utf8Segment_utf8Bytes c []
      have hchar : utf8.encodeChar c = lead :: more := hbytes
      rw [List.flatMap_cons, hchar, List.cons_append, List.map_cons, List.cons_append] at h
      obtain ⟨hlead, htail⟩ := List.cons.inj h
      -- the lead byte is one of ASCII, so it is a character of its own
      have hvalue : (latin1Char lead).toNat = lead.toNat := by
        have hb := lead.toNat_lt
        rw [latin1Char, toNat_ofScalar (.inl (by omega))]
      have hsmall : lead < 0x80 := by
        rw [UInt8.lt_iff_toNat_lt, ← hvalue, hlead]
        exact hm
      rw [utf8Segment.eq_def, if_pos hsmall, hlead] at hsegment
      obtain ⟨rfl, hlength⟩ := Segment.char.inj hsegment
      obtain rfl : more = [] := List.length_eq_zero_iff.1 (Nat.succ.inj hlength).symm
      exact List.cons_prefix_cons.2 ⟨rfl, ih hmark htail⟩

/-! ## What the tests answer -/

/-- A byte order mark tells the encoding. -/
theorem detect_marked (he : e.forOutput = e) (hlatin : e ≠ latin1) (h : BeginsTag text.toList) :
    detect (e.byteOrderMark ++ e.encode text) = e := by
  obtain ⟨rest, hbegins, -⟩ := h
  rw [encode, hbegins]
  cases e with
  | latin1 => exact absurd rfl hlatin
  | auto | utf16 | utf32 | wchar => cases he
  | utf8 | utf16le | utf16be | utf32le | utf32be => rfl

/-- A null byte on one side of `<` tells UTF-16, unless there are three. -/
theorem detect_lessThan_low {low high : UInt8} (h : ¬ (low = 0 ∧ high = 0)) (rest : Bytes) :
    detect (0x3C :: 0x00 :: low :: high :: rest) = utf16le := by
  unfold detect
  split <;> simp_all

/-- Without a null byte behind `<` a declaration decides. -/
theorem detect_lessThan {lead : UInt8} (h : lead ≠ 0) (rest : Bytes) :
    detect (0x3C :: lead :: rest) =
      if declaresLatin1 (0x3C :: lead :: rest) then latin1 else utf8 := by
  unfold detect
  split <;> simp_all

/-- The null bytes of wide units tell their width and order. -/
theorem detect_unmarked_wide (he : e.forOutput = e) (hlatin : e ≠ latin1) (hutf8 : e ≠ utf8)
    (h : BeginsTag text.toList) : detect (e.encode text) = e := by
  obtain ⟨rest, hbegins, hnull⟩ := h
  rw [encode, hbegins]
  cases e with
  | latin1 => exact absurd rfl hlatin
  | utf8 => exact absurd rfl hutf8
  | auto | utf16 | utf32 | wchar => cases he
  | utf16be | utf32le | utf32be => rfl
  | utf16le =>
    cases rest with
    | nil => rfl
    | cons c rest =>
      -- a `<` with the low byte first could be the half of one in UTF-32
      obtain ⟨low, high, more, hbytes, hne⟩ := utf16Bytes_head_ne_zero fun hc =>
        hnull (congrArg some hc)
      have hchar : utf16le.encodeChar c = low :: high :: more := hbytes
      rw [List.flatMap_cons, List.flatMap_cons, hchar]
      exact detect_lessThan_low hne _

/-- Without a mark and null bytes, the declaration decides. -/
theorem detect_unmarked_utf8 (h : BeginsTag text.toList) :
    detect (utf8.encode text) = if declaresLatin1 (utf8.encode text) then latin1 else utf8 := by
  obtain ⟨rest, hbegins, hnull⟩ := h
  rw [encode, hbegins]
  cases rest with
  | nil => rfl
  | cons c rest =>
    obtain ⟨lead, more, hbytes, hne⟩ := utf8Bytes_head_ne_zero fun hc => hnull (congrArg some hc)
    have hchar : utf8.encodeChar c = lead :: more := hbytes
    rw [List.flatMap_cons, List.flatMap_cons, hchar]
    exact detect_lessThan hne _

/-- What does not begin like a declaration declares nothing. -/
theorem declaresLatin1_utf8 (h : ¬ "<?xml".toList <+: text.toList) :
    declaresLatin1 (utf8.encode text) = false := by
  have hmark : ∀ c ∈ "<?xml".toList, c.toNat < 128 := by
    have hall : ("<?xml".toList.all fun c => decide (c.toNat < 128)) = true := by decide
    exact fun c hc => of_decide_eq_true (List.all_eq_true.1 hall c hc)
  have hnone : dropMark? "<?xml".toList ((utf8.encode text).map latin1Char) = none := by
    rw [Option.eq_none_iff_forall_ne_some]
    intro rest hrest
    exact h (prefix_of_utf8_ascii hmark (dropMark?_eq_some_iff.1 hrest))
  rw [declaresLatin1, declaredName?, hnone]
  rfl

/-! ## What is read -/

theorem decodeLossy_unmarked (hlatin : e ≠ latin1) (h : BeginsTag text.toList) :
    e.decodeLossy (e.encode text) = text := by
  have hwithout : withoutMark text.toList = text.toList := by
    obtain ⟨rest, hbegins, -⟩ := h
    rw [hbegins]
    rfl
  rw [decodeLossy_encode hlatin, hwithout, String.ofList_toList]

/-- The mark is taken off, and nothing else. -/
theorem decodeLossy_marked (hlatin : e ≠ latin1) (text : String) :
    e.decodeLossy (e.byteOrderMark ++ e.encode text) = text := by
  have hmarked : e.byteOrderMark ++ e.encode text =
      e.encode (String.ofList ('\uFEFF' :: text.toList)) := by
    rw [byteOrderMark_eq hlatin, encode, encode, String.toList_ofList, List.flatMap_cons]
  have hwithout : withoutMark ('\uFEFF' :: text.toList) = text.toList := rfl
  rw [hmarked, decodeLossy_encode hlatin, String.toList_ofList, hwithout, String.ofList_toList]

/-- What bytes are taken for when nobody says what they are encoded in. -/
structure TakenFor (bytes : Bytes) (e : Encoding) (text : String) : Prop where
  encoding : auto.forInput bytes = e
  text : e.decodeLossy bytes = text

/-- Markup that was written in an encoding of all characters is found in its bytes, and so is the
encoding: with the mark of the encoding in front, and also without it, unless it begins like a
declaration and is in UTF-8. -/
theorem takenFor_encode (hlatin : e ≠ latin1) (h : BeginsTag text.toList) :
    TakenFor (e.byteOrderMark ++ e.encode text) e.forOutput text ∧
      ((e.forOutput = utf8 → ¬ "<?xml".toList <+: text.toList) →
        TakenFor (e.encode text) e.forOutput text) := by
  -- an encoding that is left open, or named by a family, is written as the one that is meant
  obtain ⟨f, hf, hmark, hencode, hidem, hlatin'⟩ : ∃ f, e.forOutput = f ∧
      e.byteOrderMark = f.byteOrderMark ∧ e.encode text = f.encode text ∧ f.forOutput = f ∧
        f ≠ latin1 := by
    refine ⟨_, rfl, ?_⟩
    cases e with
    | latin1 => exact absurd rfl hlatin
    | _ => exact ⟨rfl, rfl, rfl, Encoding.noConfusion⟩
  rw [hf, hmark, hencode]
  refine ⟨⟨detect_marked hidem hlatin' h, decodeLossy_marked hlatin' text⟩, fun hdeclared =>
    ⟨?_, decodeLossy_unmarked hlatin' h⟩⟩
  by_cases hutf8 : f = utf8
  · have hnone := declaresLatin1_utf8 (hdeclared hutf8)
    rw [hutf8]
    exact (detect_unmarked_utf8 h).trans (if_neg (Bool.eq_false_iff.1 hnone))
  · exact detect_unmarked_wide hidem hlatin' hutf8 h

/-- Three bytes are those of a `<` in UTF-32, and only the fourth tells that it is UTF-16. -/
theorem takenFor_encode_overlapping :
    utf16le.encode "<\u0100" = [0x3C, 0x00, 0x00, 0x01] ∧
      TakenFor [0xFF, 0xFE, 0x3C, 0x00, 0x00, 0x01] utf16le "<\u0100" ∧
      TakenFor [0x3C, 0x00, 0x00, 0x01] utf16le "<\u0100" := by
  have hbytes : utf16le.encode "<\u0100" = [0x3C, 0x00, 0x00, 0x01] := by decide
  have htaken := takenFor_encode (show utf16le ≠ latin1 by decide)
    (show BeginsTag "<\u0100".toList from ⟨['\u0100'], by decide, by decide⟩)
  rw [hbytes] at htaken
  exact ⟨hbytes, htaken.1, htaken.2 Encoding.noConfusion⟩

end Encoding

end XmlTree
