/-
  Proofs/Agreement.lean --- reading that replaces and reading that refuses agree.

  WHAT THIS FILE IS FOR.  What one way of reading takes, the other takes for the same text, and
  where the one stops, the other puts its first replacement character.  They differ in what
  they do with a byte order mark: only reading that replaces takes one off, and not more than
  one.

  WHERE THE TEXT IS THE SAME.  Both go by the segments of the bytes.  So bytes that are refused
  are those of some characters and then a malformed segment, and that segment is what is
  replaced.
-/
import XmlTree.Proofs.Decoding

set_option autoImplicit false

namespace XmlTree

namespace Encoding

variable {e : Encoding} {bytes rest : Bytes} {text : String} {p : Nat}

/-! ## The mark -/

/-- The bytes begin with the mark of the encoding.  Where there is no mark, none do. -/
def Marked (e : Encoding) (bytes : Bytes) : Prop :=
  e.byteOrderMark ≠ [] ∧ e.byteOrderMark <+: bytes

instance (e : Encoding) (bytes : Bytes) : Decidable (e.Marked bytes) :=
  inferInstanceAs (Decidable (_ ∧ _))

theorem dropByteOrderMark_of_not_marked (h : ¬ e.Marked bytes) :
    e.dropByteOrderMark bytes = bytes := by
  unfold dropByteOrderMark
  simp only
  split
  · rename_i hmark
    -- what is there without being a mark is no bytes at all
    have hnone : e.byteOrderMark = [] := by
      by_contra hne
      exact h ⟨hne, List.isPrefixOf_iff_prefix.1 hmark⟩
    rw [hnone, List.length_nil, List.drop_zero]
  · rfl

theorem dropByteOrderMark_append (e : Encoding) (rest : Bytes) :
    e.dropByteOrderMark (e.byteOrderMark ++ rest) = rest := by
  unfold dropByteOrderMark
  simp only
  rw [if_pos (List.isPrefixOf_iff_prefix.2 (List.prefix_append _ _)), List.drop_left]

/-- Without a mark every byte is read. -/
theorem decodeLossy_of_not_marked (h : ¬ e.Marked bytes) :
    e.decodeLossy bytes =
      String.ofList ((e.segments bytes).map Segment.charOrReplacement) := by
  rw [decodeLossy_eq, dropByteOrderMark_of_not_marked h]

/-- One mark is taken off. -/
theorem decodeLossy_mark (h : ¬ e.Marked rest) :
    e.decodeLossy (e.byteOrderMark ++ rest) = e.decodeLossy rest := by
  rw [decodeLossy_eq, dropByteOrderMark_append, decodeLossy_of_not_marked h]

/-! ## Bytes that are taken and bytes that are refused -/

/-- What is taken has nothing to replace. -/
theorem decodeLossy_of_decodeStrict (hmark : ¬ e.Marked bytes)
    (h : e.decodeStrict bytes = .ok text) : e.decodeLossy bytes = text := by
  rw [decodeStrict_eq] at h
  cases hchars : charsOfSegments 0 (e.segments bytes) with
  | error p =>
    rw [hchars] at h
    cases h
  | ok cs =>
    rw [hchars] at h
    obtain rfl : String.ofList cs = text := Except.ok.inj h
    rw [decodeLossy_of_not_marked hmark, map_charOrReplacement_of_ok hchars]

/-- What is refused is replaced, behind the text of the bytes before it. -/
theorem exists_replaced_of_decodeStrict (hmark : ¬ e.Marked bytes)
    (h : e.decodeStrict bytes = .error p) :
    ∃ text, e.decodeStrict (bytes.take p) = .ok text ∧
      text.toList ++ ['\uFFFD'] <+: (e.decodeLossy bytes).toList := by
  have hlatin : e ≠ latin1 := by
    rintro rfl
    obtain ⟨text, htaken, -⟩ := decodeStrict_latin1 bytes
    rw [htaken] at h
    cases h
  obtain ⟨cs, lead, rest, width, rfl, rfl, hmalformed⟩ :=
    exists_malformed_of_decodeStrict hlatin h
  refine ⟨String.ofList cs, ?_, ?_⟩
  · rw [List.take_left]
    exact decodeStrict_flatMap hlatin cs
  · have hchars : (cs.map fun c => Segment.char c (e.encodeChar c).length).map
        Segment.charOrReplacement = cs := by
      rw [List.map_map]
      exact List.map_id _
    rw [decodeLossy_of_not_marked hmark,
      (selfDelimiting_of_ne_latin1 hlatin).segments_flatMap_append, segments_cons hmalformed,
      List.map_append, hchars, List.map_cons, String.toList_ofList, String.toList_ofList]
    exact ⟨_, List.append_assoc _ _ _⟩

/-- The two ways of reading agree in every encoding.  Bytes without a byte order mark that are
taken are read as the same text.  If they are refused at an offset, the text of the bytes before
it comes first, and then the replacement character.  A byte order mark makes no difference
unless there is another one behind it. -/
theorem decode_agree (e : Encoding) :
    (∀ bytes text, ¬ e.Marked bytes → e.decodeStrict bytes = .ok text →
      e.decodeLossy bytes = text) ∧
    (∀ bytes p, ¬ e.Marked bytes → e.decodeStrict bytes = .error p →
      ∃ text, e.decodeStrict (bytes.take p) = .ok text ∧
        text.toList ++ ['\uFFFD'] <+: (e.decodeLossy bytes).toList) ∧
    ∀ rest, ¬ e.Marked rest → e.decodeLossy (e.byteOrderMark ++ rest) = e.decodeLossy rest :=
  ⟨fun _ _ => decodeLossy_of_decodeStrict, fun _ _ => exists_replaced_of_decodeStrict,
    fun _ => decodeLossy_mark⟩

/-- Half a character, at which a byte is missing, behind a character that is there. -/
theorem decode_agree_truncated :
    let bytes : Bytes := [0x41, 0x00, 0x3D, 0xD8, 0x00]
    ¬ utf16le.Marked bytes ∧ utf16le.decodeStrict bytes = .error 2 ∧
      utf16le.decodeLossy bytes = "A\uFFFD\uFFFD" ∧
      (∃ text, utf16le.decodeStrict (bytes.take 2) = .ok text ∧
        text.toList ++ ['\uFFFD'] <+: (utf16le.decodeLossy bytes).toList) ∧
      utf16le.decodeLossy [0x42, 0x00] = "B" ∧
      utf16le.decodeLossy (utf16le.byteOrderMark ++ bytes) = utf16le.decodeLossy bytes := by
  have hmark : ¬ utf16le.Marked [0x41, 0x00, 0x3D, 0xD8, 0x00] := by decide +kernel
  have hrefused : utf16le.decodeStrict [0x41, 0x00, 0x3D, 0xD8, 0x00] = .error 2 := by
    decide +kernel
  obtain ⟨htaken, hreplaced, hmarked⟩ := decode_agree utf16le
  exact ⟨hmark, hrefused, by decide +kernel, hreplaced _ _ hmark hrefused,
    htaken _ _ (by decide +kernel) (by decide +kernel), hmarked _ hmark⟩

end Encoding

end XmlTree
