/-
  Proofs/Utf8.lean --- what is written in UTF-8 is read back.

  WHAT THIS FILE IS FOR.  Reading cuts bytes into segments by looking at the lead byte and
  at what may follow it.  The bytes of a character are one segment whatever comes after
  them, so the bytes of a text are read as that text, with no fault.
-/
import XmlTree.Proofs.Segmentation

set_option autoImplicit false

namespace XmlTree

namespace Encoding

/-! ## One character -/

theorem toNat_ofNat_of_lt {n : Nat} (h : n < 256) : (UInt8.ofNat n).toNat = n := by
  rw [UInt8.toNat_ofNat', Nat.mod_eq_of_lt h]

/-- A continuation byte is told by its two high bits, and gives the other six back. -/
theorem continuation_ofNat {n : Nat} (h : n < 64) :
    isContinuation (UInt8.ofNat (0x80 + n)) = true ∧
      continuationBits (UInt8.ofNat (0x80 + n)) = n := by
  have hbyte : (UInt8.ofNat (0x80 + n)).toNat = 0x80 + n := toNat_ofNat_of_lt (by omega)
  constructor
  · rw [isContinuation, Bool.and_eq_true, decide_eq_true_iff, decide_eq_true_iff,
      UInt8.le_iff_toNat_le, UInt8.le_iff_toNat_le, hbyte]
    have hlow : (0x80 : UInt8).toNat = 0x80 := rfl
    have hhigh : (0xBF : UInt8).toNat = 0xBF := rfl
    omega
  · rw [continuationBits, hbyte]
    omega

/-- Where the bytes after a lead byte are bounded more closely. -/
theorem continuesLead_ofNat {lead n : Nat} (hlead : lead < 256) (h : n < 64)
    (hE0 : lead = 0xE0 → 32 ≤ n) (hED : lead = 0xED → n < 32) (hF0 : lead = 0xF0 → 16 ≤ n)
    (hF4 : lead = 0xF4 → n < 16) :
    continuesLead (UInt8.ofNat lead) (UInt8.ofNat (0x80 + n)) = true := by
  have hbyte : (UInt8.ofNat (0x80 + n)).toNat = 0x80 + n := toNat_ofNat_of_lt (by omega)
  have heq : ∀ k : Nat, k < 256 → (UInt8.ofNat lead = UInt8.ofNat k ↔ lead = k) := by
    intro k hk
    rw [← UInt8.toNat_inj, toNat_ofNat_of_lt hlead, toNat_ofNat_of_lt hk]
  have h₁ := heq 0xE0 (by decide)
  have h₂ := heq 0xED (by decide)
  have h₃ := heq 0xF0 (by decide)
  have h₄ := heq 0xF4 (by decide)
  have hle : ∀ low high : UInt8, low.toNat ≤ 0x80 + n → 0x80 + n ≤ high.toNat →
      (decide (low ≤ UInt8.ofNat (0x80 + n)) && decide (UInt8.ofNat (0x80 + n) ≤ high)) = true := by
    intro low high hlow hhigh
    rw [Bool.and_eq_true, decide_eq_true_iff, decide_eq_true_iff, UInt8.le_iff_toNat_le,
      UInt8.le_iff_toNat_le, hbyte]
    exact ⟨hlow, hhigh⟩
  unfold continuesLead secondByteBounds
  split
  · rename_i hl
    have hn := hE0 (h₁.1 hl)
    exact hle _ _ (by show 0xA0 ≤ _; omega) (by show _ ≤ 0xBF; omega)
  · split
    · rename_i hl
      have hn := hED (h₂.1 hl)
      exact hle _ _ (by show 0x80 ≤ _; omega) (by show _ ≤ 0x9F; omega)
    · split
      · rename_i hl
        have hn := hF0 (h₃.1 hl)
        exact hle _ _ (by show 0x90 ≤ _; omega) (by show _ ≤ 0xBF; omega)
      · split
        · rename_i hl
          have hn := hF4 (h₄.1 hl)
          exact hle _ _ (by show 0x80 ≤ _; omega) (by show _ ≤ 0x8F; omega)
        · exact hle _ _ (by show 0x80 ≤ _; omega) (by show _ ≤ 0xBF; omega)

/-- Comparing a lead byte with a bound. -/
theorem ofNat_lt_iff {n k : Nat} (hn : n < 256) (hk : k < 256) :
    UInt8.ofNat n < UInt8.ofNat k ↔ n < k := by
  rw [UInt8.lt_iff_toNat_lt, toNat_ofNat_of_lt hn, toNat_ofNat_of_lt hk]

theorem utf8Segment_one {n : Nat} (h : n < 0x80) (rest : Bytes) :
    utf8Segment (UInt8.ofNat n) rest = .char (Char.ofNat n) 1 := by
  have h80 : UInt8.ofNat n < 0x80 := (ofNat_lt_iff (k := 0x80) (by omega) (by decide)).2 h
  unfold utf8Segment
  rw [if_pos h80, latin1Char, toNat_ofNat_of_lt (by omega)]

theorem utf8Segment_two {n : Nat} (hlow : 0x80 ≤ n) (hhigh : n < 0x800) (rest : Bytes) :
    utf8Segment (UInt8.ofNat (0xC0 + n / 64)) (UInt8.ofNat (0x80 + n % 64) :: rest) =
      .ofScalar n 2 := by
  have hlead : 0xC0 + n / 64 < 256 := by omega
  have h80 : ¬ UInt8.ofNat (0xC0 + n / 64) < 0x80 :=
    mt (ofNat_lt_iff (k := 0x80) hlead (by decide)).1 (by omega)
  have hC2 : ¬ UInt8.ofNat (0xC0 + n / 64) < 0xC2 :=
    mt (ofNat_lt_iff (k := 0xC2) hlead (by decide)).1 (by omega)
  have hE0 : UInt8.ofNat (0xC0 + n / 64) < 0xE0 :=
    (ofNat_lt_iff (k := 0xE0) hlead (by decide)).2 (by omega)
  obtain ⟨hcont, hbits⟩ := continuation_ofNat (show n % 64 < 64 by omega)
  unfold utf8Segment
  rw [if_neg h80, if_neg hC2, if_pos hE0]
  simp only [hcont, if_true, hbits, toNat_ofNat_of_lt hlead]
  congr 1
  omega

theorem utf8Segment_three {n : Nat} (hlow : 0x800 ≤ n) (hhigh : n < 0x10000)
    (hvalid : n < 0xD800 ∨ 0xDFFF < n) (rest : Bytes) :
    utf8Segment (UInt8.ofNat (0xE0 + n / 4096))
        (UInt8.ofNat (0x80 + n / 64 % 64) :: UInt8.ofNat (0x80 + n % 64) :: rest) =
      .ofScalar n 3 := by
  have hlead : 0xE0 + n / 4096 < 256 := by omega
  have h80 : ¬ UInt8.ofNat (0xE0 + n / 4096) < 0x80 :=
    mt (ofNat_lt_iff (k := 0x80) hlead (by decide)).1 (by omega)
  have hC2 : ¬ UInt8.ofNat (0xE0 + n / 4096) < 0xC2 :=
    mt (ofNat_lt_iff (k := 0xC2) hlead (by decide)).1 (by omega)
  have hE0 : ¬ UInt8.ofNat (0xE0 + n / 4096) < 0xE0 :=
    mt (ofNat_lt_iff (k := 0xE0) hlead (by decide)).1 (by omega)
  have hF0 : UInt8.ofNat (0xE0 + n / 4096) < 0xF0 :=
    (ofNat_lt_iff (k := 0xF0) hlead (by decide)).2 (by omega)
  obtain ⟨hcont, hbits⟩ := continuation_ofNat (show n % 64 < 64 by omega)
  obtain ⟨-, hbits'⟩ := continuation_ofNat (show n / 64 % 64 < 64 by omega)
  -- the bounds for two of the lead bytes leave out long spellings and surrogates
  have hcontinues := continuesLead_ofNat hlead (show n / 64 % 64 < 64 by omega)
    (by omega) (by omega) (by omega) (by omega)
  unfold utf8Segment
  rw [if_neg h80, if_neg hC2, if_neg hE0, if_pos hF0]
  simp only [hcontinues, hcont, Bool.not_true, Bool.false_eq_true, if_false, hbits, hbits',
    toNat_ofNat_of_lt hlead]
  congr 1
  omega

theorem utf8Segment_four {n : Nat} (hlow : 0x10000 ≤ n) (hhigh : n < 0x110000) (rest : Bytes) :
    utf8Segment (UInt8.ofNat (0xF0 + n / 262144))
        (UInt8.ofNat (0x80 + n / 4096 % 64) :: UInt8.ofNat (0x80 + n / 64 % 64) ::
          UInt8.ofNat (0x80 + n % 64) :: rest) =
      .ofScalar n 4 := by
  have hlead : 0xF0 + n / 262144 < 256 := by omega
  have h80 : ¬ UInt8.ofNat (0xF0 + n / 262144) < 0x80 :=
    mt (ofNat_lt_iff (k := 0x80) hlead (by decide)).1 (by omega)
  have hC2 : ¬ UInt8.ofNat (0xF0 + n / 262144) < 0xC2 :=
    mt (ofNat_lt_iff (k := 0xC2) hlead (by decide)).1 (by omega)
  have hE0 : ¬ UInt8.ofNat (0xF0 + n / 262144) < 0xE0 :=
    mt (ofNat_lt_iff (k := 0xE0) hlead (by decide)).1 (by omega)
  have hF0 : ¬ UInt8.ofNat (0xF0 + n / 262144) < 0xF0 :=
    mt (ofNat_lt_iff (k := 0xF0) hlead (by decide)).1 (by omega)
  have hF5 : UInt8.ofNat (0xF0 + n / 262144) < 0xF5 :=
    (ofNat_lt_iff (k := 0xF5) hlead (by decide)).2 (by omega)
  obtain ⟨hcont, hbits⟩ := continuation_ofNat (show n % 64 < 64 by omega)
  obtain ⟨hcont', hbits'⟩ := continuation_ofNat (show n / 64 % 64 < 64 by omega)
  obtain ⟨-, hbits''⟩ := continuation_ofNat (show n / 4096 % 64 < 64 by omega)
  have hcontinues := continuesLead_ofNat hlead (show n / 4096 % 64 < 64 by omega)
    (by omega) (by omega) (by omega) (by omega)
  unfold utf8Segment
  rw [if_neg h80, if_neg hC2, if_neg hE0, if_neg hF0, if_pos hF5]
  simp only [hcontinues, hcont, hcont', Bool.not_true, Bool.false_eq_true, if_false, hbits,
    hbits', hbits'', toNat_ofNat_of_lt hlead]
  congr 1
  omega

theorem ofScalar_toNat (c : Char) (width : Nat) :
    Segment.ofScalar c.toNat width = .char c width := by
  rw [Segment.ofScalar, if_pos (show c.toNat.isValidChar from c.valid), Char.ofNat_toNat]

/-- The bytes of a character are a segment, whatever follows them. -/
theorem utf8Segment_utf8Bytes (c : Char) (rest : Bytes) :
    ∃ lead more, utf8Bytes c = lead :: more ∧
      utf8Segment lead (more ++ rest) = .char c (more.length + 1) := by
  have hvalid : c.toNat < 0xD800 ∨ 0xDFFF < c.toNat ∧ c.toNat < 0x110000 := c.valid
  simp only [utf8Bytes]
  split
  · rename_i hsmall
    exact ⟨_, _, rfl, by rw [utf8Segment_one hsmall, Char.ofNat_toNat]; rfl⟩
  · split
    · exact ⟨_, _, rfl, (utf8Segment_two (by omega) (by omega) rest).trans (ofScalar_toNat c 2)⟩
    · split
      · exact ⟨_, _, rfl,
          (utf8Segment_three (by omega) (by omega) (by omega) rest).trans (ofScalar_toNat c 3)⟩
      · exact ⟨_, _, rfl, (utf8Segment_four (by omega) (by omega) rest).trans (ofScalar_toNat c 4)⟩

/-! ## Whole texts -/

variable {e : Encoding}

/-- The bytes of every character are one segment, whatever follows them. -/
def SelfDelimiting (e : Encoding) : Prop :=
  ∀ (c : Char) (rest : Bytes), ∃ lead more, e.encodeChar c = lead :: more ∧
    e.segment lead (more ++ rest) = .char c (more.length + 1)

theorem selfDelimiting_utf8 : utf8.SelfDelimiting := utf8Segment_utf8Bytes

namespace SelfDelimiting

/-- The first character is cut off. -/
theorem segments_append (h : e.SelfDelimiting) (c : Char) (rest : Bytes) :
    e.segments (e.encodeChar c ++ rest) =
      .char c (e.encodeChar c).length :: e.segments rest := by
  obtain ⟨lead, more, hbytes, hsegment⟩ := h c rest
  rw [hbytes, List.cons_append, segments]
  simp only [hsegment, Segment.width, Nat.add_sub_cancel, List.drop_left, List.length_cons]

/-- The bytes of characters are cut into those characters. -/
theorem segments_flatMap (h : e.SelfDelimiting) (cs : List Char) :
    e.segments (cs.flatMap e.encodeChar) =
      cs.map fun c => .char c (e.encodeChar c).length := by
  induction cs with
  | nil => simp [segments]
  | cons c cs ih => rw [List.flatMap_cons, h.segments_append, ih, List.map_cons]

end SelfDelimiting

/-- A text that is written in an encoding that cuts every character off is read back,
strictly. -/
theorem SelfDelimiting.decodeStrict_encode (h : e.SelfDelimiting) (text : String) :
    e.decodeStrict (e.encode text) = .ok text := by
  rw [decodeStrict_eq, encode, h.segments_flatMap, charsOfSegments_chars]
  simp [Except.map]

/-- Every character is written with some byte. -/
theorem encodeChar_ne_nil (e : Encoding) (c : Char) : e.encodeChar c ≠ [] := by
  have hunit : ∀ order u, ByteOrder.bytes16 order u ≠ [] := fun order u => by
    cases order <;> exact List.cons_ne_nil _ _
  unfold encodeChar
  split
  · unfold utf16Bytes
    simp only
    split <;> simp [hunit]
  · unfold utf16Bytes
    simp only
    split <;> simp [hunit]
  · exact List.cons_ne_nil _ _
  · exact List.cons_ne_nil _ _
  · exact List.cons_ne_nil _ _
  · unfold utf8Bytes
    simp only
    split
    · exact List.cons_ne_nil _ _
    · split
      · exact List.cons_ne_nil _ _
      · split <;> exact List.cons_ne_nil _ _

theorem encode_ne_nil (e : Encoding) {text : String} (hne : text ≠ "") : e.encode text ≠ [] := by
  obtain ⟨c, cs, htext⟩ := List.exists_cons_of_ne_nil (mt String.toList_eq_nil_iff.1 hne)
  rw [encode, htext, List.flatMap_cons]
  exact List.append_ne_nil_of_left_ne_nil (e.encodeChar_ne_nil c) _

end Encoding

end XmlTree
