/-
  Proofs/Decoding.lean --- strict reading accepts what is written, and nothing else.

  WHAT THIS FILE IS FOR.  A text that is written is read back (`decodeStrict_encode`).  Here
  is the other direction: the bytes of a character that is read are the bytes that the
  encoding writes it with, so bytes that are read at all are the bytes of the text that they
  are read as.  Spellings that are too long, surrogates and numbers beyond the last character
  are therefore refused, without a word about them in the statement.

  WHERE READING STOPS.  Bytes that are refused are the bytes of some text, then a segment
  that is malformed.  The offset that is answered is where that segment begins.  No later cut
  makes the bytes acceptable: a character that begins there in a shorter input begins there
  in the longer one as well.

  LATIN-1.  Every byte is a character, and is written back as itself.
-/
import XmlTree.Proofs.Codecs
import XmlTree.Proofs.Narrowing

set_option autoImplicit false

namespace XmlTree

namespace Encoding

/-! ## Bytes that continue a character -/

/-- A continuation byte is its six bits over `0x80`. -/
theorem toNat_of_isContinuation {b : UInt8} (h : isContinuation b = true) :
    b.toNat = 0x80 + continuationBits b ∧ continuationBits b < 64 := by
  rw [isContinuation, Bool.and_eq_true, decide_eq_true_iff, decide_eq_true_iff,
    UInt8.le_iff_toNat_le, UInt8.le_iff_toNat_le] at h
  have hlow : (0x80 : UInt8).toNat = 0x80 := rfl
  have hhigh : (0xBF : UInt8).toNat = 0xBF := rfl
  rw [continuationBits]
  omega

/-- The second byte of a long character is a continuation byte, within narrower bounds after
four of the lead bytes. -/
theorem toNat_of_continuesLead {lead b : UInt8} (h : continuesLead lead b = true) :
    (b.toNat = 0x80 + continuationBits b ∧ continuationBits b < 64) ∧
      (lead.toNat = 0xE0 → 32 ≤ continuationBits b) ∧
      (lead.toNat = 0xED → continuationBits b < 32) ∧
      (lead.toNat = 0xF0 → 16 ≤ continuationBits b) ∧
      (lead.toNat = 0xF4 → continuationBits b < 16) := by
  have hnat : ∀ k : UInt8, lead = k ↔ lead.toNat = k.toNat := fun k => UInt8.toNat_inj.symm
  rw [continuesLead, Bool.and_eq_true, decide_eq_true_iff, decide_eq_true_iff,
    UInt8.le_iff_toNat_le, UInt8.le_iff_toNat_le] at h
  unfold secondByteBounds at h
  simp only [hnat, UInt8.reduceToNat] at h
  rw [continuationBits]
  split at h
  · simp only [UInt8.reduceToNat] at h
    omega
  · split at h
    · simp only [UInt8.reduceToNat] at h
      omega
    · split at h
      · simp only [UInt8.reduceToNat] at h
        omega
      · split at h <;> simp only [UInt8.reduceToNat] at h <;> omega

/-! ## Characters of each family -/

/-- The number of a character that was made from a number that one has. -/
theorem toNat_ofScalar {n : Nat} (hvalid : n.isValidChar) : (Char.ofNat n).toNat = n := by
  rw [Char.ofNat, dif_pos hvalid]
  rfl

/-- A number that is read as a character is the number of that character. -/
theorem ofScalar_eq_char {n width k : Nat} {c : Char}
    (h : Segment.ofScalar n width = .char c k) : c.toNat = n ∧ k = width := by
  unfold Segment.ofScalar at h
  split at h
  · rename_i hvalid
    obtain ⟨rfl, rfl⟩ := Segment.char.inj h
    exact ⟨toNat_ofScalar hvalid, rfl⟩
  · cases h

/-- The bytes `lead :: rest` begin with `written`, which has `n` of them. -/
def SpelledBy (written : Bytes) (lead : UInt8) (rest : Bytes) (n : Nat) : Prop :=
  ∃ more tail, rest = more ++ tail ∧ written = lead :: more ∧ n = more.length + 1

theorem utf8Bytes_two {c : Char} {lead b : UInt8} (hlow : 0xC2 ≤ lead.toNat)
    (hhigh : lead.toNat < 0xE0) (hb : isContinuation b = true)
    (hc : c.toNat = lead.toNat % 32 * 64 + continuationBits b) : utf8Bytes c = [lead, b] := by
  obtain ⟨hbyte, hbits⟩ := toNat_of_isContinuation hb
  have hlead : 0xC0 + c.toNat / 64 = lead.toNat := by omega
  have hcont : 0x80 + c.toNat % 64 = b.toNat := by omega
  simp only [utf8Bytes]
  rw [if_neg (by omega), if_pos (by omega), hlead, hcont, UInt8.ofNat_toNat, UInt8.ofNat_toNat]

theorem utf8Bytes_three {c : Char} {lead b b' : UInt8} (hlow : 0xE0 ≤ lead.toNat)
    (hhigh : lead.toNat < 0xF0) (hb : continuesLead lead b = true)
    (hb' : isContinuation b' = true)
    (hc : c.toNat =
      lead.toNat % 16 * 4096 + continuationBits b * 64 + continuationBits b') :
    utf8Bytes c = [lead, b, b'] := by
  obtain ⟨⟨hbyte, hbits⟩, hE0, -, -, -⟩ := toNat_of_continuesLead hb
  obtain ⟨hbyte', hbits'⟩ := toNat_of_isContinuation hb'
  have hlead : 0xE0 + c.toNat / 4096 = lead.toNat := by omega
  have hcont : 0x80 + c.toNat / 64 % 64 = b.toNat := by omega
  have hcont' : 0x80 + c.toNat % 64 = b'.toNat := by omega
  simp only [utf8Bytes]
  rw [if_neg (by omega), if_neg (by omega), if_pos (by omega), hlead, hcont, hcont',
    UInt8.ofNat_toNat, UInt8.ofNat_toNat, UInt8.ofNat_toNat]

theorem utf8Bytes_four {c : Char} {lead b b' b'' : UInt8} (hlow : 0xF0 ≤ lead.toNat)
    (hhigh : lead.toNat < 0xF5) (hb : continuesLead lead b = true)
    (hb' : isContinuation b' = true) (hb'' : isContinuation b'' = true)
    (hc : c.toNat = lead.toNat % 8 * 262144 + continuationBits b * 4096 +
      continuationBits b' * 64 + continuationBits b'') :
    utf8Bytes c = [lead, b, b', b''] := by
  obtain ⟨⟨hbyte, hbits⟩, -, -, hF0, -⟩ := toNat_of_continuesLead hb
  obtain ⟨hbyte', hbits'⟩ := toNat_of_isContinuation hb'
  obtain ⟨hbyte'', hbits''⟩ := toNat_of_isContinuation hb''
  have hlead : 0xF0 + c.toNat / 262144 = lead.toNat := by omega
  have hcont : 0x80 + c.toNat / 4096 % 64 = b.toNat := by omega
  have hcont' : 0x80 + c.toNat / 64 % 64 = b'.toNat := by omega
  have hcont'' : 0x80 + c.toNat % 64 = b''.toNat := by omega
  simp only [utf8Bytes]
  rw [if_neg (by omega), if_neg (by omega), if_neg (by omega), hlead, hcont, hcont', hcont'',
    UInt8.ofNat_toNat, UInt8.ofNat_toNat, UInt8.ofNat_toNat, UInt8.ofNat_toNat]

theorem utf8Segment_spelled {lead : UInt8} {rest : Bytes} {c : Char} {n : Nat} :
    utf8Segment lead rest = .char c n → SpelledBy (utf8Bytes c) lead rest n := by
  have hbelow : ∀ {k : UInt8}, lead < k → lead.toNat < k.toNat := UInt8.lt_iff_toNat_lt.1
  have habove : ∀ {k : UInt8}, ¬ lead < k → k.toNat ≤ lead.toNat := fun h =>
    UInt8.le_iff_toNat_le.1 (UInt8.not_lt.1 h)
  have hset : ∀ {b : Bool}, ¬ (!b) = true → b = true := fun h => by simpa using h
  -- the four ways to read a character; in all other cases nothing is read
  fun_cases utf8Segment lead rest with
  | case1 rest hlead =>
    intro h
    obtain ⟨rfl, rfl⟩ := Segment.char.inj h
    have hsmall : lead.toNat < 128 := hbelow hlead
    have hchar : (latin1Char lead).toNat = lead.toNat := by
      rw [latin1Char, toNat_ofScalar (.inl (by omega))]
    refine ⟨[], rest, rfl, ?_, rfl⟩
    rw [utf8Bytes]
    simp only [hchar, if_pos hsmall, UInt8.ofNat_toNat]
  | case3 h80 hC2 hE0 b tail hb =>
    intro h
    obtain ⟨hc, rfl⟩ := ofScalar_eq_char h
    exact ⟨[b], tail, rfl, utf8Bytes_two (habove hC2) (hbelow hE0) hb hc, rfl⟩
  | case8 h80 hC2 hE0 hF0 b b' tail hb hb' =>
    intro h
    obtain ⟨hc, rfl⟩ := ofScalar_eq_char h
    exact ⟨[b, b'], tail, rfl,
      utf8Bytes_three (habove hE0) (hbelow hF0) (hset hb) (hset hb') hc, rfl⟩
  | case15 h80 hC2 hE0 hF0 hF5 b b' b'' tail hb hb' hb'' =>
    intro h
    obtain ⟨hc, rfl⟩ := ofScalar_eq_char h
    exact ⟨[b, b', b''], tail, rfl,
      utf8Bytes_four (habove hF0) (hbelow hF5) (hset hb) (hset hb') (hset hb'') hc, rfl⟩
  | _ =>
    intro h
    cases h

/-- A unit of two bytes is written with those bytes. -/
theorem bytes16_unit16 (order : ByteOrder) (a b : UInt8) :
    order.bytes16 (order.unit16 a b) = [a, b] := by
  have ha := a.toNat_lt
  have hb := b.toNat_lt
  cases order with
  | lowFirst =>
    have hlow : (b.toNat * 256 + a.toNat) % 256 = a.toNat := by omega
    have hhigh : (b.toNat * 256 + a.toNat) / 256 = b.toNat := by omega
    simp only [ByteOrder.unit16, ByteOrder.bytes16, hlow, hhigh, UInt8.ofNat_toNat]
  | highFirst =>
    have hlow : (a.toNat * 256 + b.toNat) % 256 = b.toNat := by omega
    have hhigh : (a.toNat * 256 + b.toNat) / 256 = a.toNat := by omega
    simp only [ByteOrder.unit16, ByteOrder.bytes16, hlow, hhigh, UInt8.ofNat_toNat]

/-- A unit of four bytes is written with those bytes. -/
theorem bytes32_unit32 (order : ByteOrder) (a b c d : UInt8) :
    order.bytes32 (order.unit32 a b c d) = [a, b, c, d] := by
  have ha := a.toNat_lt
  have hb := b.toNat_lt
  have hc := c.toNat_lt
  have hd := d.toNat_lt
  have hsplit : ∀ w x y z : Nat, w < 256 → x < 256 → y < 256 →
      (z * 16777216 + y * 65536 + x * 256 + w) % 256 = w ∧
      (z * 16777216 + y * 65536 + x * 256 + w) / 256 % 256 = x ∧
      (z * 16777216 + y * 65536 + x * 256 + w) / 65536 % 256 = y ∧
      (z * 16777216 + y * 65536 + x * 256 + w) / 16777216 = z := by omega
  cases order with
  | lowFirst =>
    obtain ⟨h₀, h₁, h₂, h₃⟩ := hsplit _ _ _ d.toNat ha hb hc
    simp only [ByteOrder.unit32, ByteOrder.bytes32, h₀, h₁, h₂, h₃, UInt8.ofNat_toNat]
  | highFirst =>
    obtain ⟨h₀, h₁, h₂, h₃⟩ := hsplit _ _ _ a.toNat hd hc hb
    simp only [ByteOrder.unit32, ByteOrder.bytes32, h₀, h₁, h₂, h₃, UInt8.ofNat_toNat]

/-- Beyond U+FFFF a character is written with the two units that it is read from. -/
theorem utf16Bytes_pair (order : ByteOrder) {c : Char} {lead trail : Nat}
    (hlead : isHighSurrogate lead = true) (htrail : isLowSurrogate trail = true)
    (hc : c.toNat = 0x10000 + (lead - 0xD800) * 1024 + (trail - 0xDC00)) :
    utf16Bytes order c = order.bytes16 lead ++ order.bytes16 trail := by
  rw [isHighSurrogate, Bool.and_eq_true, decide_eq_true_iff, decide_eq_true_iff] at hlead
  rw [isLowSurrogate, Bool.and_eq_true, decide_eq_true_iff, decide_eq_true_iff] at htrail
  have hfirst : 0xD800 + (c.toNat - 0x10000) / 1024 = lead := by omega
  have hsecond : 0xDC00 + (c.toNat - 0x10000) % 1024 = trail := by omega
  simp only [utf16Bytes]
  rw [if_neg (by omega), hfirst, hsecond]

theorem utf16Segment_spelled {order : ByteOrder} {lead : UInt8} {rest : Bytes} {c : Char}
    {n : Nat} :
    utf16Segment order lead rest = .char c n → SpelledBy (utf16Bytes order c) lead rest n := by
  fun_cases utf16Segment order lead rest with
  | case2 second unit hhigh a b tail trail hlow =>
    intro h
    obtain ⟨hc, rfl⟩ := ofScalar_eq_char h
    refine ⟨[second, a, b], tail, rfl, ?_, rfl⟩
    rw [utf16Bytes_pair order hhigh hlow hc, bytes16_unit16, bytes16_unit16]
    rfl
  | case5 second tail unit hhigh =>
    intro h
    obtain ⟨hc, rfl⟩ := ofScalar_eq_char h
    refine ⟨[second], tail, rfl, ?_, rfl⟩
    have hsmall : c.toNat < 0x10000 := by
      have hfirst := lead.toNat_lt
      have hsecond := second.toNat_lt
      rw [hc]
      cases order <;> simp only [unit, ByteOrder.unit16] <;> omega
    simp only [utf16Bytes]
    rw [if_pos hsmall, hc, bytes16_unit16]
  | _ =>
    intro h
    cases h

theorem utf32Segment_spelled {order : ByteOrder} {lead : UInt8} {rest : Bytes} {c : Char}
    {n : Nat} :
    utf32Segment order lead rest = .char c n →
      SpelledBy (order.bytes32 c.toNat) lead rest n := by
  fun_cases utf32Segment order lead rest with
  | case1 b b' b'' tail =>
    intro h
    obtain ⟨hc, rfl⟩ := ofScalar_eq_char h
    exact ⟨[b, b', b''], tail, rfl, by rw [hc, bytes32_unit32], rfl⟩
  | _ =>
    intro h
    cases h

/-! ## Whole texts -/

variable {e : Encoding}

/-- Every character that is read begins with the bytes that it is written with. -/
theorem segment_spelled (hlatin : e ≠ latin1) {lead : UInt8} {rest : Bytes} {c : Char} {n : Nat}
    (h : e.segment lead rest = .char c n) : SpelledBy (e.encodeChar c) lead rest n := by
  cases e with
  | latin1 => exact absurd rfl hlatin
  | auto | utf8 => exact utf8Segment_spelled h
  | utf16le | utf16 | utf16be => exact utf16Segment_spelled h
  | utf32le | utf32 | wchar | utf32be => exact utf32Segment_spelled h

/-- Bytes at which no character begins: there are none left, or a malformed segment is next. -/
def Stuck (e : Encoding) (bytes : Bytes) : Prop :=
  bytes = [] ∨ ∃ lead rest width, bytes = lead :: rest ∧ e.segment lead rest = .malformed width

/-- All bytes are the bytes of characters, and then no character begins. -/
theorem exists_chars (hlatin : e ≠ latin1) (bytes : Bytes) :
    ∃ (cs : List Char) (rest : Bytes), bytes = cs.flatMap e.encodeChar ++ rest ∧ e.Stuck rest := by
  induction bytes using segments.induct e with
  | case1 => exact ⟨[], [], rfl, .inl rfl⟩
  | case2 lead rest s ih =>
    cases hs : s with
    | malformed width => exact ⟨[], lead :: rest, rfl, .inr ⟨lead, rest, width, rfl, hs⟩⟩
    | char c n =>
      obtain ⟨more, tail, rfl, hbytes, rfl⟩ := segment_spelled hlatin hs
      have hdrop : (more ++ tail).drop (s.width - 1) = tail := by
        rw [hs, Segment.width, Nat.add_sub_cancel, List.drop_left]
      obtain ⟨cs, rest, htail, hstuck⟩ := ih
      rw [hdrop] at htail
      refine ⟨c :: cs, rest, ?_, hstuck⟩
      rw [List.flatMap_cons, hbytes, htail, List.append_assoc, List.cons_append]

/-- The segments of characters come first, whatever follows them. -/
theorem SelfDelimiting.segments_flatMap_append (h : e.SelfDelimiting) (cs : List Char)
    (rest : Bytes) :
    e.segments (cs.flatMap e.encodeChar ++ rest) =
      (cs.map fun c => .char c (e.encodeChar c).length) ++ e.segments rest := by
  induction cs with
  | nil => rfl
  | cons c cs ih =>
    rw [List.flatMap_cons, List.append_assoc, h.segments_append, ih, List.map_cons,
      List.cons_append]

/-- A malformed segment is answered with the number of bytes before it. -/
theorem charsOfSegments_malformed (cs : List Char) (written : Char → Bytes) (offset width : Nat)
    (rest : List Segment) :
    charsOfSegments offset
        ((cs.map fun c => .char c (written c).length) ++ .malformed width :: rest) =
      .error (offset + (cs.flatMap written).length) := by
  induction cs generalizing offset with
  | nil => rfl
  | cons c cs ih =>
    rw [List.map_cons, List.cons_append, charsOfSegments, ih, List.flatMap_cons,
      List.length_append, Nat.add_assoc]

/-- Reading stops at a malformed segment behind the bytes of characters. -/
theorem decodeStrict_malformed (hlatin : e ≠ latin1) (cs : List Char) {lead : UInt8}
    {rest : Bytes} {width : Nat} (h : e.segment lead rest = .malformed width) :
    e.decodeStrict (cs.flatMap e.encodeChar ++ lead :: rest) =
      .error (cs.flatMap e.encodeChar).length := by
  have hsegments : e.segments (lead :: rest) =
      .malformed width :: e.segments (rest.drop (width - 1)) := by
    rw [segments, h]
    rfl
  rw [decodeStrict_eq, (selfDelimiting_of_ne_latin1 hlatin).segments_flatMap_append, hsegments,
    charsOfSegments_malformed, Nat.zero_add]
  rfl

/-- Where a malformed segment begins, a shorter input has one as well. -/
theorem segment_take_malformed (hlatin : e ≠ latin1) {lead : UInt8} {rest : Bytes} {width : Nat}
    (h : e.segment lead rest = .malformed width) (k : Nat) :
    ∃ width', e.segment lead (rest.take k) = .malformed width' := by
  cases hcut : e.segment lead (rest.take k) with
  | malformed width' => exact ⟨width', rfl⟩
  | char c n =>
    -- the character is cut off in the same way with the rest of the bytes behind it
    obtain ⟨more, tail, htake, hbytes, rfl⟩ := segment_spelled hlatin hcut
    obtain ⟨lead', more', hbytes', hsegment⟩ :=
      selfDelimiting_of_ne_latin1 hlatin c (tail ++ rest.drop k)
    obtain ⟨rfl, rfl⟩ := List.cons.inj (hbytes.symm.trans hbytes')
    rw [← List.append_assoc, ← htake, List.take_append_drop, h] at hsegment
    cases hsegment

/-- The bytes of characters are read as those characters. -/
theorem decodeStrict_flatMap (hlatin : e ≠ latin1) (cs : List Char) :
    e.decodeStrict (cs.flatMap e.encodeChar) = .ok (String.ofList cs) := by
  have h := (selfDelimiting_of_ne_latin1 hlatin).decodeStrict_encode (String.ofList cs)
  rwa [encode, String.toList_ofList] at h

/-- Bytes that are read are the bytes that their text is written with. -/
theorem encode_of_decodeStrict (hlatin : e ≠ latin1) {bytes : Bytes} {text : String}
    (h : e.decodeStrict bytes = .ok text) : e.encode text = bytes := by
  obtain ⟨cs, rest, rfl, rfl | ⟨lead, rest, width, rfl, hmalformed⟩⟩ := exists_chars hlatin bytes
  · rw [List.append_nil, decodeStrict_flatMap hlatin] at h
    obtain rfl := Except.ok.inj h
    rw [encode, String.toList_ofList, List.append_nil]
  · rw [decodeStrict_malformed hlatin cs hmalformed] at h
    cases h

/-- The offset that is answered is that of a malformed segment behind the bytes of characters. -/
theorem exists_malformed_of_decodeStrict (hlatin : e ≠ latin1) {bytes : Bytes} {p : Nat}
    (h : e.decodeStrict bytes = .error p) :
    ∃ (cs : List Char) (lead : UInt8) (rest : Bytes) (width : Nat),
      bytes = cs.flatMap e.encodeChar ++ lead :: rest ∧ p = (cs.flatMap e.encodeChar).length ∧
        e.segment lead rest = .malformed width := by
  obtain ⟨cs, rest, rfl, rfl | ⟨lead, rest, width, rfl, hmalformed⟩⟩ := exists_chars hlatin bytes
  · rw [List.append_nil, decodeStrict_flatMap hlatin] at h
    cases h
  · rw [decodeStrict_malformed hlatin cs hmalformed] at h
    exact ⟨cs, lead, rest, width, rfl, (Except.error.inj h).symm, hmalformed⟩

/-! ## Latin-1 -/

theorem latin1Byte_latin1Char (b : UInt8) : latin1Byte (latin1Char b) = b := by
  have hchar : (latin1Char b).toNat = b.toNat := by
    have hb := b.toNat_lt
    rw [latin1Char, toNat_ofScalar (.inl (by omega))]
  rw [latin1Byte, hchar, if_pos b.toNat_lt, UInt8.ofNat_toNat]

/-- All bytes are read in Latin-1, and written back as they were. -/
theorem decodeStrict_latin1 (bytes : Bytes) :
    ∃ text, latin1.decodeStrict bytes = .ok text ∧ latin1.encode text = bytes := by
  have hchars : bytes.map (fun b => Segment.char (latin1Char b) 1) =
      (bytes.map latin1Char).map fun c => .char c 1 := by
    rw [List.map_map]
    rfl
  refine ⟨String.ofList (bytes.map latin1Char), ?_, ?_⟩
  · rw [decodeStrict_eq, segments_latin1, hchars, charsOfSegments_chars _ fun _ => 1]
    rfl
  · have hbytes : ∀ cs : List Char, cs.flatMap latin1.encodeChar = cs.map latin1Byte :=
      fun _ => List.map_eq_flatMap.symm
    rw [encode, String.toList_ofList, hbytes, List.map_map]
    exact (List.map_congr_left fun b _ => latin1Byte_latin1Char b).trans (List.map_id _)

/-! ## Strict reading is the inverse of writing -/

/-- In every encoding that has all characters, strict reading gives a written text back, and
what it reads is written back byte for byte.  What it refuses it refuses at the first malformed
segment: the bytes before it are read, and no longer part of the bytes is.  In Latin-1 all
bytes are read, and written back. -/
theorem decodeStrict_exact :
    (∀ e : Encoding, e ≠ latin1 →
      (∀ text, e.decodeStrict (e.encode text) = .ok text) ∧
      (∀ bytes text, e.decodeStrict bytes = .ok text → e.encode text = bytes) ∧
      ∀ bytes p, e.decodeStrict bytes = .error p →
        p < bytes.length ∧
        (∃ text, e.decodeStrict (bytes.take p) = .ok text) ∧
        (∀ q, p < q → q ≤ bytes.length → ∀ text, e.decodeStrict (bytes.take q) ≠ .ok text) ∧
        ∃ lead rest width, bytes.drop p = lead :: rest ∧
          e.segment lead rest = .malformed width) ∧
    ∀ bytes, ∃ text, latin1.decodeStrict bytes = .ok text ∧ latin1.encode text = bytes := by
  refine ⟨fun e hlatin => ⟨(selfDelimiting_of_ne_latin1 hlatin).decodeStrict_encode,
    fun bytes text => encode_of_decodeStrict hlatin, fun bytes p h => ?_⟩, decodeStrict_latin1⟩
  obtain ⟨cs, lead, rest, width, rfl, rfl, hmalformed⟩ :=
    exists_malformed_of_decodeStrict hlatin h
  refine ⟨?_, ?_, ?_, lead, rest, width, List.drop_left, hmalformed⟩
  · rw [List.length_append, List.length_cons]
    omega
  · rw [List.take_left]
    exact ⟨_, decodeStrict_flatMap hlatin cs⟩
  · intro q hp hq text hok
    -- the longer part still begins with the malformed segment
    obtain ⟨k, rfl⟩ := Nat.exists_eq_add_of_lt hp
    obtain ⟨width', hcut⟩ := segment_take_malformed hlatin hmalformed k
    rw [Nat.add_assoc, List.take_length_add_append, List.take_succ_cons,
      decodeStrict_malformed hlatin cs hcut] at hok
    cases hok

/-- A pair of surrogates that the input ends in the middle of is refused where it begins. -/
theorem decodeStrict_truncated_pair :
    utf16le ≠ latin1 ∧
      utf16le.decodeStrict [0x41, 0x00, 0x3D, 0xD8, 0x00] = .error 2 ∧
      (∃ text, utf16le.decodeStrict [0x41, 0x00] = .ok text) ∧
      ∀ text, utf16le.decodeStrict [0x41, 0x00, 0x3D, 0xD8] ≠ .ok text := by
  have hrefused : utf16le.decodeStrict [0x41, 0x00, 0x3D, 0xD8, 0x00] = .error 2 := by
    decide +kernel
  obtain ⟨-, -, hstop⟩ := decodeStrict_exact.1 utf16le (by decide)
  obtain ⟨-, hread, hlonger, -⟩ := hstop _ _ hrefused
  exact ⟨by decide, hrefused, hread, hlonger 4 (by decide) (by decide)⟩

end Encoding

end XmlTree
