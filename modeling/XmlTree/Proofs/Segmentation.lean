/-
  Proofs/Segmentation.lean --- every reader of bytes goes by their segments.

  WHAT THIS FILE IS FOR.  UTF-16 and UTF-32 are read by four readers, two that replace what is
  malformed and two that refuse it, each in its own way.  Here it is shown that all of them
  read the bytes segment by segment (`decodeLossy_eq`, `decodeStrict_eq`).  After that what is
  said of segments holds of every reader, and no reader is opened again.

  WHERE READERS COULD DIFFER.  A first half of a character may stand before a unit that is no
  second half, before one byte, and at the end; in each case its own two bytes are one
  malformed segment, and what is behind them is read as if it came first.
-/
import Mathlib.Data.List.Basic
import XmlTree.Encoding.Codec

set_option autoImplicit false

namespace XmlTree

namespace Encoding

variable {e : Encoding} {order : ByteOrder}

/-! ## One number -/

theorem charOrReplacement_ofScalar (n width : Nat) :
    (Segment.ofScalar n width).charOrReplacement = (charOfNumber? n).getD '\uFFFD' := by
  unfold Segment.ofScalar charOfNumber?
  split <;> rfl

theorem width_ofScalar (n width : Nat) : (Segment.ofScalar n width).width = width := by
  unfold Segment.ofScalar
  split <;> rfl

theorem charsOfSegments_ofScalar (offset n width : Nat) (rest : List Segment) :
    charsOfSegments offset (.ofScalar n width :: rest) =
      charAt offset n (charsOfSegments (offset + width) rest) := by
  unfold Segment.ofScalar charAt charOfNumber?
  split
  · rw [charsOfSegments]
    cases charsOfSegments (offset + width) rest <;> rfl
  · rfl

/-- A number that is half of a character is no character. -/
theorem charOfNumber?_of_isLowSurrogate {n : Nat} (h : isLowSurrogate n = true) :
    charOfNumber? n = none := by
  rw [isLowSurrogate, Bool.and_eq_true, decide_eq_true_iff, decide_eq_true_iff] at h
  refine if_neg fun hvalid => ?_
  have hscalar : n < 0xD800 ∨ 0xDFFF < n ∧ n < 0x110000 := hvalid
  omega

theorem charOfNumber?_of_isHighSurrogate {n : Nat} (h : isHighSurrogate n = true) :
    charOfNumber? n = none := by
  rw [isHighSurrogate, Bool.and_eq_true, decide_eq_true_iff, decide_eq_true_iff] at h
  refine if_neg fun hvalid => ?_
  have hscalar : n < 0xD800 ∨ 0xDFFF < n ∧ n < 0x110000 := hvalid
  omega

/-! ## One segment -/

theorem segments_cons {first : UInt8} {rest : Bytes} {s : Segment}
    (h : e.segment first rest = s) :
    e.segments (first :: rest) = s :: e.segments (rest.drop (s.width - 1)) := by
  rw [segments, h]

theorem utf16Segment_single {a b : UInt8} (h : ¬ isHighSurrogate (order.unit16 a b) = true)
    (rest : Bytes) : utf16Segment order a (b :: rest) = .ofScalar (order.unit16 a b) 2 := by
  unfold utf16Segment
  exact if_neg h

theorem utf16Segment_pair {a b c d : UInt8} (hhigh : isHighSurrogate (order.unit16 a b) = true)
    (hlow : isLowSurrogate (order.unit16 c d) = true) (rest : Bytes) :
    utf16Segment order a (b :: c :: d :: rest) =
      .ofScalar (surrogatePair (order.unit16 a b) (order.unit16 c d)) 4 := by
  unfold utf16Segment
  exact (if_pos hhigh).trans (if_pos hlow)

/-- A first half without a second one behind it is a segment. -/
theorem utf16Segment_alone {a b : UInt8} {rest : Bytes}
    (hhigh : isHighSurrogate (order.unit16 a b) = true)
    (halone : ∀ c d tail, rest = c :: d :: tail → ¬ isLowSurrogate (order.unit16 c d) = true) :
    utf16Segment order a (b :: rest) = .malformed 2 := by
  unfold utf16Segment
  refine (if_pos hhigh).trans ?_
  split
  · exact if_neg (halone _ _ _ rfl)
  · rfl

/-- Bytes that do not begin with four are fewer than four. -/
theorem length_lt_three {first : UInt8} {rest : Bytes}
    (h : ∀ a b c d tail, first :: rest = a :: b :: c :: d :: tail → False) : rest.length < 3 := by
  match rest with
  | [] | [_] | [_, _] => simp
  | b :: c :: d :: tail => exact (h first b c d tail rfl).elim

/-- Fewer than four bytes are a segment. -/
theorem utf32Segment_short {first : UInt8} {rest : Bytes} (h : rest.length < 3) :
    utf32Segment order first rest = .malformed (rest.length + 1) := by
  unfold utf32Segment
  split
  · simp only [List.length_cons] at h
    omega
  · rfl

/-! ## Readers that refuse -/

theorem utf16Strict_eq (he : ∀ first rest, e.segment first rest = utf16Segment order first rest)
    (offset : Nat) (bytes : Bytes) :
    utf16Strict order offset bytes = charsOfSegments offset (e.segments bytes) := by
  fun_induction utf16Strict order offset bytes with
  | case1 => rw [segments, charsOfSegments]
  | case2 offset first => rw [segments_cons (he first []), utf16Segment, charsOfSegments]
  | case3 offset a b lead hhigh c d rest trail hlow ih =>
    rw [segments_cons ((he a _).trans (utf16Segment_pair hhigh hlow rest)),
      charsOfSegments_ofScalar, width_ofScalar, ih]
    rfl
  | case4 offset a b lead hhigh c d rest trail hlow =>
    have halone : utf16Segment order a (b :: c :: d :: rest) = .malformed 2 := by
      refine utf16Segment_alone hhigh fun c' d' tail hrest => ?_
      cases hrest
      exact hlow
    rw [segments_cons ((he a _).trans halone), charsOfSegments]
  | case5 offset a b rest lead hhigh hshort =>
    have halone : utf16Segment order a (b :: rest) = .malformed 2 :=
      utf16Segment_alone hhigh fun c d tail hrest => (hshort c d tail hrest).elim
    rw [segments_cons ((he a _).trans halone), charsOfSegments]
  | case6 offset a b rest lead hhigh hlow =>
    rw [segments_cons ((he a _).trans (utf16Segment_single hhigh rest)),
      charsOfSegments_ofScalar, charAt, charOfNumber?_of_isLowSurrogate hlow]
  | case7 offset a b rest lead hhigh hlow ih =>
    rw [segments_cons ((he a _).trans (utf16Segment_single hhigh rest)),
      charsOfSegments_ofScalar, width_ofScalar, ih]
    rfl

theorem utf32Strict_eq (he : ∀ first rest, e.segment first rest = utf32Segment order first rest)
    (offset : Nat) (bytes : Bytes) :
    utf32Strict order offset bytes = charsOfSegments offset (e.segments bytes) := by
  fun_induction utf32Strict order offset bytes with
  | case1 => rw [segments, charsOfSegments]
  | case2 offset a b c d rest ih =>
    have hsegment : e.segment a (b :: c :: d :: rest) = .ofScalar (order.unit32 a b c d) 4 :=
      he a _
    rw [segments_cons hsegment, charsOfSegments_ofScalar, width_ofScalar, ih]
    rfl
  | case3 offset bytes hsome hshort =>
    obtain ⟨first, rest, rfl⟩ := List.exists_cons_of_ne_nil hsome
    rw [segments_cons ((he first rest).trans (utf32Segment_short (length_lt_three hshort))),
      charsOfSegments]

/-! ## Readers that replace -/

/-- A character of some whole units comes first, and what is left over stays left over. -/
theorem utf16Lossy_append (used : Bytes) {rest : Bytes} {c : Option Char}
    (hused : used.length % 2 = 0)
    (hunits : charsOfUnits (units16 order (used ++ rest)) =
      c :: charsOfUnits (units16 order rest)) :
    utf16Lossy order (used ++ rest) = c.getD '\uFFFD' :: utf16Lossy order rest := by
  have hleft : (used ++ rest).length % 2 = rest.length % 2 := by
    rw [List.length_append]
    omega
  rw [utf16Lossy, hunits, hleft]
  rfl

theorem utf16Lossy_single {a b : UInt8} (h : ¬ isHighSurrogate (order.unit16 a b) = true)
    (rest : Bytes) :
    utf16Lossy order (a :: b :: rest) =
      (charOfNumber? (order.unit16 a b)).getD '\uFFFD' :: utf16Lossy order rest := by
  refine utf16Lossy_append [a, b] (Nat.mod_self 2) ?_
  rw [List.cons_append, List.singleton_append, units16]
  cases units16 order rest with
  | nil => rfl
  | cons v us => rw [charsOfUnits, if_neg h]

theorem utf16Lossy_pair {a b c d : UInt8} (hhigh : isHighSurrogate (order.unit16 a b) = true)
    (hlow : isLowSurrogate (order.unit16 c d) = true) (rest : Bytes) :
    utf16Lossy order (a :: b :: c :: d :: rest) =
      (charOfNumber? (surrogatePair (order.unit16 a b) (order.unit16 c d))).getD '\uFFFD' ::
        utf16Lossy order rest := by
  refine utf16Lossy_append [a, b, c, d] (Nat.mul_mod_right 2 2) ?_
  show charsOfUnits (units16 order (a :: b :: c :: d :: rest)) = _
  rw [units16, units16, charsOfUnits, if_pos hhigh, if_pos hlow]

/-- What is behind a first half that stands alone is read as if it came first. -/
theorem utf16Lossy_alone {a b : UInt8} {rest : Bytes}
    (hhigh : isHighSurrogate (order.unit16 a b) = true)
    (halone : ∀ c d tail, rest = c :: d :: tail → ¬ isLowSurrogate (order.unit16 c d) = true) :
    utf16Lossy order (a :: b :: rest) = '\uFFFD' :: utf16Lossy order rest := by
  have hnone : charOfNumber? (order.unit16 a b) = none := charOfNumber?_of_isHighSurrogate hhigh
  refine utf16Lossy_append [a, b] (c := none) (Nat.mod_self 2) ?_
  rw [List.cons_append, List.singleton_append, units16]
  match rest with
  | [] | [_] =>
    show [charOfNumber? (order.unit16 a b)] = [none]
    rw [hnone]
  | c :: d :: tail => rw [units16, charsOfUnits, if_pos hhigh, if_neg (halone c d tail rfl)]

theorem utf16Lossy_eq (he : ∀ first rest, e.segment first rest = utf16Segment order first rest)
    (bytes : Bytes) :
    utf16Lossy order bytes = (e.segments bytes).map Segment.charOrReplacement := by
  induction bytes using segments.induct e with
  | case1 =>
    rw [segments]
    rfl
  | case2 a rest s ih =>
    obtain _ | ⟨b, rest⟩ := rest
    · rw [segments_cons ((he a []).trans rfl), List.drop_nil, segments]
      rfl
    · by_cases hhigh : isHighSurrogate (order.unit16 a b) = true
      · by_cases hpair : ∃ c d tail, rest = c :: d :: tail ∧ isLowSurrogate (order.unit16 c d) = true
        · obtain ⟨c, d, tail, rfl, hlow⟩ := hpair
          have hs : s = .ofScalar (surrogatePair (order.unit16 a b) (order.unit16 c d)) 4 :=
            (he a _).trans (utf16Segment_pair hhigh hlow tail)
          rw [hs, width_ofScalar] at ih
          rw [utf16Lossy_pair hhigh hlow, segments_cons hs, List.map_cons,
            charOrReplacement_ofScalar, width_ofScalar, ← ih]
          rfl
        · have halone : ∀ c d tail, rest = c :: d :: tail →
              ¬ isLowSurrogate (order.unit16 c d) = true :=
            fun c d tail hrest hlow => hpair ⟨c, d, tail, hrest, hlow⟩
          have hs : s = .malformed 2 := (he a _).trans (utf16Segment_alone hhigh halone)
          rw [hs] at ih
          rw [utf16Lossy_alone hhigh halone, segments_cons hs, List.map_cons, ← ih]
          rfl
      · have hs : s = .ofScalar (order.unit16 a b) 2 :=
          (he a _).trans (utf16Segment_single hhigh rest)
        rw [hs, width_ofScalar] at ih
        rw [utf16Lossy_single hhigh, segments_cons hs, List.map_cons,
          charOrReplacement_ofScalar, width_ofScalar, ← ih]
        rfl

theorem utf32Lossy_eq (he : ∀ first rest, e.segment first rest = utf32Segment order first rest)
    (bytes : Bytes) :
    utf32Lossy order bytes = (e.segments bytes).map Segment.charOrReplacement := by
  fun_induction units32 order bytes with
  | case1 a b c d rest ih =>
    have hsegment : e.segment a (b :: c :: d :: rest) = .ofScalar (order.unit32 a b c d) 4 :=
      he a _
    have hleft : (a :: b :: c :: d :: rest).length % 4 = rest.length % 4 :=
      Nat.add_mod_right rest.length 4
    rw [segments_cons hsegment, List.map_cons, charOrReplacement_ofScalar, width_ofScalar,
      utf32Lossy, hleft]
    exact congrArg (List.cons _) ih
  | case2 bytes hshort =>
    obtain _ | ⟨first, rest⟩ := bytes
    · rw [segments]
      rfl
    · -- there is no unit any more, and all that is left is one segment
      have hlength : rest.length < 3 := length_lt_three hshort
      have hunits : units32 order (first :: rest) = [] := by
        rw [units32]
        exact hshort
      have hleft : ((first :: rest).length % 4 != 0) = true := by
        rw [List.length_cons, bne_iff_ne]
        omega
      have hdrop : rest.drop (rest.length + 1 - 1) = [] := List.drop_length
      rw [segments_cons ((he first rest).trans (utf32Segment_short hlength)), utf32Lossy, hunits,
        hleft, Segment.width, hdrop, segments]
      rfl

/-! ## Every encoding -/

/-- An open encoding is read as UTF-8. -/
theorem segments_auto (bytes : Bytes) : auto.segments bytes = utf8.segments bytes := by
  induction bytes using segments.induct auto with
  | case1 => rw [segments, segments]
  | case2 first rest s ih =>
    have hs : utf8.segment first rest = s := rfl
    rw [segments_cons rfl, ih, segments_cons hs]

/-- In Latin-1 every byte is a segment. -/
theorem segments_latin1 (bytes : Bytes) :
    latin1.segments bytes = bytes.map fun b => .char (latin1Char b) 1 := by
  induction bytes with
  | nil => rw [segments, List.map_nil]
  | cons b bs ih =>
    rw [segments, List.map_cons, ← ih]
    rfl

theorem charsOfSegments_chars (cs : List Char) (width : Char → Nat) (offset : Nat) :
    charsOfSegments offset (cs.map fun c => .char c (width c)) = .ok cs := by
  induction cs generalizing offset with
  | nil => rfl
  | cons c cs ih => simp [charsOfSegments, ih]

/-- Segments that are all characters have nothing to replace. -/
theorem map_charOrReplacement_of_ok {segments : List Segment} {offset : Nat} {cs : List Char}
    (h : charsOfSegments offset segments = .ok cs) :
    segments.map Segment.charOrReplacement = cs := by
  induction segments generalizing offset cs with
  | nil =>
    cases h
    rfl
  | cons s rest ih =>
    cases s with
    | malformed width => cases h
    | char c width =>
      rw [charsOfSegments] at h
      cases hrest : charsOfSegments (offset + width) rest with
      | error p =>
        rw [hrest] at h
        cases h
      | ok more =>
        rw [hrest] at h
        cases h
        rw [List.map_cons, ih hrest, Segment.charOrReplacement]

theorem utf8Lossy_eq (bytes : Bytes) :
    utf8Lossy bytes = (utf8.segments bytes).map Segment.charOrReplacement := by
  unfold utf8Lossy
  cases h : utf8Strict bytes with
  | error p => rfl
  | ok cs => exact (map_charOrReplacement_of_ok h).symm

/-- Strict reading answers the characters of the segments, or where the first malformed one
begins. -/
theorem decodeStrict_eq (e : Encoding) (bytes : Bytes) :
    e.decodeStrict bytes = (charsOfSegments 0 (e.segments bytes)).map String.ofList := by
  unfold decodeStrict
  refine congrArg (Except.map String.ofList) ?_
  cases e with
  | auto => exact congrArg (charsOfSegments 0) (segments_auto bytes).symm
  | utf8 => rfl
  | utf16le | utf16 => exact utf16Strict_eq (fun _ _ => rfl) 0 bytes
  | utf16be => exact utf16Strict_eq (fun _ _ => rfl) 0 bytes
  | utf32le | utf32 | wchar => exact utf32Strict_eq (fun _ _ => rfl) 0 bytes
  | utf32be => exact utf32Strict_eq (fun _ _ => rfl) 0 bytes
  | latin1 =>
    have hchars : (bytes.map fun b => Segment.char (latin1Char b) 1) =
        (bytes.map latin1Char).map fun c => .char c 1 := by
      rw [List.map_map]
      rfl
    rw [segments_latin1, hchars, charsOfSegments_chars _ fun _ => 1]
    rfl

/-- Reading that replaces answers a character for every segment behind a byte order mark. -/
theorem decodeLossy_eq (e : Encoding) (bytes : Bytes) :
    e.decodeLossy bytes =
      String.ofList ((e.segments (e.dropByteOrderMark bytes)).map Segment.charOrReplacement) := by
  unfold decodeLossy
  refine congrArg String.ofList ?_
  generalize e.dropByteOrderMark bytes = bytes
  cases e with
  | auto => exact (utf8Lossy_eq bytes).trans (congrArg _ (segments_auto bytes).symm)
  | utf8 => exact utf8Lossy_eq bytes
  | utf16le | utf16 => exact utf16Lossy_eq (fun _ _ => rfl) bytes
  | utf16be => exact utf16Lossy_eq (fun _ _ => rfl) bytes
  | utf32le | utf32 | wchar => exact utf32Lossy_eq (fun _ _ => rfl) bytes
  | utf32be => exact utf32Lossy_eq (fun _ _ => rfl) bytes
  | latin1 =>
    rw [segments_latin1, List.map_map]
    rfl

end Encoding

end XmlTree
