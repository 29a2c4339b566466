/-
  Proofs/Bytes.lean --- characters and the bytes that they are written in.

  WHAT THIS FILE IS FOR.  A scanner looks at bytes, and everything else in this library at
  characters.  The bytes of a character are its own if it is ASCII, and beyond ASCII all of
  them if it is not.  So whatever asks for ASCII marks alone is answered alike by the bytes and
  by the characters, and a scanner that stands between two characters and moves by such answers
  stands between two characters again.
-/
import Mathlib.Data.List.TakeWhile
import XmlTree.Proofs.Texts
import XmlTree.Text.Scanner

set_option autoImplicit false

namespace XmlTree

/-! ## The bytes of a character -/

/-- The bytes of a text in UTF-8. -/
def utf8 (cs : List Char) : List UInt8 := cs.flatMap String.utf8EncodeChar

@[simp]
theorem utf8_nil : utf8 [] = [] := rfl

theorem utf8_cons (c : Char) (cs : List Char) :
    utf8 (c :: cs) = String.utf8EncodeChar c ++ utf8 cs := List.flatMap_cons

theorem utf8_append (cs cs' : List Char) : utf8 (cs ++ cs') = utf8 cs ++ utf8 cs' :=
  List.flatMap_append

@[simp]
theorem length_utf8 (cs : List Char) : (utf8 cs).length = byteSize cs := by
  induction cs with
  | nil => rfl
  | cons c cs ih => rw [utf8_cons, List.length_append, ih, String.length_utf8EncodeChar,
      byteSize_cons]

theorem toList_toUTF8 (s : String) : s.toUTF8.data.toList = utf8 s.toList := by
  obtain ⟨cs, rfl⟩ := s.exists_eq_ofList
  rw [String.toList_ofList, String.toUTF8_eq_toByteArray, String.toByteArray_ofList]
  induction cs with
  | nil => rfl
  | cons c cs ih =>
    rw [List.utf8Encode_cons, List.utf8Encode_singleton, ByteArray.data_append,
      Array.toList_append, ih, utf8_cons, List.toList_data_toByteArray]

/-- Whether a character is ASCII. -/
def IsAscii (c : Char) : Prop := c.toNat < 128

instance (c : Char) : Decidable (IsAscii c) := inferInstanceAs (Decidable (c.toNat < 128))

theorem isAscii_of_all {cs : List Char} (h : cs.all (fun c => decide (IsAscii c)) = true) :
    ∀ c ∈ cs, IsAscii c :=
  fun c hc => of_decide_eq_true (List.all_eq_true.1 h c hc)

theorem utf8EncodeChar_of_isAscii {c : Char} (h : IsAscii c) :
    String.utf8EncodeChar c = [c.toUInt8] :=
  if_pos (Nat.le_of_lt_succ h)

theorem utf8Size_of_isAscii {c : Char} (h : IsAscii c) : c.utf8Size = 1 := by
  rw [← String.length_utf8EncodeChar, utf8EncodeChar_of_isAscii h]
  rfl

theorem toNat_toUInt8 {c : Char} (h : IsAscii c) :
    (c.toUInt8).toNat = c.toNat := by
  unfold IsAscii at h
  rw [show c.toUInt8 = UInt8.ofNat c.toNat from rfl, UInt8.toNat_ofNat',
    Nat.mod_eq_of_lt (by omega)]

/-- Every byte of a character beyond ASCII is beyond ASCII. -/
theorem le_of_mem_utf8EncodeChar {c : Char} (h : ¬ IsAscii c) {b : UInt8}
    (hb : b ∈ String.utf8EncodeChar c) : 128 ≤ b.toNat := by
  have hhigh : 127 < c.val.toNat := Nat.lt_of_succ_le (Nat.le_of_not_lt h)
  have hbyte : ∀ n k, 128 ≤ k → n + k < 256 → 128 ≤ (UInt8.ofNat (n + k)).toNat := by
    intro n k hk hlt
    rw [UInt8.toNat_ofNat', Nat.mod_eq_of_lt hlt]
    omega
  unfold String.utf8EncodeChar at hb
  simp only [if_neg (Nat.not_le.2 hhigh)] at hb
  split at hb
  · simp only [List.mem_cons, List.not_mem_nil, or_false] at hb
    rcases hb with rfl | rfl <;> exact hbyte _ _ (by omega) (by omega)
  · split at hb
    · simp only [List.mem_cons, List.not_mem_nil, or_false] at hb
      rcases hb with rfl | rfl | rfl <;> exact hbyte _ _ (by omega) (by omega)
    · simp only [List.mem_cons, List.not_mem_nil, or_false] at hb
      rcases hb with rfl | rfl | rfl | rfl <;> exact hbyte _ _ (by omega) (by omega)

theorem ne_toUInt8_of_le {m : Char} (hm : IsAscii m) {byte : UInt8} (hbyte : 128 ≤ byte.toNat) :
    byte ≠ m.toUInt8 := by
  rintro rfl
  rw [toNat_toUInt8 hm] at hbyte
  exact absurd hm (Nat.not_lt.2 hbyte)

/-- ASCII characters take one byte each. -/
theorem byteSize_of_isAscii {cs : List Char} (h : ∀ c ∈ cs, IsAscii c) :
    byteSize cs = cs.length := by
  induction cs with
  | nil => rfl
  | cons c cs ih =>
    obtain ⟨hc, hcs⟩ := List.forall_mem_cons.1 h
    rw [byteSize_cons, utf8Size_of_isAscii hc, ih hcs, List.length_cons, Nat.add_comm]

theorem exists_utf8EncodeChar (c : Char) :
    ∃ b bs, String.utf8EncodeChar c = b :: bs ∧ bs.length + 1 = c.utf8Size := by
  cases h : String.utf8EncodeChar c with
  | nil => exact absurd h String.utf8EncodeChar_ne_nil
  | cons b bs =>
    refine ⟨b, bs, rfl, ?_⟩
    rw [← String.length_utf8EncodeChar, h, List.length_cons]

/-- Behind the first byte of a character come bytes beyond ASCII only. -/
theorem exists_tail_bytes (c : Char) : ∃ byte bytes, String.utf8EncodeChar c = byte :: bytes ∧
    bytes.length + 1 = c.utf8Size ∧ ∀ b ∈ bytes, 128 ≤ b.toNat := by
  obtain ⟨byte, bytes, hbytes, hlength⟩ := exists_utf8EncodeChar c
  refine ⟨byte, bytes, hbytes, hlength, fun b hb => ?_⟩
  by_cases hc : IsAscii c
  · rw [utf8EncodeChar_of_isAscii hc, List.cons.injEq] at hbytes
    exact absurd (hbytes.2 ▸ hb) List.not_mem_nil
  · exact le_of_mem_utf8EncodeChar hc (hbytes ▸ List.mem_cons_of_mem byte hb)

/-! ## Questions about characters that bytes answer -/

/-- A question about characters has the same answer for the byte of an ASCII character, and one
and the same answer for everything beyond ASCII. -/
structure ByteClass (p : UInt8 → Bool) (q : Char → Bool) : Prop where
  ascii : ∀ c, IsAscii c → p (c.toUInt8) = q c
  beyond : ∀ b c, 128 ≤ b.toNat → ¬ IsAscii c → p b = q c

namespace ByteClass

variable {p : UInt8 → Bool} {q : Char → Bool}

/-- All bytes of a character give its answer. -/
theorem eq_of_mem (h : ByteClass p q) {c : Char} {b : UInt8} (hb : b ∈ String.utf8EncodeChar c) :
    p b = q c := by
  by_cases hc : IsAscii c
  · rw [utf8EncodeChar_of_isAscii hc, List.mem_singleton] at hb
    rw [hb]
    exact h.ascii c hc
  · exact h.beyond b c (le_of_mem_utf8EncodeChar hc hb) hc

theorem any_head? (h : ByteClass p q) (cs : List Char) :
    (utf8 cs).head?.any p = cs.head?.any q := by
  cases cs with
  | nil => rfl
  | cons c cs =>
    obtain ⟨b, bs, hbytes, -⟩ := exists_utf8EncodeChar c
    have hp : p b = q c := h.eq_of_mem (hbytes ▸ List.mem_cons_self)
    rw [utf8_cons, hbytes]
    exact hp

theorem all_utf8 (h : ByteClass p q) (cs : List Char) : (utf8 cs).all p = cs.all q := by
  induction cs with
  | nil => rfl
  | cons c cs ih =>
    have hchar : (String.utf8EncodeChar c).all p = q c := by
      obtain ⟨b, bs, hbytes, -⟩ := exists_utf8EncodeChar c
      have hall : ∀ b' ∈ String.utf8EncodeChar c, p b' = q c := fun b' hb => h.eq_of_mem hb
      cases hq : q c with
      | true => exact List.all_eq_true.2 fun b' hb => (hall b' hb).trans hq
      | false =>
        rw [hbytes, List.all_cons, (hall b (hbytes ▸ List.mem_cons_self)).trans hq, Bool.false_and]
    rw [utf8_cons, List.all_append, hchar, ih, List.all_cons]

/-- What is taken while the answer is yes. -/
theorem takeWhile_utf8 (h : ByteClass p q) (cs : List Char) :
    (utf8 cs).takeWhile p = utf8 (cs.takeWhile q) := by
  induction cs with
  | nil => rfl
  | cons c cs ih =>
    cases hq : q c with
    | true =>
      have hall : ∀ b ∈ String.utf8EncodeChar c, p b = true := fun b hb => (h.eq_of_mem hb).trans hq
      rw [List.takeWhile_cons, hq, if_pos rfl, utf8_cons, utf8_cons,
        List.takeWhile_append_of_pos hall, ih]
    | false =>
      obtain ⟨b, bs, hbytes, -⟩ := exists_utf8EncodeChar c
      have hp : p b = false := (h.eq_of_mem (hbytes ▸ List.mem_cons_self)).trans hq
      rw [List.takeWhile_cons, hq, if_neg Bool.false_ne_true, utf8_cons, hbytes, List.cons_append,
        List.takeWhile_cons, hp, if_neg Bool.false_ne_true, utf8_nil]

/-- What is taken behind the first byte of a character: the other bytes of it, too. -/
theorem length_takeWhile_tail (h : ByteClass p q) (c : Char) (cs : List Char)
    (hq : ¬ IsAscii c → q c = true) :
    ((utf8 (c :: cs)).tail.takeWhile p).length + 1 = byteSize (c :: cs.takeWhile q) := by
  obtain ⟨b, bs, hbytes, hlength⟩ := exists_utf8EncodeChar c
  have hall : ∀ b' ∈ bs, p b' = true := by
    intro b' hb'
    by_cases hc : IsAscii c
    · rw [utf8EncodeChar_of_isAscii hc, List.cons.injEq] at hbytes
      exact absurd (hbytes.2 ▸ hb') List.not_mem_nil
    · exact (h.eq_of_mem (hbytes ▸ List.mem_cons_of_mem b hb')).trans (hq hc)
  rw [utf8_cons, hbytes, List.cons_append, List.tail_cons, List.takeWhile_append_of_pos hall,
    h.takeWhile_utf8, List.length_append, length_utf8, byteSize_cons]
  omega

end ByteClass

/-- An answer that is read off a table of the ASCII characters. -/
theorem byteClass_of_table {p : UInt8 → Bool} {q : Char → Bool} (answer : Bool)
    (htable : ∀ n : Fin 128, p (UInt8.ofNat n) = q (Char.ofNat n))
    (hbytes : ∀ b : UInt8, 128 ≤ b.toNat → p b = answer)
    (hchars : ∀ c, ¬ IsAscii c → q c = answer) :
    ByteClass p q where
  ascii c hc := by
    have h := htable ⟨c.toNat, hc⟩
    rw [Char.ofNat_toNat] at h
    exact h
  beyond b c hb hc := (hbytes b hb).trans (hchars c hc).symm

theorem byteClass_space : ByteClass isSpaceByte isSpace := by
  refine byteClass_of_table false (by decide) ?_ ?_
  · intro b hb
    simp only [isSpaceByte, Bool.or_eq_false_iff, decide_eq_false_iff_not]
    refine ⟨⟨⟨?_, ?_⟩, ?_⟩, ?_⟩ <;> rintro rfl <;> exact absurd hb (by decide)
  · intro c hc
    simp only [isSpace, Bool.or_eq_false_iff, beq_eq_false_iff_ne]
    refine ⟨⟨⟨?_, ?_⟩, ?_⟩, ?_⟩ <;> rintro rfl <;> exact absurd (by decide) hc

theorem byteClass_nameStart : ByteClass isNameStartByte isNameStart := by
  refine byteClass_of_table true (by decide) ?_ ?_
  · intro b hb
    have h80 : (0x80 : UInt8) ≤ b := UInt8.le_iff_toNat_le.2 hb
    simp [isNameStartByte, h80]
  · intro c hc
    have h128 : 128 ≤ c.toNat := Nat.le_of_not_lt hc
    simp [isNameStart, h128]

theorem byteClass_name : ByteClass isNameByte isNameChar := by
  refine byteClass_of_table true (by decide) ?_ ?_
  · intro b hb
    have h80 : (0x80 : UInt8) ≤ b := UInt8.le_iff_toNat_le.2 hb
    simp [isNameByte, isNameStartByte, h80]
  · intro c hc
    have h128 : 128 ≤ c.toNat := Nat.le_of_not_lt hc
    simp [isNameChar, isNameStart, h128]

/-- A byte is an ASCII mark just where the character is. -/
theorem byteClass_mark {m : Char} (hm : IsAscii m) : ByteClass (· == m.toUInt8) (· == m) where
  ascii c hc := by
    rw [Bool.eq_iff_iff, beq_iff_eq, beq_iff_eq]
    refine ⟨fun h => ?_, fun h => h ▸ rfl⟩
    have hnat := congrArg UInt8.toNat h
    rw [toNat_toUInt8 hc, toNat_toUInt8 hm] at hnat
    exact Char.toNat_inj.1 hnat
  beyond b c hb hc := by
    have hbyte : (b == m.toUInt8) = false := beq_eq_false_iff_ne.2 (ne_toUInt8_of_le hm hb)
    have hchar : (c == m) = false := beq_eq_false_iff_ne.2 fun h => hc (h ▸ hm)
    rw [hbyte, hchar]

/-- As many characters as are taken while the answer is yes. -/
theorem take_length_takeWhile (q : Char → Bool) (cs : List Char) :
    cs.take (cs.takeWhile q).length = cs.takeWhile q :=
  (List.prefix_iff_eq_take.1 (List.takeWhile_prefix q)).symm

theorem drop_length_takeWhile (q : Char → Bool) (cs : List Char) :
    cs.drop (cs.takeWhile q).length = cs.dropWhile q := by
  have hsplit := List.takeWhile_append_dropWhile (p := q) (l := cs)
  have hbegins := List.prefix_iff_eq_append.1 (List.takeWhile_prefix (l := cs) q)
  exact List.append_cancel_left (hbegins.trans hsplit.symm)

/-! ## Marks -/

section Marks

variable {mark : List Char}

theorem isPrefixOf_utf8 (hmark : ∀ m ∈ mark, IsAscii m) (cs : List Char) :
    (utf8 mark).isPrefixOf (utf8 cs) = beginsWith mark cs := by
  induction mark generalizing cs with
  | nil => cases utf8 cs <;> rfl
  | cons m ms ih =>
    obtain ⟨hm, hms⟩ := List.forall_mem_cons.1 hmark
    rw [utf8_cons, utf8EncodeChar_of_isAscii hm]
    cases cs with
    | nil => rfl
    | cons c cs =>
      obtain ⟨b, bs, hbytes, -⟩ := exists_utf8EncodeChar c
      have hb : (b == m.toUInt8) = (c == m) :=
        (byteClass_mark hm).eq_of_mem (hbytes ▸ List.mem_cons_self)
      rw [utf8_cons, List.singleton_append, beginsWith, dropMark?]
      by_cases hmc : m = c
      · subst hmc
        rw [utf8EncodeChar_of_isAscii hm, List.singleton_append, List.isPrefixOf, beq_self_eq_true,
          Bool.true_and, if_pos rfl, ih hms]
        rfl
      · have hne : (m.toUInt8 == b) = false := by
          rw [beq_eq_false_iff_ne]
          rintro rfl
          rw [beq_self_eq_true, eq_comm, beq_iff_eq] at hb
          exact hmc hb.symm
        rw [hbytes, List.cons_append, List.isPrefixOf, hne, if_neg hmc]
        rfl

/-- A mark does not begin with a byte of a character beyond ASCII. -/
theorem isPrefixOf_utf8_of_le {m : Char} {mark : List Char} (hm : IsAscii m) {byte : UInt8}
    (hbyte : 128 ≤ byte.toNat) (rest : List UInt8) :
    (utf8 (m :: mark)).isPrefixOf (byte :: rest) = false := by
  have hne : (m.toUInt8 == byte) = false := beq_eq_false_iff_ne.2 (ne_toUInt8_of_le hm hbyte).symm
  rw [utf8_cons, utf8EncodeChar_of_isAscii hm, List.singleton_append, List.isPrefixOf, hne,
    Bool.false_and]

/-- No mark begins inside a character. -/
theorem findMark?_go_bytes {m : Char} (hm : IsAscii m) {bytes : List UInt8}
    (hbytes : ∀ b ∈ bytes, 128 ≤ b.toNat) (rest : List UInt8) (position : Nat) :
    Scanner.findMark?.go (utf8 (m :: mark)) (bytes ++ rest) position =
      Scanner.findMark?.go (utf8 (m :: mark)) rest (position + bytes.length) := by
  induction bytes generalizing position with
  | nil => rfl
  | cons b bs ih =>
    obtain ⟨hb, hbs⟩ := List.forall_mem_cons.1 hbytes
    rw [List.cons_append, Scanner.findMark?.go.eq_def, isPrefixOf_utf8_of_le hm hb]
    simp only [Bool.false_eq_true, if_false]
    rw [ih hbs, List.length_cons, Nat.add_assoc, Nat.add_comm 1]

/-- A mark is found in the bytes where it is found in the characters. -/
theorem findMark?_go_utf8 (hmark : ∀ m ∈ mark, IsAscii m) (hne : mark ≠ []) (cs : List Char)
    (position : Nat) :
    Scanner.findMark?.go (utf8 mark) (utf8 cs) position =
      (cutAt? mark cs).map fun (before, _) => position + byteSize before := by
  obtain ⟨m, ms, rfl⟩ := List.exists_cons_of_ne_nil hne
  induction cs generalizing position with
  | nil =>
    have hnot : (utf8 (m :: ms)).isPrefixOf [] = false := isPrefixOf_utf8 hmark []
    rw [utf8_nil, Scanner.findMark?.go.eq_def, hnot]
    rfl
  | cons c cs ih =>
    have hbegins := isPrefixOf_utf8 hmark (c :: cs)
    rw [beginsWith] at hbegins
    obtain ⟨b, bs, hbytes, hlength, hbeyond⟩ := exists_tail_bytes c
    rw [Scanner.findMark?.go.eq_def, hbegins, cutAt?]
    cases dropMark? (m :: ms) (c :: cs) with
    | some rest => rfl
    | none =>
      simp only [Option.isSome_none, Bool.false_eq_true, if_false]
      rw [utf8_cons, hbytes, List.cons_append]
      simp only
      rw [findMark?_go_bytes (hmark m List.mem_cons_self) hbeyond, ih, Option.map_map]
      refine congrArg (Option.map · _) (funext fun found => ?_)
      simp only [Function.comp, byteSize_cons]
      omega

end Marks

/-! ## Scanners between characters -/

namespace Scanner

variable {s : Scanner} {before mid after : List Char}

theorem rest_advance (s : Scanner) (n : Nat) : (s.advance n).rest = s.rest.drop n := by
  rw [rest, rest, advance, List.drop_drop]

/-- The text up to another place, if both places are between characters. -/
def sliceTo? (s : Scanner) (stop : Nat) : Option (List Char) :=
  (sliceBytes? s.text s.position stop).map String.toList

/-- A scanner stands between the characters `before` and `after` of its text. -/
structure Stands (s : Scanner) (before after : List Char) : Prop where
  text : s.text.toList = before ++ after
  position : s.position = byteSize before

namespace Stands

theorem ofText (text : String) : (Scanner.ofText text).Stands [] text.toList := ⟨rfl, rfl⟩

theorem rest (h : s.Stands before after) : s.rest = utf8 after := by
  rw [Scanner.rest, toList_toUTF8, h.text, h.position, utf8_append, ← length_utf8,
    List.drop_left]

theorem size (h : s.Stands before after) : s.size = byteSize before + byteSize after := by
  rw [Scanner.size, ← byteSize_toList, h.text, byteSize_append]

/-- The scanner behind the next characters. -/
theorem moveTo (h : s.Stands before (mid ++ after)) {n : Nat} (hn : n = s.position + byteSize mid) :
    (s.moveTo n).Stands (before ++ mid) after :=
  ⟨h.text.trans (List.append_assoc _ _ _).symm, by rw [byteSize_append, ← h.position]; exact hn⟩

theorem advance (h : s.Stands before (mid ++ after)) {n : Nat} (hn : n = byteSize mid) :
    (s.advance n).Stands (before ++ mid) after :=
  h.moveTo (congrArg (s.position + ·) hn)

/-- Behind an ASCII character. -/
theorem advance_one {c : Char} (h : s.Stands before (c :: after)) (hc : IsAscii c) :
    (s.advance 1).Stands (before ++ [c]) after :=
  (show s.Stands before ([c] ++ after) from h).advance
    (byteSize_of_isAscii (List.forall_mem_singleton.2 hc)).symm

/-- A byte that is not a mark begins a character that is not, and the other way round. -/
theorem peek?_cons {c : Char} (h : s.Stands before (c :: after)) :
    ∃ b, s.peek? = some b ∧ (∀ {p : UInt8 → Bool} {q : Char → Bool}, ByteClass p q → p b = q c) ∧
      ∀ {m : Char}, IsAscii m → (b = m.toUInt8 ↔ c = m) := by
  obtain ⟨b, bs, hbytes, -⟩ := exists_utf8EncodeChar c
  have hmem : b ∈ String.utf8EncodeChar c := hbytes ▸ List.mem_cons_self
  refine ⟨b, ?_, fun hpq => hpq.eq_of_mem hmem, fun {m} hm => ?_⟩
  · rw [peek?, h.rest, utf8_cons, hbytes]
    rfl
  · have hmark := (byteClass_mark hm).eq_of_mem hmem
    rw [Bool.eq_iff_iff, beq_iff_eq, beq_iff_eq] at hmark
    exact hmark

/-- What stands from here on can be sliced out. -/
theorem slice (h : s.Stands before (mid ++ after)) {n : Nat} (hn : n = s.position + byteSize mid) :
    sliceBytes? s.text s.position n = some (String.ofList mid) := by
  have htext : s.text = String.ofList before ++ String.ofList mid ++ String.ofList after := by
    rw [← String.toList_inj]
    simp [h.text]
  rw [hn, htext, h.position, byteSize_eq, byteSize_eq]
  exact sliceBytes?_append _ _ _

theorem sliceTo? (h : s.Stands before (mid ++ after)) {n : Nat}
    (hn : n = s.position + byteSize mid) : s.sliceTo? n = some mid := by
  rw [Scanner.sliceTo?, h.slice hn, Option.map_some, String.toList_ofList]

theorem any_peek? {p : UInt8 → Bool} {q : Char → Bool} (hpq : ByteClass p q)
    (h : s.Stands before after) : s.peek?.any p = after.head?.any q := by
  rw [peek?, h.rest, hpq.any_head?]

/-- A mark is the next byte where it is the next character. -/
theorem peek?_eq_some_iff (h : s.Stands before after) {m : Char} (hm : IsAscii m) :
    s.peek? = some m.toUInt8 ↔ after.head? = some m := by
  have hany := h.any_peek? (byteClass_mark hm)
  rw [Bool.eq_iff_iff, Option.any_eq_true, Option.any_eq_true] at hany
  simpa using hany

theorem peek?_nil (h : s.Stands before []) : s.peek? = none := by
  rw [peek?, h.rest]
  rfl

/-- Behind the next characters. -/
theorem take (h : s.Stands before after) (n : Nat) :
    (s.advance (byteSize (after.take n))).Stands (before ++ after.take n) (after.drop n) :=
  (show s.Stands before (after.take n ++ after.drop n) by rwa [List.take_append_drop]).advance rfl

/-- Behind ASCII characters. -/
theorem advance_ascii (h : s.Stands before (mid ++ after)) (hmid : ∀ c ∈ mid, IsAscii c) :
    (s.advance mid.length).Stands (before ++ mid) after :=
  h.advance (byteSize_of_isAscii hmid).symm

/-- Behind all characters for which the answer is yes. -/
theorem advance_takeWhile {p : UInt8 → Bool} {q : Char → Bool} (hpq : ByteClass p q)
    (h : s.Stands before after) :
    (s.advance (s.rest.takeWhile p).length).Stands
      (before ++ after.take (after.takeWhile q).length)
      (after.drop (after.takeWhile q).length) := by
  have htake := (take_length_takeWhile q after).symm
  rw [h.rest, hpq.takeWhile_utf8, length_utf8, congrArg byteSize htake]
  exact h.take _

theorem skipSpace (h : s.Stands before after) :
    s.skipSpace.Stands (before ++ after.take (after.takeWhile isSpace).length)
      (after.drop (after.takeWhile isSpace).length) :=
  h.advance_takeWhile byteClass_space

/-- A mark is found where it is found in the characters. -/
theorem findMark? {mark : List Char} (hmark : ∀ m ∈ mark, IsAscii m) (hne : mark ≠ [])
    (h : s.Stands before after) :
    s.findMark? (utf8 mark)
      = (cutAt? mark after).map fun (found, _) => s.position + byteSize found := by
  rw [Scanner.findMark?, h.rest, findMark?_go_utf8 hmark hne]

theorem findByte? {m : Char} (hm : IsAscii m) (h : s.Stands before after) :
    s.findByte? m.toUInt8
      = (cutAt? [m] after).map fun (found, _) => s.position + byteSize found := by
  rw [← h.findMark? (List.forall_mem_singleton.2 hm) (List.cons_ne_nil m []), utf8_cons,
    utf8EncodeChar_of_isAscii hm]
  rfl

end Stands

end Scanner

end XmlTree
