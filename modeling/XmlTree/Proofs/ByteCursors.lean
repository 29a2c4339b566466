/-
  Proofs/ByteCursors.lean --- the scanner that stands where a cursor stands.

  WHAT THIS FILE IS FOR.  A reader goes over a text with a cursor, which has characters before
  it, and a scanner goes over the same text byte by byte.  As long as both stand at one place,
  they find the same things, and each step of the one takes it where a step of the other takes
  that one.
-/
import XmlTree.Proofs.Bytes
import XmlTree.Proofs.Recognition
import XmlTree.Proofs.Shifting

set_option autoImplicit false

namespace XmlTree

/-- A piece that stands in a text can be sliced out. -/
theorem Span.Within.slice {source : String} {s : Span}
    (h : s.Within source.toList) :
    sliceBytes? source s.start s.stop = some (String.ofList s.text) := by
  obtain ⟨pre, post, htext, hstart⟩ := h
  have hstands : (Scanner.mk source s.start).Stands pre (s.text ++ post) :=
    ⟨by rw [htext, List.append_assoc], hstart⟩
  exact hstands.slice rfl

namespace Cursor

variable {source : String} {c next : Cursor} {s : Span} {mark tail : List Char} {d : Char}

/-- The scanner at the place of a cursor. -/
def scanner (source : String) (c : Cursor) : Scanner := ⟨source, c.offset⟩

@[simp] theorem text_scanner : (c.scanner source).text = source := rfl

@[simp] theorem position_scanner : (c.scanner source).position = c.offset := rfl

@[simp] theorem size_scanner : (c.scanner source).size = source.utf8ByteSize := rfl

@[simp] theorem moveTo_scanner (n : Nat) : (c.scanner source).moveTo n = ⟨source, n⟩ := rfl

/-! ## Pieces and ends -/

theorem start_of_upTo? (h : c.upTo? mark = some (s, next)) :
    s.start = c.offset ∧ next.offset = s.stop + byteSize mark := by
  obtain ⟨⟨b, a⟩, -, heq⟩ := Option.map_eq_some_iff.1 h
  cases heq
  exact ⟨rfl, rfl⟩

theorem takeWhile_of_name? (h : c.name? = some (s, next)) : c.takeWhile isNameChar = (s, next) := by
  unfold name? at h
  split at h
  · split at h
    · exact Option.some.inj h
    · cases h
  · cases h

theorem offset_takeWhile (c : Cursor) (p : Char → Bool) :
    (c.takeWhile p).2.offset = (c.takeWhile p).1.stop := by
  simp only [takeWhile, skip, Span.stop, take_length_takeWhile]

/-- A name ends at a character that is none of a name. -/
theorem end_of_name? (h : c.name? = some (s, next)) :
    next.offset = s.stop ∧ next.rest.head?.all (fun d => !isNameChar d) = true := by
  have htake := takeWhile_of_name? h
  have hoffset := c.offset_takeWhile isNameChar
  obtain ⟨-, -, hhead⟩ := c.split_takeWhile isNameChar
  rw [htake] at hoffset hhead
  exact ⟨hoffset, hhead⟩

/-! ## Steps over ASCII characters -/

theorem advance_one (hhead : c.rest.head? = some d) (hd : IsAscii d) :
    (c.scanner source).advance 1 = (c.skip 1).scanner source := by
  obtain ⟨tail, hrest⟩ := List.head?_eq_some_iff.1 hhead
  simp only [scanner, Scanner.advance, skip, hrest, List.take_succ_cons, List.take_zero,
    byteSize_cons, byteSize_nil, utf8Size_of_isAscii hd]

theorem advance (hmark : ∀ m ∈ mark, IsAscii m) (hbegins : mark <+: c.rest) :
    (c.scanner source).advance mark.length = (c.skip mark.length).scanner source := by
  simp only [scanner, Scanner.advance, skip, ← List.prefix_iff_eq_take.1 hbegins,
    byteSize_of_isAscii hmark]

namespace On

theorem stands (h : c.On source.toList) :
    ∃ before, (c.scanner source).Stands before c.rest := by
  obtain ⟨pre, htext, hoffset⟩ := h
  exact ⟨pre, htext, hoffset⟩

theorem total_eq (h : c.On source.toList) : c.total = source.utf8ByteSize := by
  obtain ⟨pre, htext, hoffset⟩ := h
  rw [total, hoffset, ← byteSize_toList, htext, byteSize_append]

theorem offset_eq_iff (h : c.On source.toList) : c.offset = source.utf8ByteSize ↔ c.rest = [] := by
  rw [← h.total_eq, total]
  cases c.rest with
  | nil => simp
  | cons d cs =>
    have hpos := d.utf8Size_pos
    simp only [byteSize_cons, reduceCtorEq, iff_false]
    omega

theorem atEnd_eq (h : c.On source.toList) : (c.scanner source).atEnd = c.rest.isEmpty := by
  have htotal := h.total_eq
  have hend := h.offset_eq_iff
  rw [total] at htotal
  rw [Scanner.atEnd, Bool.eq_iff_iff, decide_eq_true_iff, List.isEmpty_iff, ← hend]
  simp only [size_scanner, position_scanner]
  omega

/-! ## Looking ahead -/

theorem peek?_nil (h : c.On source.toList) (hrest : c.rest = []) :
    (c.scanner source).peek? = none := by
  obtain ⟨before, hstands⟩ := h.stands
  rw [hrest] at hstands
  exact hstands.peek?_nil

theorem peek?_cons (h : c.On source.toList) (hrest : c.rest = d :: tail) :
    ∃ byte, (c.scanner source).peek? = some byte ∧
      (∀ {p : UInt8 → Bool} {q : Char → Bool}, ByteClass p q → p byte = q d) ∧
      ∀ {m : Char}, IsAscii m → (byte = m.toUInt8 ↔ d = m) := by
  obtain ⟨before, hstands⟩ := h.stands
  rw [hrest] at hstands
  exact hstands.peek?_cons

theorem any_peek? (h : c.On source.toList) {p : UInt8 → Bool} {q : Char → Bool}
    (hpq : ByteClass p q) : (c.scanner source).peek?.any p = c.rest.head?.any q := by
  obtain ⟨before, hstands⟩ := h.stands
  exact hstands.any_peek? hpq

theorem peek?_eq_some_iff (h : c.On source.toList) {m : Char} (hm : IsAscii m) :
    (c.scanner source).peek? = some m.toUInt8 ↔ c.rest.head? = some m := by
  obtain ⟨before, hstands⟩ := h.stands
  exact hstands.peek?_eq_some_iff hm

theorem beginsWith_eq (h : c.On source.toList) (hmark : ∀ m ∈ mark, IsAscii m) :
    (c.scanner source).beginsWith (utf8 mark) = XmlTree.beginsWith mark c.rest := by
  obtain ⟨before, hstands⟩ := h.stands
  rw [Scanner.beginsWith, hstands.rest, isPrefixOf_utf8 hmark]

/-! ## Steps -/

theorem eat_eq (h : c.On source.toList) {m : Char} (hm : IsAscii m) :
    (c.scanner source).eat m.toUInt8 =
      if c.rest.head? = some m then (true, (c.skip 1).scanner source)
      else (false, c.scanner source) := by
  by_cases hhead : c.rest.head? = some m
  · rw [Scanner.eat, if_pos hhead, if_pos ((h.peek?_eq_some_iff hm).2 hhead), advance_one hhead hm]
  · rw [Scanner.eat, if_neg hhead, if_neg (mt (h.peek?_eq_some_iff hm).1 hhead)]

theorem skipSpace_eq (h : c.On source.toList) :
    (c.scanner source).skipSpace = c.skipSpace.scanner source := by
  obtain ⟨before, hstands⟩ := h.stands
  rw [Scanner.skipSpace, hstands.rest, byteClass_space.takeWhile_utf8, length_utf8]
  simp only [scanner, Scanner.advance, Cursor.skipSpace, Cursor.skip, take_length_takeWhile]

theorem readName_eq (h : c.On source.toList) :
    (c.scanner source).readName =
      match c.name? with
      | none => (none, c.scanner source)
      | some (name, next) => (some (name.start, name.stop), next.scanner source) := by
  obtain ⟨before, hstands⟩ := h.stands
  unfold Scanner.readName Cursor.name?
  rw [hstands.rest]
  cases hrest : c.rest with
  | nil => rfl
  | cons d tail =>
    obtain ⟨b, bs, hbytes, -⟩ := exists_utf8EncodeChar d
    have hutf8 : utf8 (d :: tail) = b :: (bs ++ utf8 tail) := by
      rw [utf8_cons, hbytes, List.cons_append]
    have hstart : isNameStartByte b = isNameStart d :=
      byteClass_nameStart.eq_of_mem (hbytes ▸ List.mem_cons_self)
    rw [hutf8]
    simp only [hstart]
    split
    · rename_i hname
      have hnamed : isNameChar d = true := isNameChar_of_isNameStart hname
      have hsize := byteClass_name.length_takeWhile_tail d tail fun hd => ?_
      · have hlength : 1 + ((bs ++ utf8 tail).takeWhile isNameByte).length =
            byteSize ((d :: tail).takeWhile isNameChar) := by
          rw [List.takeWhile_cons_of_pos hnamed, ← hsize, hutf8, List.tail_cons, Nat.add_comm]
        simp only [hlength, Cursor.takeWhile, Cursor.skip, hrest, take_length_takeWhile]
        rfl
      · exact hnamed
    · rfl

/-! ## Searches -/

theorem findMark?_eq (h : c.On source.toList) (mark : List Char) (hmark : ∀ m ∈ mark, IsAscii m)
    (hne : mark ≠ []) :
    (c.scanner source).findMark? (utf8 mark) = (c.upTo? mark).map (·.1.stop) := by
  obtain ⟨before, hstands⟩ := h.stands
  rw [hstands.findMark? hmark hne, Cursor.upTo?, Option.map_map]
  rfl

theorem findByte?_eq (h : c.On source.toList) {m : Char} (hm : IsAscii m) :
    (c.scanner source).findByte? m.toUInt8 = (c.upTo? [m]).map (·.1.stop) := by
  obtain ⟨before, hstands⟩ := h.stands
  rw [hstands.findByte? hm, Cursor.upTo?, Option.map_map]
  rfl

end On

end Cursor

end XmlTree
