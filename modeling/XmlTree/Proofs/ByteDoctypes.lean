/-
  Proofs/ByteDoctypes.lean --- where a document type ends, byte by byte.

  WHAT THIS FILE IS FOR.  Inside a document type a scanner goes on one byte at a time, through
  the middle of characters too.  No byte of a character beyond ASCII begins a mark, so the
  scanner goes on to the next character, and what it finds is what is found in the characters:
  the same end, or none.
-/
import XmlTree.Proofs.ByteMarkup
import XmlTree.Proofs.Doctypes

set_option autoImplicit false

namespace XmlTree

/-- ASCII characters in front take one byte each. -/
theorem byteSize_ascii_append (mark : List Char) (hmark : ∀ m ∈ mark, IsAscii m) (cs : List Char) :
    byteSize (mark ++ cs) = mark.length + byteSize cs := by
  rw [byteSize_append, byteSize_of_isAscii hmark]

namespace Scanner

variable {s : Scanner} {before cs : List Char} {byte : UInt8} {bytes rest : List UInt8}

theorem atEnd_eq (s : Scanner) : s.atEnd = s.rest.isEmpty := by
  rw [atEnd, Bool.eq_iff_iff, decide_eq_true_iff, List.isEmpty_iff, Scanner.rest, toList_toUTF8,
    List.drop_eq_nil_iff, length_utf8, byteSize_toList, size]

theorem advance_advance (s : Scanner) (m n : Nat) : (s.advance m).advance n = s.advance (m + n) :=
  congrArg (mk s.text) (Nat.add_assoc _ _ _)

theorem rest_advance_one (h : s.rest = byte :: rest) : (s.advance 1).rest = rest := by
  rw [rest_advance, h, List.drop_succ_cons, List.drop_zero]

theorem Stands.atEnd_nil (h : s.Stands before []) : s.atEnd = true := by
  rw [s.atEnd_eq, h.rest]
  rfl

theorem Stands.atEnd_cons {c : Char} (h : s.Stands before (c :: cs)) : s.atEnd = false := by
  obtain ⟨byte, bytes, hbytes, -⟩ := exists_utf8EncodeChar c
  rw [s.atEnd_eq, h.rest, utf8_cons, hbytes]
  rfl

/-- No mark begins inside a character. -/
theorem beginsWith_of_le (hs : s.rest = byte :: rest) (hbyte : 128 ≤ byte.toNat) {m : Char}
    (hm : IsAscii m) (mark : List Char) : s.beginsWith (utf8 (m :: mark)) = false := by
  rw [Scanner.beginsWith, hs, isPrefixOf_utf8_of_le hm hbyte]

theorem Stands.beginsWith_eq (h : s.Stands before cs) (mark : List Char)
    (hmark : ∀ m ∈ mark, IsAscii m) :
    s.beginsWith (utf8 mark) = XmlTree.beginsWith mark cs := by
  rw [Scanner.beginsWith, h.rest, isPrefixOf_utf8 hmark]

/-- Behind one character. -/
theorem Stands.advance_char {c : Char} (h : s.Stands before (c :: cs)) :
    (s.advance c.utf8Size).Stands (before ++ [c]) cs :=
  (show s.Stands before ([c] ++ cs) from h).advance (by rw [byteSize_cons, byteSize_nil]; rfl)

/-- Behind a mark that is found. -/
theorem Stands.behind {mark found after : List Char} (h : s.Stands before cs)
    (hcut : cutAt? mark cs = some (found, after)) (hmark : ∀ m ∈ mark, IsAscii m) :
    (s.moveTo (s.position + byteSize found + mark.length)).Stands (before ++ (found ++ mark))
      after := by
  rw [eq_append_of_cutAt? hcut] at h
  refine h.moveTo ?_
  rw [byteSize_append, byteSize_of_isAscii hmark, Nat.add_assoc]

/-- At the place where an end of the text begins. -/
theorem Stands.moveTo_suffix {xs after : List Char} (h : s.Stands before (xs ++ after)) :
    (s.moveTo (s.size - byteSize after)).Stands (before ++ xs) after := by
  refine h.moveTo ?_
  rw [h.size, byteSize_append, h.position]
  omega

/-- A scanner is at the place where what is left begins. -/
theorem Stands.moveTo_eq (h : s.Stands before cs) : s.moveTo (s.size - byteSize cs) = s := by
  rw [h.size, Nat.add_sub_cancel, ← h.position]
  rfl

end Scanner

namespace Watch

open Scanner

variable {s : Scanner} {before cs : List Char} {byte : UInt8} {bytes rest : List UInt8}

/-! ## Sections -/

/-- No section begins or ends inside a character. -/
theorem behindSections?_bytes (hbytes : ∀ b ∈ bytes, 128 ≤ b.toNat) (hs : s.rest = bytes ++ rest)
    (rounds depth : Nat) :
    behindSections? (rounds + bytes.length) (depth + 1) s =
      behindSections? rounds (depth + 1) (s.advance bytes.length) := by
  induction bytes generalizing s with
  | nil => rfl
  | cons b bs ih =>
    obtain ⟨hb, hbs⟩ := List.forall_mem_cons.1 hbytes
    have hopen : s.beginsWith (utf8 "<![".toList) = false :=
      beginsWith_of_le hs hb (by decide) _
    have hclose : s.beginsWith (utf8 "]]>".toList) = false :=
      beginsWith_of_le hs hb (by decide) _
    rw [List.length_cons, ← Nat.add_assoc, behindSections?, s.atEnd_eq, hs, hopen, hclose,
      ih hbs (rest_advance_one hs), advance_advance, Nat.add_comm 1]
    rfl

/-- A character that begins no mark is passed over. -/
theorem behindSections?_char {c : Char} (h : s.Stands before (c :: cs))
    (hopen : XmlTree.beginsWith "<![".toList (c :: cs) = false)
    (hclose : XmlTree.beginsWith "]]>".toList (c :: cs) = false) (rounds depth : Nat) :
    behindSections? (rounds + c.utf8Size) (depth + 1) s =
      behindSections? rounds (depth + 1) (s.advance c.utf8Size) := by
  obtain ⟨byte, bytes, hbytes, hlength, hbeyond⟩ := exists_tail_bytes c
  have hrest : s.rest = byte :: (bytes ++ utf8 cs) := by
    rw [h.rest, utf8_cons, hbytes, List.cons_append]
  have hopen' := (h.beginsWith_eq _ (isAscii_of_all rfl)).trans hopen
  have hclose' := (h.beginsWith_eq _ (isAscii_of_all rfl)).trans hclose
  rw [← hlength, ← Nat.add_assoc, behindSections?, h.atEnd_cons, hopen', hclose']
  simp only [Nat.add_eq_zero_iff, Nat.one_ne_zero, and_false, if_false, Bool.false_eq_true]
  rw [behindSections?_bytes hbeyond (rest_advance_one hrest), advance_advance, Nat.add_comm 1]

theorem behindSections?_eq (h : s.Stands before cs) {rounds : Nat} (hrounds : byteSize cs < rounds)
    (depth : Nat) :
    behindSections? rounds depth s =
      some ((afterSections? depth cs).map fun after => s.moveTo (s.size - byteSize after)) := by
  fun_induction afterSections? depth cs generalizing s before rounds with
  | case1 cs =>
    obtain ⟨rounds, rfl⟩ := Nat.exists_eq_add_one_of_ne_zero (Nat.ne_zero_of_lt hrounds)
    rw [behindSections?, if_pos rfl, Option.map_some, h.moveTo_eq]
  | case2 depth =>
    obtain ⟨rounds, rfl⟩ := Nat.exists_eq_add_one_of_ne_zero (Nat.ne_zero_of_lt hrounds)
    rw [behindSections?, h.atEnd_nil]
    rfl
  | case3 depth cs ih =>
    obtain ⟨rounds, rfl⟩ := Nat.exists_eq_add_one_of_ne_zero (Nat.ne_zero_of_lt hrounds)
    have hmark : s.Stands before ("<![".toList ++ cs) := h
    have hsize : byteSize ('<' :: '!' :: '[' :: cs) = 3 + byteSize cs :=
      byteSize_ascii_append "<![".toList (isAscii_of_all rfl) cs
    have hopen := h.beginsWith_eq "<![".toList (isAscii_of_all rfl)
    have hnext : (s.advance 3).Stands _ cs := hmark.advance_ascii (isAscii_of_all rfl)
    rw [behindSections?, h.atEnd_cons, hopen]
    exact (ih hnext (by omega)).trans rfl
  | case4 depth cs ih =>
    obtain ⟨rounds, rfl⟩ := Nat.exists_eq_add_one_of_ne_zero (Nat.ne_zero_of_lt hrounds)
    have hmark : s.Stands before ("]]>".toList ++ cs) := h
    have hsize : byteSize (']' :: ']' :: '>' :: cs) = 3 + byteSize cs :=
      byteSize_ascii_append "]]>".toList (isAscii_of_all rfl) cs
    have hopen := h.beginsWith_eq "<![".toList (isAscii_of_all rfl)
    have hclose := h.beginsWith_eq "]]>".toList (isAscii_of_all rfl)
    have hnext : (s.advance 3).Stands _ cs := hmark.advance_ascii (isAscii_of_all rfl)
    rw [behindSections?, h.atEnd_cons, hopen, hclose]
    exact (ih hnext (by omega)).trans rfl
  | case5 depth c cs hopen hclose ih =>
    -- a character takes as many rounds as it has bytes
    obtain ⟨rounds, rfl⟩ := Nat.exists_eq_add_of_lt hrounds
    have hopen' : XmlTree.beginsWith "<![".toList (c :: cs) = false := by
      refine beginsWith_eq_false ?_
      rintro ⟨rest, hrest⟩
      have hcs : '<' :: '!' :: '[' :: rest = c :: cs := hrest
      cases hcs
      exact hopen rest rfl rfl
    have hclose' : XmlTree.beginsWith "]]>".toList (c :: cs) = false := by
      refine beginsWith_eq_false ?_
      rintro ⟨rest, hrest⟩
      have hcs : ']' :: ']' :: '>' :: rest = c :: cs := hrest
      cases hcs
      exact hclose rest rfl rfl
    have hshift : byteSize (c :: cs) + rounds + 1 = byteSize cs + rounds + 1 + c.utf8Size := by
      rw [byteSize_cons]
      omega
    rw [hshift, behindSections?_char h hopen' hclose']
    exact ih h.advance_char (by omega)

/-! ## Declarations -/

/-- Nothing inside a character opens or closes anything. -/
theorem doctypeEnd?_bytes (hbytes : ∀ b ∈ bytes, 128 ≤ b.toNat) (hs : s.rest = bytes ++ rest)
    (rounds depth : Nat) :
    doctypeEnd? (rounds + bytes.length) depth s =
      doctypeEnd? rounds depth (s.advance bytes.length) := by
  induction bytes generalizing s with
  | nil => rfl
  | cons b bs ih =>
    obtain ⟨hb, hbs⟩ := List.forall_mem_cons.1 hbytes
    have hpeek : s.peek? = some b := congrArg List.head? hs
    have hmarks : ∀ mark, s.beginsWith (utf8 ('<' :: mark)) = false :=
      beginsWith_of_le hs hb (by decide)
    have hcomment : s.beginsWith (utf8 "<!--".toList) = false := hmarks _
    have hinstruction : s.beginsWith (utf8 "<?".toList) = false := hmarks _
    have hsection : s.beginsWith (utf8 "<![".toList) = false := hmarks _
    have hne : ∀ m, IsAscii m → (b = m.toUInt8) = False := fun m hm =>
      eq_false (ne_toUInt8_of_le hm hb)
    rw [List.length_cons, ← Nat.add_assoc, doctypeEnd?]
    simp only [hpeek, hne '"' (by decide), hne '\'' (by decide), hne '<' (by decide),
      hne '>' (by decide), hcomment, hinstruction, hsection, decide_false, Bool.or_self,
      Bool.false_eq_true, if_false]
    rw [ih hbs (rest_advance_one hs), advance_advance, Nat.add_comm 1]

theorem isAscii_of_quote {c : Char} (h : (decide (c = '"') || decide (c = '\'')) = true) :
    IsAscii c := by
  rw [Bool.or_eq_true, decide_eq_true_eq, decide_eq_true_eq] at h
  rcases h with rfl | rfl <;> decide

/-- What is done at a character. -/
theorem doctypeEnd?_cons {c : Char} (h : s.Stands before (c :: cs)) (rounds depth : Nat) :
    doctypeEnd? (rounds + 1) depth s =
      let behind (found : Option Nat) (size : Nat) : Option (Option Nat) :=
        match found with
        | some stop => doctypeEnd? rounds depth (s.moveTo (stop + size))
        | none => some none
      if c = '"' || c = '\'' then behind ((s.advance 1).findByte? c.toUInt8) 1
      else if XmlTree.beginsWith "<!--".toList (c :: cs) then
        behind (s.findMark? (utf8 "-->".toList)) 3
      else if XmlTree.beginsWith "<?".toList (c :: cs) then
        behind (s.findMark? (utf8 "?>".toList)) 2
      else if XmlTree.beginsWith "<![".toList (c :: cs) then
        match behindSections? (s.size + 1) 1 (s.advance 3) with
        | none => none
        | some none => some none
        | some (some s) => doctypeEnd? rounds depth s
      else if c = '<' then doctypeEnd? rounds (depth + 1) (s.advance 1)
      else if c = '>' then
        if depth = 0 then some (some s.position) else doctypeEnd? rounds (depth - 1) (s.advance 1)
      else doctypeEnd? rounds depth (s.advance 1) := by
  obtain ⟨byte, hpeek, -, hmark⟩ := h.peek?_cons
  rw [doctypeEnd?, h.beginsWith_eq _ (isAscii_of_all rfl), h.beginsWith_eq _ (isAscii_of_all rfl),
    h.beginsWith_eq _ (isAscii_of_all rfl)]
  simp only [hpeek, hmark (show IsAscii '"' by decide), hmark (show IsAscii '\'' by decide),
    hmark (show IsAscii '<' by decide), hmark (show IsAscii '>' by decide)]
  split
  · rename_i hquote
    obtain rfl : byte = c.toUInt8 := (hmark (isAscii_of_quote hquote)).2 rfl
    rfl
  · rfl

/-- A character that neither opens nor closes anything is passed over. -/
theorem doctypeEnd?_char {c : Char} (h : s.Stands before (c :: cs))
    (hc : c ∉ ['"', '\'', '<', '>']) (rounds depth : Nat) :
    doctypeEnd? (rounds + c.utf8Size) depth s =
      doctypeEnd? rounds depth (s.advance c.utf8Size) := by
  obtain ⟨byte, bytes, hbytes, hlength, hbeyond⟩ := exists_tail_bytes c
  have hrest : s.rest = byte :: (bytes ++ utf8 cs) := by
    rw [h.rest, utf8_cons, hbytes, List.cons_append]
  simp only [List.mem_cons, List.not_mem_nil, or_false, not_or] at hc
  obtain ⟨hdouble, hsingle, hopen, hclose⟩ := hc
  have hmarks : ∀ mark, XmlTree.beginsWith ('<' :: mark) (c :: cs) = false := fun mark =>
    beginsWith_eq_false (not_prefix_of_ne hopen mark cs)
  have hcomment : XmlTree.beginsWith "<!--".toList (c :: cs) = false := hmarks _
  have hinstruction : XmlTree.beginsWith "<?".toList (c :: cs) = false := hmarks _
  have hsection : XmlTree.beginsWith "<![".toList (c :: cs) = false := hmarks _
  rw [← hlength, ← Nat.add_assoc, doctypeEnd?_cons h]
  simp only [hdouble, hsingle, hopen, hclose, hcomment, hinstruction, hsection, decide_false,
    Bool.or_self, Bool.false_eq_true, if_false]
  rw [doctypeEnd?_bytes hbeyond (rest_advance_one hrest), advance_advance, Nat.add_comm 1]

theorem byteSize_lt_of_cutAt? {mark found after : List Char}
    (h : cutAt? mark cs = some (found, after)) (hmark : mark ≠ []) :
    byteSize after < byteSize cs := by
  have hlength := length_le_byteSize mark
  have hpos := List.length_pos_of_ne_nil hmark
  rw [eq_append_of_cutAt? h, byteSize_append, byteSize_append]
  omega

/-- Sections are looked for behind the mark that opens the first. -/
theorem behindSections?_mark (h : s.Stands before cs)
    (hsection : XmlTree.beginsWith "<![".toList cs = true) :
    behindSections? (s.size + 1) 1 (s.advance 3) =
      some ((afterSections? 1 (cs.drop 3)).map fun after => s.moveTo (s.size - byteSize after)) := by
  obtain ⟨inner, rfl⟩ := beginsWith_iff.1 hsection
  have hinner : (s.advance 3).Stands _ inner := h.advance_ascii (isAscii_of_all rfl)
  have hsize := h.size
  rw [byteSize_append] at hsize
  exact behindSections?_eq hinner (by omega) 1

/-- The first round at `cs` leads to the place of `after`, which stands `depth'` declarations
deep. -/
structure Passes (s : Scanner) (depth : Nat) (cs : List Char) (depth' : Nat)
    (after : List Char) : Prop where
  shorter : byteSize after < byteSize cs
  round : ∃ (next : Scanner) (before : List Char), next.Stands before after ∧
    next.size = s.size ∧ ∀ rounds, doctypeEnd? (rounds + 1) depth s = doctypeEnd? rounds depth' next

namespace Passes

variable {c : Char} {found after : List Char} {depth depth' : Nat}

theorem quoted (h : s.Stands before (c :: cs)) (hquote : (c = '"' || c = '\'') = true)
    (hcut : cutAt? [c] cs = some (found, after)) : Passes s depth (c :: cs) depth after := by
  have hascii := isAscii_of_quote hquote
  have hinner := h.advance_one hascii
  have hshorter := byteSize_lt_of_cutAt? hcut (List.cons_ne_nil _ _)
  have hnext := hinner.behind hcut (List.forall_mem_singleton.2 hascii)
  refine ⟨by rw [byteSize_cons]; omega, _, _, hnext, rfl, fun rounds => ?_⟩
  rw [doctypeEnd?_cons h, if_pos hquote, hinner.findByte? hascii, hcut]
  rfl

theorem comment (h : s.Stands before (c :: cs)) (hquote : ¬ (c = '"' || c = '\'') = true)
    (hcomment : XmlTree.beginsWith "<!--".toList (c :: cs) = true)
    (hcut : cutAt? "-->".toList (c :: cs) = some (found, after)) :
    Passes s depth (c :: cs) depth after := by
  have hnext := h.behind hcut (isAscii_of_all rfl)
  refine ⟨byteSize_lt_of_cutAt? hcut (by decide), _, _, hnext, rfl, fun rounds => ?_⟩
  rw [doctypeEnd?_cons h, if_neg hquote, if_pos hcomment,
    h.findMark? (isAscii_of_all rfl) (by decide), hcut]
  rfl

theorem instruction (h : s.Stands before (c :: cs)) (hquote : ¬ (c = '"' || c = '\'') = true)
    (hcomment : ¬ XmlTree.beginsWith "<!--".toList (c :: cs) = true)
    (hinstruction : XmlTree.beginsWith "<?".toList (c :: cs) = true)
    (hcut : cutAt? "?>".toList (c :: cs) = some (found, after)) :
    Passes s depth (c :: cs) depth after := by
  have hnext := h.behind hcut (isAscii_of_all rfl)
  refine ⟨byteSize_lt_of_cutAt? hcut (by decide), _, _, hnext, rfl, fun rounds => ?_⟩
  rw [doctypeEnd?_cons h, if_neg hquote, if_neg hcomment, if_pos hinstruction,
    h.findMark? (isAscii_of_all rfl) (by decide), hcut]
  rfl

theorem sections (h : s.Stands before (c :: cs)) (hquote : ¬ (c = '"' || c = '\'') = true)
    (hcomment : ¬ XmlTree.beginsWith "<!--".toList (c :: cs) = true)
    (hinstruction : ¬ XmlTree.beginsWith "<?".toList (c :: cs) = true)
    (hsection : XmlTree.beginsWith "<![".toList (c :: cs) = true)
    (hafter : afterSections? 1 (cs.drop 2) = some after) :
    Passes s depth (c :: cs) depth after := by
  have hfound := behindSections?_mark h hsection
  rw [List.drop_succ_cons, hafter] at hfound
  obtain ⟨passed, hpassed, -⟩ := exists_afterSections hafter
  obtain ⟨inner, hinner⟩ := beginsWith_iff.1 hsection
  have hsplit : c :: cs = ("<![".toList ++ passed) ++ after := by
    rw [List.append_assoc, ← hpassed, ← hinner]
    exact congrArg _ (congrArg (List.drop 3) hinner)
  have hthere : s.Stands before (("<![".toList ++ passed) ++ after) := by rwa [← hsplit]
  refine ⟨?_, _, _, hthere.moveTo_suffix, rfl, fun rounds => ?_⟩
  · rw [hsplit, byteSize_append, byteSize_ascii_append _ (isAscii_of_all rfl)]
    exact Nat.lt_add_of_pos_left (Nat.add_pos_left (by decide) _)
  · rw [doctypeEnd?_cons h, if_neg hquote, if_neg hcomment, if_neg hinstruction, if_pos hsection,
      hfound]
    rfl

theorem opened (h : s.Stands before ('<' :: cs))
    (hcomment : ¬ XmlTree.beginsWith "<!--".toList ('<' :: cs) = true)
    (hinstruction : ¬ XmlTree.beginsWith "<?".toList ('<' :: cs) = true)
    (hsection : ¬ XmlTree.beginsWith "<![".toList ('<' :: cs) = true) :
    Passes s depth ('<' :: cs) (depth + 1) cs := by
  have hpos := '<'.utf8Size_pos
  refine ⟨by rw [byteSize_cons]; omega, _, _, h.advance_one (by decide), rfl, fun rounds => ?_⟩
  rw [doctypeEnd?_cons h, if_neg (by decide), if_neg hcomment, if_neg hinstruction,
    if_neg hsection, if_pos rfl]

theorem closed (h : s.Stands before ('>' :: cs)) (hdepth : depth ≠ 0)
    (hcomment : ¬ XmlTree.beginsWith "<!--".toList ('>' :: cs) = true)
    (hinstruction : ¬ XmlTree.beginsWith "<?".toList ('>' :: cs) = true)
    (hsection : ¬ XmlTree.beginsWith "<![".toList ('>' :: cs) = true) :
    Passes s depth ('>' :: cs) (depth - 1) cs := by
  have hpos := '>'.utf8Size_pos
  refine ⟨by rw [byteSize_cons]; omega, _, _, h.advance_one (by decide), rfl, fun rounds => ?_⟩
  rw [doctypeEnd?_cons h, if_neg (by decide), if_neg hcomment, if_neg hinstruction,
    if_neg hsection, if_neg (by decide), if_pos rfl, if_neg hdepth]

/-- What is found from the place of `after` on is what is found. -/
theorem doctypeEnd?_eq (hpass : Passes s depth cs depth' after) {rounds : Nat}
    (hrounds : byteSize cs < rounds)
    (ih : ∀ {s : Scanner} {before : List Char}, s.Stands before after → ∀ {rounds : Nat},
      byteSize after < rounds → doctypeEnd? rounds depth' s =
        some ((XmlTree.doctypeEnd? depth' after).map fun tail => s.size - byteSize tail)) :
    doctypeEnd? rounds depth s =
      some ((XmlTree.doctypeEnd? depth' after).map fun tail => s.size - byteSize tail) := by
  obtain ⟨next, before', hnext, hsize, hround⟩ := hpass.round
  obtain ⟨rounds, rfl⟩ := Nat.exists_eq_add_one_of_ne_zero (Nat.ne_zero_of_lt hrounds)
  rw [hround, ih hnext (by have := hpass.shorter; omega), hsize]

end Passes

theorem doctypeEnd?_eq (h : s.Stands before cs) {rounds : Nat} (hrounds : byteSize cs < rounds)
    (depth : Nat) :
    doctypeEnd? rounds depth s =
      some ((XmlTree.doctypeEnd? depth cs).map fun tail => s.size - byteSize tail) := by
  fun_induction XmlTree.doctypeEnd? depth cs generalizing s before rounds with
  | case1 depth =>
    obtain ⟨rounds, rfl⟩ := Nat.exists_eq_add_one_of_ne_zero (Nat.ne_zero_of_lt hrounds)
    rw [doctypeEnd?, h.peek?_nil]
    rfl
  | case2 depth c rest hquote found after hcut ih =>
    exact (Passes.quoted h hquote hcut).doctypeEnd?_eq hrounds ih
  | case3 depth c rest hquote hcut =>
    obtain ⟨rounds, rfl⟩ := Nat.exists_eq_add_one_of_ne_zero (Nat.ne_zero_of_lt hrounds)
    have hascii := isAscii_of_quote hquote
    rw [doctypeEnd?_cons h, if_pos hquote, (h.advance_one hascii).findByte? hascii, hcut]
    rfl
  | case4 depth c rest hquote hcomment found after hcut ih =>
    exact (Passes.comment h hquote hcomment hcut).doctypeEnd?_eq hrounds ih
  | case5 depth c rest hquote hcomment hcut =>
    obtain ⟨rounds, rfl⟩ := Nat.exists_eq_add_one_of_ne_zero (Nat.ne_zero_of_lt hrounds)
    rw [doctypeEnd?_cons h, if_neg hquote, if_pos hcomment,
      h.findMark? (isAscii_of_all rfl) (by decide), hcut]
    rfl
  | case6 depth c rest hquote hcomment hinstruction found after hcut ih =>
    exact (Passes.instruction h hquote hcomment hinstruction hcut).doctypeEnd?_eq hrounds ih
  | case7 depth c rest hquote hcomment hinstruction hcut =>
    obtain ⟨rounds, rfl⟩ := Nat.exists_eq_add_one_of_ne_zero (Nat.ne_zero_of_lt hrounds)
    rw [doctypeEnd?_cons h, if_neg hquote, if_neg hcomment, if_pos hinstruction,
      h.findMark? (isAscii_of_all rfl) (by decide), hcut]
    rfl
  | case8 depth c rest hquote hcomment hinstruction hsection after hcut ih =>
    exact (Passes.sections h hquote hcomment hinstruction hsection hcut).doctypeEnd?_eq hrounds ih
  | case9 depth c rest hquote hcomment hinstruction hsection hcut =>
    obtain ⟨rounds, rfl⟩ := Nat.exists_eq_add_one_of_ne_zero (Nat.ne_zero_of_lt hrounds)
    have hfound := behindSections?_mark h hsection
    rw [List.drop_succ_cons, hcut] at hfound
    rw [doctypeEnd?_cons h, if_neg hquote, if_neg hcomment, if_neg hinstruction,
      if_pos hsection, hfound]
    rfl
  | case10 depth rest hquote hcomment hinstruction hsection ih =>
    exact (Passes.opened h hcomment hinstruction hsection).doctypeEnd?_eq hrounds ih
  | case11 rest hquote hcomment hinstruction hsection hopen =>
    obtain ⟨rounds, rfl⟩ := Nat.exists_eq_add_one_of_ne_zero (Nat.ne_zero_of_lt hrounds)
    rw [doctypeEnd?_cons h, if_neg hquote, if_neg hcomment, if_neg hinstruction,
      if_neg hsection, if_neg hopen, if_pos rfl, if_pos rfl, Option.map_some, h.size,
      Nat.add_sub_cancel, h.position]
  | case12 depth rest hdepth hquote hcomment hinstruction hsection hopen ih =>
    exact (Passes.closed h hdepth hcomment hinstruction hsection).doctypeEnd?_eq hrounds ih
  | case13 depth c rest hquote hcomment hinstruction hsection hopen hclose ih =>
    -- a character takes as many rounds as it has bytes
    obtain ⟨rounds, rfl⟩ := Nat.exists_eq_add_of_lt hrounds
    have hshift : byteSize (c :: rest) + rounds + 1 = byteSize rest + rounds + 1 + c.utf8Size := by
      rw [byteSize_cons]
      omega
    have hc : c ∉ ['"', '\'', '<', '>'] := by simp_all
    rw [hshift, doctypeEnd?_char h hc]
    exact (ih h.advance_char (by omega)).trans rfl

end Watch

end XmlTree
