/-
  Proofs/Texts.lean --- a text that is kept stays what it is.

  WHAT THIS FILE IS FOR.  A slot is a range of bytes, and reading it back answers a text
  only if both ends fall between characters.  `Holds` says where in a loaded text or in a
  page the characters of a slot stand, so that reading it is certain; and whatever is kept
  later stands behind them.

  WORDS.  The range of a loaded text holds two words of 32 bits.  It is exact for loaded
  texts that are shorter than that.
-/
import Mathlib.Algebra.Group.Nat.Defs
import Mathlib.Data.List.Basic
import XmlTree.Store.Text
import XmlTree.Text.Chars

set_option autoImplicit false

namespace XmlTree

/-! ## Slices -/

theorem length_le_byteSize (cs : List Char) : cs.length ≤ byteSize cs := by
  induction cs with
  | nil => exact Nat.le_refl 0
  | cons c cs ih =>
    have hpos := c.utf8Size_pos
    rw [List.length_cons, byteSize_cons]
    omega

theorem byteSize_toList (s : String) : byteSize s.toList = s.utf8ByteSize := by
  obtain ⟨cs, rfl⟩ := s.exists_eq_ofList
  rw [String.toList_ofList]
  induction cs with
  | nil => rfl
  | cons c cs ih => rw [byteSize_cons, ih, String.ofList_cons, String.utf8ByteSize_append,
      String.utf8ByteSize_singleton]

theorem byteSize_eq (cs : List Char) : byteSize cs = (String.ofList cs).utf8ByteSize := by
  rw [← byteSize_toList, String.toList_ofList]

/-- A place between two characters is one that a slice may begin or end at. -/
theorem exists_pos? {s a b : String} (h : s = a ++ b) :
    ∃ p, s.pos? ⟨a.utf8ByteSize⟩ = some p ∧ p.offset.byteIdx = a.utf8ByteSize := by
  have hvalid : String.Pos.Raw.IsValid s ⟨a.utf8ByteSize⟩ :=
    String.Pos.Raw.isValid_iff_exists_append.2 ⟨a, b, h, rfl⟩
  have hslice := String.Pos.Raw.isValidForSlice_eq_true_iff.2 hvalid.toSlice
  refine ⟨s.pos ⟨a.utf8ByteSize⟩ hvalid, ?_, rfl⟩
  simp only [String.pos?, String.Slice.pos?, hslice, dif_pos]
  rfl

/-- A slice between characters is what stands there. -/
theorem sliceBytes?_append (pre text post : String) :
    sliceBytes? (pre ++ text ++ post) pre.utf8ByteSize (pre.utf8ByteSize + text.utf8ByteSize) =
      some text := by
  have hfirst : pre ++ text ++ post = pre ++ (text ++ post) := String.append_assoc
  have hlast : pre ++ text ++ post = (pre ++ text) ++ post := rfl
  obtain ⟨b, hb, hbegin⟩ := exists_pos? hfirst
  obtain ⟨e, he, hend⟩ := exists_pos? hlast
  rw [String.utf8ByteSize_append] at he hend
  rw [sliceBytes?, if_pos (Nat.le_add_right _ _), hb, he]
  refine congrArg some (String.toByteArray_inj.1 ?_)
  have hcut : (pre.toByteArray ++ (text.toByteArray ++ post.toByteArray)).extract
      (pre.toByteArray.size + 0) (pre.toByteArray.size + text.utf8ByteSize) = text.toByteArray := by
    rw [ByteArray.extract_append_size_add]
    exact ByteArray.extract_append_eq_left String.size_toByteArray.symm
  rw [String.size_toByteArray, Nat.add_zero] at hcut
  rw [String.toByteArray_extract, hbegin, hend, String.toByteArray_append,
    String.toByteArray_append, ByteArray.append_assoc, hcut]

section

variable {text piece : String} {start stop : Nat}

theorem offset_of_pos? {n : Nat} {p : text.Pos} (h : text.pos? ⟨n⟩ = some p) :
    p.offset.byteIdx = n := by
  obtain ⟨q, hq, rfl⟩ := Option.map_eq_some_iff.1 h
  unfold String.Slice.pos? at hq
  split at hq
  · obtain rfl := Option.some.inj hq
    rfl
  · cases hq

/-- A slice is as long as its range, which lies in the text. -/
theorem start_add_size (h : sliceBytes? text start stop = some piece) :
    start + piece.utf8ByteSize = stop ∧ stop ≤ text.utf8ByteSize := by
  unfold sliceBytes? at h
  split at h
  · rename_i hle
    split at h
    · rename_i b e hb he
      obtain rfl := Option.some.inj h
      have hinside : e.offset.byteIdx ≤ text.utf8ByteSize := e.isValid.le_rawEndPos
      rw [offset_of_pos? he] at hinside
      refine ⟨?_, hinside⟩
      rw [← String.size_toByteArray, String.toByteArray_extract, ByteArray.size_extract,
        offset_of_pos? hb, offset_of_pos? he, String.size_toByteArray]
      omega
    · cases h
  · cases h

/-- What is read of a range is no longer than the range, and than the text. -/
theorem size_slice_le (text : String) (start length : Nat) :
    ((sliceBytes? text start (start + length)).getD "").utf8ByteSize ≤ length ∧
      ((sliceBytes? text start (start + length)).getD "").utf8ByteSize ≤ text.utf8ByteSize := by
  cases h : sliceBytes? text start (start + length) with
  | none => exact ⟨Nat.zero_le _, Nat.zero_le _⟩
  | some piece =>
    obtain ⟨hsize, hinside⟩ := start_add_size h
    rw [Option.getD_some]
    omega

end

namespace TextStore

variable {s s' s'' : TextStore} {slot : TextSlot} {text : String}

/-! ## What a slot holds -/

/-- Where the characters of a slot stand. -/
inductive Holds (s : TextStore) : TextSlot → String → Prop where
  | null : Holds s .null ""
  /-- in a loaded text -/
  | source {buffer : Nat} {start length : UInt32} {pre text post : String}
      (hsource : s.source? buffer = some (pre ++ text ++ post))
      (hstart : start.toNat = pre.utf8ByteSize) (hlength : length.toNat = text.utf8ByteSize) :
      Holds s (.source buffer start length) text
  /-- in a page -/
  | copied {range : PageRange} {page : Page} {pre text post : String}
      (hpage : s.pages[range.page]? = some page) (htext : page.text = pre ++ text ++ post)
      (hstart : range.start = pre.utf8ByteSize) (hlength : range.length = text.utf8ByteSize) :
      Holds s (.copied range) text

/-- A slot reads as what it holds. -/
theorem Holds.get_eq (h : Holds s slot text) : s.get slot = text := by
  cases h with
  | null => rfl
  | source hsource hstart hlength =>
    rw [get, buffer, hsource, hstart, hlength, Option.getD_some, sliceBytes?_append,
      Option.getD_some]
  | copied hpage htext hstart hlength =>
    simp only [get, pageText, hpage, htext, hstart, hlength, sliceBytes?_append,
      Option.getD_some]

/-! ## Copies -/

/-- What a page holds that a copy goes to; a new page holds nothing. -/
def textBefore (old : Option Page) : String := old.elim "" Page.text

/-- A copy goes behind what the last page holds, if it has room, and else into a new page. -/
theorem exists_copy (s : TextStore) (h : text.utf8ByteSize < 2 ^ 32) :
    ∃ front old page, s.pages.toList = front ++ old.toList ∧
      s.copy text h =
        (⟨front.length, (textBefore old).utf8ByteSize, text.utf8ByteSize⟩,
          { s with pages := (front ++ [page]).toArray }) ∧
      page.text = textBefore old ++ text ∧
      page.capacity = old.elim (max text.utf8ByteSize pageSize) Page.capacity ∧
      ∀ p ∈ old, text.utf8ByteSize ≤ p.room := by
  unfold copy
  cases hlast : s.lastPage? text with
  | none =>
    refine ⟨s.pages.toList, none, .beginningWith text h, ?_, ?_, ?_, rfl, ?_⟩
    · rw [Option.toList_none, List.append_nil]
    · rw [Array.length_toList, ← Array.toList_push]
      rfl
    · exact String.empty_append.symm
    · intro p hp
      cases hp
  | some found =>
    obtain ⟨page, hroom⟩ := found
    obtain ⟨pages, hpages⟩ : ∃ pages : Array Page, s.pages = pages.push page := by
      unfold lastPage? at hlast
      split at hlast
      · rename_i last hback
        split at hlast
        · obtain rfl : last = page := congrArg Subtype.val (Option.some.inj hlast)
          exact Array.back?_eq_some_iff.1 hback
        · cases hlast
      · cases hlast
    refine ⟨pages.toList, some page, page.append text hroom, ?_, ?_, rfl, rfl, ?_⟩
    · rw [hpages, Array.toList_push]
      rfl
    · simp only [hpages, Array.pop_push, Array.size_push, Array.length_toList, Nat.add_sub_cancel]
      rw [← Array.toList_push]
      rfl
    · intro p hp
      obtain rfl := Option.some.inj hp
      exact hroom

/-- One page is another one after a copy, and it begins with what it held before. -/
theorem exists_page_of_copy (s : TextStore) (h : text.utf8ByteSize < 2 ^ 32) :
    ∃ i old page, s.pages[i]? = old ∧
      (s.copy text h).1 = ⟨i, (textBefore old).utf8ByteSize, text.utf8ByteSize⟩ ∧
      (∀ j : Nat, (s.copy text h).2.pages[j]? = if j = i then some page else s.pages[j]?) ∧
      (s.copy text h).2.buffers = s.buffers ∧ (s.copy text h).2.wasted = s.wasted ∧
      page.text = textBefore old ++ text ∧
      page.capacity = old.elim (max text.utf8ByteSize pageSize) Page.capacity ∧
      ∀ p ∈ old, text.utf8ByteSize ≤ p.room := by
  obtain ⟨front, old, page, hpages, hcopy, htext⟩ := s.exists_copy h
  have hget : ∀ j : Nat, s.pages[j]? = (front ++ old.toList)[j]? := by
    intro j
    rw [← Array.getElem?_toList, hpages]
  refine ⟨front.length, old, page, ?_, congrArg Prod.fst hcopy, ?_, ?_, ?_, htext⟩
  · rw [hget, List.getElem?_append_right (Nat.le_refl _), Nat.sub_self]
    cases old <;> rfl
  · intro j
    rw [hget, hcopy]
    simp only [List.getElem?_toArray]
    by_cases hlt : j < front.length
    · rw [if_neg (Nat.ne_of_lt hlt), List.getElem?_append_left hlt, List.getElem?_append_left hlt]
    · by_cases heq : j = front.length
      · subst heq
        rw [if_pos rfl, List.getElem?_append_right (Nat.le_refl _), Nat.sub_self]
        rfl
      · have hbehind : front.length + 1 ≤ j := by omega
        rw [if_neg heq, List.getElem?_eq_none (by simpa using hbehind), List.getElem?_eq_none]
        rw [List.length_append]
        have hold : old.toList.length ≤ 1 := by cases old <;> simp
        omega
  · rw [hcopy]
  · rw [hcopy]

/-- A string of its own is copied, unless it is empty, or too long. -/
theorem own_cases (s : TextStore) (text : String) :
    text = "" ∧ s.own text = (some .null, s) ∨
      (∃ h, 0 < text.utf8ByteSize ∧
        s.own text = (some (.copied (s.copy text h).1), (s.copy text h).2)) ∨
      ¬ text.utf8ByteSize < 2 ^ 32 ∧ s.own text = (none, s) := by
  unfold own
  cases hempty : text.isEmpty with
  | true => exact .inl ⟨String.isEmpty_iff.1 hempty, rfl⟩
  | false =>
    have hpos : 0 < text.utf8ByteSize := by
      refine Nat.pos_of_ne_zero fun hzero => ?_
      rw [String.isEmpty_iff.2 (String.utf8ByteSize_eq_zero_iff.1 hzero)] at hempty
      cases hempty
    by_cases h : text.utf8ByteSize < UInt32.size
    · refine .inr (.inl ⟨h, hpos, ?_⟩)
      simp only [Bool.false_eq_true, if_false, dif_pos h]
    · refine .inr (.inr ⟨h, ?_⟩)
      simp only [Bool.false_eq_true, if_false, dif_neg h]

/-- A string is refused if its length is no word, and then nothing has changed. -/
theorem own_of_long (s : TextStore) (h : ¬ text.utf8ByteSize < 2 ^ 32) :
    s.own text = (none, s) := by
  obtain ⟨rfl, -⟩ | ⟨hshort, -⟩ | ⟨-, hown⟩ := s.own_cases text
  · exact absurd (by decide) h
  · exact absurd hshort h
  · exact hown

/-- Every other string gets a slot. -/
theorem exists_own (s : TextStore) (h : text.utf8ByteSize < 2 ^ 32) :
    ∃ slot, (s.own text).1 = some slot := by
  obtain ⟨-, hown⟩ | ⟨_, -, hown⟩ | ⟨hlong, -⟩ := s.own_cases text
  · exact ⟨_, congrArg Prod.fst hown⟩
  · exact ⟨_, congrArg Prod.fst hown⟩
  · exact absurd h hlong

/-- No slot reads as a text that is too long to be copied. -/
theorem size_get_lt (s : TextStore) (slot : TextSlot) : (s.get slot).utf8ByteSize < 2 ^ 32 := by
  cases slot with
  | null => exact (by decide : 0 < 2 ^ 32)
  | source buffer start length =>
    exact Nat.lt_of_le_of_lt (size_slice_le _ _ _).1 length.toNat_lt
  | copied range =>
    rw [get, pageText]
    split
    · rename_i page hpage
      exact Nat.lt_of_le_of_lt (Nat.le_trans (size_slice_le _ _ _).2 page.fits) page.word
    · exact (by decide : 0 < 2 ^ 32)

/-! ## What is kept later -/

/-- The loaded texts are still there, and every slot holds what it held. -/
structure Extends (s s' : TextStore) : Prop where
  source? : ∀ {buffer : Nat} {text : String}, s.source? buffer = some text →
    s'.source? buffer = some text
  holds : ∀ {slot : TextSlot} {text : String}, Holds s slot text → Holds s' slot text

namespace Extends

theorem refl (s : TextStore) : Extends s s := ⟨id, id⟩

theorem trans (h : Extends s s') (h' : Extends s' s'') : Extends s s'' :=
  ⟨h'.source? ∘ h.source?, h'.holds ∘ h.holds⟩

/-- Pages only get longer. -/
theorem of_pages (hbuffers : s'.buffers = s.buffers)
    (hpages : ∀ {i : Nat} {page : Page}, s.pages[i]? = some page →
      ∃ page' more, s'.pages[i]? = some page' ∧ page'.text = page.text ++ more) :
    Extends s s' where
  source? hsource := by
    rw [TextStore.source?, hbuffers]
    exact hsource
  holds {slot text} h := by
    cases h with
    | null => exact .null
    | @source buffer start length pre _ post hsource hstart hlength =>
      have hsource' : s'.source? buffer = some (pre ++ text ++ post) := by
        rw [TextStore.source?, hbuffers]
        exact hsource
      exact .source hsource' hstart hlength
    | @copied range page pre _ post hpage htext hstart hlength =>
      obtain ⟨page', more, hpage', hmore⟩ := hpages hpage
      have htext' : page'.text = pre ++ text ++ (post ++ more) := by
        rw [hmore, htext, ← String.append_assoc]
      exact .copied hpage' htext' hstart hlength

/-- Space that is given back is only counted. -/
theorem release (s : TextStore) (slot : TextSlot) : Extends s (s.release slot) := by
  refine of_pages ?_ fun {i page} hpage => ⟨page, "", ?_, by simp⟩
  · cases slot <;> rfl
  · cases slot <;> exact hpage

theorem copy (s : TextStore) (h : text.utf8ByteSize < 2 ^ 32) :
    Extends s (s.copy text h).2 := by
  obtain ⟨i, old, page, hold, -, hpages, hbuffers, -, htext, -⟩ := s.exists_page_of_copy h
  refine of_pages hbuffers fun {j p} hp => ?_
  rw [hpages]
  by_cases hj : j = i
  · subst hj
    obtain rfl : old = some p := hold.symm.trans hp
    exact ⟨page, text, if_pos rfl, htext⟩
  · exact ⟨p, "", (if_neg hj).trans hp, by simp⟩

/-- A string that is refused changes nothing, and neither does the empty one. -/
theorem own (s : TextStore) (text : String) : Extends s (s.own text).2 := by
  obtain ⟨-, hown⟩ | ⟨h, -, hown⟩ | ⟨-, hown⟩ := s.own_cases text
  · rw [hown]
    exact refl s
  · rw [hown]
    exact copy s h
  · rw [hown]
    exact refl s

end Extends

/-- A loaded text is found under the number that it was given. -/
theorem extends_addBuffer (s : TextStore) (text : String) :
    s.Extends (s.addBuffer text).2 ∧
      (s.addBuffer text).2.source? (s.addBuffer text).1 = some text := by
  have hsource : ∀ {buffer text'}, s.source? buffer = some text' →
      (s.addBuffer text).2.source? buffer = some text' := by
    intro buffer text' hold
    have hlt : buffer < s.buffers.size := (Array.getElem?_eq_some_iff.1 hold).1
    rw [source?, addBuffer, Array.getElem?_push, if_neg (Nat.ne_of_lt hlt)]
    exact hold
  refine ⟨⟨hsource, fun hholds => ?_⟩, ?_⟩
  · cases hholds with
    | null => exact .null
    | source hold hstart hlength => exact .source (hsource hold) hstart hlength
    | copied hpage htext hstart hlength => exact .copied hpage htext hstart hlength
  · simp [source?, addBuffer]

/-! ## What is kept now -/

/-- A copy holds what was copied. -/
theorem holds_copy (s : TextStore) (h : text.utf8ByteSize < 2 ^ 32) :
    Holds (s.copy text h).2 (.copied (s.copy text h).1) text := by
  obtain ⟨i, old, page, -, hrange, hpages, -, -, htext, -⟩ := s.exists_page_of_copy h
  have hpage : (s.copy text h).2.pages[i]? = some page := (hpages i).trans (if_pos rfl)
  have hends : page.text = textBefore old ++ text ++ "" := by
    rw [htext, String.append_empty]
  rw [hrange]
  exact .copied hpage hends rfl rfl

/-- A copy that is given back wastes as many bytes as it took. -/
theorem wasted_release_own (s : TextStore) (h : (s.own text).1 = some slot) :
    ((s.own text).2.release slot).wasted = s.wasted + text.utf8ByteSize := by
  obtain ⟨rfl, hown⟩ | ⟨hshort, -, hown⟩ | ⟨-, hown⟩ := s.own_cases text
  · rw [hown] at h ⊢
    obtain rfl := Option.some.inj h
    rfl
  · obtain ⟨i, old, page, -, hrange, -, -, hwasted, -⟩ := s.exists_page_of_copy hshort
    rw [hown] at h ⊢
    obtain rfl := Option.some.inj h
    rw [release, hrange, hwasted]
  · rw [hown] at h
    cases h

/-- A slot of its own holds what it was made for. -/
theorem holds_own (s : TextStore) (h : (s.own text).1 = some slot) :
    Holds (s.own text).2 slot text := by
  obtain ⟨rfl, hown⟩ | ⟨hshort, -, hown⟩ | ⟨-, hown⟩ := s.own_cases text
  · rw [hown] at h ⊢
    obtain rfl := Option.some.inj h
    exact .null
  · rw [hown] at h ⊢
    obtain rfl := Option.some.inj h
    exact holds_copy s hshort
  · rw [hown] at h
    cases h

/-- A range of a loaded text that is not too long holds what stands there. -/
theorem holds_borrowed {buffer : Nat} {pre text post : List Char}
    (hsource : s.source? buffer = some (String.ofList (pre ++ text ++ post)))
    (hsize : byteSize (pre ++ text ++ post) < 2 ^ 32) :
    Holds s (.borrowed buffer (byteSize pre) (byteSize pre + byteSize text))
      (String.ofList text) := by
  rw [byteSize_append, byteSize_append] at hsize
  rw [String.ofList_append, String.ofList_append] at hsource
  refine .source hsource ?_ ?_
  · rw [UInt32.toNat_ofNat', Nat.mod_eq_of_lt (by omega), byteSize_eq]
  · rw [Nat.add_sub_cancel_left, UInt32.toNat_ofNat', Nat.mod_eq_of_lt (by omega), byteSize_eq]

end TextStore

end XmlTree
