/-
  Proofs/Pages.lean --- a string that was copied stays where it was put.

  WHAT THIS FILE IS FOR.  A run is any list of operations on a store of texts that does not clear
  it.  Beside the store a list is kept of the slots that were handed out, each with the string
  that it was handed out for; it knows nothing of pages.  Whatever the run is, each of these
  slots still reads as its string, no two of them share a byte, and a page holds the strings that
  were handed out in it one after the other, within the capacity that it was made with.

  WORDS.  The numbers of a range of a page are words of 32 bits.  The length of a string is
  checked for that, and then its place is a word as well: a string that does not begin a page goes
  into one of the least capacity.  The number of the page is not checked.  Here it is any number,
  and the pages before it have taken 32768 bytes each: it is a word unless 2^47 bytes have been
  reserved.
-/
import XmlTree.Proofs.Holdings

set_option autoImplicit false

namespace XmlTree

/-! ## Runs -/

/-- The byte `byte` of the page `page` belongs to the slot. -/
def TextSlot.Covers (slot : TextSlot) (page byte : Nat) : Prop :=
  ∃ range ∈ slot.range?, range.Covers page byte

/-- An operation on a store of texts that does not clear it. -/
inductive TextChange where
  | own (text : String)
  | borrow (buffer start stop : Nat)
  | addBuffer (text : String)
  | release (slot : TextSlot)
  | look (slot : TextSlot)
  deriving Repr

/-- The strings of slots that were handed out in a page, in the order of time. -/
def shelf (given : List (TextSlot × String)) (page : Nat) : List String :=
  (given.filter fun e => e.1.range?.any fun range => range.page == page).map Prod.snd

namespace TextStore

/-- The store after an operation.  Borrowing and looking leave it as it is. -/
def change (s : TextStore) : TextChange → TextStore
  | .own text => (s.own text).2
  | .addBuffer text => (s.addBuffer text).2
  | .release slot => s.release slot
  | .borrow _ _ _ | .look _ => s

/-- The store after a run. -/
def changeAll (s : TextStore) (changes : List TextChange) : TextStore := changes.foldl change s

/-- The slot that an operation hands out for a string, with the string. -/
def handOut (s : TextStore) : TextChange → List (TextSlot × String)
  | .own text => ((s.own text).1.map fun slot => (slot, text)).toList
  | .borrow _ _ _ | .addBuffer _ | .release _ | .look _ => []

/-- All slots that a run hands out, in the order of time. -/
def handedOut (s : TextStore) : List TextChange → List (TextSlot × String)
  | [] => []
  | c :: cs => s.handOut c ++ (s.change c).handedOut cs

/-- Bytes that the pages were made with. -/
def reserved (s : TextStore) : Nat := (s.pages.toList.map Page.capacity).sum

end TextStore

/-- A page holds strings one after the other, and has room for them.  The first one decided about
its capacity. -/
structure Page.FilledWith (page : Page) (first : String) (rest : List String) : Prop where
  text_eq : page.text = String.join (first :: rest)
  capacity_eq : page.capacity = max first.utf8ByteSize pageSize
  fits : page.text.utf8ByteSize ≤ page.capacity

/-- What a store does for the slots that were handed out, each with its string. -/
structure TextStore.Upholds (s : TextStore) (given : List (TextSlot × String)) : Prop where
  /-- a slot reads as its string -/
  get_eq : ∀ e ∈ given, s.get e.1 = e.2
  /-- the slot of a string that has characters is a range of a page that is as long as the string,
  and its numbers are words as long as the pages before it leave room for that -/
  copied : ∀ e ∈ given, e.2 ≠ "" → ∃ range, e.1 = .copied range ∧
    range.length = e.2.utf8ByteSize ∧ range.length < 2 ^ 32 ∧ range.start < pageSize ∧
    range.page * pageSize < s.reserved
  /-- no byte belongs to two slots -/
  apart : given.Pairwise fun e e' => ∀ page byte, ¬ (e.1.Covers page byte ∧ e'.1.Covers page byte)
  /-- a page holds what was handed out in it, and no more than it has room for -/
  filled : ∀ (i : Nat) (page : Page), s.pages[i]? = some page →
    ∃ first rest, shelf given i = first :: rest ∧ page.FilledWith first rest
  /-- a string is refused only if its size is no word, and then nothing has changed -/
  refused : ∀ text, ((s.own text).1 = none ↔ ¬ text.utf8ByteSize < 2 ^ 32) ∧
    ((s.own text).1 = none → (s.own text).2 = s)

/-- Every page is still there with the capacity that it had, and with what was written to it in
front of what was written since. -/
def TextStore.InPlace (s s' : TextStore) : Prop :=
  ∀ (i : Nat) (page : Page), s.pages[i]? = some page →
    ∃ page' more, s'.pages[i]? = some page' ∧ page'.capacity = page.capacity ∧
      page'.text = page.text ++ more

/-! ## Pages -/

namespace Page.FilledWith

variable {page page' : Page} {first text : String} {rest : List String}

/-- A new page holds the string that it was made for. -/
theorem alone (htext : page.text = text)
    (hcapacity : page.capacity = max text.utf8ByteSize pageSize) :
    page.FilledWith text [] := by
  refine ⟨?_, hcapacity, page.fits⟩
  rw [htext, String.join_cons, String.join_nil, String.append_empty]

/-- A string goes behind the others. -/
theorem append (h : page.FilledWith first rest) (htext : page'.text = page.text ++ text)
    (hcapacity : page'.capacity = page.capacity) : page'.FilledWith first (rest ++ [text]) where
  text_eq := by
    rw [htext, h.text_eq, ← List.cons_append, String.join_append, String.join_cons (l := []),
      String.join_nil, String.append_empty]
  capacity_eq := hcapacity.trans h.capacity_eq
  fits := page'.fits

/-- There is room only in a page of the least capacity: a first string that is longer than that
fills its page. -/
theorem start_lt (h : page.FilledWith first rest) (hsize : 0 < text.utf8ByteSize)
    (hroom : text.utf8ByteSize ≤ page.room) : page.text.utf8ByteSize < pageSize := by
  have hfirst : first.utf8ByteSize ≤ page.text.utf8ByteSize := by
    rw [h.text_eq, String.join_cons, String.utf8ByteSize_append]
    exact Nat.le_add_right _ _
  rw [Page.room, h.capacity_eq] at hroom
  omega

end Page.FilledWith

/-! ## Shelves -/

theorem shelf_append (given more : List (TextSlot × String)) (page : Nat) :
    shelf (given ++ more) page = shelf given page ++ shelf more page := by
  rw [shelf, List.filter_append, List.map_append]
  rfl

theorem shelf_null (text : String) (page : Nat) : shelf [(.null, text)] page = [] := rfl

theorem shelf_copied_self (range : PageRange) (text : String) :
    shelf [(.copied range, text)] range.page = [text] := by
  simp [shelf, TextSlot.range?]

theorem shelf_copied_of_ne {range : PageRange} {page : Nat} (h : page ≠ range.page)
    (text : String) : shelf [(.copied range, text)] page = [] := by
  simp [shelf, TextSlot.range?, Ne.symm h]

namespace TextStore

variable {s s' s'' : TextStore} {given : List (TextSlot × String)} {text : String}

/-- Only a string whose size is no word is refused: the place in a page always is one. -/
theorem own_eq_none (s : TextStore) (text : String) :
    ((s.own text).1 = none ↔ ¬ text.utf8ByteSize < 2 ^ 32) ∧
      ((s.own text).1 = none → (s.own text).2 = s) := by
  obtain ⟨rfl, hown⟩ | ⟨hshort, -, hown⟩ | ⟨hlong, hown⟩ := s.own_cases text
  · rw [hown]
    exact ⟨⟨nofun, fun hlong => absurd (by decide) hlong⟩, nofun⟩
  · rw [hown]
    exact ⟨⟨nofun, absurd hshort⟩, nofun⟩
  · rw [hown]
    exact ⟨⟨fun _ => hlong, fun _ => rfl⟩, fun _ => rfl⟩

/-! ## What every operation keeps -/

/-- A range of a page that holds a string lies in what was written to the page. -/
theorem Holds.le_filled {range : PageRange} (h : s.Holds (.copied range) text) :
    ∃ page, s.pages[range.page]? = some page ∧
      range.start + range.length ≤ page.text.utf8ByteSize := by
  cases h with
  | @copied _ page pre _ post hpage htext hstart hlength =>
    refine ⟨page, hpage, ?_⟩
    rw [htext, String.utf8ByteSize_append, String.utf8ByteSize_append, hstart, hlength]
    exact Nat.le_add_right _ _

/-- The pages of a store are filled with the strings that were handed out, and each slot leads to
its own. -/
structure Shelved (s : TextStore) (given : List (TextSlot × String)) : Prop where
  holds : ∀ e ∈ given, s.Holds e.1 e.2
  copied : ∀ e ∈ given, e.2 ≠ "" → ∃ range, e.1 = .copied range ∧
    range.length < 2 ^ 32 ∧ range.start < pageSize
  apart : given.Pairwise fun e e' => ∀ page byte, ¬ (e.1.Covers page byte ∧ e'.1.Covers page byte)
  filled : ∀ (i : Nat) (page : Page), s.pages[i]? = some page →
    ∃ first rest, shelf given i = first :: rest ∧ page.FilledWith first rest

namespace Shelved

theorem empty : Shelved .empty [] where
  holds := nofun
  copied := nofun
  apart := .nil
  filled i page hpage := by simp [TextStore.empty] at hpage

/-- Only the pages matter, as long as every text is kept. -/
theorem of_pages (h : s.Shelved given) (htexts : s.Extends s') (hpages : s'.pages = s.pages) :
    s'.Shelved given where
  holds e he := htexts.holds (h.holds e he)
  copied := h.copied
  apart := h.apart
  filled i page hpage := h.filled i page (hpages ▸ hpage)

/-- No slot that was handed out reaches behind what is written in a page. -/
theorem not_covers (h : s.Shelved given) {i byte : Nat}
    (hbyte : ∀ page, s.pages[i]? = some page → page.text.utf8ByteSize ≤ byte)
    {e : TextSlot × String} (he : e ∈ given) : ¬ e.1.Covers i byte := by
  rintro ⟨range, hrange, rfl, -, hhigh⟩
  obtain ⟨slot, string⟩ := e
  obtain rfl : slot = .copied range := by
    cases slot with
    | null | source => cases hrange
    | copied range' => rw [Option.some.inj hrange]
  obtain ⟨page, hpage, hle⟩ := (h.holds _ he).le_filled
  have hlow := hbyte page hpage
  omega

/-- Where there is no page, nothing was handed out. -/
theorem shelf_eq_nil (h : s.Shelved given) {i : Nat} (hnone : s.pages[i]? = none) :
    shelf given i = [] := by
  rw [shelf, List.map_eq_nil_iff, List.filter_eq_nil_iff]
  intro e he hthere
  obtain ⟨slot, string⟩ := e
  cases slot with
  | null | source => cases hthere
  | copied range =>
    obtain ⟨page, hpage, -⟩ := (h.holds _ he).le_filled
    obtain rfl : range.page = i := beq_iff_eq.1 hthere
    rw [hnone] at hpage
    cases hpage

/-- A copy begins within the least capacity of a page. -/
theorem start_lt (h : s.Shelved given) (hsize : 0 < text.utf8ByteSize)
    (hshort : text.utf8ByteSize < 2 ^ 32) : (s.copy text hshort).1.start < pageSize := by
  obtain ⟨i, old, page, hold, hrange, -, -, -, -, -, hroom⟩ := s.exists_page_of_copy hshort
  rw [hrange]
  cases old with
  | none =>
    show 0 < pageSize
    decide
  | some last =>
    obtain ⟨first, rest, -, hfilled⟩ := h.filled i last hold
    exact hfilled.start_lt hsize (hroom last rfl)

/-- A slot is handed out that holds its string apart from the others. -/
theorem add (h : s.Shelved given) (hextends : s.Extends s') {slot : TextSlot}
    (hholds : s'.Holds slot text)
    (hcopied : text ≠ "" → ∃ range, slot = .copied range ∧ range.length < 2 ^ 32 ∧
      range.start < pageSize)
    (hapart : ∀ e ∈ given, ∀ page byte, ¬ (e.1.Covers page byte ∧ slot.Covers page byte))
    (hfilled : ∀ i page, s'.pages[i]? = some page →
      ∃ first rest, shelf (given ++ [(slot, text)]) i = first :: rest ∧
        page.FilledWith first rest) :
    s'.Shelved (given ++ [(slot, text)]) := by
  refine ⟨?_, ?_, ?_, hfilled⟩
  · intro e he
    obtain he | he := List.mem_append.1 he
    · exact hextends.holds (h.holds e he)
    · obtain rfl := List.mem_singleton.1 he
      exact hholds
  · intro e he hne
    obtain he | he := List.mem_append.1 he
    · exact h.copied e he hne
    · obtain rfl := List.mem_singleton.1 he
      exact hcopied hne
  · refine List.pairwise_append.2 ⟨h.apart, List.pairwise_singleton _ _, ?_⟩
    intro e he e' he'
    obtain rfl := List.mem_singleton.1 he'
    exact hapart e he

/-- The slot of the empty string is handed out. -/
theorem null (h : s.Shelved given) : s.Shelved (given ++ [(.null, "")]) := by
  refine h.add (.refl s) .null (absurd rfl) ?_ ?_
  · rintro e - page byte ⟨-, range, hmem, -⟩
    cases hmem
  · intro i page hpage
    rw [shelf_append, shelf_null, List.append_nil]
    exact h.filled i page hpage

/-- A copy is handed out. -/
theorem copy (h : s.Shelved given) (hsize : 0 < text.utf8ByteSize)
    (hshort : text.utf8ByteSize < 2 ^ 32) :
    (s.copy text hshort).2.Shelved (given ++ [(.copied (s.copy text hshort).1, text)]) := by
  have hstart := h.start_lt hsize hshort
  obtain ⟨i, old, page, hold, hrange, hpages, -, -, htext, hcapacity, -⟩ :=
    s.exists_page_of_copy hshort
  have hlength : (s.copy text hshort).1.length < 2 ^ 32 := by
    rw [hrange]
    exact hshort
  refine h.add (.copy s hshort) (s.holds_copy hshort) (fun _ => ⟨_, rfl, hlength, hstart⟩) ?_ ?_
  · -- the new range begins where the page was filled to
    rintro e he p byte ⟨hcovers, range, hmem, hpageEq, hlow, -⟩
    obtain rfl : (s.copy text hshort).1 = range := Option.some.inj hmem
    rw [hrange] at hpageEq hlow
    obtain rfl : i = p := hpageEq
    refine h.not_covers ?_ he hcovers
    intro last hlast
    obtain rfl : old = some last := hold.symm.trans hlast
    exact hlow
  · intro j page' hpage'
    rw [hpages] at hpage'
    rw [hrange, shelf_append]
    by_cases hj : j = i
    · subst hj
      rw [if_pos rfl] at hpage'
      obtain rfl := Option.some.inj hpage'
      have hself : shelf [(.copied ⟨j, (textBefore old).utf8ByteSize, text.utf8ByteSize⟩, text)] j =
          [text] := shelf_copied_self _ text
      rw [hself]
      cases old with
      | none =>
        refine ⟨text, [], ?_, .alone (htext.trans String.empty_append) hcapacity⟩
        rw [h.shelf_eq_nil hold, List.nil_append]
      | some last =>
        obtain ⟨first, rest, hshelf, hfilled⟩ := h.filled j last hold
        refine ⟨first, rest ++ [text], ?_, hfilled.append htext hcapacity⟩
        rw [hshelf, List.cons_append]
    · have hother : shelf [(.copied ⟨i, (textBefore old).utf8ByteSize, text.utf8ByteSize⟩, text)]
          j = [] := shelf_copied_of_ne hj text
      rw [if_neg hj] at hpage'
      rw [hother, List.append_nil]
      exact h.filled j page' hpage'

/-- What an operation hands out is added to what was handed out. -/
theorem change (h : s.Shelved given) (c : TextChange) :
    (s.change c).Shelved (given ++ s.handOut c) := by
  cases c with
  | own text =>
    rw [TextStore.change, handOut]
    obtain ⟨rfl, hown⟩ | ⟨hshort, hsize, hown⟩ | ⟨-, hown⟩ := s.own_cases text
    · rw [hown]
      exact h.null
    · rw [hown]
      exact h.copy hsize hshort
    · rw [hown]
      show s.Shelved (given ++ [])
      rwa [List.append_nil]
  | borrow | look =>
    rw [handOut, List.append_nil]
    exact h
  | addBuffer text =>
    rw [handOut, List.append_nil]
    exact h.of_pages (s.extends_addBuffer text).1 rfl
  | release slot =>
    rw [handOut, List.append_nil]
    refine h.of_pages (.release s slot) ?_
    cases slot with
    | null | source | copied => rfl

/-- What a run hands out is added to what was handed out. -/
theorem changeAll (h : s.Shelved given) (changes : List TextChange) :
    (s.changeAll changes).Shelved (given ++ s.handedOut changes) := by
  induction changes generalizing s given with
  | nil =>
    rw [handedOut, List.append_nil]
    exact h
  | cons c cs ih =>
    have hrest := ih (h.change c)
    rw [List.append_assoc] at hrest
    exact hrest

/-! ## What the strings get -/

/-- Every page took the least capacity at least. -/
theorem page_lt_reserved (h : s.Shelved given) {i : Nat} {page : Page}
    (hpage : s.pages[i]? = some page) : i * pageSize < s.reserved := by
  have hcapacity : ∀ capacity ∈ s.pages.toList.map Page.capacity, pageSize ≤ capacity := by
    intro capacity hmem
    obtain ⟨page', hpage', rfl⟩ := List.mem_map.1 hmem
    obtain ⟨j, hj⟩ := List.mem_iff_getElem?.1 hpage'
    rw [Array.getElem?_toList] at hj
    obtain ⟨first, rest, -, hfilled⟩ := h.filled j page' hj
    rw [hfilled.capacity_eq]
    exact Nat.le_max_right _ _
  have hsum := List.card_nsmul_le_sum _ pageSize hcapacity
  rw [List.length_map, Array.length_toList, Nat.nsmul_eq_mul] at hsum
  have hlt : i < s.pages.size := (Array.getElem?_eq_some_iff.1 hpage).1
  have hpos : 0 < pageSize := by decide
  exact Nat.lt_of_lt_of_le (Nat.mul_lt_mul_of_pos_right hlt hpos) hsum

theorem upholds (h : s.Shelved given) : s.Upholds given := by
  refine ⟨?_, ?_, h.apart, h.filled, s.own_eq_none⟩
  · intro e he
    exact (h.holds e he).get_eq
  · intro e he hne
    obtain ⟨slot, string⟩ := e
    obtain ⟨range, rfl, hlength, hstart⟩ := h.copied _ he hne
    cases h.holds _ he with
    | copied hpage _ _ hsize => exact ⟨range, rfl, hsize, hlength, hstart, h.page_lt_reserved hpage⟩

end Shelved

/-! ## What stays in place -/

namespace InPlace

theorem of_pages (h : s'.pages = s.pages) : s.InPlace s' := by
  intro i page hpage
  refine ⟨page, "", ?_, rfl, String.append_empty.symm⟩
  rw [h, hpage]

theorem trans (h : s.InPlace s') (h' : s'.InPlace s'') : s.InPlace s'' := by
  intro i page hpage
  obtain ⟨page', more, hpage', hcapacity, htext⟩ := h i page hpage
  obtain ⟨page'', more', hpage'', hcapacity', htext'⟩ := h' i page' hpage'
  refine ⟨page'', more ++ more', hpage'', hcapacity'.trans hcapacity, ?_⟩
  rw [htext', htext, String.append_assoc]

/-- A copy is written behind what is there. -/
theorem copy (s : TextStore) (hshort : text.utf8ByteSize < 2 ^ 32) :
    s.InPlace (s.copy text hshort).2 := by
  obtain ⟨j, old, new, hold, -, hpages, -, -, htext, hcapacity, -⟩ := s.exists_page_of_copy hshort
  intro i page hpage
  rw [hpages]
  by_cases hi : i = j
  · subst hi
    obtain rfl : old = some page := hold.symm.trans hpage
    exact ⟨new, text, if_pos rfl, hcapacity, htext⟩
  · exact ⟨page, "", (if_neg hi).trans hpage, rfl, String.append_empty.symm⟩

theorem change (s : TextStore) (c : TextChange) : s.InPlace (s.change c) := by
  cases c with
  | own text =>
    rw [TextStore.change]
    obtain ⟨-, hown⟩ | ⟨hshort, -, hown⟩ | ⟨-, hown⟩ := s.own_cases text
    · rw [hown]
      exact of_pages rfl
    · rw [hown]
      exact copy s hshort
    · rw [hown]
      exact of_pages rfl
  | borrow | look | addBuffer => exact of_pages rfl
  | release slot =>
    cases slot with
    | null | source | copied => exact of_pages rfl

theorem changeAll (s : TextStore) (changes : List TextChange) :
    s.InPlace (s.changeAll changes) := by
  induction changes generalizing s with
  | nil => exact of_pages rfl
  | cons c cs ih => exact (change s c).trans (ih (s.change c))

end InPlace

/-- A store that is never cleared keeps every string that it was given where it put it: whatever
is done before and after, the slots that were handed out read as their strings and share no byte,
pages are filled within their capacities, and what stood in a page is still in front. -/
theorem run_upholds (before after : List TextChange) :
    let s := TextStore.empty.changeAll before
    let s' := s.changeAll after
    s'.Upholds (TextStore.empty.handedOut before ++ s.handedOut after) ∧ s.InPlace s' := by
  have hbefore := Shelved.empty.changeAll before
  rw [List.nil_append] at hbefore
  exact ⟨(hbefore.changeAll after).upholds, .changeAll _ after⟩

example : empty.handedOut [.own "ab", .own "", .own "c"] =
    [(.copied ⟨0, 0, 2⟩, "ab"), (.null, ""), (.copied ⟨0, 2, 1⟩, "c")] := by
  decide +kernel

end TextStore

end XmlTree
