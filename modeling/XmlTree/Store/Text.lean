/-
  Store/Text.lean --- where the names and values of a tree are kept.

  WHAT THIS FILE IS FOR.  A name or value is a text slot: nothing, a range of the
  text that was loaded, or a string that was copied into a page.  So text that
  needs no conversion is never copied.  A page is filled up to its capacity and
  never moved; space given back is only counted, until the whole store is cleared.

  NOTHING AND THE EMPTY TEXT.  Copying an empty string gives the null slot, while
  an empty range of a loaded text is not null.  Both read as the empty text, but
  some uses of a slot ask whether it is null.

  RANGES ARE WORDS.  Start and length of a range are 32-bit words.  For a range of a
  loaded text nobody checks that, and a greater number wraps.  A string whose length
  is no word is not copied: its slot is refused.  The place of a copy is a word then
  as well, since a page is no longer than its capacity, and that is a word.

  COUNTS ARE NOT LIMITED.  Loaded texts and pages are numbered as they come.  Space for
  2^32 of them is taken to run out long before the numbers do.
-/
import XmlTree.Text.Slice

set_option autoImplicit false

namespace XmlTree

/-- A range of a page. -/
structure PageRange where
  page : Nat
  start : Nat
  length : Nat
  deriving DecidableEq, Repr, Inhabited

/-- Where a name or value is kept. -/
inductive TextSlot where
  /-- no text; reads as the empty one -/
  | null
  /-- a range of bytes of the loaded text number `buffer` -/
  | source (buffer : Nat) (start length : UInt32)
  /-- a copy in a page -/
  | copied (range : PageRange)
  deriving DecidableEq, Repr, Inhabited

namespace TextSlot

/-- Whether there is no text. -/
def isNull : TextSlot → Bool
  | null => true
  | _ => false

/-- Whether the text is a range of a loaded text. -/
def isBorrowed : TextSlot → Bool
  | source _ _ _ => true
  | _ => false

/-- Where the range of a loaded text begins. -/
def sourceOffset? : TextSlot → Option Nat
  | source _ start _ => some start.toNat
  | _ => none

/-- The range of a loaded text from byte `start` up to byte `stop`. -/
def borrowed (buffer start stop : Nat) : TextSlot :=
  source buffer (UInt32.ofNat start) (UInt32.ofNat (stop - start))

end TextSlot

/-- Least capacity of a page in bytes. -/
def pageSize : Nat := 32768

/-- A page: the strings written so far, one after the other.  They are no longer than
the capacity, which is a word. -/
structure Page where
  capacity : Nat
  text : String
  fits : text.utf8ByteSize ≤ capacity
  word : capacity < UInt32.size
  deriving DecidableEq, Repr

namespace Page

/-- Number of bytes that there is room for. -/
def room (page : Page) : Nat := page.capacity - page.text.utf8ByteSize

/-- A new page that begins with a string. -/
def beginningWith (text : String) (h : text.utf8ByteSize < UInt32.size) : Page where
  capacity := max text.utf8ByteSize pageSize
  text := text
  fits := Nat.le_max_left _ _
  word := Nat.max_lt.2 ⟨h, by decide⟩

/-- The page with a string that there is room for behind the others. -/
def append (page : Page) (text : String) (h : text.utf8ByteSize ≤ page.room) : Page where
  capacity := page.capacity
  text := page.text ++ text
  fits := by
    have := page.fits
    rw [String.utf8ByteSize_append]
    rw [room] at h
    omega
  word := page.word

end Page

/-- Loaded texts and pages. -/
structure TextStore where
  buffers : Array String
  pages : Array Page
  /-- bytes of pages that were given back -/
  wasted : Nat
  deriving Repr, Inhabited

namespace TextStore

/-- The store without texts. -/
def empty : TextStore := ⟨#[], #[], 0⟩

/-- Takes a loaded text in, under the number that is answered. -/
def addBuffer (s : TextStore) (text : String) : Nat × TextStore :=
  (s.buffers.size, { s with buffers := s.buffers.push text })

/-- The loaded text with a number. -/
def source? (s : TextStore) (index : Nat) : Option String := s.buffers[index]?

/-- The loaded text with a number, empty when there is none. -/
def buffer (s : TextStore) (index : Nat) : String := (s.source? index).getD ""

/-- The text of a range of a page. -/
def pageText (s : TextStore) (r : PageRange) : String :=
  match s.pages[r.page]? with
  | some page => (sliceBytes? page.text r.start (r.start + r.length)).getD ""
  | none => ""

/-- The text of a slot; empty when the slot leads nowhere. -/
def get (s : TextStore) : TextSlot → String
  | .null => ""
  | .source buffer start length =>
    (sliceBytes? (s.buffer buffer) start.toNat (start.toNat + length.toNat)).getD ""
  | .copied range => s.pageText range

/-- The last page, if it has room for a string. -/
def lastPage? (s : TextStore) (text : String) :
    Option { page : Page // text.utf8ByteSize ≤ page.room } :=
  match s.pages.back? with
  | some page => if h : text.utf8ByteSize ≤ page.room then some ⟨page, h⟩ else none
  | none => none

/-- Copies a string to the end of the last page, or to a new page if it does not
fit there. -/
def copy (s : TextStore) (text : String) (h : text.utf8ByteSize < UInt32.size) :
    PageRange × TextStore :=
  let size := text.utf8ByteSize
  match s.lastPage? text with
  | some ⟨page, hroom⟩ =>
    (⟨s.pages.size - 1, page.text.utf8ByteSize, size⟩,
      { s with pages := s.pages.pop.push (page.append text hroom) })
  | none =>
    (⟨s.pages.size, 0, size⟩, { s with pages := s.pages.push (.beginningWith text h) })

/-- A slot of its own for a string, null for the empty one; none for a string whose
length is no word. -/
def own (s : TextStore) (text : String) : Option TextSlot × TextStore :=
  if text.isEmpty then (some .null, s)
  else if h : text.utf8ByteSize < UInt32.size then
    let (range, s) := s.copy text h
    (some (.copied range), s)
  else (none, s)

/-- Counts the space of a slot as given back. -/
def release (s : TextStore) : TextSlot → TextStore
  | .copied range => { s with wasted := s.wasted + range.length }
  | _ => s

/-- Drops every text. -/
def clear (_ : TextStore) : TextStore := empty

end TextStore

end XmlTree
