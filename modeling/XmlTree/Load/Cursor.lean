/-
  Load/Cursor.lean --- a place in the text that is being read.

  A cursor is the text that is still to be read and the number of bytes before it.
  Every step of a reader takes characters off the front.
-/
import XmlTree.Load.Event

set_option autoImplicit false

namespace XmlTree

/-- A place in a text. -/
structure Cursor where
  offset : Nat
  rest : List Char
  deriving DecidableEq, Repr, Inhabited

namespace Cursor

/-- The start of a text. -/
def ofText (text : List Char) : Cursor := ⟨0, text⟩

/-- The number of bytes of the whole text. -/
def total (c : Cursor) : Nat := c.offset + byteSize c.rest

/-- The cursor after the first `n` characters. -/
def skip (c : Cursor) (n : Nat) : Cursor :=
  ⟨c.offset + byteSize (c.rest.take n), c.rest.drop n⟩

/-- The cursor after white space. -/
def skipSpace (c : Cursor) : Cursor := c.skip (c.rest.takeWhile isSpace).length

/-- The characters up to the first one without the property, and the cursor there. -/
def takeWhile (c : Cursor) (p : Char → Bool) : Span × Cursor :=
  let text := c.rest.takeWhile p
  (⟨c.offset, text⟩, c.skip text.length)

/-- The name at the cursor, if one begins there. -/
def name? (c : Cursor) : Option (Span × Cursor) :=
  match c.rest with
  | first :: _ => if isNameStart first then some (c.takeWhile isNameChar) else none
  | [] => none

/-- The text up to the first occurrence of `mark`, and the cursor after the mark. -/
def upTo? (c : Cursor) (mark : List Char) : Option (Span × Cursor) :=
  (cutAt? mark c.rest).map fun (before, after) =>
    (⟨c.offset, before⟩, ⟨c.offset + byteSize before + byteSize mark, after⟩)

/-! ## Reading shortens the text -/

theorem length_skip_le (c : Cursor) (n : Nat) : (c.skip n).rest.length ≤ c.rest.length := by
  simp [skip]

theorem length_skipSpace_le (c : Cursor) : c.skipSpace.rest.length ≤ c.rest.length :=
  length_skip_le c _

theorem length_of_name? {c next : Cursor} {name : Span} (h : c.name? = some (name, next)) :
    next.rest.length < c.rest.length := by
  unfold name? at h
  split at h
  · rename_i first more hrest
    split at h
    · rename_i hfirst
      simp only [takeWhile, Option.some.injEq, Prod.mk.injEq] at h
      obtain ⟨_, rfl⟩ := h
      simp only [skip, hrest, List.takeWhile_cons, isNameChar_of_isNameStart hfirst, if_true,
        List.length_cons, List.length_drop]
      omega
    · simp at h
  · simp at h

theorem length_of_upTo? {c next : Cursor} {mark : List Char} {before : Span}
    (h : c.upTo? mark = some (before, next)) :
    next.rest.length + mark.length ≤ c.rest.length := by
  simp only [upTo?, Option.map_eq_some_iff, Prod.mk.injEq] at h
  obtain ⟨⟨b, a⟩, hcut, _, rfl⟩ := h
  have := length_of_cutAt? hcut
  simp only
  omega

end Cursor

end XmlTree
