/-
  Text/Chars.lean --- the character classes of markup, and cutting texts.

  WHAT THIS FILE IS FOR.  Every reader in this library works on a list of
  characters.  This file fixes which characters are white space and which may
  stand in a name, and the few ways in which a text is cut: at a mark that
  begins it, at the first occurrence of a mark, and at its white ends.

  WHY ONLY ASCII IS LISTED.  Markup is decided by ASCII characters alone: every
  character beyond U+007F may begin and continue a name, and none is white
  space.  So no table of a character standard is needed.
-/
set_option autoImplicit false

namespace XmlTree

/-! ## Classes -/

/-- White space is exactly space, tab, line feed and carriage return. -/
def isSpace (c : Char) : Bool :=
  c == ' ' || c == '\t' || c == '\n' || c == '\r'

/-- A name begins with an ASCII letter, `_`, `:` or any character beyond ASCII. -/
def isNameStart (c : Char) : Bool :=
  c.isAlpha || c == '_' || c == ':' || 128 ≤ c.toNat

/-- A name continues with digits, `-` and `.` as well. -/
def isNameChar (c : Char) : Bool :=
  isNameStart c || c.isDigit || c == '-' || c == '.'

theorem isNameChar_of_isNameStart {c : Char} (h : isNameStart c = true) :
    isNameChar c = true := by
  simp [isNameChar, h]

/-- White space never begins a name. -/
theorem isNameStart_of_isSpace {c : Char} (h : isSpace c = true) : isNameStart c = false := by
  simp only [isSpace, Bool.or_eq_true, beq_iff_eq] at h
  rcases h with ((rfl | rfl) | rfl) | rfl <;> decide

/-! ## Size in bytes -/

/-- Number of bytes that a text takes in UTF-8. -/
def byteSize : List Char → Nat
  | [] => 0
  | c :: cs => c.utf8Size + byteSize cs

@[simp] theorem byteSize_nil : byteSize [] = 0 := rfl

@[simp] theorem byteSize_cons (c : Char) (cs : List Char) :
    byteSize (c :: cs) = c.utf8Size + byteSize cs := rfl

@[simp] theorem byteSize_append (a b : List Char) :
    byteSize (a ++ b) = byteSize a + byteSize b := by
  induction a with
  | nil => simp
  | cons c cs ih => simp [ih, Nat.add_assoc]

/-! ## Cutting -/

/-- What follows `mark` in a text that begins with it. -/
def dropMark? : List Char → List Char → Option (List Char)
  | [], text => some text
  | _ :: _, [] => none
  | m :: ms, c :: cs => if m = c then dropMark? ms cs else none

theorem dropMark?_eq_some_iff {mark text rest : List Char} :
    dropMark? mark text = some rest ↔ text = mark ++ rest := by
  induction mark generalizing text with
  | nil => simp [dropMark?, eq_comm]
  | cons m ms ih =>
    cases text with
    | nil => simp [dropMark?]
    | cons c cs =>
      by_cases h : m = c
      · subst h; simp [dropMark?, ih]
      · simp [dropMark?, h, Ne.symm h]

/-- Whether a text begins with `mark`. -/
def beginsWith (mark text : List Char) : Bool := (dropMark? mark text).isSome

/-- The parts of a text before and after the first occurrence of `mark`. -/
def cutAt? (mark : List Char) (text : List Char) : Option (List Char × List Char) :=
  match dropMark? mark text with
  | some rest => some ([], rest)
  | none =>
    match text with
    | [] => none
    | c :: cs => (cutAt? mark cs).map fun (before, after) => (c :: before, after)

theorem eq_append_of_cutAt? {mark text before after : List Char}
    (h : cutAt? mark text = some (before, after)) : text = before ++ mark ++ after := by
  induction text generalizing before after with
  | nil =>
    unfold cutAt? at h
    split at h
    · rename_i rest hd
      cases h
      simpa using (dropMark?_eq_some_iff.1 hd)
    · simp at h
  | cons c cs ih =>
    unfold cutAt? at h
    split at h
    · rename_i rest hd
      cases h
      simpa using (dropMark?_eq_some_iff.1 hd)
    · simp only [Option.map_eq_some_iff] at h
      obtain ⟨⟨b, a⟩, hb, heq⟩ := h
      cases heq
      simp [ih hb]

/-- What follows the mark is no longer than the text. -/
theorem length_of_cutAt? {mark text before after : List Char}
    (h : cutAt? mark text = some (before, after)) :
    text.length = before.length + mark.length + after.length := by
  rw [eq_append_of_cutAt? h]; simp [Nat.add_assoc]

/-- The text without the white space that begins it. -/
def dropSpace (cs : List Char) : List Char := cs.dropWhile isSpace

/-- The text without the white space that ends it. -/
def dropTrailingSpace (cs : List Char) : List Char :=
  (cs.reverse.dropWhile isSpace).reverse

/-- Equality of texts when the case of ASCII letters does not count. -/
def eqIgnoringCase (a b : List Char) : Bool :=
  a.map Char.toLower == b.map Char.toLower

end XmlTree
