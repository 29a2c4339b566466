/-
  Proofs/Shifting.lean --- a text that stands in a longer one.

  WHAT THIS FILE IS FOR.  A place in a text is a number of bytes.  In a longer text, with `k`
  bytes in front of it and more behind it, the same piece stands `k` bytes later, and a cursor
  that stood in the text stands there too, with more to read.

  WHAT MAY STAND BEHIND.  A cursor looks ahead: a name goes on as long as there are characters
  of a name, and a mark may be cut short by the end of the text.  If what stands behind begins
  with a tag, none of that comes out differently.
-/
import XmlTree.Proofs.Doctypes

set_option autoImplicit false

namespace XmlTree

variable {text more : List Char} {k : Nat}

/-! ## Later places -/

/-- The piece of a text, with `k` more bytes before the text. -/
def Span.later (k : Nat) (s : Span) : Span := ⟨s.start + k, s.text⟩

@[simp] theorem Span.text_later (s : Span) : (s.later k).text = s.text := rfl

@[simp] theorem Span.later_zero (s : Span) : s.later 0 = s := rfl

namespace LoadEvent

/-- The event that is read with `k` more bytes before the text. -/
def later (k : Nat) : LoadEvent → LoadEvent
  | .text raw closing => .text (raw.later k) closing
  | .openElement name => .openElement (name.later k)
  | .closeElement => .closeElement
  | .attribute name raw => .attribute (name.later k) (raw.map (·.later k))
  | .comment raw => .comment (raw.later k)
  | .cdata raw => .cdata (raw.later k)
  | .pi target value => .pi (target.later k) (value.map (·.later k))
  | .declaration target => .declaration (target.later k)
  | .doctype body => .doctype (body.later k)

@[simp] theorem later_zero (e : LoadEvent) : e.later 0 = e := by
  cases e <;> simp [later]

/-- The pieces of an event stand in the text where they say. -/
def Within (text : List Char) : LoadEvent → Prop
  | .text raw _ | .comment raw | .cdata raw => raw.Within text
  | .openElement name | .declaration name | .doctype name => name.Within text
  | .closeElement => True
  | .attribute name raw | .pi name raw => name.Within text ∧ ∀ s ∈ raw, s.Within text

end LoadEvent

/-- What may be written behind a text without being taken for a part of its last construct:
nothing, or what begins with a tag. -/
def BeginsTag (more : List Char) : Prop := ∀ d ∈ more.head?, d = '<'

theorem beginsTag_nil : BeginsTag [] := nofun

theorem BeginsTag.all (h : BeginsTag more) {p : Char → Bool} (hp : p '<' = false) :
    more.head?.all (fun d => !p d) = true := by
  cases more with
  | nil => rfl
  | cons d ds =>
    obtain rfl := h d rfl
    simp [hp]

/-- A mark without `<` is not begun by a text and ended by the tag behind it. -/
theorem BeginsTag.beginsWith_append (h : BeginsTag more) {mark : List Char} (hmark : '<' ∉ mark)
    (cs : List Char) : beginsWith mark (cs ++ more) = beginsWith mark cs := by
  cases more with
  | nil => rw [List.append_nil]
  | cons d ds =>
    obtain rfl := h d rfl
    rw [Bool.eq_iff_iff, beginsWith_iff, beginsWith_iff, prefix_append_cons_iff hmark]

theorem BeginsTag.head?_append (h : BeginsTag more) {d : Char} (hd : d ≠ '<') (cs : List Char) :
    (cs ++ more).head? = some d ↔ cs.head? = some d := by
  cases cs with
  | cons => rfl
  | nil =>
    refine ⟨fun hhead => absurd (h d hhead) hd, nofun⟩

theorem BeginsTag.any_append (h : BeginsTag more) {p : Char → Bool} (hp : p '<' = false)
    (cs : List Char) : (cs ++ more).head?.any p = cs.head?.any p := by
  cases cs with
  | cons => rfl
  | nil =>
    cases more with
    | nil => rfl
    | cons d ds =>
      obtain rfl := h d rfl
      exact hp

/-- The first occurrence of a mark does not depend on what is written behind it. -/
theorem cutAt?_more {mark cs before after : List Char}
    (h : cutAt? mark cs = some (before, after)) (more : List Char) :
    cutAt? mark (cs ++ more) = some (before, after ++ more) := by
  induction cs generalizing before with
  | nil =>
    obtain ⟨hbefore, hmark, hafter⟩ : before = [] ∧ mark = [] ∧ after = [] := by
      simpa using (eq_append_of_cutAt? h).symm
    subst hbefore hmark hafter
    cases more <;> rfl
  | cons c cs ih =>
    have hlength := length_of_cutAt? h
    unfold cutAt? at h ⊢
    cases hdrop : dropMark? mark (c :: cs) with
    | some rest =>
      rw [hdrop] at h
      cases h
      rw [dropMark?_eq_some_iff] at hdrop
      have hdrop' : dropMark? mark (c :: cs ++ more) = some (after ++ more) := by
        rw [dropMark?_eq_some_iff, hdrop, List.append_assoc]
      rw [hdrop']
    | none =>
      rw [hdrop] at h
      obtain ⟨⟨b, a⟩, hcut, heq⟩ := Option.map_eq_some_iff.1 h
      cases heq
      have hnone : dropMark? mark (c :: cs ++ more) = none := by
        rw [dropMark?_eq_none_iff] at hdrop ⊢
        rwa [prefix_append_iff (by simp at hlength ⊢; omega)]
      rw [hnone]
      simp [ih hcut]

/-! ## Steps of a cursor -/

namespace Cursor

variable {c next : Cursor} {s : Span}

/-- The cursor with `k` more bytes before it, and with more behind its text. -/
def later (k : Nat) (more : List Char) (c : Cursor) : Cursor := ⟨c.offset + k, c.rest ++ more⟩

@[simp] theorem offset_later (c : Cursor) : (c.later k more).offset = c.offset + k := rfl

@[simp] theorem rest_later (c : Cursor) : (c.later k more).rest = c.rest ++ more := rfl

theorem total_later (c : Cursor) : (c.later k []).total = c.total + k := by
  simp only [total, offset_later, rest_later, List.append_nil]
  omega

theorem later_skip (c : Cursor) {n : Nat} (h : n ≤ c.rest.length) :
    (c.later k more).skip n = (c.skip n).later k more := by
  simp only [skip, later, List.take_append_of_le_length h, List.drop_append_of_le_length h,
    Cursor.mk.injEq, and_true]
  omega

theorem later_skip_one {d : Char} (h : c.rest.head? = some d) :
    (c.later k more).skip 1 = (c.skip 1).later k more :=
  c.later_skip (by obtain ⟨cs, hcs⟩ := List.head?_eq_some_iff.1 h; simp [hcs])

theorem later_takeWhile (hmore : BeginsTag more) {p : Char → Bool} (hp : p '<' = false)
    (c : Cursor) : (c.later k more).takeWhile p =
      ((c.takeWhile p).1.later k, (c.takeWhile p).2.later k more) := by
  have hstop : more.takeWhile p = [] :=
    takeWhile_append_of_head (List.forall_mem_nil _) (hmore.all hp)
  have htake : (c.rest ++ more).takeWhile p = c.rest.takeWhile p := by
    rw [List.takeWhile_append, hstop, List.append_nil]
    split
    · rename_i hall
      exact (List.takeWhile_prefix p).eq_of_length hall |>.symm
    · rfl
  have hle : (c.rest.takeWhile p).length ≤ c.rest.length := (List.takeWhile_prefix p).length_le
  simp only [takeWhile, rest_later, htake, c.later_skip hle]
  rfl

theorem later_skipSpace (hmore : BeginsTag more) (c : Cursor) :
    (c.later k more).skipSpace = c.skipSpace.later k more :=
  congrArg Prod.snd (c.later_takeWhile hmore (p := isSpace) rfl)

theorem later_name? (hmore : BeginsTag more) (c : Cursor) :
    (c.later k more).name? = c.name?.map fun found => (found.1.later k, found.2.later k more) := by
  have htake : (c.later k more).takeWhile isNameChar = _ := c.later_takeWhile hmore rfl
  unfold name?
  rw [htake]
  cases hrest : c.rest with
  | nil =>
    rw [rest_later, hrest, List.nil_append]
    cases more with
    | nil => rfl
    | cons d ds =>
      obtain rfl := hmore d rfl
      rfl
  | cons d ds =>
    simp only [rest_later, hrest, List.cons_append]
    split <;> rfl

theorem later_upTo? {mark : List Char} (h : c.upTo? mark = some (s, next)) :
    (c.later k more).upTo? mark = some (s.later k, next.later k more) := by
  obtain ⟨⟨b, a⟩, hcut, heq⟩ := Option.map_eq_some_iff.1 h
  cases heq
  simp only [upTo?, cutAt?_more hcut, Option.map_some, Span.later, later, Option.some.injEq,
    Prod.mk.injEq, Cursor.mk.injEq, and_true, true_and]
  omega

theorem later_upTo?_none {mark : List Char} (h : c.upTo? mark = none) :
    (c.later k []).upTo? mark = none := by
  rw [upTo?, Option.map_eq_none_iff] at h ⊢
  rwa [rest_later, List.append_nil]

/-! ### Where the cursor stands -/

theorem On.skip (h : On text c) (n : Nat) : On text (c.skip n) := by
  have h' : On text ⟨c.offset, c.rest.take n ++ c.rest.drop n⟩ := by
    rwa [List.take_append_drop]
  exact h'.append.2

theorem On.takeWhile (h : On text c) (p : Char → Bool) :
    (c.takeWhile p).1.Within text ∧ On text (c.takeWhile p).2 := by
  refine ⟨?_, h.skip _⟩
  have h' : On text ⟨c.offset, c.rest.takeWhile p ++ c.rest.dropWhile p⟩ := by
    rwa [List.takeWhile_append_dropWhile]
  exact h'.append.1

theorem On.skipSpace (h : On text c) : On text c.skipSpace := h.skip _

theorem On.name? (h : On text c) (hname : c.name? = some (s, next)) :
    s.Within text ∧ On text next := by
  unfold Cursor.name? at hname
  split at hname
  · split at hname
    · have htake := h.takeWhile isNameChar
      rwa [Option.some.inj hname] at htake
    · cases hname
  · cases hname

theorem On.upTo? {mark : List Char} (h : On text c) (hup : c.upTo? mark = some (s, next)) :
    s.Within text ∧ On text next := by
  obtain ⟨⟨b, a⟩, hcut, heq⟩ := Option.map_eq_some_iff.1 hup
  cases heq
  have h' : On text ⟨c.offset, b ++ (mark ++ a)⟩ := by
    rwa [← List.append_assoc, ← eq_append_of_cutAt? hcut]
  exact ⟨h'.append.1, h'.append.2.append.2⟩

end Cursor

end XmlTree
