/-
  Proofs/Cursors.lean --- what a cursor reads when it is known what comes next.

  WHAT THIS FILE IS FOR.  A cursor takes names, white space and marks off the front of a
  text.  Here each of these steps is said in the form that composes: what stands there is
  taken exactly, and the rest is handed back untouched, whatever it is.

  FIRST OCCURRENCES.  A mark that is written after a text is also the first one to be found
  there, if the text does not hold it and no end of the mark begins it.
-/
import Mathlib.Data.List.Infix
import Mathlib.Data.List.TakeWhile
import XmlTree.Load.Cursor

set_option autoImplicit false

namespace XmlTree

/-! ## Marks -/

theorem dropMark?_eq_none_iff {mark text : List Char} :
    dropMark? mark text = none ↔ ¬ mark <+: text := by
  constructor
  · rintro hnone ⟨rest, rfl⟩
    rw [dropMark?_eq_some_iff.2 rfl] at hnone
    cases hnone
  · intro hprefix
    cases hdrop : dropMark? mark text with
    | none => rfl
    | some rest => exact absurd ⟨rest, (dropMark?_eq_some_iff.1 hdrop).symm⟩ hprefix

theorem beginsWith_append (mark rest : List Char) : beginsWith mark (mark ++ rest) = true := by
  rw [beginsWith, dropMark?_eq_some_iff.2 rfl]
  rfl

/-- A mark is not found exactly in texts that do not hold it. -/
theorem cutAt?_eq_none_iff {mark text : List Char} :
    cutAt? mark text = none ↔ ¬ mark <:+: text := by
  induction text with
  | nil =>
    rw [cutAt?]
    cases mark with
    | nil => simp [dropMark?]
    | cons m ms => simp [dropMark?]
  | cons c cs ih =>
    rw [cutAt?, List.infix_cons_iff, not_or, ← ih, ← dropMark?_eq_none_iff]
    cases hdrop : dropMark? mark (c :: cs) with
    | some rest => simp
    | none => simp

/-- A mark is found at its first occurrence. -/
theorem not_infix_of_cutAt? {mark text before after : List Char} (hmark : mark ≠ [])
    (h : cutAt? mark text = some (before, after)) : ¬ mark <:+: before := by
  induction text generalizing before after with
  | nil =>
    unfold cutAt? at h
    split at h
    · cases h
      rwa [List.infix_nil]
    · cases h
  | cons c cs ih =>
    unfold cutAt? at h
    split at h
    · cases h
      rwa [List.infix_nil]
    · rename_i hdrop
      obtain ⟨⟨b, a⟩, hcut, heq⟩ := Option.map_eq_some_iff.1 h
      cases heq
      rw [List.infix_cons_iff, not_or]
      refine ⟨fun hbegins => ?_, ih hcut⟩
      rw [dropMark?_eq_none_iff] at hdrop
      refine hdrop (hbegins.trans ?_)
      rw [eq_append_of_cutAt? hcut, List.append_assoc]
      exact List.prefix_append (c :: b) _

/-- No end of a mark begins it, apart from the whole mark. -/
def Unbordered (mark : List Char) : Prop :=
  ∀ k < mark.length, 0 < k → ¬ mark.drop k <+: mark

instance (mark : List Char) : Decidable (Unbordered mark) :=
  inferInstanceAs (Decidable (∀ k < mark.length, 0 < k → ¬ mark.drop k <+: mark))

/-- The first occurrence of a mark after a text that does not hold it. -/
theorem cutAt?_append {mark before : List Char} (after : List Char) (hmark : Unbordered mark)
    (hbefore : ¬ mark <:+: before) :
    cutAt? mark (before ++ (mark ++ after)) = some (before, after) := by
  induction before with
  | nil =>
    have hdrop := dropMark?_eq_some_iff.2 (rfl : mark ++ after = mark ++ after)
    unfold cutAt?
    simp only [List.nil_append, hdrop]
  | cons c cs ih =>
    rw [List.infix_cons_iff, not_or] at hbefore
    have hnone : dropMark? mark (c :: cs ++ (mark ++ after)) = none := by
      rw [dropMark?_eq_none_iff]
      intro hprefix
      have hlength : ¬ mark.length ≤ (c :: cs).length := fun hle =>
        hbefore.1 (List.prefix_of_prefix_length_le hprefix (List.prefix_append _ _) hle)
      -- the mark would begin inside the text, and its end would begin the mark that follows
      have hdrop := hprefix.drop (c :: cs).length
      rw [List.drop_left] at hdrop
      refine hmark (c :: cs).length (by omega) (by simp) ?_
      exact List.prefix_of_prefix_length_le hdrop (List.prefix_append _ _) (by simp)
    unfold cutAt?
    rw [hnone]
    simp [ih hbefore.2]

/-- Characters are taken up to the first one that is none of them. -/
theorem takeWhile_append_of_head {p : Char → Bool} {xs rest : List Char}
    (hxs : ∀ c ∈ xs, p c = true) (hrest : rest.head?.all (fun c => !p c) = true) :
    (xs ++ rest).takeWhile p = xs := by
  have hstop : rest.takeWhile p = [] := by
    cases rest with
    | nil => rfl
    | cons c cs =>
      have hc : p c = false := by simpa using hrest
      rw [List.takeWhile_cons, hc]
      rfl
  rw [List.takeWhile_append_of_pos hxs, hstop, List.append_nil]

/-! ## Places in one text -/

/-- A piece that stands in a text where it says. -/
def Span.Within (text : List Char) (s : Span) : Prop :=
  ∃ pre post, text = pre ++ s.text ++ post ∧ s.start = byteSize pre

theorem Span.Within.byteSize_le {text : List Char} {s : Span} (h : s.Within text) :
    byteSize s.text ≤ byteSize text := by
  obtain ⟨pre, post, rfl, -⟩ := h
  rw [byteSize_append, byteSize_append]
  omega

namespace Cursor

variable {text xs rest : List Char} {o : Nat}

/-- A cursor that stands in a text. -/
def On (text : List Char) (c : Cursor) : Prop :=
  ∃ pre, text = pre ++ c.rest ∧ c.offset = byteSize pre

/-- What is taken off stands in the text, and so does the cursor after it. -/
theorem On.append (h : On text ⟨o, xs ++ rest⟩) :
    Span.Within text ⟨o, xs⟩ ∧ On text ⟨o + byteSize xs, rest⟩ := by
  obtain ⟨pre, htext, rfl⟩ := h
  refine ⟨⟨pre, rest, by simp [htext], rfl⟩, pre ++ xs, by simp [htext], ?_⟩
  rw [byteSize_append]

theorem On.cons {c : Char} (h : On text ⟨o, c :: rest⟩) : On text ⟨o + c.utf8Size, rest⟩ := by
  have h' : On text ⟨o, [c] ++ rest⟩ := h
  exact h'.append.2

/-! ## Steps -/

@[simp] theorem skip_append (o : Nat) (xs rest : List Char) :
    skip ⟨o, xs ++ rest⟩ xs.length = ⟨o + byteSize xs, rest⟩ := by
  simp [skip]

@[simp] theorem skip_one (o : Nat) (c : Char) (rest : List Char) :
    skip ⟨o, c :: rest⟩ 1 = ⟨o + c.utf8Size, rest⟩ := by
  simp [skip]

theorem takeWhile_append {p : Char → Bool} (hxs : ∀ c ∈ xs, p c = true)
    (hrest : rest.head?.all (fun c => !p c) = true) :
    takeWhile ⟨o, xs ++ rest⟩ p = (⟨o, xs⟩, ⟨o + byteSize xs, rest⟩) := by
  simp only [takeWhile, takeWhile_append_of_head hxs hrest, skip_append]

theorem upTo?_append {mark : List Char} (hmark : Unbordered mark) (hxs : ¬ mark <:+: xs) :
    upTo? ⟨o, xs ++ (mark ++ rest)⟩ mark =
      some (⟨o, xs⟩, ⟨o + byteSize xs + byteSize mark, rest⟩) := by
  simp [upTo?, cutAt?_append rest hmark hxs]

end Cursor

/-! ## Names -/

/-- Whether a reader takes a text in full as a name. -/
def IsName (name : String) : Prop :=
  (Cursor.ofText name.toList).name? = some (⟨0, name.toList⟩, ⟨byteSize name.toList, []⟩)

instance (name : String) : Decidable (IsName name) :=
  inferInstanceAs (Decidable (_ = _))

/-- A name begins as a name does and goes on as one. -/
theorem isName_iff {name : String} :
    IsName name ↔ ∃ c cs, name.toList = c :: cs ∧ isNameStart c = true ∧
      ∀ d ∈ name.toList, isNameChar d = true := by
  unfold IsName Cursor.ofText Cursor.name?
  cases hname : name.toList with
  | nil => simp
  | cons c cs =>
    simp only [Cursor.takeWhile, Cursor.skip, List.cons.injEq]
    constructor
    · intro h
      split at h
      · rename_i hstart
        refine ⟨c, cs, ⟨rfl, rfl⟩, hstart, ?_⟩
        have hall := congrArg (fun found => found.map fun p => p.1.text) h
        simp only [Option.map_some, Option.some.injEq] at hall
        exact List.takeWhile_eq_self_iff.1 hall
      · cases h
    · rintro ⟨_, _, ⟨rfl, rfl⟩, hstart, hall⟩
      rw [if_pos hstart, List.takeWhile_eq_self_iff.2 hall]
      simp

theorem IsName.ne_empty {name : String} (h : IsName name) : name ≠ "" := by
  rintro rfl
  revert h
  decide

/-- A name is read in full where no character of a name follows. -/
theorem Cursor.name?_append {name : String} (h : IsName name) {o : Nat} {rest : List Char}
    (hrest : rest.head?.all (fun c => !isNameChar c) = true) :
    Cursor.name? ⟨o, name.toList ++ rest⟩ =
      some (⟨o, name.toList⟩, ⟨o + byteSize name.toList, rest⟩) := by
  obtain ⟨c, cs, hname, hstart, hall⟩ := isName_iff.1 h
  have htake : takeWhile ⟨o, name.toList ++ rest⟩ isNameChar = _ := takeWhile_append hall hrest
  unfold Cursor.name?
  rw [hname] at htake ⊢
  simp only [List.cons_append, hstart, if_true] at htake ⊢
  rw [htake]

end XmlTree
