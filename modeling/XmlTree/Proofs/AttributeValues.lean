/-
  Proofs/AttributeValues.lean --- what an attribute value means under the options.

  WHAT THIS FILE IS FOR.  A value is read in one pass that copies runs of characters, holds
  back white space, and is not made at all if nothing would change.  Here is what it computes,
  one character at a time and one step after the other: the characters of the value, of which
  each is literal or was decoded (`valueChars`), and then their line ends, their white space or
  their words (`AttributeRules.meaning`).

  WHY A CHARACTER REMEMBERS THAT IT WAS DECODED.  Only what stands literally in the value is
  white space to be joined, and only a literal line feed belongs to the carriage return before
  it.  A value can therefore not be decoded first and joined then as a text.
-/
import XmlTree.Text.Conversion

set_option autoImplicit false

namespace XmlTree

/-! ## The characters of a value -/

/-- A character of a value. -/
inductive ValueChar where
  /-- it stands in the value itself -/
  | literal (c : Char)
  /-- a reference to it stands there -/
  | decoded (c : Char)
  deriving DecidableEq, Repr

namespace ValueChar

/-- The character. -/
def char : ValueChar → Char
  | literal c => c
  | decoded c => c

/-- White space that counts as such. -/
def isLiteralSpace : ValueChar → Bool
  | literal c => isSpace c
  | decoded _ => false

/-- Every literal carriage return, and a literal line feed after it, replaced by one line feed. -/
def unifyLineEnds : List ValueChar → List ValueChar
  | [] => []
  | literal '\r' :: literal '\n' :: vs => literal '\n' :: unifyLineEnds vs
  | literal '\r' :: vs => literal '\n' :: unifyLineEnds vs
  | v :: vs => v :: unifyLineEnds vs

end ValueChar

/-- The characters of a value from left to right.  What was decoded is not read again. -/
def valueChars (escapes : Bool) : List Char → List ValueChar
  | [] => []
  | c :: cs =>
    if c = '&' && escapes then
      match _h : reference? cs with
      | some (d, rest) => .decoded d :: valueChars escapes rest
      | none => .literal '&' :: valueChars escapes cs
    else
      .literal c :: valueChars escapes cs
termination_by cs => cs.length
decreasing_by
  · have := length_of_reference? _h; simp; omega
  · simp
  · simp

theorem isSpace_ampersand : isSpace '&' = false := by decide

/-- One step from the left, whatever stands there. -/
theorem valueChars_cons (escapes : Bool) (c : Char) (cs : List Char) :
    valueChars escapes (c :: cs) =
      if c = '&' && escapes then
        match reference? cs with
        | some (d, rest) => .decoded d :: valueChars escapes rest
        | none => .literal '&' :: valueChars escapes cs
      else .literal c :: valueChars escapes cs := by
  rw [valueChars]
  split
  · split <;> simp_all
  · rfl

namespace AttributeRules

/-- The words between literal white space. -/
def words (vs : List ValueChar) : List (List Char) :=
  (vs.splitOnP ValueChar.isLiteralSpace).map (List.map ValueChar.char)

/-- The value with its line ends unified and its white space turned into spaces. -/
def converted (r : AttributeRules) (vs : List ValueChar) : List Char :=
  (if r.eol then ValueChar.unifyLineEnds vs else vs).map fun v =>
    if r.toSpaces && v.isLiteralSpace then ' ' else v.char

/-- What a value means: its words with one space between them, or all of its characters. -/
def meaning (r : AttributeRules) (input : List Char) : List Char :=
  let vs := valueChars r.escapes input
  if r.collapse then [' '].intercalate ((words vs).filter (· ≠ [])) else r.converted vs

variable {r : AttributeRules} {started pending : Bool}

/-! ## Words -/

/-- Words behind another one. -/
def spaced (ws : List (List Char)) : List Char := (ws.filter (· ≠ [])).flatMap (' ' :: ·)

theorem words_space {v : ValueChar} (h : v.isLiteralSpace = true) (vs : List ValueChar) :
    words (v :: vs) = [] :: words vs := by
  simp [words, List.splitOnP_cons_eq_if_modifyHead, h]

/-- A character that is no white space is the first of the word that follows it. -/
theorem words_char {v : ValueChar} (h : v.isLiteralSpace = false) (vs : List ValueChar) :
    ∃ w ws, words vs = w :: ws ∧ words (v :: vs) = (v.char :: w) :: ws := by
  obtain ⟨w, ws, hsplit⟩ := List.exists_cons_of_ne_nil
    (List.splitOnP_ne_nil ValueChar.isLiteralSpace vs)
  exact ⟨w.map ValueChar.char, ws.map (List.map ValueChar.char), by simp [words, hsplit],
    by simp [words, List.splitOnP_cons_eq_if_modifyHead, h, hsplit]⟩

theorem spaced_nil_cons (ws : List (List Char)) : spaced ([] :: ws) = spaced ws := rfl

theorem spaced_cons (c : Char) (w : List Char) (ws : List (List Char)) :
    spaced ((c :: w) :: ws) = ' ' :: c :: (w ++ spaced ws) := rfl

theorem intercalate_words (c : Char) (w : List Char) (ws : List (List Char)) :
    [' '].intercalate (((c :: w) :: ws).filter (· ≠ [])) = c :: (w ++ spaced ws) := by
  have hjoin : ∀ (v : List Char) (vs : List (List Char)),
      [' '].intercalate (v :: vs) = v ++ vs.flatMap (' ' :: ·) := by
    intro v vs
    induction vs generalizing v with
    | nil => simp
    | cons u us ih => rw [List.intercalate_cons_cons, ih, List.flatMap_cons]; simp
  exact hjoin (c :: w) _

/-- What is written of the words of a value, if they are to be joined: before the first of
them, inside one, and behind white space. -/
structure Joins (r : AttributeRules) (input : List Char) (ws : List (List Char)) : Prop where
  first : ∀ pending, r.apply false pending input = [' '].intercalate (ws.filter (· ≠ []))
  inside : ∀ w more, ws = w :: more → r.apply true false input = w ++ spaced more
  behind : r.apply true true input = spaced ws

/-- White space ends the word that is being read. -/
theorem Joins.space {input rest : List Char} {vs : List ValueChar} (h : Joins r rest (words vs))
    {v : ValueChar} (hv : v.isLiteralSpace = true)
    (hinput : ∀ started pending, r.apply started pending input = r.apply started true rest) :
    Joins r input (words (v :: vs)) := by
  rw [words_space hv]
  refine ⟨fun pending => ?_, ?_, ?_⟩
  · rw [hinput, h.first]
    rfl
  · rintro _ _ ⟨⟩
    rw [hinput, h.behind, List.nil_append]
  · rw [hinput, h.behind, spaced_nil_cons]

/-- Any other character goes on with a word, or begins one. -/
theorem Joins.char {input rest : List Char} {vs : List ValueChar} (h : Joins r rest (words vs))
    {v : ValueChar} (hv : v.isLiteralSpace = false)
    (hinput : ∀ started pending, r.apply started pending input =
      (if pending && started then [' '] else []) ++ v.char :: r.apply true false rest) :
    Joins r input (words (v :: vs)) := by
  obtain ⟨w, ws, hwords, hcons⟩ := words_char hv vs
  have hrest := h.inside w ws hwords
  rw [hcons]
  refine ⟨fun pending => ?_, ?_, ?_⟩
  · rw [hinput, hrest, intercalate_words, Bool.and_false]
    rfl
  · rintro _ _ ⟨⟩
    rw [hinput, hrest]
    rfl
  · rw [hinput, hrest, spaced_cons]
    rfl

/-- White space that is collapsed is joined from left to right. -/
theorem joins_words (hcollapse : r.collapse = true) (input : List Char) :
    Joins r input (words (valueChars r.escapes input)) := by
  generalize hescapes : r.escapes = escapes
  fun_induction valueChars escapes input with
  | case1 =>
    have hnone : ∀ started pending, r.apply started pending [] = [] := fun _ _ => by rw [apply]
    exact ⟨hnone false, fun w more hwords => by cases hwords; exact hnone _ _, hnone _ _⟩
  | case2 c cs hc d rest hread ih =>
    obtain ⟨rfl, hescape⟩ : c = '&' ∧ escapes = true := by simpa using hc
    refine ih.char rfl fun started pending => ?_
    rw [apply_cons, hread, hescapes, hescape, isSpace_ampersand]
    simp [ValueChar.char]
  | case3 c cs hc hread ih =>
    obtain ⟨rfl, hescape⟩ : c = '&' ∧ escapes = true := by simpa using hc
    refine ih.char isSpace_ampersand fun started pending => ?_
    rw [apply_cons, hread, hescapes, hescape, isSpace_ampersand]
    simp [ValueChar.char]
  | case4 c cs hc ih =>
    cases hspace : isSpace c with
    | true =>
      refine ih.space hspace fun started pending => ?_
      rw [apply_cons, hcollapse, hspace, Bool.true_and, if_pos rfl]
    | false =>
      refine ih.char hspace fun started pending => ?_
      obtain ⟨hreturn, htab, hfeed⟩ := ne_of_isSpace hspace
      have hampersand : ¬ (c = '&' ∧ r.escapes = true) := by simpa [hescapes] using hc
      rw [apply_cons]
      simp [hspace, hreturn, htab, hfeed, hampersand, ValueChar.char]

/-! ## All characters -/

theorem valueChars_literal {escapes : Bool} {c : Char} (h : (c = '&' && escapes) = false)
    (cs : List Char) : valueChars escapes (c :: cs) = .literal c :: valueChars escapes cs := by
  rw [valueChars, h]
  rfl

/-- A line feed is the first of the characters only if the value begins with it. -/
theorem eq_lineFeed_of_valueChars {escapes : Bool} {cs : List Char} {vs : List ValueChar}
    (h : valueChars escapes cs = .literal '\n' :: vs) :
    ∃ rest, cs = '\n' :: rest ∧ vs = valueChars escapes rest := by
  cases cs with
  | nil => rw [valueChars] at h; cases h
  | cons c cs =>
    rw [valueChars] at h
    split at h
    · split at h <;> cases h
    · cases h
      exact ⟨cs, rfl, rfl⟩

theorem unifyLineEnds_return (escapes : Bool) (cs : List Char) :
    ValueChar.unifyLineEnds (.literal '\r' :: valueChars escapes cs) =
      .literal '\n' :: ValueChar.unifyLineEnds (valueChars escapes (dropLineFeed cs)) := by
  unfold dropLineFeed
  split
  · rename_i rest
    rw [valueChars_literal (by simp), ValueChar.unifyLineEnds]
  · rename_i hfeed
    rw [ValueChar.unifyLineEnds]
    intro vs hvs
    obtain ⟨rest, rfl, -⟩ := eq_lineFeed_of_valueChars hvs
    exact hfeed rest rfl

theorem unifyLineEnds_cons {v : ValueChar} (hv : v ≠ .literal '\r') (vs : List ValueChar) :
    ValueChar.unifyLineEnds (v :: vs) = v :: ValueChar.unifyLineEnds vs := by
  rw [ValueChar.unifyLineEnds]
  · rintro _ rfl
    exact absurd rfl hv
  · rintro rfl
    exact hv rfl

/-- A carriage return and a line feed after it are one line end. -/
theorem converted_return (heol : r.eol = true) (cs : List Char) :
    r.converted (.literal '\r' :: valueChars r.escapes cs) =
      (if r.toSpaces then ' ' else '\n') :: r.converted (valueChars r.escapes (dropLineFeed cs)) := by
  unfold converted
  rw [heol, if_pos rfl, if_pos rfl, unifyLineEnds_return]
  simp [ValueChar.isLiteralSpace, isSpace, ValueChar.char]

theorem converted_cons {v : ValueChar} (hv : v = .literal '\r' → r.eol = false)
    (vs : List ValueChar) :
    r.converted (v :: vs) =
      (if r.toSpaces && v.isLiteralSpace then ' ' else v.char) :: r.converted vs := by
  unfold converted
  cases heol : r.eol with
  | false => rfl
  | true =>
    have hne : v ≠ .literal '\r' := by
      intro h
      rw [hv h] at heol
      cases heol
    rw [if_pos rfl, if_pos rfl, unifyLineEnds_cons hne]
    rfl

/-- A carriage return alone is converted as every other white space is. -/
theorem converted_literal {c : Char} (hreturn : c = '\r' → r.eol = false) (vs : List ValueChar) :
    r.converted (.literal c :: vs) =
      (if r.toSpaces && (c = '\t' || c = '\n' || c = '\r') then ' ' else c) :: r.converted vs := by
  rw [converted_cons fun h => hreturn (ValueChar.literal.inj h)]
  refine congrArg (· :: _) ?_
  by_cases hspace : c = ' '
  · subst hspace
    simp [ValueChar.char]
  · have hclass : isSpace c = (c = '\t' || c = '\n' || c = '\r') := by
      rw [Bool.eq_iff_iff]
      simp [isSpace, hspace, or_assoc]
    rw [ValueChar.isLiteralSpace, hclass]
    rfl

/-- White space that is not collapsed is converted from left to right. -/
theorem apply_eq_converted (hcollapse : r.collapse = false) (input : List Char) :
    r.apply started false input = r.converted (valueChars r.escapes input) := by
  induction hlength : input.length using Nat.strongRecOn generalizing started input with
  | ind n ih =>
    have hrest : ∀ rest : List Char, rest.length < n →
        r.apply true false rest = r.converted (valueChars r.escapes rest) := fun rest hshorter =>
      ih rest.length hshorter rest rfl
    cases input with
    | nil =>
      rw [apply, valueChars, converted]
      cases r.eol <;> rfl
    | cons c cs =>
      rw [List.length_cons] at hlength
      have hcs := hrest cs (by omega)
      rw [apply_cons, hcollapse, valueChars_cons]
      simp only [Bool.false_and, Bool.false_eq_true, if_false, List.nil_append]
      split
      · cases hread : reference? cs with
        | some found =>
          have hshorter := length_of_reference? hread
          have hfound := hrest found.2 (by omega)
          simp only
          rw [converted_cons (by rintro ⟨⟩), hfound]
          simp [ValueChar.isLiteralSpace, ValueChar.char]
        | none =>
          simp only
          rw [converted_literal (by simp), hcs]
          simp
      · by_cases hreturn : c = '\r' ∧ r.eol = true
        · obtain ⟨rfl, heol⟩ := hreturn
          have hfeed := hrest (dropLineFeed cs) (by have := length_dropLineFeed_le cs; omega)
          rw [converted_return heol, heol, if_pos rfl, hfeed]
          cases r.toSpaces <;> simp
        · have heol : c = '\r' → r.eol = false := by simpa using hreturn
          rw [converted_literal heol, hcs]
          by_cases hlast : c = '\r'
          · subst hlast
            cases hspaces : r.toSpaces <;> simp [heol rfl, hcs]
          · cases r.toSpaces with
            | false => simp [hlast]
            | true =>
              by_cases hspace : c = '\t' ∨ c = '\n'
              · simp [hlast, hspace]
              · simp [hlast, hspace]

/-- The one pass computes what the value means. -/
theorem apply_eq_meaning (r : AttributeRules) (input : List Char) :
    r.apply false false input = r.meaning input := by
  unfold meaning
  cases hcollapse : r.collapse with
  | true => exact (joins_words hcollapse input).first false
  | false => exact apply_eq_converted hcollapse input

/-! ## Values that are left alone -/

/-- White space is kept if it is a space between two characters that are none. -/
theorem apply_space (hcollapse : r.collapse = true) {c : Char} {cs : List Char}
    (hchar : isSpace c = false) :
    r.apply true false (' ' :: c :: cs) = ' ' :: r.apply true false (c :: cs) := by
  rw [apply_cons, hcollapse, if_pos (by decide), apply_cons, apply_cons]
  simp [hchar]

theorem space_of_keepsChar {first : Bool} {c : Char} {cs : List Char}
    (hcollapse : r.collapse = true) (hspace : isSpace c = true)
    (h : r.keepsChar first c cs = true) :
    c = ' ' ∧ first = false ∧ ∃ d ds, cs = d :: ds ∧ d ≠ ' ' := by
  simp only [isSpace, Bool.or_eq_true, beq_iff_eq] at hspace
  rcases hspace with ((rfl | rfl) | rfl) | rfl
  · cases cs with
    | nil => simp [keepsChar, hcollapse] at h
    | cons d ds =>
      have hkept : first = false ∧ d ≠ ' ' := by simpa [keepsChar, hcollapse] using h
      exact ⟨rfl, hkept.1, d, ds, rfl, hkept.2⟩
  · simp [keepsChar, hcollapse] at h
  · simp [keepsChar, hcollapse] at h
  · simp [keepsChar, hcollapse] at h

/-- A character that is kept is written, unless it is white space to be joined. -/
theorem apply_of_keepsChar {first : Bool} {c : Char} {cs : List Char}
    (hspace : (r.collapse && isSpace c) = false) (h : r.keepsChar first c cs = true) :
    r.apply started false (c :: cs) = c :: r.apply true false cs := by
  rw [apply_cons, hspace]
  by_cases hampersand : c = '&'
  · subst hampersand
    have hescapes : r.escapes = false := by simpa [keepsChar] using h
    simp [hescapes]
  by_cases hreturn : c = '\r'
  · subst hreturn
    obtain ⟨⟨heol, hspaces⟩, -⟩ : (r.eol = false ∧ r.toSpaces = false) ∧ r.collapse = false := by
      simpa [keepsChar] using h
    simp [heol, hspaces]
  by_cases hother : c = '\t' ∨ c = '\n'
  · have hkept : r.toSpaces = false ∧ r.collapse = false := by
      simpa [keepsChar, hampersand, hreturn, hother] using h
    simp [hampersand, hreturn, hkept.1]
  · simp [hampersand, hreturn, hother]

/-- A value of which every character is kept is written as it is. -/
theorem apply_of_keeps {input : List Char} (h : r.keeps (!started) input = true) :
    r.apply started false input = input := by
  induction input generalizing started with
  | nil => rw [apply]
  | cons c cs ih =>
    rw [keeps, Bool.and_eq_true] at h
    obtain ⟨hkeeps, hrest⟩ := h
    have hcs : r.apply true false cs = cs := ih hrest
    cases hspace : r.collapse && isSpace c with
    | false => rw [apply_of_keepsChar hspace hkeeps, hcs]
    | true =>
      obtain ⟨hcollapse, hspace⟩ := Bool.and_eq_true_iff.1 hspace
      obtain ⟨rfl, hstarted, d, ds, rfl, hd⟩ := space_of_keepsChar hcollapse hspace hkeeps
      obtain rfl : started = true := by simpa using hstarted
      rw [keeps, Bool.and_eq_true] at hrest
      have hchar : isSpace d = false := Bool.eq_false_iff.2 fun hspace =>
        hd (space_of_keepsChar hcollapse hspace hrest.1).1
      rw [apply_space hcollapse hchar, hcs]

end AttributeRules

/-- An attribute value is converted to what it means under the options.  It is left where it
stands only if it means itself. -/
theorem convertAttribute_eq_meaning (options : ParseOptions) (input : List Char) :
    let meaning := (AttributeRules.ofOptions options).meaning input
    convertAttribute options input = .fresh meaning ∨
      convertAttribute options input = .verbatim 0 input ∧ meaning = input := by
  intro meaning
  unfold convertAttribute
  simp only
  split
  · rename_i hkeeps
    refine .inr ⟨rfl, ?_⟩
    exact (AttributeRules.apply_eq_meaning _ input).symm.trans (AttributeRules.apply_of_keeps hkeeps)
  · exact .inl (congrArg Conversion.fresh (AttributeRules.apply_eq_meaning _ input))

end XmlTree
