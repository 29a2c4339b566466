/-
  Text/Conversion.lean --- what reading does to character data and to attribute
  values.

  WHAT THIS FILE IS FOR.  Depending on the options, references are decoded, line
  ends become line feeds, and white space is converted, joined or trimmed.  Text
  that needs none of it is left where it stands, and the reader of the result has
  to be able to tell: a conversion answers `verbatim` for a part of its input and
  `fresh` for a new text.

  ORDER OF THE STEPS.  Character data is trimmed in front, its line ends are
  converted, then its references are decoded, then it is trimmed behind.  So a
  decoded carriage return stays, and a decoded space at the end is trimmed while
  one in front is not.
-/
import XmlTree.Text.Reference
import XmlTree.Options

set_option autoImplicit false

namespace XmlTree

/-- The result of converting a text. -/
inductive Conversion where
  /-- the part `text` of the input, which begins `skipped` bytes into it -/
  | verbatim (skipped : Nat) (text : List Char)
  /-- a text that is not a part of the input -/
  | fresh (text : List Char)
  deriving DecidableEq, Repr, Inhabited

namespace Conversion

/-- The converted text. -/
def text : Conversion → List Char
  | verbatim _ t => t
  | fresh t => t

/-- Whether the text is a part of the input. -/
def isVerbatim : Conversion → Bool
  | verbatim _ _ => true
  | fresh _ => false

end Conversion

/-! ## Line ends -/

/-- The text with every carriage return, and a line feed after it, replaced by one
line feed. -/
def unifyLineEnds : List Char → List Char
  | [] => []
  | '\r' :: '\n' :: cs => '\n' :: unifyLineEnds cs
  | '\r' :: cs => '\n' :: unifyLineEnds cs
  | c :: cs => c :: unifyLineEnds cs

/-- References decoded; a fresh text as soon as there is an ampersand. -/
def convertReferences (cs : List Char) : Conversion :=
  if cs.contains '&' then .fresh (decodeReferences cs) else .verbatim 0 cs

/-- Line ends unified; a fresh text as soon as there is a carriage return. -/
def convertLineEnds (cs : List Char) : Conversion :=
  if cs.contains '\r' then .fresh (unifyLineEnds cs) else .verbatim 0 cs

/-! ## Character data -/

/-- Character data as the options for references, line ends and trimming ask. -/
def convertPcdata (options : ParseOptions) (input : List Char) : Conversion :=
  let escapes := options.contains .escapes
  let eol := options.contains .eol
  let trim := options.contains .trimPcdata
  let kept := if trim then dropSpace input else input
  let trimEnd := fun cs => if trim then dropTrailingSpace cs else cs
  let touched := (escapes && kept.contains '&') || (eol && kept.contains '\r')
  if touched then
    let lines := if eol then unifyLineEnds kept else kept
    let decoded := if escapes then decodeReferences lines else lines
    .fresh (trimEnd decoded)
  else
    .verbatim (byteSize input - byteSize kept) (trimEnd kept)

/-! ## Attribute values -/

/-- The steps that an attribute value goes through. -/
structure AttributeRules where
  /-- decode references -/
  escapes : Bool
  /-- unify line ends -/
  eol : Bool
  /-- turn white space characters into spaces -/
  toSpaces : Bool
  /-- join runs of white space and drop them at the ends -/
  collapse : Bool
  deriving DecidableEq, Repr, Inhabited

/-- The steps that the options ask for. -/
def AttributeRules.ofOptions (options : ParseOptions) : AttributeRules where
  escapes := options.contains .escapes
  eol := options.contains .eol
  toSpaces := options.contains .wconvAttribute
  collapse := options.contains .wnormAttribute

namespace AttributeRules

/-- Whether the rules leave a character of a value alone, given what follows it
and whether it is the first. -/
def keepsChar (r : AttributeRules) (first : Bool) (c : Char) (rest : List Char) : Bool :=
  if c = '&' then !r.escapes
  else if c = '\r' then !(r.eol || r.toSpaces || r.collapse)
  else if c = '\t' || c = '\n' then !(r.toSpaces || r.collapse)
  else if c = ' ' && r.collapse then
    !first && (match rest with
      | [] => false
      | d :: _ => d != ' ')
  else true

/-- Whether the rules leave every character of a value alone. -/
def keeps (r : AttributeRules) (first : Bool) : List Char → Bool
  | [] => true
  | c :: cs => r.keepsChar first c cs && keeps r false cs

/-- The rest of a text without a line feed at its start. -/
def dropLineFeed : List Char → List Char
  | '\n' :: cs => cs
  | cs => cs

theorem length_dropLineFeed_le (cs : List Char) : (dropLineFeed cs).length ≤ cs.length := by
  unfold dropLineFeed; split <;> simp

/-- Whether a character is never looked at on its own: it is copied together with those of
its kind that follow it. -/
def isOrdinary (c : Char) : Bool := !(c == '&' || isSpace c)

/-- What the rules write for a value.  `started` tells whether anything has been
written, `pending` whether white space waits to be written as one space. -/
def apply (r : AttributeRules) (started pending : Bool) : List Char → List Char
  | [] => []
  | c :: cs =>
    if r.collapse && isSpace c then
      apply r started true cs
    else
      let gap := if pending && started then [' '] else []
      if c = '&' && r.escapes then
        match _h : reference? cs with
        | some (d, rest) => gap ++ d :: apply r true false rest
        | none => gap ++ '&' :: apply r true false cs
      else if c = '\r' && r.toSpaces then
        gap ++ ' ' :: apply r true false (if r.eol then dropLineFeed cs else cs)
      else if (c = '\t' || c = '\n') && r.toSpaces then
        gap ++ ' ' :: apply r true false cs
      else if c = '\r' && r.eol then
        gap ++ '\n' :: apply r true false (dropLineFeed cs)
      else if isOrdinary c then
        gap ++ c :: (cs.takeWhile isOrdinary ++ apply r true false (cs.dropWhile isOrdinary))
      else
        gap ++ c :: apply r true false cs
termination_by cs => cs.length
decreasing_by
  · simp
  · have := length_of_reference? _h; simp; omega
  · simp
  · have := length_dropLineFeed_le cs; split <;> simp only [List.length_cons] <;> omega
  · simp
  · have := length_dropLineFeed_le cs; simp; omega
  · have := (List.dropWhile_suffix isOrdinary (l := cs)).length_le; simp; omega
  · simp

/-- The characters that the rules look for besides ampersands are white space. -/
theorem ne_of_isSpace {c : Char} (h : isSpace c = false) : c ≠ '\r' ∧ c ≠ '\t' ∧ c ≠ '\n' := by
  refine ⟨?_, ?_, ?_⟩ <;> (rintro rfl; exact absurd h (by decide))

/-- Ordinary characters that are copied together could have been copied one by one. -/
theorem takeWhile_append_apply (r : AttributeRules) (cs : List Char) :
    cs.takeWhile isOrdinary ++ r.apply true false (cs.dropWhile isOrdinary) =
      r.apply true false cs := by
  cases cs with
  | nil => rfl
  | cons c cs =>
    by_cases hc : isOrdinary c = true
    · obtain ⟨hampersand, hspace⟩ : c ≠ '&' ∧ isSpace c = false := by
        simpa [isOrdinary] using hc
      have hother := ne_of_isSpace hspace
      rw [List.takeWhile_cons_of_pos hc, List.dropWhile_cons_of_pos hc]
      conv => rhs; rw [apply]
      simp [hspace, hampersand, hother, hc]
    · rw [List.takeWhile_cons_of_neg hc, List.dropWhile_cons_of_neg hc]
      rfl

/-- What the rules write for a value that goes on with the given character, one character at a
time. -/
theorem apply_cons (r : AttributeRules) (started pending : Bool) (c : Char) (cs : List Char) :
    r.apply started pending (c :: cs) =
      if r.collapse && isSpace c then r.apply started true cs
      else
        (if pending && started then [' '] else []) ++
          if c = '&' && r.escapes then
            match reference? cs with
            | some (d, rest) => d :: r.apply true false rest
            | none => '&' :: r.apply true false cs
          else if c = '\r' && r.toSpaces then
            ' ' :: r.apply true false (if r.eol then dropLineFeed cs else cs)
          else if (c = '\t' || c = '\n') && r.toSpaces then ' ' :: r.apply true false cs
          else if c = '\r' && r.eol then '\n' :: r.apply true false (dropLineFeed cs)
          else c :: r.apply true false cs := by
  rw [apply]
  simp only [takeWhile_append_apply, ite_self, apply_ite ((if pending && started then [' '] else []) ++ ·)]
  split
  · rfl
  · split
    · split <;> simp_all
    · rfl

end AttributeRules

/-- An attribute value as the options for references, line ends and white space
ask. -/
def convertAttribute (options : ParseOptions) (input : List Char) : Conversion :=
  let rules := AttributeRules.ofOptions options
  if rules.keeps true input then .verbatim 0 input
  else .fresh (rules.apply false false input)

end XmlTree
