/-
  Proofs/Escaping.lean --- escaped text is read back.

  WHAT THIS FILE IS FOR.  Writing replaces characters of markup by references, reading
  replaces references by characters.  One undoes the other, whatever the text: what is
  written for one character is read as that character, whatever follows it, and nothing
  that ends character data or a quoted value early is left in what is written.
-/
import XmlTree.Save.Markup
import XmlTree.Text.Conversion
import XmlTree.Proofs.Output

set_option autoImplicit false

namespace XmlTree

variable {style : MarkupStyle} {ctx : TextContext}

/-! ## What is written for a text -/

/-- The characters that are written for one character. -/
def escapedChar (style : MarkupStyle) (ctx : TextContext) (c : Char) : List Char :=
  if needsEscape ctx c then spelled (escapePieces style c) else [c]

/-- The characters that are written for a text. -/
def escaped (style : MarkupStyle) (ctx : TextContext) (cs : List Char) : List Char :=
  cs.flatMap (escapedChar style ctx)

theorem spelled_escapedPieces (style : MarkupStyle) (ctx : TextContext) (run cs : List Char) :
    spelled (escapedPieces style ctx run cs) = run.reverse ++ escaped style ctx cs := by
  induction cs generalizing run with
  | nil => simp [escapedPieces, escaped]
  | cons c cs ih =>
    rw [escapedPieces]
    split
    · rename_i hc
      simp [ih, escaped, escapedChar, hc]
    · rename_i hc
      simp [ih, escaped, escapedChar, hc]

theorem spelled_textPieces (h : style.has .noEscapes = false) (ctx : TextContext) (s : String) :
    spelled (textPieces style ctx s) = escaped style ctx s.toList := by
  simp [textPieces, h, spelled_escapedPieces]

/-! ## References are read back -/

/-- A body that is not too long is read up to its semicolon. -/
theorem reference?_append {body : List Char} {c : Char} (rest : List Char)
    (hlength : body.length ≤ referenceBodyLimit) (hsemicolon : ';' ∉ body)
    (hbody : referencedChar? body = some c) :
    reference? (body ++ ';' :: rest) = some (c, rest) := by
  have hall : ∀ d ∈ body, (d != ';') = true := by
    intro d hd
    simpa using fun heq : d = ';' => hsemicolon (heq ▸ hd)
  have htake : ((body ++ ';' :: rest).take referenceBodyLimit).takeWhile (· != ';') = body := by
    rw [List.take_append, List.take_of_length_le hlength, List.takeWhile_append_of_pos hall]
    cases referenceBodyLimit - body.length with
    | zero => simp
    | succ n => simp
  simp only [reference?, htake, List.drop_left, hbody, Option.map_some]

/-- Every character that is written as a number is read from it. -/
theorem referencedChar?_number {c : Char} (h : c.toNat < 32) :
    referencedChar? ['#', Char.ofNat ('0'.toNat + c.toNat / 10),
      Char.ofNat ('0'.toNat + c.toNat % 10)] = some c := by
  have hall : ∀ n < 32, referencedChar? ['#', Char.ofNat ('0'.toNat + n / 10),
      Char.ofNat ('0'.toNat + n % 10)] = some (Char.ofNat n) := by decide
  rw [hall c.toNat h, Char.ofNat_toNat]

theorem digit_ne_semicolon {c : Char} (h : c.toNat < 32) :
    ';' ∉ ['#', Char.ofNat ('0'.toNat + c.toNat / 10), Char.ofNat ('0'.toNat + c.toNat % 10)] := by
  have hall : ∀ n < 32, ';' ∉ ['#', Char.ofNat ('0'.toNat + n / 10),
      Char.ofNat ('0'.toNat + n % 10)] := by decide
  exact hall c.toNat h

theorem decodeReferences_reference {body : List Char} {c : Char} (rest : List Char)
    (hlength : body.length ≤ referenceBodyLimit) (hsemicolon : ';' ∉ body)
    (hbody : referencedChar? body = some c) :
    decodeReferences ('&' :: (body ++ ';' :: rest)) = c :: decodeReferences rest := by
  rw [decodeReferences, if_pos rfl]
  split
  · rename_i d more hread
    rw [reference?_append rest hlength hsemicolon hbody] at hread
    obtain ⟨rfl, rfl⟩ := Prod.mk.inj (Option.some.inj hread)
    rfl
  · rename_i hread
    rw [reference?_append rest hlength hsemicolon hbody] at hread
    cases hread

theorem bodyChars_of_all {body : List Char}
    (h : body.all (fun d => isNameChar d || d == '#') = true) :
    ∀ d ∈ body, isNameChar d = true ∨ d = '#' := by
  intro d hd
  have hd := List.all_eq_true.mp h d hd
  simpa using hd

/-- What is written for a character that cannot stand for itself: itself after all, or a
reference to it. -/
theorem spelled_escapePieces (hskip : style.has .skipControlChars = false) {c : Char}
    (h : needsEscape ctx c = true) :
    (spelled (escapePieces style c) = [c] ∧ c ∈ ['"', '\''] ∧ String.singleton c ≠ style.quote) ∨
      ∃ body, spelled (escapePieces style c) = '&' :: (body ++ [';']) ∧
        body.length ≤ referenceBodyLimit ∧ ';' ∉ body ∧ referencedChar? body = some c ∧
        ∀ d ∈ body, isNameChar d = true ∨ d = '#' := by
  unfold escapePieces
  simp only [hskip]
  split
  · rename_i hc
    exact .inr ⟨"amp".toList, rfl, by decide, by decide, hc ▸ by decide, bodyChars_of_all rfl⟩
  · split
    · rename_i hc
      exact .inr ⟨"lt".toList, rfl, by decide, by decide, hc ▸ by decide, bodyChars_of_all rfl⟩
    · split
      · rename_i hc
        exact .inr ⟨"gt".toList, rfl, by decide, by decide, hc ▸ by decide, bodyChars_of_all rfl⟩
      · split
        · rename_i hc
          subst hc
          cases hquote : style.has .attributeSingleQuote with
          | false =>
            exact .inr ⟨"quot".toList, rfl, by decide, by decide, by decide, bodyChars_of_all rfl⟩
          | true =>
            refine .inl ⟨rfl, by decide, ?_⟩
            rw [MarkupStyle.quote, hquote]
            decide
        · split
          · rename_i hc
            subst hc
            cases hquote : style.has .attributeSingleQuote with
            | true =>
              exact .inr ⟨"apos".toList, rfl, by decide, by decide, by decide, bodyChars_of_all rfl⟩
            | false =>
              refine .inl ⟨rfl, by decide, ?_⟩
              rw [MarkupStyle.quote, hquote]
              decide
          · rename_i h₁ h₂ h₃ h₄ h₅
            have hsmall : c.toNat < 32 := by
              cases ctx <;> simp_all [needsEscape]
            have hdigits : ∀ n < 32, ['#', Char.ofNat ('0'.toNat + n / 10),
                Char.ofNat ('0'.toNat + n % 10)].all (fun d => isNameChar d || d == '#') = true := by
              decide
            exact .inr ⟨['#', Char.ofNat ('0'.toNat + c.toNat / 10),
              Char.ofNat ('0'.toNat + c.toNat % 10)], by simp, by simp [referenceBodyLimit],
              digit_ne_semicolon hsmall, referencedChar?_number hsmall,
              bodyChars_of_all (hdigits _ hsmall)⟩

theorem needsEscape_ampersand (ctx : TextContext) : needsEscape ctx '&' = true := by
  cases ctx <;> rfl

/-- What is written for a character is read as that character, whatever follows. -/
theorem decodeReferences_escapedChar (hskip : style.has .skipControlChars = false)
    (ctx : TextContext) (c : Char)
    (rest : List Char) :
    decodeReferences (escapedChar style ctx c ++ rest) = c :: decodeReferences rest := by
  unfold escapedChar
  split
  · rename_i hc
    obtain ⟨hself, hquote, -⟩ | ⟨body, hbody, hlength, hsemicolon, hread, -⟩ :=
      spelled_escapePieces hskip hc
    · rw [hself]
      refine decodeReferences_cons ?_ rest
      rintro rfl
      exact absurd hquote (by decide)
    · rw [hbody]
      simpa using decodeReferences_reference rest hlength hsemicolon hread
  · rename_i hc
    refine decodeReferences_cons ?_ rest
    rintro rfl
    exact hc (needsEscape_ampersand ctx)

/-- Decoding undoes escaping. -/
theorem decodeReferences_escaped (hskip : style.has .skipControlChars = false)
    (ctx : TextContext) (cs : List Char) : decodeReferences (escaped style ctx cs) = cs := by
  induction cs with
  | nil => simp [escaped, decodeReferences]
  | cons c cs ih =>
    have hstep := decodeReferences_escapedChar hskip ctx c (escaped style ctx cs)
    rw [ih] at hstep
    exact hstep

/-- Where there is no ampersand, there is no reference. -/
theorem decodeReferences_of_not_mem {cs : List Char} (h : '&' ∉ cs) : decodeReferences cs = cs := by
  induction cs with
  | nil => simp [decodeReferences]
  | cons c cs ih =>
    rw [List.mem_cons, not_or] at h
    rw [decodeReferences_cons (Ne.symm h.1), ih h.2]

/-! ## What is left in escaped text -/

/-- A character of escaped text stands for itself, or is part of a reference. -/
theorem mem_escaped (hskip : style.has .skipControlChars = false) {cs : List Char} {d : Char}
    (h : d ∈ escaped style ctx cs) :
    (d ∈ cs ∧ (needsEscape ctx d = false ∨ d ∈ ['"', '\''] ∧ String.singleton d ≠ style.quote)) ∨
      d ∈ ['&', ';', '#'] ∨ isNameChar d = true := by
  obtain ⟨c, hc, hd⟩ := List.mem_flatMap.1 h
  unfold escapedChar at hd
  split at hd
  · rename_i hescape
    obtain ⟨hself, hquote⟩ | ⟨body, hbody, -, -, -, hchars⟩ := spelled_escapePieces hskip hescape
    · rw [hself, List.mem_singleton] at hd
      subst hd
      exact .inl ⟨hc, .inr hquote⟩
    · rw [hbody] at hd
      simp only [List.mem_cons, List.mem_append, List.not_mem_nil, or_false] at hd
      obtain rfl | hmem | rfl := hd
      · exact .inr (.inl (by decide))
      · obtain hname | rfl := hchars d hmem
        · exact .inr (.inr hname)
        · exact .inr (.inl (by decide))
      · exact .inr (.inl (by decide))
  · rename_i hescape
    rw [List.mem_singleton] at hd
    subst hd
    exact .inl ⟨hc, .inl (by simpa using hescape)⟩

/-- No tag begins in escaped text. -/
theorem lessThan_not_mem_escaped (hskip : style.has .skipControlChars = false) (cs : List Char) :
    '<' ∉ escaped style ctx cs := by
  intro h
  obtain ⟨-, hescape | ⟨hquote, -⟩⟩ | hmark | hname := mem_escaped hskip h
  · cases ctx <;> exact absurd hescape (by decide)
  · exact absurd hquote (by decide)
  · exact absurd hmark (by decide)
  · exact absurd hname (by decide)

theorem return_not_mem_escaped (hskip : style.has .skipControlChars = false)
    (ctx : TextContext) {cs : List Char} (hcs : '\r' ∉ cs) : '\r' ∉ escaped style ctx cs := by
  intro h
  obtain ⟨hmem, -⟩ | hmark | hname := mem_escaped hskip h
  · exact hcs hmem
  · exact absurd hmark (by decide)
  · exact absurd hname (by decide)

/-- A quoted value does not end early. -/
theorem quote_not_mem_escaped (hskip : style.has .skipControlChars = false) (cs : List Char)
    {d : Char} (hd : style.quote = String.singleton d) : d ∉ escaped style .attribute cs := by
  have hcases : d = '"' ∨ d = '\'' := by
    unfold MarkupStyle.quote at hd
    split at hd
    · exact .inr (by simpa using (congrArg String.toList hd).symm)
    · exact .inl (by simpa using (congrArg String.toList hd).symm)
  intro h
  obtain ⟨-, hescape | ⟨-, hquote⟩⟩ | hmark | hname := mem_escaped hskip h
  · obtain rfl | rfl := hcases <;> exact absurd hescape (by decide)
  · exact hquote hd.symm
  · obtain rfl | rfl := hcases <;> exact absurd hmark (by decide)
  · obtain rfl | rfl := hcases <;> exact absurd hname (by decide)

theorem escaped_ne_nil (hskip : style.has .skipControlChars = false) (ctx : TextContext)
    {cs : List Char} (h : cs ≠ []) : escaped style ctx cs ≠ [] := by
  intro hnil
  have hread := decodeReferences_escaped hskip ctx cs
  rw [hnil, decodeReferences] at hread
  exact h hread.symm

/-! ## Conversions undo escaping -/

/-- Characters without a carriage return are left as they are, whatever follows. -/
theorem unifyLineEnds_append_of_not_mem {a : List Char} (h : '\r' ∉ a) (b : List Char) :
    unifyLineEnds (a ++ b) = a ++ unifyLineEnds b := by
  induction a with
  | nil => rfl
  | cons c cs ih =>
    rw [List.mem_cons, not_or] at h
    rw [List.cons_append, unifyLineEnds.eq_4 _ _ (fun _ hc _ => h.1 hc.symm) (fun hc => h.1 hc.symm),
      ih h.2, List.cons_append]

theorem unifyLineEnds_of_not_mem {cs : List Char} (h : '\r' ∉ cs) : unifyLineEnds cs = cs := by
  have hall := unifyLineEnds_append_of_not_mem h []
  rwa [List.append_nil, unifyLineEnds, List.append_nil] at hall

/-- A conversion that leaves its input where it stands, or answers a new text. -/
inductive Conversion.InPlace (input : List Char) : Conversion → Prop where
  | verbatim : InPlace input (.verbatim 0 input)
  | fresh (text : List Char) : InPlace input (.fresh text)

namespace AttributeRules

theorem ampersand_not_mem_of_keeps {r : AttributeRules} (hescapes : r.escapes = true)
    {first : Bool} {cs : List Char} (h : r.keeps first cs = true) : '&' ∉ cs := by
  induction cs generalizing first with
  | nil => simp
  | cons c cs ih =>
    rw [keeps, Bool.and_eq_true] at h
    rw [List.mem_cons, not_or]
    refine ⟨?_, ih h.2⟩
    rintro rfl
    simp [keepsChar, hescapes] at h

/-- What is written for a character of a value is read as that character, whatever
follows, if runs of white space are not joined. -/
theorem apply_escapedChar {r : AttributeRules} (hescapes : r.escapes = true)
    (hcollapse : r.collapse = false) (hskip : style.has .skipControlChars = false)
    (started : Bool) (c : Char) (rest : List Char) :
    r.apply started false (escapedChar style .attribute c ++ rest) =
      c :: r.apply true false rest := by
  have hplain : ∀ d : Char, d ≠ '&' → d ∉ ['\r', '\n', '\t'] → ∀ more,
      r.apply started false (d :: more) = d :: r.apply true false more := by
    intro d hd hcontrol more
    simp only [List.mem_cons, List.not_mem_nil, or_false, not_or] at hcontrol
    rw [apply_cons]
    simp [hcollapse, hd, hcontrol]
  unfold escapedChar
  split
  · rename_i hc
    obtain ⟨hself, hquote, -⟩ | ⟨body, hbody, hlength, hsemicolon, hread, -⟩ :=
      spelled_escapePieces hskip hc
    · rw [hself]
      simp only [List.mem_cons, List.not_mem_nil, or_false] at hquote
      obtain rfl | rfl := hquote
      · exact hplain _ (by decide) (by decide) rest
      · exact hplain _ (by decide) (by decide) rest
    · have hreference := reference?_append rest hlength hsemicolon hread
      rw [hbody, List.cons_append, List.append_assoc, List.singleton_append, apply_cons, hreference]
      simp [hcollapse, hescapes]
  · rename_i hc
    refine hplain c ?_ ?_ rest
    · rintro rfl
      exact hc rfl
    · intro hmem
      simp only [List.mem_cons, List.not_mem_nil, or_false] at hmem
      obtain rfl | rfl | rfl := hmem <;> exact hc rfl

theorem apply_escaped {r : AttributeRules} (hescapes : r.escapes = true)
    (hcollapse : r.collapse = false) (hskip : style.has .skipControlChars = false)
    (started : Bool) (cs : List Char) :
    r.apply started false (escaped style .attribute cs) = cs := by
  induction cs generalizing started with
  | nil => simp [escaped, apply]
  | cons c cs ih =>
    have hstep := apply_escapedChar hescapes hcollapse hskip started c
      (escaped style .attribute cs)
    rw [ih true] at hstep
    exact hstep

end AttributeRules

/-- An attribute value is read back, whatever it is. -/
theorem convertAttribute_escaped {options : ParseOptions}
    (hescapes : options.contains .escapes = true)
    (hcollapse : options.contains .wnormAttribute = false)
    (hskip : style.has .skipControlChars = false) (cs : List Char) :
    (convertAttribute options (escaped style .attribute cs)).InPlace (escaped style .attribute cs) ∧
      (convertAttribute options (escaped style .attribute cs)).text = cs := by
  have happly := AttributeRules.apply_escaped (r := .ofOptions options) hescapes hcollapse hskip
    false cs
  have hdecode := decodeReferences_escaped hskip .attribute cs
  unfold convertAttribute
  simp only
  split
  · rename_i hkeeps
    have hnone := AttributeRules.ampersand_not_mem_of_keeps (r := .ofOptions options) hescapes hkeeps
    exact ⟨.verbatim, (decodeReferences_of_not_mem hnone).symm.trans hdecode⟩
  · exact ⟨.fresh _, happly⟩

end XmlTree
