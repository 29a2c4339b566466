/-
  Proofs/Shrinking.lean --- a conversion makes no text longer.

  WHAT THIS FILE IS FOR.  A text that is converted has to be copied, and a text that is too
  long to be copied ends a load.  So it matters how long a converted text can be: no longer
  than the piece of the loaded text that it comes from.

  REFERENCES are why this needs a proof.  One character takes four bytes at most, and there
  is no reference with less than that: the ampersand, the semicolon and two characters in
  between.
-/
import XmlTree.Proofs.Texts
import XmlTree.Text.Conversion

set_option autoImplicit false

namespace XmlTree

/-! ## Parts of a text -/

theorem byteSize_dropSpace_le (cs : List Char) : byteSize (dropSpace cs) ≤ byteSize cs := by
  conv => rhs; rw [← List.takeWhile_append_dropWhile (p := isSpace) (l := cs), byteSize_append]
  exact Nat.le_add_left _ _

theorem byteSize_dropTrailingSpace_le (cs : List Char) :
    byteSize (dropTrailingSpace cs) ≤ byteSize cs := by
  have hreverse : ∀ cs : List Char, byteSize cs.reverse = byteSize cs := by
    intro cs
    induction cs with
    | nil => rfl
    | cons c cs ih => rw [List.reverse_cons, byteSize_append, ih, byteSize_cons, Nat.add_comm]; rfl
  rw [dropTrailingSpace, hreverse, ← hreverse cs]
  exact byteSize_dropSpace_le _

/-! ## Line ends and references -/

theorem byteSize_unifyLineEnds_le (cs : List Char) : byteSize (unifyLineEnds cs) ≤ byteSize cs := by
  induction cs using unifyLineEnds.induct with
  | case1 => exact Nat.le_refl 0
  | case2 cs ih =>
    rw [unifyLineEnds, byteSize_cons, byteSize_cons, byteSize_cons]
    have hreturn : '\r'.utf8Size = 1 := rfl
    omega
  | case3 cs hfeed ih =>
    rw [unifyLineEnds.eq_3 cs hfeed, byteSize_cons, byteSize_cons]
    have hreturn : '\r'.utf8Size = '\n'.utf8Size := rfl
    omega
  | case4 c cs hfeed hreturn ih =>
    rw [unifyLineEnds.eq_4 c cs hfeed hreturn, byteSize_cons, byteSize_cons]
    omega

/-- The body of a reference has two characters at least. -/
theorem length_of_referencedChar? {body : List Char} {c : Char}
    (h : referencedChar? body = some c) : 2 ≤ body.length := by
  unfold referencedChar? at h
  split_ifs at h with hlt hgt hamp hquot hapos
  all_goals try (subst_vars; decide)
  split at h
  · rename_i number
    cases number with
    | nil => cases h
    | cons d ds => exact Nat.le_add_left _ _
  · cases h

/-- A reference is no shorter than what it stands for. -/
theorem byteSize_of_reference? {cs rest : List Char} {c : Char}
    (h : reference? cs = some (c, rest)) : c.utf8Size + byteSize rest ≤ 1 + byteSize cs := by
  unfold reference? at h
  dsimp only at h
  split at h
  · rename_i after hdrop
    obtain ⟨d, hd, heq⟩ := Option.map_eq_some_iff.1 h
    obtain ⟨rfl, rfl⟩ := Prod.mk.inj heq
    have hbody := length_of_referencedChar? hd
    have hsplit := cs.take_append_drop
      ((cs.take referenceBodyLimit).takeWhile (· != ';')).length
    have htaken : 2 ≤ byteSize (cs.take
        ((cs.take referenceBodyLimit).takeWhile (· != ';')).length) := by
      refine Nat.le_trans ?_ (length_le_byteSize _)
      have hlength := congrArg List.length hdrop
      rw [List.length_drop, List.length_cons] at hlength
      rw [List.length_take]
      omega
    have hfour : d.utf8Size ≤ 4 := d.utf8Size_le_four
    have hsemicolon : ';'.utf8Size = 1 := rfl
    have hsize := congrArg byteSize hsplit
    rw [hdrop, byteSize_append, byteSize_cons, hsemicolon] at hsize
    omega
  · cases h

theorem byteSize_decodeReferences_le (cs : List Char) :
    byteSize (decodeReferences cs) ≤ byteSize cs := by
  induction cs using decodeReferences.induct with
  | case1 =>
    have hnil : decodeReferences [] = [] := by rw [decodeReferences]
    exact Nat.le_of_eq (congrArg byteSize hnil)
  | case2 cs d rest href ih =>
    have hsize := byteSize_of_reference? href
    have hone : '&'.utf8Size = 1 := rfl
    rw [decodeReferences_ampersand, href, byteSize_cons, byteSize_cons]
    omega
  | case3 cs href ih =>
    rw [decodeReferences_ampersand, href, byteSize_cons, byteSize_cons]
    omega
  | case4 c cs hne ih =>
    rw [decodeReferences_cons hne, byteSize_cons, byteSize_cons]
    omega

/-! ## Character data and attribute values -/

theorem byteSize_convertLineEnds_le (cs : List Char) :
    byteSize (convertLineEnds cs).text ≤ byteSize cs := by
  unfold convertLineEnds
  split
  · exact byteSize_unifyLineEnds_le cs
  · exact Nat.le_refl _

theorem byteSize_convertPcdata_le (options : ParseOptions) (cs : List Char) :
    byteSize (convertPcdata options cs).text ≤ byteSize cs := by
  have hkept : byteSize (if options.contains .trimPcdata then dropSpace cs else cs) ≤
      byteSize cs := by
    split
    · exact byteSize_dropSpace_le cs
    · exact Nat.le_refl _
  have hlines : ∀ cs, byteSize (if options.contains .eol then unifyLineEnds cs else cs) ≤
      byteSize cs := by
    intro cs
    split
    · exact byteSize_unifyLineEnds_le cs
    · exact Nat.le_refl _
  have hdecoded : ∀ cs, byteSize (if options.contains .escapes then decodeReferences cs else cs) ≤
      byteSize cs := by
    intro cs
    split
    · exact byteSize_decodeReferences_le cs
    · exact Nat.le_refl _
  have htrimmed : ∀ cs, byteSize (if options.contains .trimPcdata then dropTrailingSpace cs
      else cs) ≤ byteSize cs := by
    intro cs
    split
    · exact byteSize_dropTrailingSpace_le cs
    · exact Nat.le_refl _
  have heither : ∀ (touched : Bool) (fresh left : Conversion),
      byteSize fresh.text ≤ byteSize cs → byteSize left.text ≤ byteSize cs →
      byteSize (if touched then fresh else left).text ≤ byteSize cs := by
    intro touched fresh left hfresh hleft
    cases touched with
    | true => exact hfresh
    | false => exact hleft
  refine heither _ _ _ ?_ ?_
  · calc _ ≤ _ := htrimmed _
      _ ≤ _ := hdecoded _
      _ ≤ _ := hlines _
      _ ≤ _ := hkept
  · exact Nat.le_trans (htrimmed _) hkept

namespace AttributeRules

theorem byteSize_dropLineFeed_le (cs : List Char) : byteSize (dropLineFeed cs) ≤ byteSize cs := by
  unfold dropLineFeed
  split
  · exact Nat.le_add_left _ _
  · exact Nat.le_refl _

/-- A space that waits to be written stands for white space that was read. -/
theorem byteSize_apply_le (r : AttributeRules) (started pending : Bool) (cs : List Char) :
    byteSize (r.apply started pending cs) ≤ byteSize cs + if pending then 1 else 0 := by
  induction hn : cs.length using Nat.strongRecOn generalizing started pending cs with
  | _ n ih =>
    subst hn
    have hrest : ∀ {started : Bool} {rest : List Char}, rest.length < cs.length →
        byteSize (r.apply started false rest) ≤ byteSize rest := by
      intro started rest hlt
      exact ih _ hlt started false rest rfl
    cases cs with
    | nil =>
      rw [apply]
      exact Nat.zero_le _
    | cons c cs =>
      have hpos := c.utf8Size_pos
      have hgap : byteSize (if pending && started then [' '] else []) ≤
          if pending then 1 else 0 := by
        cases pending <;> cases started <;> decide
      have hspace : ' '.utf8Size = 1 := rfl
      have hfeed : '\n'.utf8Size = 1 := rfl
      have hhere := @hrest true cs (Nat.lt_succ_self _)
      have hdropped := @hrest true (dropLineFeed cs)
        (Nat.lt_succ_of_le (length_dropLineFeed_le cs))
      have hless := byteSize_dropLineFeed_le cs
      rw [apply_cons, byteSize_cons]
      split
      · have hwaiting := ih cs.length (Nat.lt_succ_self _) started true cs rfl
        rw [if_pos rfl] at hwaiting
        omega
      · rw [byteSize_append, Nat.add_comm]
        refine Nat.add_le_add ?_ hgap
        split
        · rename_i hampersand
          rw [Bool.and_eq_true, decide_eq_true_eq] at hampersand
          obtain rfl := hampersand.1
          have hone : '&'.utf8Size = 1 := rfl
          split
          · rename_i d rest href
            have hsize := byteSize_of_reference? href
            have hread := @hrest true rest (Nat.lt_succ_of_lt (length_of_reference? href))
            rw [byteSize_cons]
            omega
          · rw [byteSize_cons]
            omega
        · split
          · split <;> rw [byteSize_cons] <;> omega
          · split
            · rw [byteSize_cons]
              omega
            · split <;> rw [byteSize_cons] <;> omega

end AttributeRules

theorem byteSize_convertAttribute_le (options : ParseOptions) (cs : List Char) :
    byteSize (convertAttribute options cs).text ≤ byteSize cs := by
  unfold convertAttribute
  dsimp only
  split
  · exact Nat.le_refl _
  · exact AttributeRules.byteSize_apply_le _ false false cs

end XmlTree
