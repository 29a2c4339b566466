/-
  Proofs/Sanitising.lean --- no mark is left in what is written for a value.

  WHAT THIS FILE IS FOR.  The text of a comment, of a section or of an instruction is
  written between marks, and a value may hold any of these marks.  Each construct has its own
  way of taking them out: a comment and an instruction get spaces, a section is cut in two.
  Here each way is said as a function of characters, and for each it is shown that the mark
  that ends the construct is not left in the text before it.

  WHAT OF THE VALUE IS KEPT.  Sections joined give the value.  The two other ways only add
  spaces.
-/
import XmlTree.Proofs.Cursors
import XmlTree.Proofs.Escaping

set_option autoImplicit false

namespace XmlTree

/-! ## Comments -/

/-- A text with a space after each hyphen that stands before another one or at the end. -/
def spacedHyphens : List Char → List Char
  | [] => []
  | c :: cs =>
    if c = '-' && (cs.isEmpty || cs.head? = some '-') then '-' :: ' ' :: spacedHyphens cs
    else c :: spacedHyphens cs

theorem spelled_commentTextPieces (run cs : List Char) :
    spelled (commentTextPieces run cs) = run.reverse ++ spacedHyphens cs := by
  induction cs generalizing run with
  | nil => simp [commentTextPieces, spacedHyphens]
  | cons c cs ih =>
    rw [commentTextPieces, spacedHyphens]
    split
    · simp [ih]
    · rw [ih]
      simp

theorem head?_spacedHyphens (cs : List Char) : (spacedHyphens cs).head? = cs.head? := by
  cases cs with
  | nil => rfl
  | cons c cs =>
    rw [spacedHyphens]
    split
    · rename_i hhyphen
      rw [Bool.and_eq_true, decide_eq_true_iff] at hhyphen
      rw [hhyphen.1]
      rfl
    · rfl

/-- No two hyphens are left side by side. -/
theorem not_infix_spacedHyphens (cs : List Char) : ¬ "--".toList <:+: spacedHyphens cs := by
  have hpair : "--".toList = ['-', '-'] := rfl
  rw [hpair]
  induction cs with
  | nil => simp [spacedHyphens]
  | cons c cs ih =>
    rw [spacedHyphens]
    split
    · rw [List.infix_cons_iff, List.infix_cons_iff, not_or, not_or]
      refine ⟨?_, ?_, ih⟩
      · simp
      · simp
    · rename_i hplain
      rw [List.infix_cons_iff, not_or]
      refine ⟨?_, ih⟩
      rintro ⟨rest, hrest⟩
      obtain ⟨rfl, htail⟩ := List.cons.inj hrest
      have hhead : cs.head? = some '-' := by
        rw [← head?_spacedHyphens, ← htail]
        rfl
      simp [hhead] at hplain

theorem mem_spacedHyphens {c : Char} {cs : List Char} (h : c ∈ spacedHyphens cs) :
    c = ' ' ∨ c ∈ cs := by
  induction cs with
  | nil => cases h
  | cons d ds ih =>
    rw [spacedHyphens] at h
    split at h
    · rename_i hhyphen
      rw [Bool.and_eq_true, decide_eq_true_iff] at hhyphen
      rw [List.mem_cons, List.mem_cons] at h
      obtain rfl | rfl | hrest := h
      · exact .inr (hhyphen.1 ▸ List.mem_cons_self)
      · exact .inl rfl
      · exact (ih hrest).imp_right (List.mem_cons_of_mem _)
    · obtain rfl | hrest := List.mem_cons.1 h
      · exact .inr List.mem_cons_self
      · exact (ih hrest).imp_right (List.mem_cons_of_mem _)

/-- No hyphen is left at the end. -/
theorem getLast?_spacedHyphens (cs : List Char) : (spacedHyphens cs).getLast? ≠ some '-' := by
  induction cs with
  | nil => exact nofun
  | cons c cs ih =>
    rw [spacedHyphens]
    split
    · cases hrest : spacedHyphens cs with
      | nil => decide
      | cons d ds =>
        rw [hrest] at ih
        simpa [List.getLast?_cons_cons] using ih
    · rename_i hplain
      cases cs with
      | nil =>
        rintro h
        obtain rfl : c = '-' := Option.some.inj h
        exact hplain rfl
      | cons d ds =>
        obtain ⟨e, es, hrest⟩ : ∃ e es, spacedHyphens (d :: ds) = e :: es := by
          rw [spacedHyphens]
          split <;> exact ⟨_, _, rfl⟩
        rw [hrest] at ih ⊢
        rwa [List.getLast?_cons_cons]

/-- A text without two hyphens side by side and without one at its end is left as it is. -/
theorem spacedHyphens_eq {cs : List Char} (hhyphens : ¬ "--".toList <:+: cs)
    (hend : cs.getLast? ≠ some '-') : spacedHyphens cs = cs := by
  induction cs with
  | nil => rfl
  | cons c cs ih =>
    rw [List.infix_cons_iff, not_or] at hhyphens
    have hplain : ¬ (c = '-' && (cs.isEmpty || cs.head? = some '-')) = true := by
      rw [Bool.and_eq_true, Bool.or_eq_true, decide_eq_true_iff, decide_eq_true_iff]
      rintro ⟨rfl, hempty | hhead⟩
      · obtain rfl := List.isEmpty_iff.1 hempty
        exact hend rfl
      · obtain ⟨rest, rfl⟩ := List.head?_eq_some_iff.1 hhead
        exact hhyphens.1 ⟨rest, rfl⟩
    have hlast : cs.getLast? ≠ some '-' := by
      cases cs with
      | nil => simp
      | cons d ds => simpa [List.getLast?_cons_cons] using hend
    rw [spacedHyphens, if_neg hplain, ih hhyphens.2 hlast]

/-! ## Instructions -/

/-- A text with a space in the middle of each mark that ends an instruction. -/
def partedMarks : List Char → List Char
  | [] => []
  | '?' :: '>' :: cs => '?' :: ' ' :: '>' :: partedMarks cs
  | c :: cs => c :: partedMarks cs

/-- Up to its first mark, a text is left as it is. -/
theorem partedMarks_append {before : List Char} (h : ¬ "?>".toList <:+: before)
    (rest : List Char) :
    partedMarks (before ++ '?' :: rest) = before ++ partedMarks ('?' :: rest) := by
  induction before with
  | nil => rfl
  | cons c cs ih =>
    rw [List.infix_cons_iff, not_or] at h
    rw [List.cons_append, partedMarks, ih h.2, List.cons_append]
    rintro more rfl htail
    cases cs with
    | nil => cases htail
    | cons d ds =>
      obtain ⟨rfl, -⟩ := List.cons.inj htail
      exact h.1 ⟨ds, rfl⟩

theorem partedMarks_of_markless {cs : List Char} (h : ¬ "?>".toList <:+: cs) :
    partedMarks cs = cs := by
  induction cs with
  | nil => rfl
  | cons c cs ih =>
    rw [List.infix_cons_iff, not_or] at h
    rw [partedMarks, ih h.2]
    rintro more rfl rfl
    exact h.1 ⟨more, rfl⟩

theorem spelled_piTextPieces (cs : List Char) : spelled (piTextPieces cs) = partedMarks cs := by
  induction cs using piTextPieces.induct with
  | case1 cs before after hcut ih =>
    have hcs : cs = before ++ '?' :: '>' :: after := by
      simpa using eq_append_of_cutAt? hcut
    have hbefore : ¬ "?>".toList <:+: before := not_infix_of_cutAt? (by decide) hcut
    rw [piTextPieces]
    split
    · rename_i hcut'
      obtain ⟨rfl, rfl⟩ := Prod.mk.inj (Option.some.inj (hcut.symm.trans hcut'))
      rw [hcs, partedMarks_append hbefore, partedMarks]
      simp [ih]
    · rename_i hcut'
      rw [hcut] at hcut'
      cases hcut'
  | case2 cs hcut =>
    rw [piTextPieces]
    split
    · rename_i hcut'
      rw [hcut] at hcut'
      cases hcut'
    · rw [partedMarks_of_markless (cutAt?_eq_none_iff.1 hcut)]
      simp

theorem head?_partedMarks (cs : List Char) : (partedMarks cs).head? = cs.head? := by
  unfold partedMarks
  split <;> rfl

/-- No mark that ends an instruction is left. -/
theorem not_infix_partedMarks (cs : List Char) : ¬ "?>".toList <:+: partedMarks cs := by
  have hmark : "?>".toList = ['?', '>'] := rfl
  rw [hmark]
  induction cs using partedMarks.induct with
  | case1 => simp [partedMarks]
  | case2 cs ih =>
    rw [partedMarks, List.infix_cons_iff, List.infix_cons_iff, List.infix_cons_iff, not_or, not_or,
      not_or]
    refine ⟨?_, ?_, ?_, ih⟩
    · simp
    · simp
    · simp
  | case3 c cs hplain ih =>
    rw [partedMarks.eq_3 _ _ hplain, List.infix_cons_iff, not_or]
    refine ⟨?_, ih⟩
    rintro ⟨rest, hrest⟩
    obtain ⟨rfl, htail⟩ := List.cons.inj hrest
    have hhead : cs.head? = some '>' := by
      rw [← head?_partedMarks, ← htail]
      rfl
    obtain ⟨more, rfl⟩ := List.head?_eq_some_iff.1 hhead
    exact hplain more rfl rfl

/-- No mark is left where the text begins after its spaces. -/
theorem not_infix_dropSpace_partedMarks (cs : List Char) :
    ¬ "?>".toList <:+: dropSpace (partedMarks cs) := fun h =>
  not_infix_partedMarks cs (h.trans (List.dropWhile_suffix isSpace).isInfix)

/-! ## Sections -/

/-- The texts of the sections that a text is written in: it is cut after the brackets of each
mark that would end one. -/
def cdataSections (cs : List Char) : List (List Char) :=
  match _h : cutAt? "]]>".toList cs with
  | some (before, after) => (before ++ "]]".toList) :: cdataSections ('>' :: after)
  | none => [cs]
termination_by cs.length
decreasing_by
  have := length_of_cutAt? _h
  simp at this ⊢
  omega

/-- The pieces of one section. -/
def sectionPieces (cs : List Char) : List String := ["<![CDATA[", String.ofList cs, "]]>"]

theorem spelled_sectionPieces (cs : List Char) :
    spelled (sectionPieces cs) = "<![CDATA[".toList ++ (cs ++ "]]>".toList) := by
  simp [sectionPieces]

theorem cdataSections_cut {cs before after : List Char}
    (h : cutAt? "]]>".toList cs = some (before, after)) :
    cdataSections cs = (before ++ "]]".toList) :: cdataSections ('>' :: after) := by
  rw [cdataSections]
  split
  · rename_i h'
    obtain ⟨rfl, rfl⟩ := Prod.mk.inj (Option.some.inj (h.symm.trans h'))
    rfl
  · rename_i h'
    rw [h] at h'
    cases h'

theorem cdataSections_of_markless {cs : List Char} (h : ¬ "]]>".toList <:+: cs) :
    cdataSections cs = [cs] := by
  rw [← cutAt?_eq_none_iff] at h
  rw [cdataSections]
  split
  · rename_i h'
    rw [h] at h'
    cases h'
  · rfl

theorem cdataPieces_cut {cs before after : List Char}
    (h : cutAt? "]]>".toList cs = some (before, after)) :
    cdataPieces cs = "<![CDATA[" :: String.ofList (before ++ "]]".toList) :: "]]>" ::
      cdataPieces ('>' :: after) := by
  rw [cdataPieces]
  split
  · rename_i h'
    obtain ⟨rfl, rfl⟩ := Prod.mk.inj (Option.some.inj (h.symm.trans h'))
    rfl
  · rename_i h'
    rw [h] at h'
    cases h'

theorem cdataPieces_of_markless {cs : List Char} (h : ¬ "]]>".toList <:+: cs) :
    cdataPieces cs = ["<![CDATA[", String.ofList cs, "]]>"] := by
  rw [← cutAt?_eq_none_iff] at h
  rw [cdataPieces]
  split
  · rename_i h'
    rw [h] at h'
    cases h'
  · rfl

/-- What is written for a text is one section after the other. -/
theorem cdataPieces_eq (cs : List Char) :
    cdataPieces cs = (cdataSections cs).flatMap sectionPieces := by
  induction cs using cdataSections.induct with
  | case1 cs before after hcut ih =>
    rw [cdataSections_cut hcut, cdataPieces_cut hcut, List.flatMap_cons, ← ih]
    rfl
  | case2 cs hcut =>
    have hnone := cutAt?_eq_none_iff.1 hcut
    rw [cdataSections_of_markless hnone, cdataPieces_of_markless hnone, List.flatMap_singleton]
    rfl

theorem cdataSections_ne_nil (cs : List Char) : cdataSections cs ≠ [] := by
  rw [cdataSections]
  split
  · exact List.cons_ne_nil _ _
  · exact List.cons_ne_nil _ _

/-- The sections are together the whole text. -/
theorem flatten_cdataSections (cs : List Char) : (cdataSections cs).flatten = cs := by
  induction cs using cdataSections.induct with
  | case1 cs before after hcut ih =>
    rw [cdataSections_cut hcut, List.flatten_cons, ih]
    simpa using (eq_append_of_cutAt? hcut).symm
  | case2 cs hcut =>
    rw [cdataSections_of_markless (cutAt?_eq_none_iff.1 hcut), List.flatten_singleton]

/-- No mark that ends a section is left in one. -/
theorem not_infix_of_mem_cdataSections {cs part : List Char} (h : part ∈ cdataSections cs) :
    ¬ "]]>".toList <:+: part := by
  induction cs using cdataSections.induct with
  | case1 cs before after hcut ih =>
    rw [cdataSections_cut hcut, List.mem_cons] at h
    obtain rfl | hrest := h
    · rw [← cutAt?_eq_none_iff]
      -- a mark in the first section would be the first one of the whole text as well
      cases hcut' : cutAt? "]]>".toList (before ++ "]]".toList) with
      | none => rfl
      | some found =>
        obtain ⟨before', after'⟩ := found
        have hinside := eq_append_of_cutAt? hcut'
        have hcs : cs = before' ++ ("]]>".toList ++ (after' ++ '>' :: after)) := by
          have htext : cs = before ++ "]]".toList ++ '>' :: after := by
            simpa using eq_append_of_cutAt? hcut
          rw [htext, hinside]
          simp
        rw [hcs, cutAt?_append _ (by decide) (not_infix_of_cutAt? (by decide) hcut')] at hcut
        obtain ⟨rfl, -⟩ := Prod.mk.inj (Option.some.inj hcut)
        have hlength := congrArg List.length hinside
        simp at hlength
    · exact ih hrest
  | case2 cs hcut =>
    rw [cdataSections_of_markless (cutAt?_eq_none_iff.1 hcut), List.mem_singleton] at h
    subst h
    exact cutAt?_eq_none_iff.1 hcut

/-! ## Line ends -/

theorem return_not_mem_unifyLineEnds (cs : List Char) : '\r' ∉ unifyLineEnds cs := by
  induction cs using unifyLineEnds.induct with
  | case1 => simp [unifyLineEnds]
  | case2 cs ih => simp [unifyLineEnds, ih]
  | case3 cs hplain ih => simp [unifyLineEnds.eq_3 _ hplain, ih]
  | case4 c cs hpair hreturn ih =>
    rw [unifyLineEnds.eq_4 _ _ hpair hreturn, List.mem_cons, not_or]
    exact ⟨fun hc => hreturn hc.symm, ih⟩

theorem unifyLineEnds_eq_iff {cs : List Char} : unifyLineEnds cs = cs ↔ '\r' ∉ cs :=
  ⟨fun h => h ▸ return_not_mem_unifyLineEnds cs, unifyLineEnds_of_not_mem⟩

/-- A mark without the first character of a text is at its front only if it is empty. -/
theorem prefix_cons_iff_of_not_mem {mark : List Char} {d : Char} (hd : d ∉ mark) (cs : List Char) :
    mark <+: d :: cs ↔ mark = [] := by
  cases mark with
  | nil => simp
  | cons m ms =>
    rw [List.mem_cons, not_or] at hd
    simp [List.cons_prefix_cons, Ne.symm hd.1]

/-- A mark without a line feed does not come about where line ends are unified. -/
theorem prefix_of_prefix_unifyLineEnds {mark cs : List Char} (hmark : '\n' ∉ mark)
    (h : mark <+: unifyLineEnds cs) : mark <+: cs := by
  induction cs using unifyLineEnds.induct generalizing mark with
  | case1 => exact h
  | case2 cs _ =>
    rw [unifyLineEnds, prefix_cons_iff_of_not_mem hmark] at h
    rw [h]
    exact List.nil_prefix
  | case3 cs hplain _ =>
    rw [unifyLineEnds.eq_3 _ hplain, prefix_cons_iff_of_not_mem hmark] at h
    rw [h]
    exact List.nil_prefix
  | case4 c cs hpair hreturn ih =>
    rw [unifyLineEnds.eq_4 _ _ hpair hreturn] at h
    cases mark with
    | nil => exact List.nil_prefix
    | cons m ms =>
      obtain ⟨rfl, hrest⟩ := List.cons_prefix_cons.1 h
      exact List.cons_prefix_cons.2 ⟨rfl, ih (fun hm => hmark (List.mem_cons_of_mem _ hm)) hrest⟩

theorem infix_of_infix_unifyLineEnds {mark cs : List Char} (hmark : '\n' ∉ mark)
    (h : mark <:+: unifyLineEnds cs) : mark <:+: cs := by
  induction cs using unifyLineEnds.induct with
  | case1 => exact h
  | case2 cs ih =>
    rw [unifyLineEnds, List.infix_cons_iff, prefix_cons_iff_of_not_mem hmark] at h
    obtain rfl | hrest := h
    · exact List.nil_infix
    · exact List.infix_cons (List.infix_cons (ih hrest))
  | case3 cs hplain ih =>
    rw [unifyLineEnds.eq_3 _ hplain, List.infix_cons_iff, prefix_cons_iff_of_not_mem hmark] at h
    obtain rfl | hrest := h
    · exact List.nil_infix
    · exact List.infix_cons (ih hrest)
  | case4 c cs hpair hreturn ih =>
    rw [unifyLineEnds.eq_4 _ _ hpair hreturn, List.infix_cons_iff] at h
    obtain hprefix | hrest := h
    · rw [← unifyLineEnds.eq_4 _ _ hpair hreturn] at hprefix
      exact (prefix_of_prefix_unifyLineEnds hmark hprefix).isInfix
    · exact List.infix_cons (ih hrest)

/-- Line ends are unified on both sides of a place that no line end goes across. -/
theorem unifyLineEnds_append (a : List Char) {b : List Char} (h : b.head? ≠ some '\n') :
    unifyLineEnds (a ++ b) = unifyLineEnds a ++ unifyLineEnds b := by
  induction a using unifyLineEnds.induct with
  | case1 => rfl
  | case2 cs ih => simp [unifyLineEnds, ih]
  | case3 cs hplain ih =>
    have hnext : ∀ more, cs ++ b = '\n' :: more → False := by
      intro more hmore
      cases cs with
      | nil => exact h (by rw [show b = '\n' :: more from hmore]; rfl)
      | cons d ds =>
        obtain ⟨rfl, -⟩ := List.cons.inj hmore
        exact hplain ds rfl
    rw [List.cons_append, unifyLineEnds.eq_3 _ hnext, unifyLineEnds.eq_3 _ hplain, ih,
      List.cons_append]
  | case4 c cs hpair hreturn ih =>
    rw [List.cons_append, unifyLineEnds.eq_4 _ _ (fun more hc _ => hreturn hc) hreturn,
      unifyLineEnds.eq_4 _ _ hpair hreturn, ih, List.cons_append]

/-- The line ends of a text are unified section by section. -/
theorem flatMap_cdataSections (cs : List Char) :
    (cdataSections cs).flatMap unifyLineEnds = unifyLineEnds cs := by
  induction cs using cdataSections.induct with
  | case1 cs before after hcut ih =>
    have hcs : cs = before ++ "]]".toList ++ '>' :: after := by
      simpa using eq_append_of_cutAt? hcut
    rw [cdataSections_cut hcut, List.flatMap_cons, ih, hcs]
    exact (unifyLineEnds_append _ (by simp)).symm
  | case2 cs hcut =>
    rw [cdataSections_of_markless (cutAt?_eq_none_iff.1 hcut), List.flatMap_singleton]

variable {style : MarkupStyle}

theorem head?_escaped (hskip : style.has .skipControlChars = false) {cs : List Char}
    (h : (escaped style .pcdata cs).head? = some '\n') : cs.head? = some '\n' := by
  cases cs with
  | nil => cases h
  | cons c cs =>
    rw [escaped, List.flatMap_cons, escapedChar] at h
    split at h
    · rename_i hc
      obtain ⟨hself, -⟩ | ⟨body, hbody, -⟩ := spelled_escapePieces hskip hc
      · rw [hself] at h
        exact h
      · rw [hbody] at h
        cases h
    · exact h

/-- Unifying line ends and escaping do not get in each other's way. -/
theorem unifyLineEnds_escaped (hskip : style.has .skipControlChars = false) (cs : List Char) :
    unifyLineEnds (escaped style .pcdata cs) = escaped style .pcdata (unifyLineEnds cs) := by
  have hreturn : escapedChar style .pcdata '\r' = ['\r'] := rfl
  have hfeed : escapedChar style .pcdata '\n' = ['\n'] := rfl
  induction cs using unifyLineEnds.induct with
  | case1 => rfl
  | case2 cs ih =>
    rw [escaped, List.flatMap_cons, List.flatMap_cons, hreturn, hfeed, unifyLineEnds, escaped,
      List.flatMap_cons, hfeed]
    exact congrArg ('\n' :: ·) ih
  | case3 cs hplain ih =>
    have hnext : ∀ more, escaped style .pcdata cs = '\n' :: more → False := by
      intro more hmore
      obtain ⟨rest, rfl⟩ := List.head?_eq_some_iff.1 (head?_escaped hskip (by rw [hmore]; rfl))
      exact hplain rest rfl
    rw [unifyLineEnds.eq_3 _ hplain, escaped, List.flatMap_cons, hreturn, escaped,
      List.flatMap_cons, hfeed]
    exact (unifyLineEnds.eq_3 _ hnext).trans (congrArg ('\n' :: ·) ih)
  | case4 c cs hpair hreturn' ih =>
    have hclean : '\r' ∉ escapedChar style .pcdata c := by
      have hnone := return_not_mem_escaped hskip .pcdata
        (show '\r' ∉ [c] by simpa using fun h => hreturn' h.symm)
      simpa [escaped] using hnone
    rw [unifyLineEnds.eq_4 _ _ hpair hreturn', escaped, List.flatMap_cons, escaped,
      List.flatMap_cons, unifyLineEnds_append_of_not_mem hclean]
    exact congrArg (escapedChar style .pcdata c ++ ·) ih

/-- Character data is read back with its line ends unified, whatever it is. -/
theorem text_convertPcdata_escaped {options : ParseOptions}
    (hescapes : options.contains .escapes = true) (heol : options.contains .eol = true)
    (htrim : options.contains .trimPcdata = false)
    (hskip : style.has .skipControlChars = false) (cs : List Char) :
    (convertPcdata options (escaped style .pcdata cs)).text = unifyLineEnds cs := by
  have hlines := unifyLineEnds_escaped hskip cs
  have hdecode := decodeReferences_escaped hskip .pcdata (unifyLineEnds cs)
  rw [← hlines] at hdecode
  generalize escaped style .pcdata cs = written at hdecode ⊢
  simp only [convertPcdata, hescapes, heol, htrim, Bool.true_and, Bool.false_eq_true, if_false,
    if_true]
  split
  · exact hdecode
  · rename_i htouched
    rw [Bool.or_eq_true, not_or, List.contains_iff_mem, List.contains_iff_mem] at htouched
    rw [unifyLineEnds_of_not_mem htouched.2, decodeReferences_of_not_mem htouched.1] at hdecode
    exact hdecode

end XmlTree
