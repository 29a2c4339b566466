/-
  Proofs/Recognition.lean --- what is read without a fault is a manuscript.

  WHAT THIS FILE IS FOR.  A reader walks from left to right and keeps the names of the open
  elements.  Each of its steps takes off the front of the text exactly what the grammar
  gives for one construct, for a document type, for the start of an element or for its end.
  So when it comes to the end of the text without a fault, the whole text is content with
  document types between it.

  WHAT IS STILL OPEN.  In the middle of a text the grammar has no derivation yet: for each
  open element, the innermost first, the text owes the rest of its content and its end tag.
  This is `Owed`, and the reader is followed from the end of the text backwards.
-/
import XmlTree.Load.Reader
import XmlTree.Proofs.Doctypes
import XmlTree.Proofs.Events

set_option autoImplicit false

namespace XmlTree

/-! ## What a cursor has taken off -/

namespace Cursor

variable {c next : Cursor}

/-- What is taken has the property, and what comes next has not. -/
theorem split_takeWhile (c : Cursor) (p : Char → Bool) :
    (∀ d ∈ (c.takeWhile p).1.text, p d = true) ∧
      c.rest = (c.takeWhile p).1.text ++ (c.takeWhile p).2.rest ∧
      (c.takeWhile p).2.rest.head?.all (fun d => !p d) = true := by
  have hrest : (c.takeWhile p).2.rest = c.rest.dropWhile p := by
    have hdrop : (c.rest.takeWhile p ++ c.rest.dropWhile p).drop (c.rest.takeWhile p).length =
        c.rest.dropWhile p := List.drop_left
    rwa [List.takeWhile_append_dropWhile] at hdrop
  refine ⟨fun d hd => List.mem_takeWhile_imp hd, ?_, ?_⟩
  · rw [hrest]
    exact List.takeWhile_append_dropWhile.symm
  · rw [hrest]
    have hhead := List.head?_dropWhile_not p c.rest
    cases hd : (c.rest.dropWhile p).head? with
    | none => rfl
    | some d =>
      rw [hd] at hhead
      simpa using hhead

/-- What is skipped is white space, and none is left in front. -/
theorem exists_blank (c : Cursor) :
    ∃ space, Blank space ∧ c.rest = space ++ c.skipSpace.rest ∧
      c.skipSpace.rest.head?.all (fun d => !isSpace d) = true :=
  ⟨_, c.split_takeWhile isSpace⟩

theorem exists_name {name : Span} (h : c.name? = some (name, next)) :
    ∃ word, IsName word ∧ name.text = word.toList ∧ c.rest = word.toList ++ next.rest := by
  unfold name? at h
  split at h
  · rename_i first more hrest
    split at h
    · rename_i hfirst
      obtain ⟨hall, hsplit, -⟩ := c.split_takeWhile isNameChar
      obtain ⟨rfl, rfl⟩ := Prod.mk.inj (Option.some.inj h)
      have hword : (c.takeWhile isNameChar).1.text = first :: more.takeWhile isNameChar := by
        show c.rest.takeWhile isNameChar = _
        rw [hrest, List.takeWhile_cons, if_pos (isNameChar_of_isNameStart hfirst)]
      refine ⟨String.ofList (c.takeWhile isNameChar).1.text, ?_, ?_, ?_⟩
      · rw [isName_iff, String.toList_ofList]
        exact ⟨_, _, hword, hfirst, hall⟩
      · exact String.toList_ofList.symm
      · rwa [String.toList_ofList]
    · cases h
  · cases h

theorem eq_of_upTo? {mark : List Char} {before : Span} (hmark : mark ≠ [])
    (h : c.upTo? mark = some (before, next)) :
    ¬ mark <:+: before.text ∧ c.rest = before.text ++ (mark ++ next.rest) := by
  obtain ⟨⟨b, a⟩, hcut, heq⟩ := Option.map_eq_some_iff.1 h
  cases heq
  exact ⟨not_infix_of_cutAt? hmark hcut, by rw [eq_append_of_cutAt? hcut, List.append_assoc]⟩

theorem rest_skip_one {d : Char} (h : c.rest.head? = some d) : c.rest = d :: (c.skip 1).rest := by
  obtain ⟨cs, hcs⟩ := List.head?_eq_some_iff.1 h
  rw [skip, hcs]
  rfl

end Cursor

namespace Reader

variable {c next : Cursor} {names names' : List (List Char)} {es : List LoadEvent}

/-! ## Attributes -/

/-- What was read as an attribute is one, and no name follows at once. -/
theorem exists_attribute {e : LoadEvent} (h : readAttribute c = .next e next) :
    ∃ a spelling, RawAttribute.SpelledBy a spelling ∧ c.rest = spelling ++ next.rest ∧
      next.rest.head?.any isNameStart = false := by
  unfold readAttribute at h
  split at h
  · cases h
  · rename_i name afterName hname
    obtain ⟨word, hword, -, hrest⟩ := Cursor.exists_name hname
    obtain ⟨before, hbefore, hrestBefore, -⟩ := afterName.exists_blank
    simp only at h
    split at h
    · rename_i hequals
      have hrestEquals := Cursor.rest_skip_one hequals
      obtain ⟨after, hafter, hrestAfter, -⟩ := (afterName.skipSpace.skip 1).exists_blank
      split at h
      · rename_i quote more hquote
        split at h
        · rename_i hquotes
          split at h
          · rename_i raw last hup
            split at h
            · cases h
            · rename_i hnext
              cases h
              obtain ⟨hmark, hrestRaw⟩ := Cursor.eq_of_upTo? (List.cons_ne_nil _ _) hup
              rw [List.singleton_infix_iff] at hmark
              have hrestQuote := Cursor.rest_skip_one (congrArg List.head? hquote)
              refine ⟨_, _, .mk hword hbefore hafter (by simpa using hquotes) hmark, ?_,
                by simpa using hnext⟩
              rw [hrest, hrestBefore, hrestEquals, hrestAfter, hrestQuote, hrestRaw]
              simp
          · cases h
        · cases h
      · cases h
    · cases h

/-- The last two characters of a tag. -/
theorem rest_closeTag {d : Char} {tail : List Char} {closes empty : Bool} {status : LoadStatus}
    (h : closeTag c closes status = .closed es empty next) (hrest : c.rest = d :: tail) :
    c.rest = d :: '>' :: next.rest ∧ empty = closes := by
  have hfirst := Cursor.rest_skip_one (congrArg List.head? hrest)
  simp only [closeTag] at h
  split at h
  · rename_i hlast
    cases h
    rw [hfirst, Cursor.rest_skip_one hlast]
    exact ⟨rfl, rfl⟩
  · cases h

/-- What was read as attributes, up to the end of the tag. -/
theorem exists_attributes {inDeclaration empty : Bool}
    (h : readAttributes inDeclaration c = .closed es empty next)
    (hstart : c.rest.head?.any isNameStart = false) :
    ∃ as spelling close, AttributesSpelledBy as spelling ∧ TagEnd inDeclaration close empty ∧
      c.rest = spelling ++ (close ++ next.rest) := by
  fun_induction readAttributes inDeclaration c generalizing es with
  | case1 => cases h
  | case2 c here d tail hrest hname e after hread =>
    rename_i ih
    obtain ⟨a, body, hbody, hrestBody, hafter⟩ := exists_attribute hread
    obtain ⟨space, hspace, hrestSpace, -⟩ := c.exists_blank
    have hapart : space ≠ [] := by
      rintro rfl
      rw [hrestSpace, List.nil_append, hrest] at hstart
      simp [hname] at hstart
    cases hmore : readAttributes inDeclaration after with
    | fault more status offset =>
      rw [hmore] at h
      cases h
    | closed more empty' next' =>
      rw [hmore] at h
      cases h
      obtain ⟨as, spelling, close, has, hclose, hrestAfter⟩ := ih hmore hafter
      refine ⟨a :: as, _, close, .cons hspace hapart hbody has, hclose, ?_⟩
      rw [hrestSpace, hrestBody, hrestAfter]
      simp
  | case3 => cases h
  | case4 c here status d tail hrest =>
    rename_i hslash
    obtain ⟨space, hspace, hrestSpace, -⟩ := c.exists_blank
    obtain ⟨rfl, rfl⟩ : d = '/' ∧ inDeclaration = false := by simpa using hslash
    obtain ⟨hend, rfl⟩ := rest_closeTag h hrest
    exact ⟨[], space, _, .nil hspace, .empty, by rw [hrestSpace, hend]; rfl⟩
  | case5 c here d tail hrest =>
    rename_i hgreater
    obtain ⟨space, hspace, hrestSpace, -⟩ := c.exists_blank
    obtain ⟨rfl, rfl⟩ : d = '>' ∧ inDeclaration = false := by simpa using hgreater
    cases h
    have hend := Cursor.rest_skip_one (congrArg List.head? hrest)
    exact ⟨[], space, _, .nil hspace, .opening, by rw [hrestSpace, hend]; rfl⟩
  | case6 c here status d tail hrest =>
    rename_i hquestion
    obtain ⟨space, hspace, hrestSpace, -⟩ := c.exists_blank
    obtain ⟨rfl, rfl⟩ : d = '?' ∧ inDeclaration = true := by simpa using hquestion
    obtain ⟨hend, rfl⟩ := rest_closeTag h hrest
    exact ⟨[], space, _, .nil hspace, .declaration, by rw [hrestSpace, hend]; rfl⟩
  | case7 => cases h

/-! ## Constructs -/

/-- What was read as the start of an element: it is empty, or it is left open. -/
theorem exists_startTag (h : readStartTag names c = .next es names' next) :
    ∃ name as spelling, IsName name ∧ AttributesSpelledBy as spelling ∧
      ((names' = names ∧ c.rest = name.toList ++ (spelling ++ ("/>".toList ++ next.rest))) ∨
        (names' = name.toList :: names ∧
          c.rest = name.toList ++ (spelling ++ '>' :: next.rest))) := by
  have hnone : AttributesSpelledBy [] [] := .nil (List.forall_mem_nil _)
  unfold readStartTag at h
  split at h
  · cases h
  · rename_i name after hname
    obtain ⟨word, hword, htext, hrest⟩ := Cursor.exists_name hname
    simp only at h
    split at h
    · cases h
    · rename_i d tail hafter
      have hfirst := Cursor.rest_skip_one (congrArg List.head? hafter)
      split at h
      · rename_i hgreater
        cases h
        refine ⟨word, [], [], hword, hnone, .inr ⟨by rw [htext], ?_⟩⟩
        rw [hrest, hfirst, hgreater]
        rfl
      · split at h
        · split at h
          · rename_i hslash hgreater
            cases h
            refine ⟨word, [], [], hword, hnone, .inl ⟨rfl, ?_⟩⟩
            rw [hrest, hfirst, hslash, Cursor.rest_skip_one hgreater]
            rfl
          · cases h
        · split at h
          · rename_i hspace
            have hstart : after.rest.head?.any isNameStart = false := by
              rw [hafter]
              exact isNameStart_of_isSpace hspace
            split at h
            · rename_i hattributes
              cases h
              obtain ⟨as, spelling, close, has, hclose, hrestAfter⟩ :=
                exists_attributes hattributes hstart
              cases hclose
              exact ⟨word, as, spelling, hword, has, .inl ⟨rfl, by rw [hrest, hrestAfter]; rfl⟩⟩
            · rename_i hattributes
              cases h
              obtain ⟨as, spelling, close, has, hclose, hrestAfter⟩ :=
                exists_attributes hattributes hstart
              cases hclose
              exact ⟨word, as, spelling, hword, has,
                .inr ⟨by rw [htext], by rw [hrest, hrestAfter]; rfl⟩⟩
            · cases h
          · cases h

/-- What was read as the end of an element: its name is that of the innermost one. -/
theorem exists_endTag (h : readEndTag names c = .next es names' next) :
    ∃ name space, names = name :: names' ∧ Blank space ∧
      c.rest = name ++ (space ++ '>' :: next.rest) := by
  unfold readEndTag at h
  split at h
  · cases h
  · rename_i expected outer
    have hsplit : c.rest = (c.name?.getD (⟨c.offset, []⟩, c)).1.text ++
        (c.name?.getD (⟨c.offset, []⟩, c)).2.rest := by
      cases hname : c.name? with
      | none => rfl
      | some found =>
        obtain ⟨word, -, htext, hrest⟩ := Cursor.exists_name (c := c) hname
        rw [hrest, Option.getD_some, htext]
    simp only at h
    split at h
    · rename_i hexpected
      split at h
      · rename_i hgreater
        cases h
        obtain ⟨space, hspace, hrestSpace, -⟩ :=
          (c.name?.getD (⟨c.offset, []⟩, c)).2.exists_blank
        refine ⟨expected, space, rfl, hspace, ?_⟩
        rw [← Cursor.rest_skip_one hgreater, ← hrestSpace, ← hexpected]
        exact hsplit
      · cases h
    · split at h <;> cases h

theorem exists_instruction {target : Span}
    (h : readInstruction names target c = .next es names' next) :
    names' = names ∧ (c.rest = "?>".toList ++ next.rest ∨
      ∃ space value, Blank space ∧ space ≠ [] ∧
        value.head?.all (fun d => !isSpace d) = true ∧ ¬ "?>".toList <:+: value ∧
        c.rest = space ++ (value ++ ("?>".toList ++ next.rest))) := by
  unfold readInstruction at h
  simp only at h
  split at h
  · cases h
  · rename_i d tail hrest
    have hfirst := Cursor.rest_skip_one (congrArg List.head? hrest)
    split at h
    · rename_i hquestion
      split at h
      · rename_i hgreater
        cases h
        refine ⟨rfl, .inl ?_⟩
        rw [hfirst, hquestion, Cursor.rest_skip_one hgreater]
        rfl
      · cases h
    · split at h
      · rename_i hspace
        split at h
        · rename_i value after hup
          cases h
          obtain ⟨space, hblank, hrestSpace, hhead⟩ := c.exists_blank
          obtain ⟨hmark, hrestValue⟩ := Cursor.eq_of_upTo? (by decide) hup
          refine ⟨rfl, .inr ⟨space, value.text, hblank, ?_, ?_, hmark, ?_⟩⟩
          · rintro rfl
            rw [List.nil_append] at hrestSpace
            rw [← hrestSpace, hrest] at hhead
            simp [hspace] at hhead
          · rw [hrestValue] at hhead
            cases htext : value.text with
            | nil => rfl
            | cons e more => simpa [htext] using hhead
          · rw [← hrestValue, ← hrestSpace]
        · cases h
      · cases h

theorem exists_declaration {target : Span}
    (h : readDeclaration names target c = .next es names' next) :
    names' = names ∧ ∃ as spelling, AttributesSpelledBy as spelling ∧
      c.rest = spelling ++ ("?>".toList ++ next.rest) := by
  unfold readDeclaration at h
  simp only at h
  split at h
  · cases h
  · rename_i d tail hrest
    have hfirst := Cursor.rest_skip_one (congrArg List.head? hrest)
    split at h
    · rename_i hquestion
      split at h
      · rename_i hgreater
        cases h
        refine ⟨rfl, [], [], .nil (List.forall_mem_nil _), ?_⟩
        rw [hfirst, hquestion, Cursor.rest_skip_one hgreater]
        rfl
      · cases h
    · split at h
      · rename_i hspace
        have hstart : c.rest.head?.any isNameStart = false := by
          rw [hrest]
          exact isNameStart_of_isSpace hspace
        split at h
        · rename_i hattributes
          cases h
          obtain ⟨as, spelling, close, has, hclose, hrestAfter⟩ :=
            exists_attributes hattributes hstart
          cases hclose
          exact ⟨rfl, as, spelling, has, hrestAfter⟩
        · cases h
      · cases h

/-- A construct without content of its own was read. -/
def Takes (atTop : Bool) (text rest : List Char) : Prop :=
  ∃ item spelling, Construct.LeafSpelledBy atTop item spelling ∧ text = spelling ++ rest

/-- What was read after `<?` is an instruction, or a declaration at the top. -/
theorem takes_question {mode : ReaderMode} (hoptions : mode.options.KeepsMarkup)
    (h : readQuestion mode names c = .next es names' next) :
    names' = names ∧ Takes (mode.belowDocument && names.isEmpty) ('<' :: '?' :: c.rest)
      next.rest := by
  unfold readQuestion at h
  split at h
  · cases h
  · rename_i target after hname
    obtain ⟨word, hword, htext, hrest⟩ := Cursor.exists_name hname
    rw [htext] at h
    cases hxml : eqIgnoringCase word.toList "xml".toList with
    | true =>
      simp only [hxml, if_true, hoptions.declaration, Bool.not_true, Bool.false_eq_true,
        if_false] at h
      split at h
      · rename_i htop
        obtain ⟨rfl, as, spelling, has, hrestAfter⟩ := exists_declaration h
        refine ⟨rfl, _, _, .declaration htop hword hxml has, ?_⟩
        rw [hrest, hrestAfter]
        simp
      · cases h
    | false =>
      simp only [hxml, Bool.false_eq_true, if_false, hoptions.pi, Bool.not_true] at h
      obtain ⟨rfl, hrestAfter | ⟨space, value, hblank, hapart, htrimmed, hmark, hrestAfter⟩⟩ :=
        exists_instruction h
      · refine ⟨rfl, _, _, .bare hword hxml, ?_⟩
        rw [hrest, hrestAfter]
        simp
      · refine ⟨rfl, _, _, .pi hword hxml hblank hapart htrimmed hmark, ?_⟩
        rw [hrest, hrestAfter]
        simp

theorem exists_delimited {mark : List Char} {wanted : Bool} {event : Span → LoadEvent}
    {status : LoadStatus} (hmark : mark ≠ [])
    (h : readDelimited names c mark wanted event status = .next es names' next) :
    names' = names ∧ ∃ raw, ¬ mark <:+: raw ∧ c.rest = raw ++ (mark ++ next.rest) := by
  unfold readDelimited at h
  split at h
  · rename_i raw after hup
    cases h
    exact ⟨rfl, raw.text, Cursor.eq_of_upTo? hmark hup⟩
  · cases h

theorem rest_skip_of_beginsWith {mark : List Char} (h : beginsWith mark c.rest = true) :
    c.rest = mark ++ (c.skip mark.length).rest := by
  obtain ⟨rest, hrest⟩ := Option.isSome_iff_exists.1 h
  have hsplit := dropMark?_eq_some_iff.1 hrest
  rw [Cursor.skip, hsplit]
  simp

/-- A document type was read. -/
def TakesDoctype (text rest : List Char) : Prop :=
  ∃ space body, Blank space ∧ body.head?.all (fun d => !isSpace d) = true ∧ StandsInDoctype body ∧
    text = "<!DOCTYPE".toList ++ (space ++ (body ++ '>' :: rest))

/-- What was read after `<!DOCTYPE` ends where the document type ends. -/
theorem exists_doctype {mode : ReaderMode} (hkeyword : beginsWith "DOCTYPE".toList c.rest = true)
    (h : readDoctype mode names c = .next es names' next) :
    names' = names ∧ (mode.belowDocument && names.isEmpty) = true ∧
      TakesDoctype ('<' :: '!' :: c.rest) next.rest := by
  have hrest := rest_skip_of_beginsWith hkeyword
  unfold readDoctype at h
  simp only at h
  split at h
  · rename_i htop
    split at h
    · rename_i tail hend
      have hlength : "DOCTYPE".toList.length = "DOCTYPE".length := rfl
      rw [hlength] at hrest
      obtain ⟨raw, rest, rfl, hraw, hstands⟩ := scansTo_of_doctypeEnd? hend
      have htake : (c.skip "DOCTYPE".length).rest.take
          ((c.skip "DOCTYPE".length).rest.length - ('>' :: rest).length) = raw := by
        rw [hraw, List.length_append, Nat.add_sub_cancel, List.take_left]
      simp only [htake] at h
      cases h
      refine ⟨rfl, htop, raw.takeWhile isSpace, raw.dropWhile isSpace,
        fun d hd => List.mem_takeWhile_imp hd, ?_, ?_, ?_⟩
      · have hhead := List.head?_dropWhile_not isSpace raw
        cases hd : (raw.dropWhile isSpace).head? with
        | none => rfl
        | some d =>
          rw [hd] at hhead
          simpa using hhead
      · have hblank : Blank (raw.takeWhile isSpace) := fun d hd => List.mem_takeWhile_imp hd
        rw [← standsInDoctype_blank hblank, List.takeWhile_append_dropWhile]
        exact hstands
      · have hnext : ((c.skip "DOCTYPE".length).skip (raw.length + 1)).rest = rest := by
          rw [Cursor.skip]
          show (c.skip "DOCTYPE".length).rest.drop (raw.length + 1) = rest
          rw [hraw, ← List.drop_drop, List.drop_left]
          rfl
        rw [hnext, ← List.append_assoc (raw.takeWhile isSpace), List.takeWhile_append_dropWhile,
          ← hraw, hrest]
        rfl
    · cases h
  · cases h

/-- What was read after `<!` is a comment, a section, or a document type at the top. -/
theorem takes_exclamation {mode : ReaderMode}
    (h : readExclamation mode names c = .next es names' next) :
    names' = names ∧ (Takes (mode.belowDocument && names.isEmpty) ('<' :: '!' :: c.rest) next.rest ∨
      (mode.belowDocument && names.isEmpty) = true ∧
        TakesDoctype ('<' :: '!' :: c.rest) next.rest) := by
  unfold readExclamation at h
  split at h
  · rename_i hcomment
    obtain ⟨rfl, raw, hraw, hrest⟩ := exists_delimited (by decide) h
    refine ⟨rfl, .inl ⟨_, _, .comment hraw, ?_⟩⟩
    rw [rest_skip_of_beginsWith hcomment, show "--".toList.length = 2 from rfl, hrest]
    simp
  · split at h
    · rename_i hcdata
      obtain ⟨rfl, raw, hraw, hrest⟩ := exists_delimited (by decide) h
      refine ⟨rfl, .inl ⟨_, _, .cdata hraw, ?_⟩⟩
      rw [rest_skip_of_beginsWith hcdata, show "[CDATA[".toList.length = 7 from rfl, hrest]
      simp
    · split at h
      · rename_i hkeyword
        obtain ⟨rfl, htakes⟩ := exists_doctype hkeyword h
        exact ⟨rfl, .inr htakes⟩
      · split at h
        · cases h
        · split at h <;> cases h

/-! ## One step -/

/-- What one step of the reader takes off the front of a text: a construct without content of
its own, a document type, the start of an element, or the end of the innermost one. -/
inductive Step (belowDocument : Bool) :
    List (List Char) → List Char → List (List Char) → List Char → Prop where
  | leaf {names : List (List Char)} {text rest : List Char}
      (takes : Takes (belowDocument && names.isEmpty) text rest) :
      Step belowDocument names text names rest
  | doctype {names : List (List Char)} {text rest : List Char}
      (top : (belowDocument && names.isEmpty) = true) (takes : TakesDoctype text rest) :
      Step belowDocument names text names rest
  | opens {names : List (List Char)} {name : String} {as : List RawAttribute}
      {spelling rest : List Char} (named : IsName name)
      (attributes : AttributesSpelledBy as spelling) :
      Step belowDocument names ('<' :: (name.toList ++ (spelling ++ '>' :: rest)))
        (name.toList :: names) rest
  | closes {names : List (List Char)} {name space rest : List Char} (blank : Blank space) :
      Step belowDocument (name :: names) ("</".toList ++ (name ++ (space ++ '>' :: rest)))
        names rest

variable {belowDocument : Bool} {text rest : List Char}

/-- A step was made if there was no fault. -/
theorem step_of_readMarkup {mode : ReaderMode} (hoptions : mode.options.KeepsMarkup)
    (h : readMarkup mode names c = .next es names' next) :
    Step mode.belowDocument names ('<' :: c.rest) names' next.rest := by
  unfold readMarkup at h
  split at h
  · cases h
  · rename_i d tail hrest
    have hfirst := Cursor.rest_skip_one (congrArg List.head? hrest)
    split at h
    · obtain ⟨name, as, spelling, hname, has, ⟨rfl, hafter⟩ | ⟨rfl, hafter⟩⟩ := exists_startTag h
      · refine .leaf ⟨_, _, .empty hname has, ?_⟩
        rw [hafter]
        simp
      · rw [hafter]
        exact .opens hname has
    · split at h
      · rename_i hslash
        obtain ⟨name, space, rfl, hblank, hafter⟩ := exists_endTag h
        rw [hfirst, hslash, hafter]
        exact .closes hblank
      · split at h
        · rename_i hquestion
          obtain ⟨rfl, htakes⟩ := takes_question hoptions h
          rw [hfirst, hquestion]
          exact .leaf htakes
        · split at h
          · rename_i hexclamation
            obtain ⟨rfl, htakes | ⟨htop, htakes⟩⟩ := takes_exclamation h
            · rw [hfirst, hexclamation]
              exact .leaf htakes
            · rw [hfirst, hexclamation]
              exact .doctype htop htakes
          · cases h

/-! ## Faults are told apart from success -/

section Faults

variable {status : LoadStatus} {offset : Nat}

theorem status_of_closeTag {closes : Bool} {wanted : LoadStatus}
    (h : closeTag c closes wanted = .fault es status offset) : status = wanted := by
  simp only [closeTag] at h
  split at h <;> cases h
  rfl

theorem status_of_readAttributes {inDeclaration : Bool}
    (h : readAttributes inDeclaration c = .fault es status offset) : status ≠ .ok := by
  have hstatus : (if inDeclaration then LoadStatus.badPi else .badStartElement) ≠ .ok := by
    cases inDeclaration <;> decide
  fun_induction readAttributes inDeclaration c generalizing es with
  | case2 c here d tail hrest hname e after hread =>
    rename_i ih
    cases hmore : readAttributes inDeclaration after with
    | closed more empty next =>
      rw [hmore] at h
      cases h
    | fault more status' offset' =>
      rw [hmore] at h
      cases h
      exact ih hmore
  | case3 =>
    cases h
    decide
  | case5 => cases h
  | case4 | case6 =>
    rw [status_of_closeTag h]
    exact hstatus
  | case1 | case7 =>
    obtain ⟨-, rfl, -⟩ := AttributesOutcome.fault.inj h
    exact hstatus

theorem status_of_readStartTag (h : readStartTag names c = .fault es status offset) :
    status ≠ .ok := by
  unfold readStartTag at h
  simp only at h
  repeat' split at h
  all_goals cases h
  any_goals decide
  rename_i hattributes
  exact status_of_readAttributes hattributes

theorem status_of_readEndTag (h : readEndTag names c = .fault es status offset) :
    status ≠ .ok := by
  unfold readEndTag at h
  simp only at h
  repeat' split at h
  all_goals cases h
  all_goals decide

theorem status_of_readInstruction {target : Span}
    (h : readInstruction names target c = .fault es status offset) : status ≠ .ok := by
  unfold readInstruction at h
  simp only at h
  repeat' split at h
  all_goals cases h
  all_goals decide

theorem status_of_readDeclaration {target : Span}
    (h : readDeclaration names target c = .fault es status offset) : status ≠ .ok := by
  unfold readDeclaration at h
  simp only at h
  repeat' split at h
  all_goals cases h
  any_goals decide
  rename_i hattributes
  exact status_of_readAttributes hattributes

theorem status_of_readQuestion {mode : ReaderMode}
    (h : readQuestion mode names c = .fault es status offset) : status ≠ .ok := by
  unfold readQuestion at h
  split at h
  · cases h
    decide
  · rename_i target after _
    cases hxml : eqIgnoringCase target.text "xml".toList <;>
      simp only [hxml, Bool.false_eq_true, if_false, if_true] at h
    · split at h
      · split at h <;> cases h
        decide
      · exact status_of_readInstruction h
    · split at h
      · split at h <;> cases h
        decide
      · split at h
        · exact status_of_readDeclaration h
        · cases h
          decide

theorem status_of_readExclamation {mode : ReaderMode}
    (h : readExclamation mode names c = .fault es status offset) : status ≠ .ok := by
  unfold readExclamation readDelimited readDoctype at h
  simp only at h
  repeat' split at h
  all_goals cases h
  all_goals decide

/-- A fault is never reported as a success. -/
theorem status_of_readMarkup {mode : ReaderMode}
    (h : readMarkup mode names c = .fault es status offset) : status ≠ .ok := by
  unfold readMarkup at h
  split at h
  · cases h
    decide
  · split at h
    · exact status_of_readStartTag h
    · split at h
      · exact status_of_readEndTag h
      · split at h
        · exact status_of_readQuestion h
        · split at h
          · exact status_of_readExclamation h
          · cases h
            decide

theorem status_of_readAll {mode : ReaderMode} {fault : LoadFault}
    (h : (readAll mode names c).fault = some fault) : fault.status ≠ .ok := by
  fun_induction readAll mode names c with
  | case1 =>
    simp only at h
    split at h <;> cases h
    exact LoadStatus.noConfusion
  | case2 names c raw tag _ d tail htag es' names' next hread =>
    rename_i ih
    exact ih h
  | case3 names c raw tag _ d tail htag es' status offset hread =>
    cases h
    exact status_of_readMarkup hread

end Faults

/-! ## Whole texts -/

/-- What a text owes when some elements are open: the rest of the content of each of them,
the innermost first, with its end tag, and what follows at the top. -/
inductive Owed (belowDocument : Bool) : List (List Char) → List Char → Prop where
  | done {m : Manuscript} {text : List Char} (spelled : m.SpelledBy belowDocument text) :
      Owed belowDocument [] text
  | inside {name : List Char} {outer : List (List Char)} {items : List Construct}
      {text space rest : List Char} (content : Content false items text) (blank : Blank space)
      (more : Owed belowDocument outer rest) :
      Owed belowDocument (name :: outer)
        (text ++ ("</".toList ++ (name ++ (space ++ '>' :: rest))))

namespace Owed

theorem exists_content {name : List Char} {outer : List (List Char)}
    (h : Owed belowDocument (name :: outer) text) :
    ∃ items inner space rest, Content false items inner ∧ Blank space ∧
      Owed belowDocument outer rest ∧
      text = inner ++ ("</".toList ++ (name ++ (space ++ '>' :: rest))) := by
  cases h with
  | inside hcontent hblank hmore => exact ⟨_, _, _, _, hcontent, hblank, hmore, rfl⟩

/-- More content goes in front of what is owed. -/
theorem prepend (h : Owed belowDocument names rest) {spelling : List Char}
    (hmore : ∀ {items text}, Content (belowDocument && names.isEmpty) items text →
      ∃ items', Content (belowDocument && names.isEmpty) items' (spelling ++ text)) :
    Owed belowDocument names (spelling ++ rest) := by
  cases h with
  | done hspelled =>
    simp only [List.isEmpty_nil, Bool.and_true] at hmore
    obtain ⟨m', hspelled'⟩ := hspelled.prepend hmore
    exact .done hspelled'
  | inside hcontent hblank houter =>
    simp only [List.isEmpty_cons, Bool.and_false] at hmore
    obtain ⟨items', hcontent'⟩ := hmore hcontent
    rw [← List.append_assoc]
    exact .inside hcontent' hblank houter

end Owed

/-- What is owed before a step is what the step takes and what is owed after it. -/
theorem Step.owed (h : Step belowDocument names text names' rest)
    (howed : Owed belowDocument names' rest) : Owed belowDocument names text := by
  cases h with
  | leaf htakes =>
    obtain ⟨item, spelling, hitem, rfl⟩ := htakes
    exact howed.prepend fun hcontent => ⟨_, .leaf hitem hcontent⟩
  | doctype htop htakes =>
    obtain ⟨space, body, hblank, htrimmed, hstands, rfl⟩ := htakes
    rw [Bool.and_eq_true, List.isEmpty_iff] at htop
    obtain ⟨rfl, rfl⟩ := htop
    obtain ⟨hspelled⟩ := howed
    exact .done (.typed rfl .nil hblank htrimmed hstands hspelled)
  | @opens _ name _ spelling _ hname has =>
    obtain ⟨items, inner, space, after, hcontent, hblank, houter, rfl⟩ := howed.exists_content
    have hsplit : '<' :: (name.toList ++ (spelling ++ '>' :: (inner ++ ("</".toList ++
        (name.toList ++ (space ++ '>' :: after)))))) = '<' :: (name.toList ++ (spelling ++
          '>' :: (inner ++ ("</".toList ++ (name.toList ++ (space ++ ['>'])))))) ++ after := by
      simp
    rw [hsplit]
    refine houter.prepend fun hmore => ?_
    have helement := Content.element hname has hcontent hblank hmore
    exact ⟨_, by simpa using helement⟩
  | closes hblank => exact .inside .nil hblank howed

/-- Characters before a tag are character data. -/
theorem Owed.run (h : Owed belowDocument names rest) {raw : List Char} (hraw : '<' ∉ raw) :
    Owed belowDocument names (raw ++ rest) := by
  cases raw with
  | nil => exact h
  | cons d raw =>
    exact h.prepend fun hcontent => ⟨_, .leaf (.run (List.cons_ne_nil _ _) hraw) hcontent⟩

/-- What is left of a text is owed, if it is read to its end without a fault. -/
theorem owed_of_readAll {mode : ReaderMode} (hoptions : mode.options.KeepsMarkup)
    (h : (readAll mode names c).fault = none) : Owed mode.belowDocument names c.rest := by
  have hsplit : ∀ c : Cursor, '<' ∉ (c.takeWhile (· != '<')).1.text ∧
      c.rest = (c.takeWhile (· != '<')).1.text ++ (c.takeWhile (· != '<')).2.rest ∧
      ∀ d tail, (c.takeWhile (· != '<')).2.rest = d :: tail → d = '<' := by
    intro c
    obtain ⟨hall, hrest, hhead⟩ := c.split_takeWhile (· != '<')
    refine ⟨fun hmem => absurd (hall _ hmem) (by decide), hrest, fun d tail heq => ?_⟩
    rw [heq] at hhead
    simpa using hhead
  fun_induction readAll mode names c with
  | case1 names c raw tag _ hend =>
    obtain ⟨htagless, hrest, -⟩ := hsplit c
    have hnames : names = [] := by
      by_contra hne
      simp [hne] at h
    rw [hrest, show (c.takeWhile (· != '<')).2.rest = [] from hend, hnames]
    exact .run (.done (.last .nil)) htagless
  | case2 names c raw tag _ d tail htag es' names' next hread =>
    rename_i ih
    obtain ⟨htagless, hrest, hhead⟩ := hsplit c
    have hafter : tag.rest = '<' :: (tag.skip 1).rest :=
      Cursor.rest_skip_one (by rw [htag, hhead d tail htag]; rfl)
    have hstep := step_of_readMarkup hoptions hread
    rw [hrest, show (c.takeWhile (· != '<')).2.rest = _ from hafter]
    exact (hstep.owed (ih h)).run htagless
  | case3 => cases h

end Reader

end XmlTree
