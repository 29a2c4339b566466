/-
  Proofs/Omitting.lean --- a construct that is passed over ends where it was read to.

  WHAT THIS FILE IS FOR.  Instructions, comments, CDATA sections and document types have a
  switch each.  What is not asked for takes another way through the reader, which looks for
  its end and nothing else.  If a text is read to its end with some of these switches set, it
  is read to its end without them, and all that is missing are the events of such constructs.

  WHY THE WAYS MEET.  An instruction that is read ends at the first `?>` after its target, for
  what is skipped in front of its value is white space, which cannot begin that mark.  The
  other three are delimited before it is asked whether they are wanted.

  ONE WAY ONLY.  An instruction that is passed over may be malformed after its target, so a
  text that is read without a switch need not be read with it.
-/
import XmlTree.Proofs.Constructs
import XmlTree.Proofs.Recognition
import XmlTree.Proofs.Reading
import XmlTree.Proofs.Resuming

set_option autoImplicit false

namespace XmlTree

/-! ## Switches -/

namespace ParseOptions

variable {options cleared flag : ParseOptions} {i : Nat}

/-- The switches for nodes that a tree of elements and texts can do without. -/
def nodeKinds : ParseOptions := ((pi.union comments).union cdata).union doctype

/-- Whether nodes of a kind are made no longer when switches are cleared. -/
def drops (cleared : ParseOptions) : NodeKind → Bool
  | .pi => cleared.contains .pi
  | .comment => cleared.contains .comments
  | .cdata => cleared.contains .cdata
  | .doctype => cleared.contains .doctype
  | _ => false

/-- A single switch is one bit of a mask. -/
theorem contains_flag (h : flag.bits.toNat = 2 ^ i) :
    options.contains flag = options.bits.toNat.testBit i := by
  have hand : (options.bits &&& flag.bits).toNat =
      (options.bits.toNat.testBit i).toNat * 2 ^ i := by
    rw [UInt32.toNat_and, h, Nat.and_two_pow]
  rw [contains, Bool.eq_iff_iff, beq_iff_eq, ← UInt32.toNat_inj, hand, h]
  cases options.bits.toNat.testBit i with
  | false =>
    have hpos : 0 < 2 ^ i := Nat.two_pow_pos i
    simp
    omega
  | true => simp

/-- A switch is left if it was set and is not cleared. -/
theorem contains_without (h : flag.bits.toNat = 2 ^ i) :
    (options.without cleared).contains flag =
      (options.contains flag && !cleared.contains flag) := by
  have hi : i < 32 := (Nat.pow_lt_pow_iff_right Nat.one_lt_two).1 (h ▸ flag.bits.toNat_lt)
  have hnot : (~~~cleared.bits).toNat.testBit i = !cleared.bits.toNat.testBit i := by
    rw [UInt32.toNat_not, UInt32.size, Nat.sub_sub, Nat.add_comm 1]
    rw [Nat.testBit_two_pow_sub_succ cleared.bits.toNat_lt, decide_eq_true hi, Bool.true_and]
  rw [contains_flag h, contains_flag h, contains_flag h, without, UInt32.toNat_and,
    Nat.testBit_and, hnot]

/-- Switches that are not for such nodes stay as they are. -/
theorem contains_without_other (hcleared : nodeKinds.contains cleared = true)
    (h : flag.bits.toNat = 2 ^ i) (hother : nodeKinds.contains flag = false) :
    (options.without cleared).contains flag = options.contains flag := by
  have hnone : cleared.contains flag = false := by
    rw [contains_flag h] at hother ⊢
    have hall : nodeKinds.bits &&& cleared.bits = cleared.bits := beq_iff_eq.1 hcleared
    rw [← hall, UInt32.toNat_and, Nat.testBit_and, hother, Bool.false_and]
  rw [contains_without h, hnone, Bool.not_false, Bool.and_true]

end ParseOptions

namespace LoadEvent

/-- The kind of the node that an event stands for, if it stands for one. -/
def nodeKind? : LoadEvent → Option NodeKind
  | .text _ _ => some .pcdata
  | .openElement _ => some .element
  | .closeElement | .attribute _ _ => none
  | .comment _ => some .comment
  | .cdata _ => some .cdata
  | .pi _ _ => some .pi
  | .declaration _ => some .declaration
  | .doctype _ => some .doctype

/-- Whether an event is still given when switches are cleared. -/
def stays (cleared : ParseOptions) (e : LoadEvent) : Bool := !e.nodeKind?.any cleared.drops

end LoadEvent

namespace Cursor

variable {c next : Cursor} {before : Span}

/-- White space in front of a mark does not change where the mark is found. -/
theorem exists_upTo?_of_skipSpace {d : Char} {mark : List Char} (hd : isSpace d = false)
    (h : c.skipSpace.upTo? (d :: mark) = some (before, next)) :
    ∃ whole, c.upTo? (d :: mark) = some (whole, next) := by
  have hcut : ∀ space rest before after, Blank space →
      cutAt? (d :: mark) rest = some (before, after) →
      cutAt? (d :: mark) (space ++ rest) = some (space ++ before, after) := by
    intro space rest before after hblank hrest
    induction space with
    | nil => exact hrest
    | cons e space ih =>
      obtain ⟨he, hspace⟩ := List.forall_mem_cons.1 hblank
      have hne : d ≠ e := by
        rintro rfl
        rw [hd] at he
        cases he
      have hnone : dropMark? (d :: mark) (e :: (space ++ rest)) = none := by
        rw [dropMark?_eq_none_iff]
        exact fun hprefix => hne (List.cons_prefix_cons.1 hprefix).1
      rw [List.cons_append, cutAt?, hnone]
      simp only [ih hspace, Option.map_some, List.cons_append]
  let space := c.rest.takeWhile isSpace
  let rest := c.rest.dropWhile isSpace
  have hblank : Blank space := fun e he => List.mem_takeWhile_imp he
  have hsplit : c.rest = space ++ rest := List.takeWhile_append_dropWhile.symm
  have hskip : c.skipSpace = ⟨c.offset + byteSize space, rest⟩ := by
    have hspace := skip_append c.offset space rest
    rwa [← hsplit] at hspace
  rw [hskip] at h
  obtain ⟨⟨b, after⟩, hmark, heq⟩ := Option.map_eq_some_iff.1 h
  cases heq
  refine ⟨⟨c.offset, space ++ b⟩, ?_⟩
  rw [upTo?, hsplit, hcut space rest b after hblank hmark]
  simp only [Option.map_some, byteSize_append, Nat.add_assoc]

end Cursor

/-- A mode with switches cleared. -/
def ReaderMode.without (mode : ReaderMode) (cleared : ParseOptions) : ReaderMode :=
  { mode with options := mode.options.without cleared }

namespace Reader

variable {mode : ReaderMode} {cleared : ParseOptions} {c next : Cursor}
  {names names' : List (List Char)} {es : List LoadEvent}

/-! ## Elements and declarations -/

theorem stays_of_allAttributes (h : AllAttributes es) : ∀ e ∈ es, e.stays cleared = true := by
  intro e he
  obtain ⟨name, raw, rfl⟩ := h e he
  rfl

/-- The events of attributes that were read to the end of their tag. -/
theorem stays_of_readAttributes {inDeclaration empty : Bool}
    (h : readAttributes inDeclaration c = .closed es empty next) :
    ∀ e ∈ es, e.stays cleared = true := by
  have hall := readAttributes_events inDeclaration c
  rw [h] at hall
  exact stays_of_allAttributes hall

theorem stays_of_readStartTag (h : readStartTag names c = .next es names' next) :
    ∀ e ∈ es, e.stays cleared = true := by
  unfold readStartTag at h
  split at h
  · cases h
  · rename_i name after hname
    have hopen : (LoadEvent.openElement name).stays cleared = true := rfl
    have hclose : LoadEvent.closeElement.stays cleared = true := rfl
    simp only at h
    split at h
    · cases h
    · split at h
      · cases h
        exact List.forall_mem_singleton.2 hopen
      · split at h
        · split at h
          · cases h
            exact List.forall_mem_cons.2 ⟨hopen, List.forall_mem_singleton.2 hclose⟩
          · cases h
        · split at h
          · split at h
            · rename_i hattributes
              cases h
              exact List.forall_mem_cons.2 ⟨hopen, List.forall_mem_append.2
                ⟨stays_of_readAttributes hattributes, List.forall_mem_singleton.2 hclose⟩⟩
            · rename_i hattributes
              cases h
              exact List.forall_mem_cons.2 ⟨hopen, stays_of_readAttributes hattributes⟩
            · cases h
          · cases h

theorem stays_of_readEndTag (h : readEndTag names c = .next es names' next) :
    ∀ e ∈ es, e.stays cleared = true := by
  unfold readEndTag at h
  split at h
  · cases h
  · simp only at h
    split at h
    · split at h
      · cases h
        exact List.forall_mem_singleton.2 rfl
      · cases h
    · split at h <;> cases h

theorem stays_of_readDeclaration {target : Span}
    (h : readDeclaration names target c = .next es names' next) :
    ∀ e ∈ es, e.stays cleared = true := by
  have hbare : (LoadEvent.declaration target).stays cleared = true := rfl
  unfold readDeclaration at h
  simp only at h
  split at h
  · cases h
  · split at h
    · split at h
      · cases h
        exact List.forall_mem_singleton.2 hbare
      · cases h
    · split at h
      · split at h
        · rename_i hattributes
          cases h
          exact List.forall_mem_cons.2 ⟨hbare, stays_of_readAttributes hattributes⟩
        · cases h
      · cases h

/-! ## Instructions -/

/-- An instruction that was read ends where the search for its end finds it. -/
theorem exists_upTo?_of_readInstruction {target : Span}
    (h : readInstruction names target c = .next es names' next) :
    names' = names ∧ (∃ value, es = [.pi target value]) ∧
      ∃ raw, c.upTo? "?>".toList = some (raw, next) := by
  unfold readInstruction at h
  simp only at h
  split at h
  · cases h
  · rename_i d tail hrest
    split at h
    · rename_i hquestion
      split at h
      · rename_i hgreater
        cases h
        obtain ⟨offset, text⟩ := c
        obtain rfl : text = d :: tail := hrest
        rw [Cursor.skip_one] at hgreater ⊢
        obtain ⟨rest, rfl⟩ : ∃ rest, tail = '>' :: rest := List.head?_eq_some_iff.1 hgreater
        have hup : Cursor.upTo? ⟨offset, [] ++ ("?>".toList ++ rest)⟩ "?>".toList = _ :=
          Cursor.upTo?_append (by decide) (by decide)
        rw [Cursor.skip_one, hquestion]
        exact ⟨rfl, ⟨none, rfl⟩, _, hup⟩
      · cases h
    · split at h
      · split at h
        · rename_i value after hup
          cases h
          exact ⟨rfl, ⟨some value, rfl⟩, Cursor.exists_upTo?_of_skipSpace (by decide) hup⟩
        · cases h
      · cases h

theorem readQuestion_without (hcleared : ParseOptions.nodeKinds.contains cleared = true)
    (h : readQuestion mode names c = .next es names' next) :
    readQuestion (mode.without cleared) names c =
      .next (es.filter (LoadEvent.stays cleared)) names' next := by
  have hdeclaration : (mode.options.without cleared).contains .declaration =
      mode.options.contains .declaration :=
    ParseOptions.contains_without_other hcleared (i := 8) rfl rfl
  have hpi : (mode.options.without cleared).contains .pi =
      (mode.options.contains .pi && !cleared.contains .pi) :=
    ParseOptions.contains_without (i := 0) rfl
  unfold readQuestion at h ⊢
  split at h
  · cases h
  · rename_i target after hname
    simp only [ReaderMode.without]
    cases hxml : eqIgnoringCase target.text "xml".toList with
    | true =>
      simp only [hxml, if_true, hdeclaration] at h ⊢
      have hstays : ∀ e ∈ es, e.stays cleared = true := by
        split at h
        · split at h
          · cases h
            exact List.forall_mem_nil _
          · cases h
        · split at h
          · exact stays_of_readDeclaration h
          · cases h
      rw [List.filter_eq_self.2 hstays]
      exact h
    | false =>
      simp only [hxml, Bool.false_eq_true, if_false, hpi] at h ⊢
      cases hwanted : mode.options.contains .pi with
      | false =>
        simp only [hwanted, Bool.not_false, if_true, Bool.false_and] at h ⊢
        split at h
        · cases h
          rfl
        · cases h
      | true =>
        simp only [hwanted, Bool.not_true, Bool.false_eq_true, if_false, Bool.true_and] at h ⊢
        obtain ⟨rfl, ⟨value, rfl⟩, raw, hup⟩ := exists_upTo?_of_readInstruction h
        cases hdropped : cleared.contains .pi with
        | false =>
          have hstays : (LoadEvent.pi target value).stays cleared = true := by
            simp only [LoadEvent.stays, LoadEvent.nodeKind?, Option.any_some, ParseOptions.drops,
              hdropped, Bool.not_false]
          rw [List.filter_cons_of_pos hstays]
          exact h
        | true =>
          have hgone : ¬ (LoadEvent.pi target value).stays cleared = true := by
            simp only [LoadEvent.stays, LoadEvent.nodeKind?, Option.any_some, ParseOptions.drops,
              hdropped, Bool.not_true, Bool.false_eq_true, not_false_eq_true]
          rw [List.filter_cons_of_neg hgone]
          simp only [Bool.not_true, Bool.not_false, if_true, hup]
          rfl

/-! ## Comments, CDATA sections, document types -/

/-- A construct with two marks is read to the second one, whether it is wanted or not. -/
theorem readDelimited_without {mark : List Char} {wanted dropped : Bool}
    {event : Span → LoadEvent} {status : LoadStatus}
    (hstays : ∀ raw, (event raw).stays cleared = !dropped)
    (h : readDelimited names c mark wanted event status = .next es names' next) :
    readDelimited names c mark (wanted && !dropped) event status =
      .next (es.filter (LoadEvent.stays cleared)) names' next := by
  unfold readDelimited at h ⊢
  split at h
  · rename_i raw after hup
    cases h
    cases wanted <;> cases dropped <;> simp [hstays]
  · cases h

theorem readDoctype_without
    (h : readDoctype mode names c = .next es names' next) :
    readDoctype (mode.without cleared) names c =
      .next (es.filter (LoadEvent.stays cleared)) names' next := by
  have hdoctype : (mode.options.without cleared).contains .doctype =
      (mode.options.contains .doctype && !cleared.contains .doctype) :=
    ParseOptions.contains_without (i := 9) rfl
  have hstays : ∀ body, (LoadEvent.doctype body).stays cleared = !cleared.contains .doctype :=
    fun _ => rfl
  unfold readDoctype at h ⊢
  simp only at h ⊢
  split at h
  · rename_i htop
    rw [if_pos (show ((mode.without cleared).belowDocument && names.isEmpty) = true from htop)]
    split at h
    · rename_i tail hend
      cases h
      show ReadOutcome.next
        (if (mode.options.without cleared).contains .doctype then _ else _) _ _ = _
      rw [hdoctype]
      cases mode.options.contains .doctype <;> cases hdropped : cleared.contains .doctype <;>
        simp [hstays, hdropped]
    · cases h
  · cases h

theorem readExclamation_without
    (h : readExclamation mode names c = .next es names' next) :
    readExclamation (mode.without cleared) names c =
      .next (es.filter (LoadEvent.stays cleared)) names' next := by
  have hcomments : (mode.options.without cleared).contains .comments =
      (mode.options.contains .comments && !cleared.contains .comments) :=
    ParseOptions.contains_without (i := 1) rfl
  have hcdata : (mode.options.without cleared).contains .cdata =
      (mode.options.contains .cdata && !cleared.contains .cdata) :=
    ParseOptions.contains_without (i := 2) rfl
  unfold readExclamation at h ⊢
  split at h
  · rename_i hcomment
    rw [if_pos hcomment]
    show readDelimited _ _ _ ((mode.options.without cleared).contains .comments) _ _ = _
    rw [hcomments]
    exact readDelimited_without (fun _ => rfl) h
  · rename_i hcomment
    rw [if_neg hcomment]
    split at h
    · rename_i hsection
      rw [if_pos hsection]
      show readDelimited _ _ _ ((mode.options.without cleared).contains .cdata) _ _ = _
      rw [hcdata]
      exact readDelimited_without (fun _ => rfl) h
    · rename_i hsection
      rw [if_neg hsection]
      split at h
      · rename_i hkeyword
        rw [if_pos hkeyword]
        exact readDoctype_without h
      · split at h
        · cases h
        · split at h <;> cases h

/-! ## Whole texts -/

/-- One construct ends where it ended, and gives the events that are left of it. -/
theorem readMarkup_without (hcleared : ParseOptions.nodeKinds.contains cleared = true)
    (h : readMarkup mode names c = .next es names' next) :
    readMarkup (mode.without cleared) names c =
      .next (es.filter (LoadEvent.stays cleared)) names' next := by
  unfold readMarkup at h ⊢
  split at h
  · cases h
  · rename_i d tail hrest
    split at h
    · rename_i hname
      rw [if_pos hname, List.filter_eq_self.2 (stays_of_readStartTag h)]
      exact h
    · rename_i hname
      rw [if_neg hname]
      split at h
      · rename_i hslash
        rw [if_pos hslash, List.filter_eq_self.2 (stays_of_readEndTag h)]
        exact h
      · rename_i hslash
        rw [if_neg hslash]
        split at h
        · rename_i hquestion
          rw [if_pos hquestion]
          exact readQuestion_without hcleared h
        · rename_i hquestion
          rw [if_neg hquestion]
          split at h
          · rename_i hexclamation
            rw [if_pos hexclamation]
            exact readExclamation_without h
          · cases h

/-- A text that is read without a fault is read without one when switches for nodes are
cleared, and all other events are as they were. -/
theorem readAll_without (hcleared : ParseOptions.nodeKinds.contains cleared = true)
    (h : (readAll mode names c).fault = none) :
    readAll (mode.without cleared) names c =
      ⟨(readAll mode names c).events.filter (LoadEvent.stays cleared), none⟩ := by
  have htext : ∀ (raw : Span) (closing : Bool),
      (textEvents raw closing).filter (LoadEvent.stays cleared) = textEvents raw closing := by
    intro raw closing
    unfold textEvents
    split <;> rfl
  induction names, c using readAll.induct mode with
  | case1 names c tag hend =>
    have hend : (c.takeWhile (· != '<')).2.rest = [] := hend
    rw [readAll_step] at h ⊢
    rw [readAll_step mode]
    simp only [hend, htext] at h ⊢
    rw [h]
  | case2 names c tag d tail htag es names' next hread ih =>
    have htag : (c.takeWhile (· != '<')).2.rest = d :: tail := htag
    have hread : readMarkup mode names ((c.takeWhile (· != '<')).2.skip 1) = .next es names' next :=
      hread
    rw [readAll_step] at h ⊢
    rw [readAll_step mode]
    simp only [htag, hread, readMarkup_without hcleared hread, Transcript.after] at h ⊢
    rw [ih h, List.filter_append, List.filter_append, htext]
  | case3 names c tag d tail htag es status offset hread =>
    have htag : (c.takeWhile (· != '<')).2.rest = d :: tail := htag
    have hread : readMarkup mode names ((c.takeWhile (· != '<')).2.skip 1) =
      .fault es status offset := hread
    rw [readAll_step] at h
    simp only [htag, hread] at h
    cases h

end Reader

theorem Transcript.ofText_without {mode : ReaderMode} {cleared : ParseOptions}
    (hcleared : ParseOptions.nodeKinds.contains cleared = true) {text : List Char}
    {es : List LoadEvent} (h : Transcript.ofText mode text = ⟨es, none⟩) :
    Transcript.ofText (mode.without cleared) text =
      ⟨es.filter (LoadEvent.stays cleared), none⟩ := by
  have hevents : (Reader.readAll mode [] (.ofText text)).events = es :=
    congrArg Transcript.events h
  rw [← hevents]
  exact Reader.readAll_without hcleared (congrArg Transcript.fault h)

end XmlTree
