/-
  Proofs/Asking.lean --- what is read is there, and was asked for.

  WHAT THIS FILE IS FOR.  Switches tell which kinds of nodes are wanted, and what is not wanted is
  passed over.  What the reader takes for a name has a first character, and so has what it takes
  for character data.  Here both are shown once for all readers, also for the events before a
  fault.
-/
import XmlTree.Proofs.Reading

set_option autoImplicit false

namespace XmlTree

theorem Cursor.name?_ne_nil {c next : Cursor} {name : Span} (h : c.name? = some (name, next)) :
    name.text ≠ [] := by
  unfold Cursor.name? at h
  split at h
  · rename_i first more hrest
    split at h
    · rename_i hfirst
      obtain ⟨rfl, -⟩ := Prod.mk.inj (Option.some.inj h)
      simp [hrest, isNameChar_of_isNameStart hfirst]
    · cases h
  · cases h

/-- Markup says what is there, and what was asked for: names have characters, and a node that can
be done without is wanted. -/
def LoadEvent.Markup (options : ParseOptions) : LoadEvent → Prop
  | .text _ _ => False
  | .openElement name | .attribute name _ => name.text ≠ []
  | .closeElement => True
  | .comment _ => options.contains .comments = true
  | .cdata _ => options.contains .cdata = true
  | .pi name _ => name.text ≠ [] ∧ options.contains .pi = true
  | .declaration name => name.text ≠ [] ∧ options.contains .declaration = true
  | .doctype _ => options.contains .doctype = true

/-- What an event says is there, and was asked for; there is character data only if it has
characters. -/
def LoadEvent.Said (options : ParseOptions) : LoadEvent → Prop
  | .text raw _ => raw.text ≠ []
  | e => e.Markup options

/-- All events are markup that is there and was asked for. -/
def AllMarkup (options : ParseOptions) (es : List LoadEvent) : Prop := ∀ e ∈ es, e.Markup options

/-- What all events say is there, and was asked for. -/
def AllSaid (options : ParseOptions) (es : List LoadEvent) : Prop := ∀ e ∈ es, e.Said options

section

variable {options : ParseOptions} {e : LoadEvent} {es es' : List LoadEvent}

theorem allMarkup_nil : AllMarkup options [] := List.forall_mem_nil _

theorem AllMarkup.cons (he : e.Markup options) (hes : AllMarkup options es) :
    AllMarkup options (e :: es) := List.forall_mem_cons.2 ⟨he, hes⟩

theorem allMarkup_one (he : e.Markup options) : AllMarkup options [e] := .cons he allMarkup_nil

theorem AllMarkup.append (hes : AllMarkup options es) (hes' : AllMarkup options es') :
    AllMarkup options (es ++ es') := List.forall_mem_append.2 ⟨hes, hes'⟩

theorem AllMarkup.said (h : AllMarkup options es) : AllSaid options es := by
  intro e he
  have hmarkup := h e he
  cases e with
  | text raw closing => exact hmarkup.elim
  | _ => exact hmarkup

theorem allMarkup_of_wanted {wanted : Bool} (he : wanted = true → e.Markup options) :
    AllMarkup options (if wanted then [e] else []) := by
  cases wanted with
  | true => exact allMarkup_one (he rfl)
  | false => exact allMarkup_nil

end

/-- The events of an outcome, whether it is a fault or not. -/
def ReadOutcome.events : ReadOutcome → List LoadEvent
  | next es _ _ => es
  | fault es _ _ => es

namespace Reader

variable {mode : ReaderMode} {options : ParseOptions} {names : List (List Char)} {c : Cursor}

theorem readAttribute_markup (c : Cursor) : AllMarkup options (readAttribute c).events := by
  unfold readAttribute
  split
  · exact allMarkup_nil
  · rename_i name after hname
    have hone : ∀ raw, AllMarkup options [.attribute name raw] := fun raw =>
      allMarkup_one (Cursor.name?_ne_nil hname)
    dsimp only
    repeat' split
    all_goals exact hone _

theorem readAttributes_markup (inDeclaration : Bool) (c : Cursor) :
    AllMarkup options (readAttributes inDeclaration c).events := by
  fun_induction readAttributes inDeclaration c with
  | case1 => exact allMarkup_nil
  | case2 c here ch tail hrest hname e next hread ih =>
    have hattribute : AllMarkup options (readAttribute here).events := readAttribute_markup here
    rw [hread] at hattribute
    rw [events_after]
    exact .cons (hattribute e (by simp [AttributeOutcome.events])) ih
  | case3 c here ch tail hrest hname es offset hread =>
    have hattribute : AllMarkup options (readAttribute here).events := readAttribute_markup here
    rwa [hread] at hattribute
  | case4 => rw [events_closeTag]; exact allMarkup_nil
  | case5 => exact allMarkup_nil
  | case6 => rw [events_closeTag]; exact allMarkup_nil
  | case7 => exact allMarkup_nil

theorem readStartTag_markup : AllMarkup options (readStartTag names c).events := by
  unfold readStartTag
  split
  · exact allMarkup_nil
  · rename_i name after hname
    have hname : (LoadEvent.openElement name).Markup options := Cursor.name?_ne_nil hname
    have hone : AllMarkup options [.openElement name] := allMarkup_one hname
    have hread : AllMarkup options (readAttributes false after).events :=
      readAttributes_markup false after
    dsimp only
    split
    · exact hone
    · split
      · exact hone
      · split
        · split
          · exact .cons hname (allMarkup_one trivial)
          · exact hone
        · split
          · split
            · rename_i heq
              rw [heq] at hread
              exact .cons hname (hread.append (allMarkup_one trivial))
            · rename_i heq
              rw [heq] at hread
              exact .cons hname hread
            · rename_i heq
              rw [heq] at hread
              exact .cons hname hread
          · exact hone

theorem readEndTag_markup : AllMarkup options (readEndTag names c).events := by
  unfold readEndTag
  split
  · exact allMarkup_nil
  · dsimp only
    split
    · split
      · exact allMarkup_one trivial
      · exact allMarkup_nil
    · split
      · exact allMarkup_nil
      · exact allMarkup_nil

theorem readInstruction_markup {target : Span} (htarget : target.text ≠ [])
    (hwanted : options.contains .pi = true) :
    AllMarkup options (readInstruction names target c).events := by
  have hone : ∀ value, AllMarkup options [.pi target value] := fun _ =>
    allMarkup_one ⟨htarget, hwanted⟩
  unfold readInstruction
  dsimp only
  repeat' split
  all_goals exact hone _

theorem readDeclaration_markup {target : Span} (htarget : target.text ≠ [])
    (hwanted : options.contains .declaration = true) :
    AllMarkup options (readDeclaration names target c).events := by
  have hdeclaration : (LoadEvent.declaration target).Markup options := ⟨htarget, hwanted⟩
  have hread : AllMarkup options (readAttributes true c).events := readAttributes_markup true c
  unfold readDeclaration
  dsimp only
  split
  · exact allMarkup_one hdeclaration
  · split
    · split
      · exact allMarkup_one hdeclaration
      · exact allMarkup_one hdeclaration
    · split
      · split
        · rename_i heq
          rw [heq] at hread
          exact .cons hdeclaration hread
        · rename_i heq
          rw [heq] at hread
          exact .cons hdeclaration hread
      · exact allMarkup_one hdeclaration

theorem readQuestion_markup : AllMarkup mode.options (readQuestion mode names c).events := by
  unfold readQuestion
  split
  · exact allMarkup_nil
  · rename_i target after hname
    have htarget := Cursor.name?_ne_nil hname
    cases hxml : eqIgnoringCase target.text "xml".toList with
    | true =>
      cases hwanted : mode.options.contains .declaration with
      | true =>
        simp only [hwanted, Bool.not_true, Bool.false_eq_true, if_true, if_false]
        split
        · exact readDeclaration_markup htarget hwanted
        · exact allMarkup_nil
      | false =>
        simp only [hwanted, Bool.not_false, if_true]
        split
        · exact allMarkup_nil
        · exact allMarkup_nil
    | false =>
      cases hwanted : mode.options.contains .pi with
      | true =>
        simp only [hwanted, Bool.not_true, Bool.false_eq_true, if_false]
        exact readInstruction_markup htarget hwanted
      | false =>
        simp only [hwanted, Bool.not_false, Bool.false_eq_true, if_true, if_false]
        split
        · exact allMarkup_nil
        · exact allMarkup_nil

theorem readDelimited_markup {mark : List Char} {wanted : Bool} {event : Span → LoadEvent}
    {status : LoadStatus} (hevent : wanted = true → ∀ raw, (event raw).Markup options) :
    AllMarkup options (readDelimited names c mark wanted event status).events := by
  unfold readDelimited
  split
  · exact allMarkup_of_wanted fun hwanted => hevent hwanted _
  · exact allMarkup_nil

theorem readDoctype_markup : AllMarkup mode.options (readDoctype mode names c).events := by
  unfold readDoctype
  split
  · dsimp only
    split
    · exact allMarkup_of_wanted fun hwanted => hwanted
    · exact allMarkup_nil
  · exact allMarkup_nil

theorem readExclamation_markup : AllMarkup mode.options (readExclamation mode names c).events := by
  unfold readExclamation
  split
  · exact readDelimited_markup fun hwanted _ => hwanted
  · split
    · exact readDelimited_markup fun hwanted _ => hwanted
    · split
      · exact readDoctype_markup
      · split
        · exact allMarkup_nil
        · split
          · exact allMarkup_nil
          · exact allMarkup_nil

theorem readMarkup_markup (mode : ReaderMode) (names : List (List Char)) (c : Cursor) :
    AllMarkup mode.options (readMarkup mode names c).events := by
  unfold readMarkup
  split
  · exact allMarkup_nil
  · split
    · exact readStartTag_markup
    · split
      · exact readEndTag_markup
      · split
        · exact readQuestion_markup
        · split
          · exact readExclamation_markup
          · exact allMarkup_nil

theorem readAll_said (mode : ReaderMode) (names : List (List Char)) (c : Cursor) :
    AllSaid mode.options (readAll mode names c).events := by
  have htext : ∀ (raw : Span) (closing : Bool),
      AllSaid mode.options (if raw.text.isEmpty then [] else [.text raw closing]) := by
    intro raw closing e he
    split at he
    · cases he
    · rename_i hempty
      obtain rfl := List.mem_singleton.1 he
      exact show raw.text ≠ [] by simpa using hempty
  fun_induction readAll mode names c with
  | case1 => exact htext _ _
  | case2 names c raw tag events ch tail hrest es names' next hmarkup ih =>
    have hes := readMarkup_markup mode names (tag.skip 1)
    rw [hmarkup] at hes
    have hhere := List.forall_mem_append.2 ⟨htext raw (beginsWith "</".toList tag.rest), hes.said⟩
    exact List.forall_mem_append.2 ⟨hhere, ih⟩
  | case3 names c raw tag events ch tail hrest es status offset hmarkup =>
    have hes := readMarkup_markup mode names (tag.skip 1)
    rw [hmarkup] at hes
    exact List.forall_mem_append.2 ⟨htext _ _, hes.said⟩

end Reader

/-- Whatever a text is, what the events of it say is there and was asked for. -/
theorem Transcript.ofText_said (mode : ReaderMode) (text : List Char) :
    AllSaid mode.options (ofText mode text).events :=
  Reader.readAll_said mode [] (.ofText text)

end XmlTree
