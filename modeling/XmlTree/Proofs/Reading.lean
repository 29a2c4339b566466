/-
  Proofs/Reading.lean --- in which order a reader gives events.

  WHAT THIS FILE IS FOR.  Whatever the text is, the events that are read from it can be
  carried out: an element is closed only if one is open, attributes come right after the
  tag they belong to, and declarations and document types come at the top of a document
  only.  This holds for every text and for what was read before a fault.
-/
import XmlTree.Load.Reader

set_option autoImplicit false

namespace XmlTree

/-! ## Where an event may stand -/

/-- What the events so far leave open. -/
structure EventPlace where
  /-- the number of open elements -/
  depth : Nat
  /-- whether the last event was a tag or one of its attributes -/
  tagOpen : Bool
  deriving DecidableEq, Repr

namespace LoadEvent

/-- Whether an event may stand at a place. -/
def Fits (belowDocument : Bool) (place : EventPlace) : LoadEvent → Prop
  | .closeElement => 0 < place.depth
  | .attribute _ _ => place.tagOpen = true
  | .declaration _ | .doctype _ => belowDocument = true ∧ place.depth = 0
  | _ => True

/-- The place after an event. -/
def place (place : EventPlace) : LoadEvent → EventPlace
  | .openElement _ => ⟨place.depth + 1, true⟩
  | .closeElement => ⟨place.depth - 1, false⟩
  | .declaration _ | .attribute _ _ => ⟨place.depth, true⟩
  | _ => ⟨place.depth, false⟩

end LoadEvent

/-- Each event may stand where those before it lead. -/
def FitsAll (belowDocument : Bool) : EventPlace → List LoadEvent → Prop
  | _, [] => True
  | p, e :: es => e.Fits belowDocument p ∧ FitsAll belowDocument (e.place p) es

theorem fitsAll_append {belowDocument : Bool} {p : EventPlace} {es es' : List LoadEvent} :
    FitsAll belowDocument p (es ++ es') ↔
      FitsAll belowDocument p es ∧ FitsAll belowDocument (es.foldl LoadEvent.place p) es' := by
  induction es generalizing p with
  | nil => simp [FitsAll]
  | cons e es ih => simp [FitsAll, ih, and_assoc]

namespace Reader

/-! ## Attributes -/

/-- The events are attributes. -/
def AllAttributes (es : List LoadEvent) : Prop := ∀ e ∈ es, ∃ name raw, e = .attribute name raw

theorem fitsAll_of_allAttributes {es : List LoadEvent} (h : AllAttributes es) :
    (∀ belowDocument depth, FitsAll belowDocument ⟨depth, true⟩ es) ∧
      ∀ depth, es.foldl LoadEvent.place ⟨depth, true⟩ = ⟨depth, true⟩ := by
  induction es with
  | nil => exact ⟨fun _ _ => trivial, fun _ => rfl⟩
  | cons e es ih =>
    obtain ⟨he, hrest⟩ := List.forall_mem_cons.1 h
    obtain ⟨name, raw, rfl⟩ := he
    obtain ⟨hfits, hplace⟩ := ih hrest
    exact ⟨fun belowDocument depth => ⟨rfl, hfits belowDocument depth⟩, hplace⟩

/-- The events of an outcome, whether it is a fault or not. -/
def AttributeOutcome.events : AttributeOutcome → List LoadEvent
  | next e _ => [e]
  | fault es _ => es

theorem readAttribute_events (c : Cursor) : AllAttributes (readAttribute c).events := by
  have hone : ∀ (name : Span) (raw : Option Span),
      AllAttributes [LoadEvent.attribute name raw] := by simp [AllAttributes]
  have hnone : AllAttributes [] := by simp [AllAttributes]
  unfold readAttribute
  split
  · exact hnone
  · simp only
    split
    · split
      · split
        · split
          · split
            · exact hone _ _
            · exact hone _ _
          · exact hone _ _
        · exact hone _ _
      · exact hone _ _
    · exact hone _ _

/-- The events of an outcome, whether it is a fault or not. -/
def AttributesOutcome.events : AttributesOutcome → List LoadEvent
  | closed es _ _ => es
  | fault es _ _ => es

theorem events_after (e : LoadEvent) (outcome : AttributesOutcome) :
    (outcome.after e).events = e :: outcome.events := by
  cases outcome <;> rfl

theorem events_closeTag (c : Cursor) (empty : Bool) (status : LoadStatus) :
    (closeTag c empty status).events = [] := by
  simp only [closeTag]
  split <;> rfl

theorem readAttributes_events (inDeclaration : Bool) (c : Cursor) :
    AllAttributes (readAttributes inDeclaration c).events := by
  fun_induction readAttributes inDeclaration c with
  | case1 => simp [AttributesOutcome.events, AllAttributes]
  | case2 c here ch tail hrest hname e next hread ih =>
    have hattribute := readAttribute_events here
    rw [hread] at hattribute
    rw [events_after]
    exact List.forall_mem_cons.2 ⟨hattribute e (by simp [AttributeOutcome.events]), ih⟩
  | case3 c here ch tail hrest hname es offset hread =>
    have hattribute := readAttribute_events here
    rw [hread] at hattribute
    exact hattribute
  | case4 => simp [events_closeTag, AllAttributes]
  | case5 => simp [AttributesOutcome.events, AllAttributes]
  | case6 => simp [events_closeTag, AllAttributes]
  | case7 => simp [AttributesOutcome.events, AllAttributes]

end Reader

/-! ## One construct -/

/-- The events of an outcome may stand after those that left `depth` elements open, and
leave as many open as the outcome says. -/
def ReadOutcome.Fits (belowDocument : Bool) (depth : Nat) : ReadOutcome → Prop
  | .next es names _ => ∀ t, FitsAll belowDocument ⟨depth, t⟩ es ∧
      (es.foldl LoadEvent.place ⟨depth, t⟩).depth = names.length
  | .fault es _ _ => ∀ t, FitsAll belowDocument ⟨depth, t⟩ es

namespace Reader

variable {mode : ReaderMode} {openNames : List (List Char)} {c : Cursor}

theorem fits_nothing {names : List (List Char)} {next : Cursor} :
    (ReadOutcome.next [] names next).Fits mode.belowDocument names.length :=
  fun _ => ⟨trivial, rfl⟩

theorem fits_fault {status : LoadStatus} {offset depth : Nat} :
    (ReadOutcome.fault [] status offset).Fits mode.belowDocument depth :=
  fun _ => trivial

theorem fits_next {es : List LoadEvent} {names : List (List Char)} {next : Cursor} {depth : Nat}
    (hfits : ∀ t, FitsAll mode.belowDocument ⟨depth, t⟩ es)
    (hplace : ∀ t, (es.foldl LoadEvent.place ⟨depth, t⟩).depth = names.length) :
    (ReadOutcome.next es names next).Fits mode.belowDocument depth :=
  fun t => ⟨hfits t, hplace t⟩

theorem readStartTag_fits :
    (readStartTag openNames c).Fits mode.belowDocument openNames.length := by
  unfold readStartTag
  split
  · exact fits_fault
  · rename_i name after hname
    simp only
    have hopen : ∀ t, (LoadEvent.openElement name).Fits mode.belowDocument
        ⟨openNames.length, t⟩ := fun _ => trivial
    have hone : ∀ t, FitsAll mode.belowDocument ⟨openNames.length, t⟩
        [LoadEvent.openElement name] := fun t => ⟨hopen t, trivial⟩
    split
    · exact hone
    · split
      · exact fits_next hone fun _ => rfl
      · split
        · split
          · refine fits_next (fun t => ⟨hopen t, ?_, trivial⟩) fun _ => rfl
            exact Nat.succ_pos _
          · exact hone
        · split
          · have hread := readAttributes_events false after
            split
            · rename_i es cursor heq
              have hes : AllAttributes es := by simpa [heq, AttributesOutcome.events] using hread
              obtain ⟨hfits, hplace⟩ := fitsAll_of_allAttributes hes
              refine fits_next (fun t => ⟨hopen t, fitsAll_append.2 ⟨hfits _ _, ?_, trivial⟩⟩)
                fun t => ?_
              · rw [LoadEvent.place, hplace]
                exact Nat.succ_pos _
              · rw [List.foldl_cons, List.foldl_append, LoadEvent.place, hplace]
                rfl
            · rename_i es cursor heq
              have hes : AllAttributes es := by simpa [heq, AttributesOutcome.events] using hread
              obtain ⟨hfits, hplace⟩ := fitsAll_of_allAttributes hes
              refine fits_next (fun t => ⟨hopen t, hfits _ _⟩) fun t => ?_
              rw [List.foldl_cons, LoadEvent.place, hplace]
              rfl
            · rename_i es status offset heq
              have hes : AllAttributes es := by simpa [heq, AttributesOutcome.events] using hread
              exact fun t => ⟨hopen t, (fitsAll_of_allAttributes hes).1 _ _⟩
          · exact hone

theorem readEndTag_fits :
    (readEndTag openNames c).Fits mode.belowDocument openNames.length := by
  unfold readEndTag
  split
  · exact fits_fault
  · rename_i expected outer
    simp only
    split
    · split
      · exact fits_next (fun _ => ⟨Nat.succ_pos _, trivial⟩) fun _ => rfl
      · exact fits_fault
    · split
      · exact fits_fault
      · exact fits_fault

theorem readInstruction_fits {target : Span} :
    (readInstruction openNames target c).Fits mode.belowDocument openNames.length := by
  have hpi : ∀ (value : Option Span) (t : Bool), FitsAll mode.belowDocument ⟨openNames.length, t⟩
      [LoadEvent.pi target value] := fun _ _ => ⟨trivial, trivial⟩
  simp only [readInstruction]
  split
  · exact hpi none
  · split
    · split
      · exact fits_next (hpi none) fun _ => rfl
      · exact hpi none
    · split
      · split
        · exact fits_next (hpi _) fun _ => rfl
        · exact hpi none
      · exact hpi none

theorem readDeclaration_fits {target : Span} (hbelow : mode.belowDocument = true)
    (hdepth : openNames.length = 0) :
    (readDeclaration openNames target c).Fits mode.belowDocument openNames.length := by
  have hdeclaration : ∀ t, (LoadEvent.declaration target).Fits mode.belowDocument
      ⟨openNames.length, t⟩ := fun _ => ⟨hbelow, hdepth⟩
  have hone : ∀ t, FitsAll mode.belowDocument ⟨openNames.length, t⟩
      [LoadEvent.declaration target] := fun t => ⟨hdeclaration t, trivial⟩
  simp only [readDeclaration]
  split
  · exact hone
  · split
    · split
      · exact fits_next hone fun _ => rfl
      · exact hone
    · split
      · have hread := readAttributes_events true c
        split
        · rename_i es empty cursor heq
          have hes : AllAttributes es := by simpa [heq, AttributesOutcome.events] using hread
          obtain ⟨hfits, hplace⟩ := fitsAll_of_allAttributes hes
          refine fits_next (fun t => ⟨hdeclaration t, hfits _ _⟩) fun t => ?_
          rw [List.foldl_cons, LoadEvent.place, hplace]
        · rename_i es status offset heq
          have hes : AllAttributes es := by simpa [heq, AttributesOutcome.events] using hread
          exact fun t => ⟨hdeclaration t, (fitsAll_of_allAttributes hes).1 _ _⟩
      · exact hone

theorem readQuestion_fits :
    (readQuestion mode openNames c).Fits mode.belowDocument openNames.length := by
  unfold readQuestion
  split
  · exact fits_fault
  · rename_i target after hname
    simp only
    by_cases hd : eqIgnoringCase target.text "xml".toList = true
    · simp only [hd, if_true]
      split
      · split
        · exact fits_nothing
        · exact fits_fault
      · split
        · rename_i htop
          obtain ⟨hbelow, hempty⟩ := Bool.and_eq_true_iff.1 htop
          exact readDeclaration_fits hbelow (by simpa using hempty)
        · exact fits_fault
    · simp only [hd, Bool.false_eq_true, if_false]
      split
      · split
        · exact fits_nothing
        · exact fits_fault
      · exact readInstruction_fits

theorem readDelimited_fits {mark : List Char} {wanted : Bool} {event : Span → LoadEvent}
    {status : LoadStatus} (hfits : ∀ raw p, (event raw).Fits mode.belowDocument p)
    (hplace : ∀ raw p, ((event raw).place p).depth = p.depth) :
    (readDelimited openNames c mark wanted event status).Fits mode.belowDocument
      openNames.length := by
  unfold readDelimited
  split
  · split
    · exact fits_next (fun _ => ⟨hfits _ _, trivial⟩) fun _ => hplace _ _
    · exact fits_nothing
  · exact fits_fault

theorem readDoctype_fits :
    (readDoctype mode openNames c).Fits mode.belowDocument openNames.length := by
  simp only [readDoctype]
  split
  · rename_i htop
    obtain ⟨hbelow, hempty⟩ := Bool.and_eq_true_iff.1 htop
    split
    · split
      · exact fits_next (fun _ => ⟨⟨hbelow, by simpa using hempty⟩, trivial⟩) fun _ => rfl
      · exact fits_nothing
    · exact fits_fault
  · exact fits_fault

theorem readExclamation_fits :
    (readExclamation mode openNames c).Fits mode.belowDocument openNames.length := by
  unfold readExclamation
  split
  · exact readDelimited_fits (fun _ _ => trivial) fun _ _ => rfl
  · split
    · exact readDelimited_fits (fun _ _ => trivial) fun _ _ => rfl
    · split
      · exact readDoctype_fits
      · split
        · exact fits_fault
        · split
          · exact fits_fault
          · exact fits_fault

theorem readMarkup_fits (mode : ReaderMode) (openNames : List (List Char)) (c : Cursor) :
    (readMarkup mode openNames c).Fits mode.belowDocument openNames.length := by
  unfold readMarkup
  split
  · exact fits_fault
  · split
    · exact readStartTag_fits
    · split
      · exact readEndTag_fits
      · split
        · exact readQuestion_fits
        · split
          · exact readExclamation_fits
          · exact fits_fault

/-! ## Whole texts -/

/-- All events that are read may stand after those before them. -/
theorem readAll_fits (mode : ReaderMode) (openNames : List (List Char)) (c : Cursor) (t : Bool) :
    FitsAll mode.belowDocument ⟨openNames.length, t⟩ (readAll mode openNames c).events := by
  have htext : ∀ (d : Nat) (t : Bool) (raw : Span) (closing : Bool) (es : List LoadEvent),
      (∀ t, FitsAll mode.belowDocument ⟨d, t⟩ es) → FitsAll mode.belowDocument ⟨d, t⟩
        ((if raw.text.isEmpty then [] else [LoadEvent.text raw closing]) ++ es) := by
    intro d t raw closing es hes
    split
    · exact hes t
    · exact ⟨trivial, hes false⟩
  fun_induction readAll mode openNames c generalizing t with
  | case1 openNames c raw tag events hrest =>
    rw [← List.append_nil events]
    exact htext _ _ _ _ _ fun _ => trivial
  | case2 openNames c raw tag events ch rest hrest more names next hmarkup ih =>
    have hfits := readMarkup_fits mode openNames (tag.skip 1)
    rw [hmarkup] at hfits
    rw [Transcript.after, List.append_assoc]
    refine htext _ _ _ _ _ fun t => ?_
    obtain ⟨hmore, hplace⟩ := hfits t
    refine fitsAll_append.2 ⟨hmore, ?_⟩
    rw [show more.foldl LoadEvent.place ⟨openNames.length, t⟩ = ⟨names.length, _⟩ from
      congrArg (EventPlace.mk · _) hplace]
    exact ih _
  | case3 openNames c raw tag events ch rest hrest more status offset hmarkup =>
    have hfits := readMarkup_fits mode openNames (tag.skip 1)
    rw [hmarkup] at hfits
    exact htext _ _ _ _ _ hfits

/-- A text that is read to its end leaves nothing open. -/
theorem readAll_closes (mode : ReaderMode) (openNames : List (List Char)) (c : Cursor) (t : Bool)
    (h : (readAll mode openNames c).fault = none) :
    ((readAll mode openNames c).events.foldl LoadEvent.place ⟨openNames.length, t⟩).depth = 0 := by
  have htext : ∀ (d : Nat) (t : Bool) (raw : Span) (closing : Bool), ∃ t',
      (if raw.text.isEmpty then [] else [LoadEvent.text raw closing]).foldl LoadEvent.place ⟨d, t⟩ =
        ⟨d, t'⟩ := by
    intro d t raw closing
    split
    · exact ⟨t, rfl⟩
    · exact ⟨false, rfl⟩
  fun_induction readAll mode openNames c generalizing t with
  | case1 openNames c raw tag events hrest =>
    obtain ⟨t', hplace⟩ := htext openNames.length t raw (beginsWith "</".toList tag.rest)
    simp only at h
    split at h
    · rename_i hempty
      obtain rfl : openNames = [] := by simpa using hempty
      exact congrArg EventPlace.depth hplace
    · cases h
  | case2 openNames c raw tag events ch rest hrest more names next hmarkup ih =>
    obtain ⟨t', hplace⟩ := htext openNames.length t raw (beginsWith "</".toList tag.rest)
    have hfits := readMarkup_fits mode openNames (tag.skip 1)
    rw [hmarkup] at hfits
    obtain ⟨-, hmore⟩ := hfits t'
    have hevents : events.foldl LoadEvent.place ⟨openNames.length, t⟩ = _ := hplace
    rw [Transcript.after, List.foldl_append, List.foldl_append, hevents,
      show more.foldl LoadEvent.place ⟨openNames.length, t'⟩ = ⟨names.length, _⟩ from
        congrArg (EventPlace.mk · _) hmore]
    exact ih _ h
  | case3 => cases h

end Reader

/-- The events of a text can be carried out one after the other. -/
theorem Transcript.ofText_fits (mode : ReaderMode) (text : List Char) :
    FitsAll mode.belowDocument ⟨0, false⟩ (Transcript.ofText mode text).events :=
  Reader.readAll_fits mode [] (.ofText text) false

end XmlTree
