/-
  Proofs/Adding.lean --- what the builder carries out of the events that it is given.

  WHAT THIS FILE IS FOR.  An event is refused if a text has to be copied for it that is too
  long, and the load ends there.  Then the event has left nothing behind, unless it is an
  attribute: that is there without its value.  So what the builder makes of events, refused
  or not, is what it makes of fewer events none of which is refused, and all that is shown
  of events that are carried out is true of loads that end early as well.

  STATES.  The same is said of anything that takes events one after the other and may refuse
  them, for the tree that is built is later looked at without its records.
-/
import XmlTree.Load.Load
import XmlTree.Proofs.Reading
import XmlTree.Proofs.Records
import XmlTree.Proofs.Shrinking

set_option autoImplicit false

namespace XmlTree

/-! ## Events that are carried out -/

namespace LoadEvent

/-- What is carried out of an event that is refused. -/
def left : LoadEvent → List LoadEvent
  | .attribute name _ => [.attribute name none]
  | _ => []

/-- What is carried out of events up to the first one that is refused, and what is reported
of that one. -/
def heeded {σ : Type} (step : σ → LoadEvent → σ) (refusal? : σ → LoadEvent → Option LoadFault)
    (s : σ) : List LoadEvent → Option LoadFault × List LoadEvent
  | [] => (none, [])
  | e :: es =>
    match refusal? s e with
    | some fault => (some fault, e.left)
    | none =>
      let (fault, rest) := heeded step refusal? (step s e) es
      (fault, e :: rest)

/-- Events that were carried out of others: all of them, or those in front of one that was
refused, and what is left of that one. -/
inductive CutShort : List LoadEvent → List LoadEvent → Prop where
  | whole (es : List LoadEvent) : CutShort es es
  | refused (front : List LoadEvent) (e : LoadEvent) (rest : List LoadEvent) :
      CutShort (front ++ e.left) (front ++ e :: rest)

namespace CutShort

variable {es es' : List LoadEvent}

theorem cons (h : CutShort es' es) (e : LoadEvent) : CutShort (e :: es') (e :: es) := by
  cases h with
  | whole => exact .whole _
  | refused front e' rest => exact .refused (e :: front) e' rest

/-- What is true of all events, and does not ask for the value of an attribute, is true of
those that were carried out. -/
theorem forall_mem (h : CutShort es' es) {P : LoadEvent → Prop}
    (hname : ∀ name raw, P (.attribute name raw) → P (.attribute name none))
    (hes : ∀ e ∈ es, P e) : ∀ e ∈ es', P e := by
  cases h with
  | whole => exact hes
  | refused front e rest =>
    intro e' he'
    obtain he' | he' := List.mem_append.1 he'
    · exact hes e' (List.mem_append_left _ he')
    · have he := hes e (List.mem_append_right _ List.mem_cons_self)
      cases e with
      | «attribute» name raw =>
        obtain rfl := List.mem_singleton.1 he'
        exact hname name raw he
      | _ => cases he'

/-- They may stand where the events may stand. -/
theorem fits (h : CutShort es' es) {belowDocument : Bool} {p : EventPlace}
    (hes : FitsAll belowDocument p es) : FitsAll belowDocument p es' := by
  cases h with
  | whole => exact hes
  | refused front e rest =>
    rw [fitsAll_append] at hes ⊢
    obtain ⟨hfront, he, -⟩ := hes
    refine ⟨hfront, ?_⟩
    cases e with
    | «attribute» name raw => exact ⟨he, trivial⟩
    | _ => trivial

end CutShort

section

variable {σ : Type} {step : σ → LoadEvent → σ} {refusal? : σ → LoadEvent → Option LoadFault}

theorem heeded_cutShort (s : σ) (es : List LoadEvent) :
    CutShort (heeded step refusal? s es).2 es := by
  induction es generalizing s with
  | nil => exact .whole []
  | cons e es ih =>
    rw [heeded]
    cases refusal? s e with
    | some fault => exact .refused [] e es
    | none => exact (ih (step s e)).cons e

/-- None of several events is refused. -/
theorem heeded_cons_eq_none {s : σ} {e : LoadEvent} {es : List LoadEvent} :
    (heeded step refusal? s (e :: es)).1 = none ↔
      refusal? s e = none ∧ (heeded step refusal? (step s e) es).1 = none := by
  rw [heeded]
  cases refusal? s e with
  | some fault => exact iff_of_false (Option.some_ne_none _) fun h => Option.some_ne_none _ h.1
  | none => exact (and_iff_right rfl).symm

/-- If no event is refused that one comes to, all are carried out. -/
theorem heeded_of_none {s : σ} {es : List LoadEvent} (h : (heeded step refusal? s es).1 = none) :
    (heeded step refusal? s es).2 = es := by
  induction es generalizing s with
  | nil => rfl
  | cons e es ih =>
    rw [heeded] at h ⊢
    cases hrefusal : refusal? s e with
    | some fault =>
      rw [hrefusal] at h
      cases h
    | none =>
      rw [hrefusal] at h
      exact congrArg (e :: ·) (ih h)

/-- What ends it is what is reported of one of them. -/
theorem exists_refusal_of_heeded {s : σ} {es : List LoadEvent} {fault : LoadFault}
    (h : (heeded step refusal? s es).1 = some fault) : ∃ s e, refusal? s e = some fault := by
  induction es generalizing s with
  | nil => cases h
  | cons e es ih =>
    rw [heeded] at h
    cases hrefusal : refusal? s e with
    | some fault' =>
      rw [hrefusal] at h
      exact ⟨s, e, hrefusal.trans h⟩
    | none =>
      rw [hrefusal] at h
      exact ih h

/-- If no event is ever refused, all are carried out. -/
theorem heeded_eq_self {s : σ} {es : List LoadEvent} (h : ∀ s, ∀ e ∈ es, refusal? s e = none) :
    heeded step refusal? s es = (none, es) := by
  induction es generalizing s with
  | nil => rfl
  | cons e es ih =>
    rw [heeded, h s e List.mem_cons_self]
    exact congrArg (fun done : Option LoadFault × List LoadEvent => (done.1, e :: done.2))
      (ih fun s e he => h s e (List.mem_cons_of_mem _ he))

/-- What is carried out of events that follow each other. -/
theorem heeded_append {s : σ} {es : List LoadEvent} (h : (heeded step refusal? s es).1 = none)
    (es' : List LoadEvent) :
    heeded step refusal? s (es ++ es') =
      ((heeded step refusal? (es.foldl step s) es').1,
        es ++ (heeded step refusal? (es.foldl step s) es').2) := by
  induction es generalizing s with
  | nil => rfl
  | cons e es ih =>
    rw [heeded] at h
    rw [List.cons_append, heeded]
    cases hrefusal : refusal? s e with
    | some fault =>
      rw [hrefusal] at h
      cases h
    | none =>
      rw [hrefusal] at h
      exact congrArg (fun done : Option LoadFault × List LoadEvent => (done.1, e :: done.2)) (ih h)

/-- What comes after an event that is refused is not looked at. -/
theorem heeded_append_of_some {s : σ} {es : List LoadEvent} {fault : LoadFault}
    (h : (heeded step refusal? s es).1 = some fault) (es' : List LoadEvent) :
    heeded step refusal? s (es ++ es') = heeded step refusal? s es := by
  induction es generalizing s with
  | nil => cases h
  | cons e es ih =>
    rw [heeded] at h
    rw [List.cons_append, heeded, heeded]
    cases hrefusal : refusal? s e with
    | some fault' => rfl
    | none =>
      rw [hrefusal] at h
      exact congrArg (fun done : Option LoadFault × List LoadEvent => (done.1, e :: done.2)) (ih h)

end

end LoadEvent

/-- What is carried out of what was read, and what ended it: a text that was refused was met
before what ended the reading. -/
def Transcript.heeded {σ : Type} (step : σ → LoadEvent → σ)
    (refusal? : σ → LoadEvent → Option LoadFault) (s : σ) (t : Transcript) : Transcript :=
  ⟨(LoadEvent.heeded step refusal? s t.events).2,
    (LoadEvent.heeded step refusal? s t.events).1 <|> t.fault⟩

namespace Transcript

variable {σ : Type} {step : σ → LoadEvent → σ} {refusal? : σ → LoadEvent → Option LoadFault}
  {s : σ} {t : Transcript}

/-- What ended without a fault was read without one, and all of it was carried out. -/
theorem of_heeded_fault (h : (t.heeded step refusal? s).fault = none) :
    (LoadEvent.heeded step refusal? s t.events).1 = none ∧ t.fault = none := by
  rw [heeded] at h
  cases hheeded : (LoadEvent.heeded step refusal? s t.events).1 with
  | some fault =>
    rw [hheeded] at h
    cases h
  | none =>
    rw [hheeded] at h
    exact ⟨rfl, h⟩

theorem heeded_eq_self (h : (LoadEvent.heeded step refusal? s t.events).1 = none) :
    t.heeded step refusal? s = t := by
  rw [heeded, LoadEvent.heeded_of_none h, h]
  rfl

/-- What is carried out after other events. -/
theorem heeded_after {es : List LoadEvent} (h : (LoadEvent.heeded step refusal? s es).1 = none) :
    (t.after es).heeded step refusal? s = (t.heeded step refusal? (es.foldl step s)).after es := by
  rw [heeded, after, LoadEvent.heeded_append h]
  rfl

theorem heeded_after_of_some {es : List LoadEvent} {fault : LoadFault}
    (h : (LoadEvent.heeded step refusal? s es).1 = some fault) :
    (t.after es).heeded step refusal? s = (⟨es, none⟩ : Transcript).heeded step refusal? s := by
  rw [heeded, heeded, after, LoadEvent.heeded_append_of_some h, h]
  rfl

end Transcript

/-! ## Texts that are too long -/

namespace Conversion

/-- Whether a text has to be copied that is too long for it. -/
def TooLong : Conversion → Prop
  | verbatim _ _ => False
  | fresh text => ¬ byteSize text < 2 ^ 32

instance : DecidablePred TooLong
  | verbatim _ _ => .isFalse id
  | fresh text => inferInstanceAs (Decidable (¬ byteSize text < 2 ^ 32))

/-- What is reported of a piece of a text that is too long after its conversion. -/
def refusal? (raw : Span) (conversion : Conversion) : Option LoadFault :=
  if conversion.TooLong then some (TreeBuilder.refusal raw) else none

theorem refusal?_eq_none_iff {raw : Span} {conversion : Conversion} :
    conversion.refusal? raw = none ↔ ¬ conversion.TooLong := by
  unfold refusal?
  split
  · rename_i hlong
    exact iff_of_false (Option.some_ne_none _) (not_not_intro hlong)
  · rename_i hshort
    exact iff_of_true rfl hshort

theorem status_of_refusal? {raw : Span} {conversion : Conversion} {fault : LoadFault}
    (h : conversion.refusal? raw = some fault) : fault.status = .outOfMemory := by
  unfold refusal? at h
  split at h
  · cases h
    rfl
  · cases h

theorem not_tooLong_of_le {conversion : Conversion} {cs : List Char}
    (hle : byteSize conversion.text ≤ byteSize cs) (hcs : byteSize cs < 2 ^ 32) :
    ¬ conversion.TooLong := by
  cases conversion with
  | verbatim skipped text => exact id
  | fresh text => exact not_not_intro (Nat.lt_of_le_of_lt hle hcs)

end Conversion

theorem byteSize_sectionConversion_le (options : ParseOptions) (cs : List Char) :
    byteSize (TreeBuilder.sectionConversion options cs).text ≤ byteSize cs := by
  unfold TreeBuilder.sectionConversion
  split
  · exact byteSize_convertLineEnds_le cs
  · exact Nat.le_refl _

namespace LoadEvent

/-- What is reported of an event if a text of its own is too long to be copied. -/
def refusal? (options : ParseOptions) : LoadEvent → Option LoadFault
  | .text raw _ => (convertPcdata options raw.text).refusal? raw
  | .comment raw | .cdata raw => (TreeBuilder.sectionConversion options raw.text).refusal? raw
  | .attribute _ (some raw) => (convertAttribute options raw.text).refusal? raw
  | _ => none

/-- No text that an event says is too long. -/
def Short : LoadEvent → Prop
  | .text raw _ | .comment raw | .cdata raw | .attribute _ (some raw) => byteSize raw.text < 2 ^ 32
  | _ => True

/-- A text gets no longer when it is converted. -/
theorem Short.refusal? {e : LoadEvent} (h : e.Short) (options : ParseOptions) :
    e.refusal? options = none := by
  cases e with
  | text raw closing =>
    exact if_neg (Conversion.not_tooLong_of_le (byteSize_convertPcdata_le options raw.text) h)
  | comment raw | cdata raw =>
    exact if_neg (Conversion.not_tooLong_of_le (byteSize_sectionConversion_le options raw.text) h)
  | «attribute» name raw =>
    cases raw with
    | none => rfl
    | some raw =>
      exact if_neg (Conversion.not_tooLong_of_le (byteSize_convertAttribute_le options raw.text) h)
  | _ => rfl

end LoadEvent

/-! ## The builder -/

namespace TreeBuilder

open Document

variable {target : LoadTarget} {b : TreeBuilder} {raw : Span} {conversion : Conversion}
  {next : TextSlot → TreeBuilder → TreeBuilder}

/-- The builder after an event, whether it is refused or not. -/
def after (target : LoadTarget) (b : TreeBuilder) (e : LoadEvent) : TreeBuilder :=
  (b.add target e).2

/-- What is reported of an event if it is refused. -/
def refusal? (target : LoadTarget) (b : TreeBuilder) (e : LoadEvent) : Option LoadFault :=
  (b.add target e).1

/-- What the builder carries out of events. -/
def heeded (target : LoadTarget) (b : TreeBuilder) (es : List LoadEvent) :
    Option LoadFault × List LoadEvent :=
  LoadEvent.heeded (after target) (refusal? target) b es

/-- What the builder carries out of what was read. -/
def carriedOut (target : LoadTarget) (b : TreeBuilder) (t : Transcript) : Transcript :=
  t.heeded (after target) (refusal? target) b

theorem heeded_cutShort (target : LoadTarget) (b : TreeBuilder) (es : List LoadEvent) :
    LoadEvent.CutShort (b.heeded target es).2 es := LoadEvent.heeded_cutShort b es

/-- There is a slot for every text that is not too long to be copied. -/
theorem conversionSlot_cases (b : TreeBuilder) (target : LoadTarget) (raw : Span)
    (conversion : Conversion) :
    (∃ slot b', b.conversionSlot target raw conversion = (some slot, b') ∧
        ¬ conversion.TooLong) ∨
      b.conversionSlot target raw conversion = (none, b) ∧ conversion.TooLong := by
  cases conversion with
  | verbatim skipped text => exact .inl ⟨_, _, rfl, id⟩
  | fresh text =>
    have hsize : byteSize text = (String.ofList text).utf8ByteSize := byteSize_eq text
    obtain ⟨slot, owned, howned, hshort⟩ | ⟨howned, hlong⟩ := b.doc.ownText_cases (.ofList text)
    · refine .inl ⟨slot, { b with doc := owned }, ?_, ?_⟩
      · rw [conversionSlot, howned]
      · rw [Conversion.TooLong, hsize]
        exact not_not_intro hshort
    · refine .inr ⟨?_, ?_⟩
      · rw [conversionSlot, howned]
      · rw [Conversion.TooLong, hsize]
        exact hlong

/-- One goes on with the slot of a text, or it is refused and nothing has changed. -/
theorem withSlot_cases (b : TreeBuilder) (target : LoadTarget) (raw : Span)
    (conversion : Conversion) (next : TextSlot → TreeBuilder → TreeBuilder) :
    (∃ slot b', b.conversionSlot target raw conversion = (some slot, b') ∧
        ¬ conversion.TooLong ∧ b.withSlot target raw conversion next = (none, next slot b')) ∨
      conversion.TooLong ∧ b.withSlot target raw conversion next = (some (refusal raw), b) := by
  obtain ⟨slot, b', hslot, hshort⟩ | ⟨hslot, hlong⟩ := b.conversionSlot_cases target raw conversion
  · exact .inl ⟨slot, b', hslot, hshort, by rw [withSlot, hslot]⟩
  · exact .inr ⟨hlong, by rw [withSlot, hslot]⟩

/-- What holds whether one goes on or not. -/
@[elab_as_elim]
theorem withSlot_induction {P : TreeBuilder → Prop} (hrefused : P b)
    (hnext : ∀ slot b', b.conversionSlot target raw conversion = (some slot, b') →
      P (next slot b')) : P (b.withSlot target raw conversion next).2 := by
  obtain ⟨slot, b', hslot, -, hdone⟩ | ⟨-, hdone⟩ := b.withSlot_cases target raw conversion next
  · rw [hdone]
    exact hnext slot b' hslot
  · rw [hdone]
    exact hrefused

/-- Whether one goes on is told by the conversion. -/
theorem withSlot_fst (b : TreeBuilder) (target : LoadTarget) (raw : Span)
    (conversion : Conversion) (next : TextSlot → TreeBuilder → TreeBuilder) :
    (b.withSlot target raw conversion next).1 = conversion.refusal? raw := by
  obtain ⟨slot, b', -, hshort, hdone⟩ | ⟨hlong, hdone⟩ := b.withSlot_cases target raw conversion next
  · rw [hdone, Conversion.refusal?, if_neg hshort]
  · rw [hdone, Conversion.refusal?, if_pos hlong]

theorem withSlot_of_some {fault : LoadFault}
    (h : (b.withSlot target raw conversion next).1 = some fault) :
    (b.withSlot target raw conversion next).2 = b := by
  obtain ⟨slot, b', -, -, hdone⟩ | ⟨-, hdone⟩ := b.withSlot_cases target raw conversion next
  · rw [hdone] at h
    cases h
  · rw [hdone]

/-- Character data that is refused leaves nothing behind. -/
theorem addText_of_some {closing : Bool} {fault : LoadFault}
    (h : (b.addText target raw closing).1 = some fault) :
    (b.addText target raw closing).2 = b := by
  simp only [addText] at h ⊢
  split at h
  · cases h
  · rename_i hkept
    rw [if_neg hkept]
    split at h
    · cases h
    · rename_i hallowed
      rw [if_neg hallowed]
      split at h
      · rename_i hembeds
        rw [if_pos hembeds]
        exact withSlot_of_some h
      · rename_i hembeds
        rw [if_neg hembeds]
        cases hjoins : b.joinsTo? target with
        | none =>
          rw [hjoins] at h
          exact withSlot_of_some h
        | some previous =>
          rw [hjoins] at h
          dsimp only at h ⊢
          split at h
          · cases h
          · rename_i hdone
            have hsame := replaceValue_of_false (congrArg Prod.fst hdone)
            rw [hdone] at hsame
            exact congrArg (fun doc => { b with doc }) hsame

/-- What holds after character data was added, whatever became of it. -/
@[elab_as_elim]
theorem addText_induction {closing : Bool} {P : TreeBuilder → Prop} (hsame : P b)
    (hembedded : ¬ (raw.text.all isSpace && !b.keepsSpace target closing) = true →
      b.embedsNext target = true → ∀ slot b',
        b.conversionSlot target raw (convertPcdata target.options raw.text) = (some slot, b') →
        P { b' with doc := b'.doc.modifyNode (b.cursor target) fun r => { r with value := slot } })
    (hjoined : ∀ previous, b.joinsTo? target = some previous → ∀ value,
      P { b with doc := (b.doc.replaceValue previous value).2 })
    (hplanted : ¬ (raw.text.all isSpace && !b.keepsSpace target closing) = true → ∀ slot b',
      b.conversionSlot target raw (convertPcdata target.options raw.text) = (some slot, b') →
        P (b'.push target .pcdata .null slot).2) : P (b.addText target raw closing).2 := by
  simp only [addText]
  split
  · exact hsame
  · rename_i hkept
    split
    · exact hsame
    · split
      · rename_i hembeds
        exact withSlot_induction hsame (hembedded hkept hembeds)
      · split
        · rename_i previous hprevious
          have hdone := hjoined previous hprevious
            (b.doc.value previous ++ String.ofList (convertPcdata target.options raw.text).text)
          split
          · rename_i hreplaced
            rwa [hreplaced] at hdone
          · rename_i hreplaced
            rwa [hreplaced] at hdone
        · exact withSlot_induction hsame (hplanted hkept)

/-- Markup is refused for its own text only. -/
theorem refusal?_of_markup {e : LoadEvent} (hmarkup : ∀ raw closing, e ≠ .text raw closing) :
    refusal? target b e = e.refusal? target.options := by
  cases e with
  | text raw closing => exact absurd rfl (hmarkup raw closing)
  | comment raw | cdata raw => exact b.withSlot_fst target raw _ _
  | «attribute» name raw =>
    cases raw with
    | none => rfl
    | some raw => exact withSlot_fst _ target raw _ _
  | _ => rfl

/-- Character data that is joined to nothing is refused for its own text, or is dropped. -/
theorem refusal?_text (hmerge : target.options.contains .mergePcdata = false) (raw : Span)
    (closing : Bool) :
    refusal? target b (.text raw closing) =
      if raw.text.all isSpace && !b.keepsSpace target closing then none
      else if b.doc.kind (b.cursor target) == .document &&
        !target.options.contains .fragment then none
      else (LoadEvent.text raw closing).refusal? target.options := by
  have hjoins : b.joinsTo? target = none := by
    simp only [joinsTo?, hmerge, Bool.false_eq_true, if_false]
  rw [refusal?, add, addText, hjoins]
  split
  · rfl
  · split
    · rfl
    · split
      · exact b.withSlot_fst target raw _ _
      · exact b.withSlot_fst target raw _ _

/-- A text is refused because it cannot be kept. -/
theorem status_of_refusal? {e : LoadEvent} {fault : LoadFault}
    (h : refusal? target b e = some fault) : fault.status = .outOfMemory := by
  have hown : ∀ raw conversion (next : TextSlot → TreeBuilder → TreeBuilder),
      (b.withSlot target raw conversion next).1 = some fault → fault.status = .outOfMemory := by
    intro raw conversion next hslot
    rw [withSlot_fst] at hslot
    exact Conversion.status_of_refusal? hslot
  cases e with
  | text raw closing =>
    rw [refusal?, add, addText] at h
    dsimp only at h
    split at h
    · cases h
    · split at h
      · cases h
      · split at h
        · exact hown _ _ _ h
        · split at h
          · split at h
            · cases h
            · cases h
              rfl
          · exact hown _ _ _ h
  | comment raw | cdata raw => exact hown _ _ _ h
  | «attribute» name raw =>
    cases raw with
    | none => cases h
    | some raw =>
      rw [refusal?_of_markup fun _ _ => LoadEvent.noConfusion] at h
      exact Conversion.status_of_refusal? h
  | openElement | closeElement | pi | declaration | doctype => cases h

theorem status_of_heeded {es : List LoadEvent} {fault : LoadFault}
    (h : (b.heeded target es).1 = some fault) : fault.status = .outOfMemory := by
  obtain ⟨b, e, hrefusal⟩ := LoadEvent.exists_refusal_of_heeded h
  exact status_of_refusal? hrefusal

/-- Where nothing is joined, events whose texts are not too long are carried out. -/
theorem heeded_of_short (hmerge : target.options.contains .mergePcdata = false)
    {es : List LoadEvent} (hes : ∀ e ∈ es, e.Short) : b.heeded target es = (none, es) := by
  refine LoadEvent.heeded_eq_self fun b e he => ?_
  have hnone := (hes e he).refusal? target.options
  cases e with
  | text raw closing => rw [refusal?_text hmerge, hnone, ite_self, ite_self]
  | _ => exact (refusal?_of_markup fun _ _ => LoadEvent.noConfusion).trans hnone

/-- What is left of an event that is refused. -/
theorem after_of_refusal? {e : LoadEvent} {fault : LoadFault}
    (h : refusal? target b e = some fault) : b.after target e = e.left.foldl (after target) b := by
  cases e with
  | text raw closing => exact addText_of_some h
  | comment raw => exact withSlot_of_some h
  | cdata raw => exact withSlot_of_some h
  | «attribute» name raw =>
    cases raw with
    | none => rfl
    | some raw => exact withSlot_of_some h
  | openElement | closeElement | pi | declaration | doctype => cases h

/-- Events are carried out up to the first one that is refused. -/
theorem addAll_eq (target : LoadTarget) (b : TreeBuilder) (es : List LoadEvent) :
    b.addAll target es =
      ((b.heeded target es).1, (b.heeded target es).2.foldl (after target) b) := by
  induction es generalizing b with
  | nil => rfl
  | cons e es ih =>
    rw [addAll, heeded, LoadEvent.heeded]
    cases hrefusal : refusal? target b e with
    | some fault =>
      have hadd : b.add target e = (some fault, b.after target e) := Prod.ext hrefusal rfl
      rw [hadd, after_of_refusal? hrefusal]
    | none =>
      have hadd : b.add target e = (none, b.after target e) := Prod.ext hrefusal rfl
      rw [hadd]
      exact ih (b.after target e)

end TreeBuilder

/-! ## Loads -/

namespace Document

/-- Events are carried out up to the first one that is refused. -/
theorem addEvents_eq (doc : Document) (target : LoadTarget) (es : List LoadEvent) :
    let start : TreeBuilder := ⟨doc, [], target.base⟩
    doc.addEvents target es =
      ((start.heeded target es).1,
        ((start.heeded target es).2.foldl (TreeBuilder.after target) start).doc) := by
  intro start
  rw [addEvents, TreeBuilder.addAll_eq]

/-- What a load answers and what it leaves: that is what was carried out of the text. -/
theorem loadBelow_eq (doc : Document) (base : NodeId) (text : String) (options : ParseOptions) :
    let start : TreeBuilder := ⟨{ doc with texts := (doc.texts.addBuffer text).2 }, [], base⟩
    let target : LoadTarget := ⟨base, (doc.texts.addBuffer text).1, options⟩
    let done := start.carriedOut target
      (Transcript.ofText ⟨options, doc.kind base == .document⟩ text.toList)
    let filled := (done.events.foldl (TreeBuilder.after target) start).doc
    let last := text.utf8ByteSize - 1
    doc.loadBelow base text options =
      (match done.fault with
        | some fault => ⟨fault.status, min fault.offset last⟩
        | none =>
          if text.isEmpty || (options.contains .fragment ||
            ((filled.children base).drop (start.doc.children base).length).any
              fun c => filled.kind c == .element)
          then ⟨.ok, 0⟩ else ⟨.noDocumentElement, last⟩, filled) := by
  intro start target done filled last
  cases hempty : text.isEmpty with
  | true =>
    have hnone : Transcript.ofText ⟨options, doc.kind base == .document⟩ text.toList =
        ⟨[], none⟩ := by
      rw [String.isEmpty_iff.1 hempty, Transcript.ofText, Reader.readAll]
      rfl
    have hdone : done = ⟨[], none⟩ := by
      simp only [done, hnone]
      rfl
    simp only [loadBelow, hempty, filled, hdone, if_true, Bool.true_or]
    rfl
  | false =>
    let read := Transcript.ofText ⟨options, doc.kind base == .document⟩ text.toList
    have hbuilt : start.doc.addEvents target read.events =
        ((start.heeded target read.events).1, filled) := addEvents_eq _ target _
    have hfault : ((start.heeded target read.events).1 <|> read.fault) = done.fault := rfl
    have hkind : start.doc.kind base = doc.kind base := rfl
    rw [loadBelow]
    simp only [hempty, Bool.false_eq_true, if_false, Bool.false_or]
    rw [show TreeBuilder.doc start = _ from rfl] at hbuilt hkind
    rw [hkind, hbuilt]
    dsimp only
    rw [hfault]
    cases done.fault with
    | some fault => rfl
    | none =>
      dsimp only
      split
      · rfl
      · rfl

/-- What holds of a document after every list of events that may be carried out of a text
holds after the text is loaded. -/
@[elab_as_elim]
theorem loadBelow_induction {doc : Document} {base : NodeId} {text : String}
    {options : ParseOptions} {P : Document → Prop}
    (hread : ∀ es, LoadEvent.CutShort es (Transcript.ofText
        ⟨options, doc.kind base == .document⟩ text.toList).events →
      P (es.foldl (TreeBuilder.after ⟨base, (doc.texts.addBuffer text).1, options⟩)
        ⟨{ doc with texts := (doc.texts.addBuffer text).2 }, [], base⟩).doc) :
    P (doc.loadBelow base text options).2 := by
  rw [loadBelow_eq]
  exact hread _ (TreeBuilder.heeded_cutShort _ _ _)

end Document

end XmlTree
