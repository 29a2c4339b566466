/-
  Proofs/Events.lean --- events that say trees, and the steps of the reader.

  WHAT THIS FILE IS FOR.  A reader gives events, and events say a tree: names and values
  stand in the text, as they are or up to a conversion.  Here it is said which events say
  which tree, and what the reader does at each tag and at the text before it, so that what
  is written for several constructs can be read one after the other.
-/
import Mathlib.Data.List.Forall2
import XmlTree.Load.Builder
import XmlTree.Load.Reader
import XmlTree.Proofs.Canonical
import XmlTree.Proofs.Copying

set_option autoImplicit false

namespace XmlTree

variable {options : ParseOptions} {text : List Char} {single : Bool}

/-! ## Events that say a tree -/

/-- A piece of a text that is a given word. -/
def Span.Spells (text : List Char) (s : Span) (word : String) : Prop :=
  s.Within text ∧ s.text = word.toList

/-- A piece of a text that becomes a given word by a conversion. -/
def Span.Becomes (text : List Char) (s : Span) (conversion : Conversion) (word : String) : Prop :=
  s.Within text ∧ conversion.InPlace s.text ∧ conversion.text = word.toList

/-- An event that says an attribute. -/
def LoadEvent.SaysAttribute (options : ParseOptions) (text : List Char) (a : TreeAttribute)
    (e : LoadEvent) : Prop :=
  ∃ name raw, e = .attribute name (some raw) ∧ name.Spells text a.nameText ∧
    raw.Becomes text (convertAttribute options raw.text) a.valueText

mutual

/-- Events that say a tree. -/
def Tree.SaidBy (options : ParseOptions) (text : List Char) : Tree → List LoadEvent → Prop
  | .node l children, es =>
    match l.kind with
    | .element => ∃ name attributes inner,
        es = .openElement name :: (attributes ++ (inner ++ [.closeElement])) ∧
          name.Spells text l.nameText ∧
          List.Forall₂ (LoadEvent.SaysAttribute options text) l.attributes attributes ∧
          Tree.AllSaidBy options text children inner
    | .pcdata => ∃ raw closing, es = [.text raw closing] ∧
        raw.Becomes text (convertPcdata options raw.text) l.valueText
    | .cdata => ∃ raw, es = [.cdata raw] ∧
        raw.Becomes text (TreeBuilder.sectionConversion options raw.text) l.valueText
    | .comment => ∃ raw, es = [.comment raw] ∧
        raw.Becomes text (TreeBuilder.sectionConversion options raw.text) l.valueText
    | .pi => ∃ name value, es = [.pi name value] ∧ name.Spells text l.nameText ∧
        value.isNone = l.value.isNone ∧ ∀ raw ∈ value, raw.Spells text l.valueText
    | .declaration => ∃ name attributes, es = .declaration name :: attributes ∧
        name.Spells text l.nameText ∧
        List.Forall₂ (LoadEvent.SaysAttribute options text) l.attributes attributes
    | .doctype => ∃ body, es = [.doctype body] ∧ l.value.isSome ∧ body.Spells text l.valueText
    | .null | .document => False

/-- Events that say trees side by side. -/
def Tree.AllSaidBy (options : ParseOptions) (text : List Char) :
    List Tree → List LoadEvent → Prop
  | [], es => es = []
  | t :: ts, es => ∃ first rest, es = first ++ rest ∧ t.SaidBy options text first ∧
      Tree.AllSaidBy options text ts rest

end

namespace Reader

open Cursor

variable {o : Nat} {rest : List Char} {names : List (List Char)}

theorem isSpace_of_isNameStart {c : Char} (h : isNameStart c = true) : isSpace c = false := by
  cases hspace : isSpace c with
  | false => rfl
  | true =>
    rw [isNameStart_of_isSpace hspace] at h
    cases h

/-- How a tag may end: what it is written with, and whether it closes its element. -/
inductive TagEnd : Bool → List Char → Bool → Prop where
  | opening : TagEnd false ['>'] false
  | empty : TagEnd false ['/', '>'] true
  | declaration : TagEnd true ['?', '>'] false

/-- The text of a comment or a CDATA section is read up to its mark. -/
theorem readDelimited_spelling {mark value : List Char} (hmark : Unbordered mark)
    (hvalue : ¬ mark <:+: value) (names : List (List Char)) (event : Span → LoadEvent)
    (status : LoadStatus) (hon : On text ⟨o, value ++ (mark ++ rest)⟩) :
    ∃ raw o', raw.Within text ∧ raw.text = value ∧ On text ⟨o', rest⟩ ∧
      readDelimited names ⟨o, value ++ (mark ++ rest)⟩ mark true event status =
        .next [event raw] names ⟨o', rest⟩ := by
  obtain ⟨hwithin, hon⟩ := hon.append
  exact ⟨_, _, hwithin, rfl, hon.append.2, by simp [readDelimited, upTo?_append hmark hvalue]⟩

/-! ## Steps of the reader -/

variable {mode : ReaderMode} {cs : List Char}

theorem after_after (t : Transcript) (es es' : List LoadEvent) :
    (t.after es).after es' = t.after (es' ++ es) := by
  simp [Transcript.after]

/-- The event for characters between tags. -/
def textEvents (raw : Span) (closing : Bool) : List LoadEvent :=
  if raw.text.isEmpty then [] else [.text raw closing]

/-- What the reader does up to the end of the next tag. -/
theorem readAll_eq {raw : List Char} (hraw : '<' ∉ raw) :
    readAll mode names ⟨o, raw ++ '<' :: cs⟩ =
      match readMarkup mode names ⟨o + byteSize raw + '<'.utf8Size, cs⟩ with
      | .next es names' next => (readAll mode names' next).after
          (textEvents ⟨o, raw⟩ (beginsWith "</".toList ('<' :: cs)) ++ es)
      | .fault es status offset =>
        ⟨textEvents ⟨o, raw⟩ (beginsWith "</".toList ('<' :: cs)) ++ es,
          some ⟨status, offset⟩⟩ := by
  have htake : takeWhile ⟨o, raw ++ '<' :: cs⟩ (· != '<') =
      (⟨o, raw⟩, ⟨o + byteSize raw, '<' :: cs⟩) := by
    refine takeWhile_append (fun c hc => ?_) rfl
    simpa using fun heq : c = '<' => hraw (heq ▸ hc)
  rw [readAll]
  simp only [htake]
  split
  · rename_i hrest
    rw [htake] at hrest
    cases hrest
  · split
    · rename_i hread
      rw [htake, skip_one] at hread
      rw [hread]
      rfl
    · rename_i hread
      rw [htake, skip_one] at hread
      rw [hread]
      rfl

/-- A tag is read, and the reader goes on after it. -/
theorem readAll_markup {es : List LoadEvent} {names' : List (List Char)} {next : Cursor}
    (h : readMarkup mode names ⟨o + '<'.utf8Size, cs⟩ = .next es names' next) :
    readAll mode names ⟨o, '<' :: cs⟩ = (readAll mode names' next).after es := by
  have hstep : readAll mode names ⟨o, [] ++ '<' :: cs⟩ = _ := readAll_eq (by simp)
  rw [byteSize_nil, Nat.add_zero, h] at hstep
  exact hstep

/-- Characters before a tag are read, and the reader goes on at the tag. -/
theorem readAll_text (mode : ReaderMode) (names : List (List Char)) (o : Nat) (cs : List Char)
    {raw : List Char} (hraw : '<' ∉ raw) (hne : raw ≠ []) :
    ∃ closing, readAll mode names ⟨o, raw ++ '<' :: cs⟩ =
      (readAll mode names ⟨o + byteSize raw, '<' :: cs⟩).after [.text ⟨o, raw⟩ closing] := by
  have htag : readAll mode names ⟨o + byteSize raw, [] ++ '<' :: cs⟩ = _ :=
    readAll_eq (by simp)
  have hevents : textEvents ⟨o, raw⟩ (beginsWith "</".toList ('<' :: cs)) =
      [.text ⟨o, raw⟩ (beginsWith "</".toList ('<' :: cs))] := by
    simp [textEvents, hne]
  refine ⟨beginsWith "</".toList ('<' :: cs), ?_⟩
  rw [readAll_eq hraw, hevents]
  rw [byteSize_nil, Nat.add_zero] at htag
  rw [show '<' :: cs = [] ++ '<' :: cs from rfl, htag]
  cases readMarkup mode names ⟨o + byteSize raw + '<'.utf8Size, cs⟩ with
  | next es names' next => exact (after_after _ _ _).symm
  | fault es status offset => rfl

theorem readAll_end : readAll mode [] ⟨o, []⟩ = ⟨[], none⟩ := by
  rw [readAll]
  rfl

/-! ## Which construct it is -/

theorem readMarkup_exclamation :
    readMarkup mode names ⟨o, '!' :: cs⟩ =
      readExclamation mode names ⟨o + '!'.utf8Size, cs⟩ := by
  simp [readMarkup, isNameStart]

theorem readMarkup_question :
    readMarkup mode names ⟨o, '?' :: cs⟩ = readQuestion mode names ⟨o + '?'.utf8Size, cs⟩ := by
  simp [readMarkup, isNameStart]

theorem readMarkup_slash :
    readMarkup mode names ⟨o, '/' :: cs⟩ = readEndTag names ⟨o + '/'.utf8Size, cs⟩ := by
  simp [readMarkup, isNameStart]

theorem readMarkup_name {name : String} (hname : IsName name) :
    readMarkup mode names ⟨o, name.toList ++ cs⟩ =
      readStartTag names ⟨o, name.toList ++ cs⟩ := by
  obtain ⟨c, more, htext, hstart, -⟩ := isName_iff.1 hname
  simp [readMarkup, htext, hstart]

theorem readExclamation_comment :
    readExclamation mode names ⟨o, "--".toList ++ cs⟩ =
      readDelimited names ⟨o + byteSize "--".toList, cs⟩ "-->".toList
        (mode.options.contains .comments) .comment .badComment := by
  rw [readExclamation, beginsWith_append, if_pos rfl]
  exact congrArg (readDelimited names · _ _ _ _) (skip_append o "--".toList cs)

theorem readExclamation_cdata :
    readExclamation mode names ⟨o, "[CDATA[".toList ++ cs⟩ =
      readDelimited names ⟨o + byteSize "[CDATA[".toList, cs⟩ "]]>".toList
        (mode.options.contains .cdata) .cdata .badCdata := by
  have hother : beginsWith "--".toList ("[CDATA[".toList ++ cs) = false := rfl
  rw [readExclamation, hother, if_neg (by simp), beginsWith_append, if_pos rfl]
  exact congrArg (readDelimited names · _ _ _ _) (skip_append o "[CDATA[".toList cs)

/-- An instruction that is wanted. -/
theorem readQuestion_instruction {target : String} (hname : IsName target)
    (htarget : eqIgnoringCase target.toList "xml".toList = false)
    (hwanted : mode.options.contains .pi = true)
    (hcs : cs.head?.all (fun c => !isNameChar c) = true) :
    readQuestion mode names ⟨o, target.toList ++ cs⟩ =
      readInstruction names ⟨o, target.toList⟩ ⟨o + byteSize target.toList, cs⟩ := by
  rw [readQuestion, name?_append hname hcs]
  simp only [htarget, hwanted, Bool.not_true, Bool.false_eq_true, if_false]

/-- The reader makes events of what is written for a tree that say the tree, and goes on
right after it. -/
def ReadsBack (mode : ReaderMode) (text : List Char) (names : List (List Char)) (o : Nat)
    (written rest : List Char) (Says : List LoadEvent → Prop) : Prop :=
  ∃ es o', Says es ∧ On text ⟨o', rest⟩ ∧ readAll mode names ⟨o, written ++ rest⟩ =
    (readAll mode names ⟨o', rest⟩).after es

/-- A tag is read back if it is read as one. -/
theorem ReadsBack.of_markup {written : List Char} {Says : List LoadEvent → Prop}
    (hsplit : written ++ rest = '<' :: cs) {es : List LoadEvent} {o' : Nat} (hsay : Says es)
    (hon : On text ⟨o', rest⟩)
    (hread : readMarkup mode names ⟨o + '<'.utf8Size, cs⟩ = .next es names ⟨o', rest⟩) :
    ReadsBack mode text names o written rest Says := by
  refine ⟨es, o', hsay, hon, ?_⟩
  rw [hsplit]
  exact readAll_markup hread

theorem ReadsBack.append {written written' : List Char} {Says Says' : List LoadEvent → Prop}
    (h : ReadsBack mode text names o written (written' ++ rest) Says)
    (h' : ∀ {o'}, On text ⟨o', written' ++ rest⟩ →
      ReadsBack mode text names o' written' rest Says') :
    ReadsBack mode text names o (written ++ written') rest fun es =>
      ∃ first last, es = first ++ last ∧ Says first ∧ Says' last := by
  obtain ⟨first, o₁, hsay, hon, hread⟩ := h
  obtain ⟨last, o₂, hsay', hon', hread'⟩ := h' hon
  refine ⟨first ++ last, o₂, ⟨first, last, rfl, hsay, hsay'⟩, hon', ?_⟩
  rw [List.append_assoc, hread, hread', after_after]

theorem ReadsBack.mono {written : List Char} {Says Says' : List LoadEvent → Prop}
    (h : ReadsBack mode text names o written rest Says) (hsay : ∀ es, Says es → Says' es) :
    ReadsBack mode text names o written rest Says' := by
  obtain ⟨es, o', hes, hon, hread⟩ := h
  exact ⟨es, o', hsay es hes, hon, hread⟩

end Reader

end XmlTree
