/-
  Load/Reader.lean --- from text to events.

  WHAT THIS FILE IS FOR.  The reader walks over markup once, from left to right, and
  keeps the names of the open elements.  It knows nothing of the tree that is built
  from its events.  Options decide which constructs become events; what is not asked
  for is passed over, and still has to be well formed as far as its end goes.

  FAULTS.  At the first fault reading stops, and the events so far stand.  A fault
  carries the number of bytes before the character that could not be read.

  WHERE THE TOP IS.  Declarations and document types may only stand directly below
  the document node: outside of every element that was opened, and only if the text
  goes below the document node itself.
-/
import XmlTree.Load.Cursor
import XmlTree.Load.Doctype
import XmlTree.Options

set_option autoImplicit false

namespace XmlTree

/-- How markup is read. -/
structure ReaderMode where
  options : ParseOptions
  /-- whether the text goes directly below the document node -/
  belowDocument : Bool
  deriving DecidableEq, Repr, Inhabited

/-- The state of reading after one construct. -/
inductive ReadOutcome where
  /-- the construct was read; `openNames` are the names of the open elements, the
  innermost first -/
  | next (events : List LoadEvent) (openNames : List (List Char)) (cursor : Cursor)
  | fault (events : List LoadEvent) (status : LoadStatus) (offset : Nat)
  deriving DecidableEq, Repr, Inhabited

namespace Reader

/-! ## Attributes -/

/-- The outcome of reading one attribute. -/
inductive AttributeOutcome where
  | next (event : LoadEvent) (cursor : Cursor)
  | fault (events : List LoadEvent) (offset : Nat)
  deriving DecidableEq, Repr, Inhabited

/-- Reads a name, `=` and a quoted value.  Another name may not follow at once. -/
def readAttribute (c : Cursor) : AttributeOutcome :=
  match c.name? with
  | none => .fault [] c.offset
  | some (name, afterName) =>
    let c := afterName.skipSpace
    if c.rest.head? = some '=' then
      let c := (c.skip 1).skipSpace
      match c.rest with
      | quote :: _ =>
        if quote = '"' || quote = '\'' then
          let c := c.skip 1
          match c.upTo? [quote] with
          | some (raw, c) =>
            if c.rest.head?.any isNameStart then
              .fault [.attribute name (some raw)] c.offset
            else
              .next (.attribute name (some raw)) c
          | none => .fault [.attribute name none] c.offset
        else
          .fault [.attribute name none] c.offset
      | [] => .fault [.attribute name none] c.offset
    else
      .fault [.attribute name none] c.offset

theorem length_of_readAttribute {c next : Cursor} {e : LoadEvent}
    (h : readAttribute c = .next e next) : next.rest.length < c.rest.length := by
  unfold readAttribute at h
  split at h
  · simp at h
  · rename_i name afterName hname
    have h₁ := Cursor.length_of_name? hname
    simp only at h
    split at h
    · split at h
      · split at h
        · split at h
          · rename_i raw after hup
            split at h
            · simp at h
            · simp only [AttributeOutcome.next.injEq] at h
              obtain ⟨_, rfl⟩ := h
              have h₂ := Cursor.length_of_upTo? hup
              have h₃ := Cursor.length_skip_le ((afterName.skipSpace.skip 1).skipSpace) 1
              have h₄ := Cursor.length_skipSpace_le (afterName.skipSpace.skip 1)
              have h₅ := Cursor.length_skip_le afterName.skipSpace 1
              have h₆ := Cursor.length_skipSpace_le afterName
              omega
          · simp at h
        · simp at h
      · simp at h
    · simp at h

/-- The outcome of reading the attributes of a tag and the end of the tag. -/
inductive AttributesOutcome where
  /-- `empty` tells that the tag closes its element at once -/
  | closed (events : List LoadEvent) (empty : Bool) (cursor : Cursor)
  | fault (events : List LoadEvent) (status : LoadStatus) (offset : Nat)
  deriving DecidableEq, Repr, Inhabited

/-- The outcome with one more event in front. -/
def AttributesOutcome.after (e : LoadEvent) : AttributesOutcome → AttributesOutcome
  | closed events empty cursor => closed (e :: events) empty cursor
  | fault events status offset => fault (e :: events) status offset

/-- The outcome at the last but one character of a tag: `>` has to follow. -/
def closeTag (c : Cursor) (empty : Bool) (status : LoadStatus) : AttributesOutcome :=
  let c := c.skip 1
  if c.rest.head? = some '>' then .closed [] empty (c.skip 1) else .fault [] status c.offset

/-- Reads attributes up to the end of the tag: `>` or `/>`, in a declaration `?>`. -/
def readAttributes (inDeclaration : Bool) (c : Cursor) : AttributesOutcome :=
  let here := c.skipSpace
  let status := if inDeclaration then LoadStatus.badPi else .badStartElement
  match here.rest with
  | [] => .fault [] status here.offset
  | ch :: _ =>
    if isNameStart ch then
      match _h : readAttribute here with
      | .next e next => (readAttributes inDeclaration next).after e
      | .fault events offset => .fault events .badAttribute offset
    else if ch = '/' && !inDeclaration then closeTag here true status
    else if ch = '>' && !inDeclaration then .closed [] false (here.skip 1)
    else if ch = '?' && inDeclaration then closeTag here false status
    else .fault [] status here.offset
termination_by c.rest.length
decreasing_by
  have h₁ := length_of_readAttribute _h
  have h₂ : here.rest.length ≤ c.rest.length := Cursor.length_skipSpace_le c
  omega

theorem length_of_closeTag {c next : Cursor} {events : List LoadEvent} {empty closes : Bool}
    {status : LoadStatus} (h : closeTag c closes status = .closed events empty next) :
    next.rest.length ≤ c.rest.length := by
  simp only [closeTag] at h
  split at h
  · simp only [AttributesOutcome.closed.injEq] at h
    obtain ⟨_, _, rfl⟩ := h
    exact Nat.le_trans (Cursor.length_skip_le _ 1) (Cursor.length_skip_le c 1)
  · simp at h

theorem length_of_readAttributes {inDeclaration : Bool} {c next : Cursor}
    {events : List LoadEvent} {empty : Bool}
    (h : readAttributes inDeclaration c = .closed events empty next) :
    next.rest.length ≤ c.rest.length := by
  fun_induction readAttributes inDeclaration c generalizing events with
  | case1 => simp at h
  | case2 c here ch tail hrest hname e after hread =>
    rename_i ih
    have h₁ : here.rest.length ≤ c.rest.length := Cursor.length_skipSpace_le c
    have h₂ := length_of_readAttribute hread
    cases hr : readAttributes inDeclaration after with
    | closed events' empty' cursor' =>
      rw [hr] at h ih
      simp only [AttributesOutcome.after, AttributesOutcome.closed.injEq] at h
      obtain ⟨_, rfl, rfl⟩ := h
      have := ih rfl
      omega
    | fault => rw [hr] at h; simp [AttributesOutcome.after] at h
  | case3 => simp at h
  | case4 c here =>
    have h₁ : here.rest.length ≤ c.rest.length := Cursor.length_skipSpace_le c
    have := length_of_closeTag h
    omega
  | case5 c here =>
    have h₁ : here.rest.length ≤ c.rest.length := Cursor.length_skipSpace_le c
    simp only [AttributesOutcome.closed.injEq] at h
    obtain ⟨_, _, rfl⟩ := h
    have := Cursor.length_skip_le here 1
    omega
  | case6 c here =>
    have h₁ : here.rest.length ≤ c.rest.length := Cursor.length_skipSpace_le c
    have := length_of_closeTag h
    omega
  | case7 => simp at h

/-! ## Elements -/

/-- Reads a start tag from its name on. -/
def readStartTag (openNames : List (List Char)) (c : Cursor) : ReadOutcome :=
  match c.name? with
  | none => .fault [] .unrecognizedTag c.offset
  | some (name, c) =>
    let opened := LoadEvent.openElement name
    match c.rest with
    | [] => .fault [opened] .badStartElement c.offset
    | ch :: _ =>
      if ch = '>' then .next [opened] (name.text :: openNames) (c.skip 1)
      else if ch = '/' then
        let c := c.skip 1
        if c.rest.head? = some '>' then .next [opened, .closeElement] openNames (c.skip 1)
        else .fault [opened] .badStartElement c.offset
      else if isSpace ch then
        match readAttributes false c with
        | .closed events true c => .next (opened :: (events ++ [.closeElement])) openNames c
        | .closed events false c => .next (opened :: events) (name.text :: openNames) c
        | .fault events status offset => .fault (opened :: events) status offset
      else .fault [opened] .badStartElement (c.skip 1).offset

/-- Reads an end tag after its `/`.  A name that the end of the text cuts short is
told apart from a wrong one. -/
def readEndTag (openNames : List (List Char)) (c : Cursor) : ReadOutcome :=
  match openNames with
  | [] => .fault [] .endElementMismatch c.offset
  | expected :: outer =>
    let (name, afterName) := c.name?.getD (⟨c.offset, []⟩, c)
    if name.text = expected then
      let c := afterName.skipSpace
      if c.rest.head? = some '>' then .next [.closeElement] outer (c.skip 1)
      else .fault [] .badEndElement c.offset
    else if afterName.rest.isEmpty && beginsWith name.text expected then
      .fault [] .badEndElement afterName.offset
    else
      .fault [] .endElementMismatch c.offset

theorem length_of_readStartTag {openNames names : List (List Char)} {c next : Cursor}
    {events : List LoadEvent} (h : readStartTag openNames c = .next events names next) :
    next.rest.length ≤ c.rest.length := by
  unfold readStartTag at h
  split at h
  · simp at h
  · rename_i name after hname
    have h₁ := Cursor.length_of_name? hname
    have h₂ := Cursor.length_skip_le after 1
    have h₃ := Cursor.length_skip_le (after.skip 1) 1
    simp only at h
    split at h
    · simp at h
    · split at h
      · simp only [ReadOutcome.next.injEq] at h
        obtain ⟨_, _, rfl⟩ := h
        omega
      · split at h
        · split at h
          · simp only [ReadOutcome.next.injEq] at h
            obtain ⟨_, _, rfl⟩ := h
            omega
          · simp at h
        · split at h
          · split at h
            · rename_i hattrs
              simp only [ReadOutcome.next.injEq] at h
              obtain ⟨_, _, rfl⟩ := h
              have := length_of_readAttributes hattrs
              omega
            · rename_i hattrs
              simp only [ReadOutcome.next.injEq] at h
              obtain ⟨_, _, rfl⟩ := h
              have := length_of_readAttributes hattrs
              omega
            · simp at h
          · simp at h

theorem length_of_readEndTag {openNames names : List (List Char)} {c next : Cursor}
    {events : List LoadEvent} (h : readEndTag openNames c = .next events names next) :
    next.rest.length ≤ c.rest.length := by
  have hname : (c.name?.getD (⟨c.offset, []⟩, c)).2.rest.length ≤ c.rest.length := by
    cases hc : c.name? with
    | none => simp
    | some found => exact Nat.le_of_lt (Cursor.length_of_name? hc)
  unfold readEndTag at h
  split at h
  · simp at h
  · simp only at h
    split at h
    · split at h
      · simp only [ReadOutcome.next.injEq] at h
        obtain ⟨_, _, rfl⟩ := h
        have h₁ := Cursor.length_skip_le (c.name?.getD (⟨c.offset, []⟩, c)).2.skipSpace 1
        have h₂ := Cursor.length_skipSpace_le (c.name?.getD (⟨c.offset, []⟩, c)).2
        omega
      · simp at h
    · split at h <;> simp at h

/-! ## Instructions and declarations -/

/-- Reads what follows the target of a processing instruction. -/
def readInstruction (openNames : List (List Char)) (target : Span) (c : Cursor) : ReadOutcome :=
  let bare := LoadEvent.pi target none
  match c.rest with
  | [] => .fault [bare] .badPi c.offset
  | ch :: _ =>
    if ch = '?' then
      let c := c.skip 1
      if c.rest.head? = some '>' then .next [bare] openNames (c.skip 1)
      else .fault [bare] .badPi c.offset
    else if isSpace ch then
      match c.skipSpace.upTo? "?>".toList with
      | some (value, c) => .next [.pi target (some value)] openNames c
      | none => .fault [bare] .badPi c.total
    else .fault [bare] .badPi c.offset

/-- Reads what follows the target of a declaration. -/
def readDeclaration (openNames : List (List Char)) (target : Span) (c : Cursor) : ReadOutcome :=
  let bare := LoadEvent.declaration target
  match c.rest with
  | [] => .fault [bare] .badPi c.offset
  | ch :: _ =>
    if ch = '?' then
      let c := c.skip 1
      if c.rest.head? = some '>' then .next [bare] openNames (c.skip 1)
      else .fault [bare] .badPi c.offset
    else if isSpace ch then
      match readAttributes true c with
      | .closed events _ c => .next (bare :: events) openNames c
      | .fault events status offset => .fault (bare :: events) status offset
    else .fault [bare] .badPi c.offset

/-- Reads an instruction or a declaration after its `?`. -/
def readQuestion (mode : ReaderMode) (openNames : List (List Char)) (c : Cursor) : ReadOutcome :=
  match c.name? with
  | none => .fault [] .badPi c.offset
  | some (target, c) =>
    let isDeclaration := eqIgnoringCase target.text "xml".toList
    let wanted := if isDeclaration then ParseOptions.declaration else .pi
    if !mode.options.contains wanted then
      match c.upTo? "?>".toList with
      | some (_, c) => .next [] openNames c
      | none => .fault [] .badPi c.total
    else if isDeclaration then
      if mode.belowDocument && openNames.isEmpty then readDeclaration openNames target c
      else .fault [] .badPi c.offset
    else
      readInstruction openNames target c

theorem length_of_readInstruction {openNames names : List (List Char)} {target : Span}
    {c next : Cursor} {events : List LoadEvent}
    (h : readInstruction openNames target c = .next events names next) :
    next.rest.length ≤ c.rest.length := by
  have h₁ := Cursor.length_skip_le c 1
  have h₂ := Cursor.length_skip_le (c.skip 1) 1
  have h₃ := Cursor.length_skipSpace_le c
  simp only [readInstruction] at h
  split at h
  · simp at h
  · split at h
    · split at h
      · simp only [ReadOutcome.next.injEq] at h
        obtain ⟨_, _, rfl⟩ := h
        omega
      · simp at h
    · split at h
      · split at h
        · rename_i hup
          simp only [ReadOutcome.next.injEq] at h
          obtain ⟨_, _, rfl⟩ := h
          have := Cursor.length_of_upTo? hup
          omega
        · simp at h
      · simp at h

theorem length_of_readDeclaration {openNames names : List (List Char)} {target : Span}
    {c next : Cursor} {events : List LoadEvent}
    (h : readDeclaration openNames target c = .next events names next) :
    next.rest.length ≤ c.rest.length := by
  have h₁ := Cursor.length_skip_le c 1
  have h₂ := Cursor.length_skip_le (c.skip 1) 1
  simp only [readDeclaration] at h
  split at h
  · simp at h
  · split at h
    · split at h
      · simp only [ReadOutcome.next.injEq] at h
        obtain ⟨_, _, rfl⟩ := h
        omega
      · simp at h
    · split at h
      · split at h
        · rename_i hattrs
          simp only [ReadOutcome.next.injEq] at h
          obtain ⟨_, _, rfl⟩ := h
          exact length_of_readAttributes hattrs
        · simp at h
      · simp at h

theorem length_of_readQuestion {mode : ReaderMode} {openNames names : List (List Char)}
    {c next : Cursor} {events : List LoadEvent}
    (h : readQuestion mode openNames c = .next events names next) :
    next.rest.length ≤ c.rest.length := by
  unfold readQuestion at h
  split at h
  · simp at h
  · rename_i target after hname
    have h₁ := Cursor.length_of_name? hname
    by_cases hd : eqIgnoringCase target.text "xml".toList = true
    · simp only [hd, if_true] at h
      split at h
      · split at h
        · rename_i hup
          simp only [ReadOutcome.next.injEq] at h
          obtain ⟨_, _, rfl⟩ := h
          have := Cursor.length_of_upTo? hup
          omega
        · simp at h
      · split at h
        · have := length_of_readDeclaration h
          omega
        · simp at h
    · simp only [hd, Bool.false_eq_true, if_false] at h
      split at h
      · split at h
        · rename_i hup
          simp only [ReadOutcome.next.injEq] at h
          obtain ⟨_, _, rfl⟩ := h
          have := Cursor.length_of_upTo? hup
          omega
        · simp at h
      · have := length_of_readInstruction h
        omega

/-! ## Comments, CDATA sections, document types -/

/-- Reads up to `mark`; the text in between becomes an event if it is wanted. -/
def readDelimited (openNames : List (List Char)) (c : Cursor) (mark : List Char)
    (wanted : Bool) (event : Span → LoadEvent) (status : LoadStatus) : ReadOutcome :=
  match c.upTo? mark with
  | some (raw, next) => .next (if wanted then [event raw] else []) openNames next
  | none => .fault [] status c.offset

/-- Reads a document type from its keyword on. -/
def readDoctype (mode : ReaderMode) (openNames : List (List Char)) (c : Cursor) : ReadOutcome :=
  if mode.belowDocument && openNames.isEmpty then
    let c := c.skip "DOCTYPE".length
    match doctypeEnd? 0 c.rest with
    | some tail =>
      let raw := c.rest.take (c.rest.length - tail.length)
      let space := (raw.takeWhile isSpace).length
      let body : Span := ⟨(c.skip space).offset, raw.drop space⟩
      let events := if mode.options.contains .doctype then [LoadEvent.doctype body] else []
      .next events openNames (c.skip (raw.length + 1))
    | none => .fault [] .badDoctype c.total
  else
    -- the two characters before the keyword are `<!`
    .fault [] .badDoctype (c.offset - 2)

/-- Reads what follows `<!`. -/
def readExclamation (mode : ReaderMode) (openNames : List (List Char)) (c : Cursor) :
    ReadOutcome :=
  if beginsWith "--".toList c.rest then
    readDelimited openNames (c.skip 2) "-->".toList (mode.options.contains .comments)
      .comment .badComment
  else if beginsWith "[CDATA[".toList c.rest then
    readDelimited openNames (c.skip 7) "]]>".toList (mode.options.contains .cdata)
      .cdata .badCdata
  else if beginsWith "DOCTYPE".toList c.rest then
    readDoctype mode openNames c
  else if c.rest.head? = some '-' then .fault [] .badComment c.offset
  else if c.rest.head? = some '[' then .fault [] .badCdata c.offset
  else .fault [] .unrecognizedTag c.offset

theorem length_of_readDelimited {openNames names : List (List Char)} {c next : Cursor}
    {mark : List Char} {wanted : Bool} {event : Span → LoadEvent} {status : LoadStatus}
    {events : List LoadEvent}
    (h : readDelimited openNames c mark wanted event status = .next events names next) :
    next.rest.length ≤ c.rest.length := by
  unfold readDelimited at h
  split at h
  · rename_i hup
    simp only [ReadOutcome.next.injEq] at h
    obtain ⟨_, _, rfl⟩ := h
    have := Cursor.length_of_upTo? hup
    omega
  · simp at h

theorem length_of_readDoctype {mode : ReaderMode} {openNames names : List (List Char)}
    {c next : Cursor} {events : List LoadEvent}
    (h : readDoctype mode openNames c = .next events names next) :
    next.rest.length ≤ c.rest.length := by
  simp only [readDoctype] at h
  split at h
  · split at h
    · simp only [ReadOutcome.next.injEq] at h
      obtain ⟨_, _, rfl⟩ := h
      exact Nat.le_trans (Cursor.length_skip_le _ _) (Cursor.length_skip_le _ _)
    · simp at h
  · simp at h

theorem length_of_readExclamation {mode : ReaderMode} {openNames names : List (List Char)}
    {c next : Cursor} {events : List LoadEvent}
    (h : readExclamation mode openNames c = .next events names next) :
    next.rest.length ≤ c.rest.length := by
  unfold readExclamation at h
  split at h
  · exact Nat.le_trans (length_of_readDelimited h) (Cursor.length_skip_le c 2)
  · split at h
    · exact Nat.le_trans (length_of_readDelimited h) (Cursor.length_skip_le c 7)
    · split at h
      · exact length_of_readDoctype h
      · split at h
        · simp at h
        · split at h <;> simp at h

/-! ## Whole texts -/

/-- Reads one construct after its `<`. -/
def readMarkup (mode : ReaderMode) (openNames : List (List Char)) (c : Cursor) : ReadOutcome :=
  match c.rest with
  | [] => .fault [] .unrecognizedTag c.offset
  | ch :: _ =>
    if isNameStart ch then readStartTag openNames c
    else if ch = '/' then readEndTag openNames (c.skip 1)
    else if ch = '?' then readQuestion mode openNames (c.skip 1)
    else if ch = '!' then readExclamation mode openNames (c.skip 1)
    else .fault [] .unrecognizedTag c.offset

theorem length_of_readMarkup {mode : ReaderMode} {openNames names : List (List Char)}
    {c next : Cursor} {events : List LoadEvent}
    (h : readMarkup mode openNames c = .next events names next) :
    next.rest.length ≤ c.rest.length := by
  have h₁ := Cursor.length_skip_le c 1
  unfold readMarkup at h
  split at h
  · simp at h
  · split at h
    · exact length_of_readStartTag h
    · split at h
      · exact Nat.le_trans (length_of_readEndTag h) h₁
      · split at h
        · exact Nat.le_trans (length_of_readQuestion h) h₁
        · split at h
          · exact Nat.le_trans (length_of_readExclamation h) h₁
          · simp at h

/-- Reads to the end of the text or to the first fault.  An element that is still
open at the end is a fault. -/
def readAll (mode : ReaderMode) (openNames : List (List Char)) (c : Cursor) : Transcript :=
  let raw := (c.takeWhile (· != '<')).1
  let tag := (c.takeWhile (· != '<')).2
  let events := if raw.text.isEmpty then []
    else [LoadEvent.text raw (beginsWith "</".toList tag.rest)]
  match _ht : tag.rest with
  | [] =>
    ⟨events, if openNames.isEmpty then none else some ⟨.endElementMismatch, tag.offset⟩⟩
  | _ :: _ =>
    match _h : readMarkup mode openNames (tag.skip 1) with
    | .next more names next => (readAll mode names next).after (events ++ more)
    | .fault more status offset => ⟨events ++ more, some ⟨status, offset⟩⟩
termination_by c.rest.length
decreasing_by
  have h₁ := length_of_readMarkup _h
  have h₂ : tag.rest.length ≤ c.rest.length := Cursor.length_skip_le c _
  have h₃ : (tag.skip 1).rest.length + 1 = tag.rest.length := by simp [Cursor.skip, _ht]
  omega

end Reader

/-- The events of a text. -/
def Transcript.ofText (mode : ReaderMode) (text : List Char) : Transcript :=
  Reader.readAll mode [] (.ofText text)

end XmlTree
