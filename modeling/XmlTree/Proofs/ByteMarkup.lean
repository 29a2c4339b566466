/-
  Proofs/ByteMarkup.lean --- loading a text byte by byte, under watch.

  WHAT THIS FILE IS FOR.  A text is loaded in one pass over its bytes.  Names, values and texts
  are sliced out between two places that the scanner came to, or recorded as slots that give
  two places; elements are pushed on a stack when their tag opens and popped when it closes.
  Here this pass is written once more, on the bytes and without any proof inside, and with an
  eye on what could go wrong.  An alarm is raised

    - if a slice reaches beyond the text or cuts a character;
    - if a slot is recorded that does not read as the text that it is recorded for;
    - if another element is popped than the one that the tag belongs to;
    - if a loop goes round too often.

  The pass under watch comes to what loading comes to, so no alarm is ever raised.

  WHERE THE SCANNER IS.  At every slice it stands between characters.  Inside a document type
  it goes on byte by byte, and there it is inside a character for a while.
-/
import XmlTree.Proofs.ByteTexts
import XmlTree.Proofs.OpenElements

set_option autoImplicit false

namespace XmlTree

/-! ## Alarms -/

/-- What must not happen while a text is loaded. -/
inductive LoadAlarm where
  | badSlice
  | lostText
  | wrongElement
  | tooManyRounds
  deriving DecidableEq, Repr, Inhabited

/-- Why loading under watch stops; the tree that was built so far stays after a fault. -/
inductive LoadStop where
  | fault (status : LoadStatus) (offset : Nat) (doc : Document)
  | alarm (a : LoadAlarm)
  deriving Repr

namespace Watch

/-- A fault in the text. -/
def fault {α : Type} (status : LoadStatus) (offset : Nat) (b : TreeBuilder) : Except LoadStop α :=
  .error (.fault status offset b.doc)

/-- The answer, unless there is none. -/
def sound {α : Type} (a : LoadAlarm) : Option α → Except LoadStop α
  | some x => .ok x
  | none => .error (.alarm a)

/-! ## Slots -/

section

variable (target : LoadTarget)

/-- A slot that is recorded for a text. -/
def record (b : TreeBuilder) (slot : TextSlot) (text : String) : Except LoadStop TextSlot :=
  if b.doc.texts.get slot = text then .ok slot else .error (.alarm .lostText)

/-- The slot for the text between two places. -/
def range (s : Scanner) (b : TreeBuilder) (start stop : Nat) : Except LoadStop TextSlot := do
  let text ← sound .badSlice (sliceBytes? s.text start stop)
  record b (.borrowed target.buffer start stop) text

/-- The slot for a text that was sliced out at a place and converted, unless it is too long. -/
def converted (b : TreeBuilder) (start : Nat) (raw : String) (conversion : Option Conversion) :
    Except LoadStop (TextSlot × TreeBuilder) := do
  let conversion ← sound .badSlice conversion
  match b.conversionSlot target ⟨start, raw.toList⟩ conversion with
  | (some slot, b) => return (← record b slot (String.ofList conversion.text), b)
  | (none, b) => fault .outOfMemory start b

/-- Takes the innermost open element off the stack, which is the one that is given. -/
def pop (b : TreeBuilder) (id : NodeId) : Except LoadStop TreeBuilder :=
  if b.openNodes.head? = some id ∧ b.doc.kind id = .element then
    .ok { b with openNodes := b.openNodes.tail }
  else .error (.alarm .wrongElement)

/-- Adds the text between two places. -/
def text (s : Scanner) (b : TreeBuilder) (start stop : Nat) : Except LoadStop TreeBuilder := do
  let raw ← sound .badSlice (sliceBytes? s.text start stop)
  let cursor := b.cursor target
  let closing := (s.moveTo stop).beginsWith (utf8 "</".toList)
  if (Scanner.ofText raw).rest.all isSpaceByte && !b.keepsSpace target closing then return b
  else if b.doc.kind cursor == .document && !target.options.contains .fragment then return b
  else
    let conversion := convertPcdata? target.options raw
    if b.embedsNext target then
      let (slot, b) ← converted target b start raw conversion
      return { b with doc := b.doc.modifyNode cursor fun r => { r with value := slot } }
    else
      match b.joinsTo? target with
      | some previous =>
        let conversion ← sound .badSlice conversion
        let joined := b.doc.value previous ++ String.ofList conversion.text
        match b.doc.replaceValue previous joined with
        | (true, doc) =>
          if doc.value previous = joined then return { b with doc } else .error (.alarm .lostText)
        | (false, doc) => fault .outOfMemory start { b with doc }
      | none =>
        let (slot, b) ← converted target b start raw conversion
        return (b.push target .pcdata .null slot).2

/-! ## Tags -/

/-- Makes an attribute of a node, which has a name so far. -/
def nameAttribute (b : TreeBuilder) (owner : NodeId) (name : TextSlot) : AttrId × TreeBuilder :=
  let (id, doc) := b.doc.allocAttr
  let doc := doc.linkAttr owner .last id
  (id, { b with doc := doc.modifyAttr id fun r => { r with name } })

/-- Gives an attribute its value. -/
def valueAttribute (b : TreeBuilder) (id : AttrId) (value : TextSlot) : TreeBuilder :=
  { b with doc := b.doc.modifyAttr id fun r => { r with value } }

/-- Reads an attribute of a node. -/
def oneAttribute (s : Scanner) (b : TreeBuilder) (owner : NodeId) :
    Except LoadStop (Scanner × TreeBuilder) :=
  match s.readName with
  | (none, s) => fault .badAttribute s.position b
  | (some (start, stop), s) => do
    let name ← range target s b start stop
    let (id, b) := nameAttribute b owner name
    match s.skipSpace.eat '='.toUInt8 with
    | (false, s) => fault .badAttribute s.position b
    | (true, s) =>
      let s := s.skipSpace
      match s.peek? with
      | none => fault .badAttribute s.position b
      | some quote =>
        if quote = '"'.toUInt8 || quote = '\''.toUInt8 then
          let s := s.advance 1
          match s.findByte? quote with
          | none => fault .badAttribute s.position b
          | some stop =>
            let raw ← sound .badSlice (sliceBytes? s.text s.position stop)
            let (slot, b) ← converted target b s.position raw (convertAttribute? target.options raw)
            let b := valueAttribute b id slot
            let s := s.moveTo (stop + 1)
            if s.peek?.any isNameStartByte then fault .badAttribute s.position b
            else return (s, b)
        else fault .badAttribute s.position b

/-- Reads attributes of a node up to `>`, `/>` or, in a declaration, `?>`. -/
def attributes (inDeclaration : Bool) (owner : NodeId) :
    Nat → Scanner → TreeBuilder → Except LoadStop (Scanner × TreeBuilder)
  | 0, _, _ => .error (.alarm .tooManyRounds)
  | rounds + 1, s, b =>
    let s := s.skipSpace
    let status := if inDeclaration then LoadStatus.badPi else .badStartElement
    match s.peek? with
    | none => fault status s.position b
    | some c =>
      if isNameStartByte c then do
        let (s, b) ← oneAttribute target s b owner
        attributes inDeclaration owner rounds s b
      else if c = '/'.toUInt8 && !inDeclaration then
        match (s.advance 1).eat '>'.toUInt8 with
        | (true, s) => do return (s, ← pop b owner)
        | (false, s) => fault status s.position b
      else if c = '>'.toUInt8 && !inDeclaration then
        .ok (s.advance 1, b)
      else if c = '?'.toUInt8 && inDeclaration then
        match (s.advance 1).eat '>'.toUInt8 with
        | (true, s) => .ok (s, b)
        | (false, s) => fault status s.position b
      else fault status s.position b

/-- Makes an element, which is open from now on. -/
def openElement (b : TreeBuilder) (name : TextSlot) : NodeId × TreeBuilder :=
  let (id, b) := b.push target .element name .null
  (id, { b with openNodes := id :: b.openNodes, owner := id })

/-- Reads a start tag from its name on. -/
def startTag (s : Scanner) (b : TreeBuilder) : Except LoadStop (Scanner × TreeBuilder) :=
  match s.readName with
  | (none, s) => fault .unrecognizedTag s.position b
  | (some (start, stop), s) => do
    let name ← range target s b start stop
    let (id, b) := openElement target b name
    match s.peek? with
    | none => fault .badStartElement s.position b
    | some c =>
      if c = '>'.toUInt8 then return (s.advance 1, b)
      else if c = '/'.toUInt8 then
        match (s.advance 1).eat '>'.toUInt8 with
        | (true, s) => return (s, ← pop b id)
        | (false, s) => fault .badStartElement s.position b
      else if isSpaceByte c then attributes target false id (s.size + 1) s b
      else fault .badStartElement (s.position + 1) b

/-- Reads an end tag from its `/` on. -/
def endTag (s : Scanner) (b : TreeBuilder) : Except LoadStop (Scanner × TreeBuilder) :=
  let s := s.advance 1
  let mark := s.position
  match b.openNodes with
  | [] => fault .endElementMismatch mark b
  | id :: _ => do
    let (found, after) := s.readName
    let stop := found.elim mark (·.2)
    let name ← sound .badSlice (sliceBytes? s.text mark stop)
    let expected := b.doc.name id
    if name ≠ expected then
      if stop = s.size && beginsWith name.toList expected.toList then fault .badEndElement stop b
      else fault .endElementMismatch mark b
    else
      let b ← pop b id
      match after.skipSpace.eat '>'.toUInt8 with
      | (true, s) => return (s, b)
      | (false, s) => fault .badEndElement s.position b

/-! ## Instructions and declarations -/

/-- Makes a declaration, which may be given attributes from now on. -/
def declare (b : TreeBuilder) (name : TextSlot) : NodeId × TreeBuilder :=
  let (id, b) := b.push target .declaration name .null
  (id, { b with owner := id })

/-- Reads what follows the target of a processing instruction. -/
def instruction (s : Scanner) (b : TreeBuilder) (name : TextSlot) :
    Except LoadStop (Scanner × TreeBuilder) :=
  let bare := (b.push target .pi name .null).2
  match s.peek? with
  | none => fault .badPi s.position bare
  | some c =>
    if c = '?'.toUInt8 then
      match (s.advance 1).eat '>'.toUInt8 with
      | (true, s) => return (s, bare)
      | (false, s) => fault .badPi s.position bare
    else if isSpaceByte c then
      let s := s.skipSpace
      match s.findMark? (utf8 "?>".toList) with
      | some stop => do
        let value ← range target s b s.position stop
        return (s.moveTo (stop + 2), (b.push target .pi name value).2)
      | none => fault .badPi s.size bare
    else fault .badPi s.position bare

/-- Reads what follows the target of a declaration. -/
def declaration (s : Scanner) (b : TreeBuilder) (name : TextSlot) :
    Except LoadStop (Scanner × TreeBuilder) :=
  let (id, b) := declare target b name
  match s.peek? with
  | none => fault .badPi s.position b
  | some c =>
    if c = '?'.toUInt8 then
      match (s.advance 1).eat '>'.toUInt8 with
      | (true, s) => return (s, b)
      | (false, s) => fault .badPi s.position b
    else if isSpaceByte c then attributes target true id (s.size + 1) s.skipSpace b
    else fault .badPi s.position b

/-- Reads an instruction or a declaration from its `?` on. -/
def question (s : Scanner) (b : TreeBuilder) : Except LoadStop (Scanner × TreeBuilder) :=
  match (s.advance 1).readName with
  | (none, s) => fault .badPi s.position b
  | (some (start, stop), s) => do
    let name ← sound .badSlice (sliceBytes? s.text start stop)
    let isDeclaration := eqIgnoringCase name.toList "xml".toList
    let wanted := if isDeclaration then ParseOptions.declaration else .pi
    if !target.options.contains wanted then
      match s.findMark? (utf8 "?>".toList) with
      | some stop => return (s.moveTo (stop + 2), b)
      | none => fault .badPi s.size b
    else if isDeclaration then
      if b.doc.kind (b.cursor target) == .document then
        declaration target s b (← range target s b start stop)
      else fault .badPi stop b
    else instruction target s b (← range target s b start stop)

/-! ## Comments, CDATA sections, document types -/

/-- Reads up to a mark; the text in between becomes a node if it is wanted. -/
def delimited (s : Scanner) (b : TreeBuilder) (mark : List UInt8) (wanted : Bool)
    (kind : NodeKind) (status : LoadStatus) : Except LoadStop (Scanner × TreeBuilder) :=
  match s.findMark? mark with
  | none => fault status s.position b
  | some stop => do
    let next := s.moveTo (stop + mark.length)
    if wanted then
      let raw ← sound .badSlice (sliceBytes? s.text s.position stop)
      let (slot, b) ← converted target b s.position raw
        (some (TreeBuilder.sectionConversion target.options raw.toList))
      return (next, (b.push target kind .null slot).2)
    else return (next, b)

/-- The scanner behind the `]]>` that closes `depth` open sections, if they are closed; none
after too many rounds. -/
def behindSections? : Nat → (depth : Nat) → Scanner → Option (Option Scanner)
  | 0, _, _ => none
  | rounds + 1, depth, s =>
    if depth = 0 then some (some s)
    else if s.atEnd then some none
    else if s.beginsWith (utf8 "<![".toList) then behindSections? rounds (depth + 1) (s.advance 3)
    else if s.beginsWith (utf8 "]]>".toList) then behindSections? rounds (depth - 1) (s.advance 3)
    else behindSections? rounds depth (s.advance 1)

/-- The place of the `>` that ends a document type, when `depth` declarations inside it are open,
if it ends; none after too many rounds. -/
def doctypeEnd? : Nat → (depth : Nat) → Scanner → Option (Option Nat)
  | 0, _, _ => none
  | rounds + 1, depth, s =>
    let behind (found : Option Nat) (size : Nat) : Option (Option Nat) :=
      match found with
      | some stop => doctypeEnd? rounds depth (s.moveTo (stop + size))
      | none => some none
    match s.peek? with
    | none => some none
    | some c =>
      if c = '"'.toUInt8 || c = '\''.toUInt8 then behind ((s.advance 1).findByte? c) 1
      else if s.beginsWith (utf8 "<!--".toList) then behind (s.findMark? (utf8 "-->".toList)) 3
      else if s.beginsWith (utf8 "<?".toList) then behind (s.findMark? (utf8 "?>".toList)) 2
      else if s.beginsWith (utf8 "<![".toList) then
        match behindSections? (s.size + 1) 1 (s.advance 3) with
        | none => none
        | some none => some none
        | some (some s) => doctypeEnd? rounds depth s
      else if c = '<'.toUInt8 then doctypeEnd? rounds (depth + 1) (s.advance 1)
      else if c = '>'.toUInt8 then
        if depth = 0 then some (some s.position) else doctypeEnd? rounds (depth - 1) (s.advance 1)
      else doctypeEnd? rounds depth (s.advance 1)

/-- Reads a document type from its keyword on. -/
def doctype (s : Scanner) (b : TreeBuilder) : Except LoadStop (Scanner × TreeBuilder) :=
  if b.doc.kind (b.cursor target) == .document then do
    let s := s.advance "DOCTYPE".length
    match ← sound .tooManyRounds (doctypeEnd? (s.size + 1) 0 s) with
    | none => fault .badDoctype s.size b
    | some stop =>
      let next := s.moveTo (stop + 1)
      if target.options.contains .doctype then
        let white := ((s.rest.take (stop - s.position)).takeWhile isSpaceByte).length
        let body ← range target s b (s.position + white) stop
        return (next, (b.push target .doctype .null body).2)
      else return (next, b)
  -- the two characters before the keyword are `<!`
  else fault .badDoctype (s.position - 2) b

/-- Reads what begins with `!`. -/
def exclamation (s : Scanner) (b : TreeBuilder) : Except LoadStop (Scanner × TreeBuilder) :=
  let s := s.advance 1
  if s.beginsWith (utf8 "--".toList) then
    delimited target (s.advance 2) b (utf8 "-->".toList) (target.options.contains .comments)
      .comment .badComment
  else if s.beginsWith (utf8 "[CDATA[".toList) then
    delimited target (s.advance 7) b (utf8 "]]>".toList) (target.options.contains .cdata)
      .cdata .badCdata
  else if s.beginsWith (utf8 "DOCTYPE".toList) then doctype target s b
  else if s.peek? = some '-'.toUInt8 then fault .badComment s.position b
  else if s.peek? = some '['.toUInt8 then fault .badCdata s.position b
  else fault .unrecognizedTag s.position b

/-! ## Whole texts -/

/-- Reads what follows `<`. -/
def markup (s : Scanner) (b : TreeBuilder) : Except LoadStop (Scanner × TreeBuilder) :=
  match s.peek? with
  | none => fault .unrecognizedTag s.position b
  | some c =>
    if isNameStartByte c then startTag target s b
    else if c = '/'.toUInt8 then endTag s b
    else if c = '?'.toUInt8 then question target s b
    else if c = '!'.toUInt8 then exclamation target s b
    else fault .unrecognizedTag s.position b

/-- Adds the text from here to the next tag, if there is any. -/
def textBefore (s : Scanner) (b : TreeBuilder) (tag : Nat) : Except LoadStop TreeBuilder :=
  if s.position < tag then text target s b s.position tag else .ok b

/-- Reads to the end of the text or to the first fault. -/
def run : Nat → Scanner → TreeBuilder → Except LoadStop TreeBuilder
  | 0, _, _ => .error (.alarm .tooManyRounds)
  | rounds + 1, s, b =>
    if s.atEnd then
      if b.openNodes.isEmpty then .ok b else fault .endElementMismatch s.size b
    else do
      match s.findTagStart? with
      | some tag =>
        let b ← textBefore target s b tag
        let (s, b) ← markup target (s.moveTo (tag + 1)) b
        run rounds s b
      | none =>
        let b ← text target s b s.position s.size
        run rounds (s.moveTo s.size) b

end

end Watch

end XmlTree
