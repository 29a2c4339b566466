/-
  Load/Builder.lean --- from events to nodes.

  WHAT THIS FILE IS FOR.  The builder adds a node or an attribute for each event, at
  the end of the innermost open element, or of the node that the text goes below.
  Names and untouched texts become ranges of the loaded text; converted texts are
  copied.

  A TEXT THAT IS TOO LONG to be copied ends the load where it begins.  What was added
  before stays, and so does an attribute whose value is such a text, without the value.

  CHARACTER DATA is where the options decide most: white space alone is dropped
  unless asked for, text at the top of a document is dropped, the first text of an
  element may be embedded in it, and text may be joined to the text before it.
-/
import XmlTree.Load.Event
import XmlTree.Text.Conversion
import XmlTree.Document.Edit

set_option autoImplicit false

namespace XmlTree

/-- Where a loaded text goes, and how. -/
structure LoadTarget where
  /-- the node that the text goes below -/
  base : NodeId
  /-- the number of the loaded text -/
  buffer : Nat
  options : ParseOptions
  deriving DecidableEq, Repr, Inhabited

/-- A tree that is being built. -/
structure TreeBuilder where
  doc : Document
  /-- the open elements, the innermost first -/
  openNodes : List NodeId
  /-- the node that attributes go to -/
  owner : NodeId
  deriving Repr, Inhabited

namespace TreeBuilder

/-- The node that new nodes go below. -/
def cursor (b : TreeBuilder) (target : LoadTarget) : NodeId := b.openNodes.head?.getD target.base

/-- The slot for a piece of the loaded text. -/
def rangeSlot (target : LoadTarget) (s : Span) : TextSlot :=
  .borrowed target.buffer s.start s.stop

/-- The slot for a piece of the loaded text after its conversion, unless it is too long. -/
def conversionSlot (b : TreeBuilder) (target : LoadTarget) (raw : Span) :
    Conversion → Option TextSlot × TreeBuilder
  | .verbatim skipped text => (some (rangeSlot target ⟨raw.start + skipped, text⟩), b)
  | .fresh text =>
    let (slot, doc) := b.doc.ownText (String.ofList text)
    (slot, { b with doc })

/-- What is reported of a piece of the loaded text that is too long. -/
def refusal (raw : Span) : LoadFault := ⟨.outOfMemory, raw.start⟩

/-- Goes on with the slot for a piece of the loaded text after its conversion. -/
def withSlot (b : TreeBuilder) (target : LoadTarget) (raw : Span) (conversion : Conversion)
    (next : TextSlot → TreeBuilder → TreeBuilder) : Option LoadFault × TreeBuilder :=
  match b.conversionSlot target raw conversion with
  | (some slot, b) => (none, next slot b)
  | (none, b) => (some (refusal raw), b)

/-- Adds a node at the end. -/
def push (b : TreeBuilder) (target : LoadTarget) (kind : NodeKind) (name value : TextSlot) :
    NodeId × TreeBuilder :=
  match b with
  | ⟨doc, openNodes, owner⟩ =>
    let cursor := openNodes.head?.getD target.base
    let (id, doc) := doc.allocNode kind
    let doc := doc.modifyNode id fun r => { r with name, value }
    (id, ⟨doc.link cursor .last id, openNodes, owner⟩)

/-- Whether white space alone is kept as character data. -/
def keepsSpace (b : TreeBuilder) (target : LoadTarget) (closing : Bool) : Bool :=
  let options := target.options
  options.intersects (.union .wsPcdata .wsPcdataSingle) && !options.contains .trimPcdata
    && (!options.contains .wsPcdataSingle
      || (closing && (b.doc.firstChild? (b.cursor target)).isNone))

/-- Whether the next text is to be embedded in the innermost open element. -/
def embedsNext (b : TreeBuilder) (target : LoadTarget) : Bool :=
  target.options.contains .embedPcdata &&
    match b.doc.node? (b.cursor target) with
    | some r => r.kind != .document && r.children.first.isNone && r.value.isNull
    | none => false

/-- The character data that the next text is to be joined to. -/
def joinsTo? (b : TreeBuilder) (target : LoadTarget) : Option NodeId :=
  if target.options.contains .mergePcdata then
    (b.doc.lastChild? (b.cursor target)).filter fun c => b.doc.kind c == .pcdata
  else
    none

/-- Adds characters between tags. -/
def addText (b : TreeBuilder) (target : LoadTarget) (raw : Span) (closing : Bool) :
    Option LoadFault × TreeBuilder :=
  let cursor := b.cursor target
  let atTop := b.doc.kind cursor == .document
  if raw.text.all isSpace && !b.keepsSpace target closing then (none, b)
  else if atTop && !target.options.contains .fragment then (none, b)
  else
    let converted := convertPcdata target.options raw.text
    if b.embedsNext target then
      b.withSlot target raw converted fun slot b =>
        { b with doc := b.doc.modifyNode cursor fun r => { r with value := slot } }
    else
      match b.joinsTo? target with
      | some previous =>
        let joined := b.doc.value previous ++ String.ofList converted.text
        match b.doc.replaceValue previous joined with
        | (true, doc) => (none, { b with doc })
        | (false, doc) => (some (refusal raw), { b with doc })
      | none =>
        b.withSlot target raw converted fun slot b => (b.push target .pcdata .null slot).2

/-- The conversion of the text of a comment or of a CDATA section. -/
def sectionConversion (options : ParseOptions) (cs : List Char) : Conversion :=
  if options.contains .eol then convertLineEnds cs else .verbatim 0 cs

/-- Adds a comment or a CDATA section. -/
def addSection (b : TreeBuilder) (target : LoadTarget) (kind : NodeKind) (raw : Span) :
    Option LoadFault × TreeBuilder :=
  b.withSlot target raw (sectionConversion target.options raw.text) fun slot b =>
    (b.push target kind .null slot).2

/-- Adds an attribute without a value to the node that was opened last. -/
def addAttributeName (b : TreeBuilder) (target : LoadTarget) (name : Span) :
    AttrId × TreeBuilder :=
  let owner := b.owner
  let (id, doc) := b.doc.allocAttr
  let doc := doc.linkAttr owner .last id
  (id, { b with doc := doc.modifyAttr id fun r => { r with name := rangeSlot target name } })

/-- Adds an attribute to the node that was opened last. -/
def addAttribute (b : TreeBuilder) (target : LoadTarget) (name : Span) (raw : Option Span) :
    Option LoadFault × TreeBuilder :=
  let (id, b) := b.addAttributeName target name
  match raw with
  | some raw =>
    b.withSlot target raw (convertAttribute target.options raw.text) fun slot b =>
      { b with doc := b.doc.modifyAttr id fun r => { r with value := slot } }
  | none => (none, b)

/-- Adds what one event stands for.  Answers a fault for a text that is too long. -/
def add (target : LoadTarget) (b : TreeBuilder) : LoadEvent → Option LoadFault × TreeBuilder
  | .text raw closing => b.addText target raw closing
  | .openElement name =>
    let (id, b) := b.push target .element (rangeSlot target name) .null
    (none, { b with openNodes := id :: b.openNodes, owner := id })
  | .closeElement => (none, { b with openNodes := b.openNodes.tail })
  | .attribute name raw => b.addAttribute target name raw
  | .comment raw => b.addSection target .comment raw
  | .cdata raw => b.addSection target .cdata raw
  | .pi name value =>
    (none, (b.push target .pi (rangeSlot target name) (value.elim .null (rangeSlot target))).2)
  | .declaration name =>
    let (id, b) := b.push target .declaration (rangeSlot target name) .null
    (none, { b with owner := id })
  | .doctype body => (none, (b.push target .doctype .null (rangeSlot target body)).2)

/-- Adds what events stand for, up to the first fault. -/
def addAll (target : LoadTarget) (b : TreeBuilder) :
    List LoadEvent → Option LoadFault × TreeBuilder
  | [] => (none, b)
  | e :: es =>
    match b.add target e with
    | (none, b) => b.addAll target es
    | (some fault, b) => (some fault, b)

end TreeBuilder

/-- The document with what the events stand for below the target, and the fault that
ended it early, if there was one. -/
def Document.addEvents (doc : Document) (target : LoadTarget) (events : List LoadEvent) :
    Option LoadFault × Document :=
  let (fault, b) := TreeBuilder.addAll target ⟨doc, [], target.base⟩ events
  (fault, b.doc)

end XmlTree
