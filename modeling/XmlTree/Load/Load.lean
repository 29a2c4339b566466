/-
  Load/Load.lean --- loading texts, bytes and what was fetched.

  WHAT THIS FILE IS FOR.  A load empties the document and fills it from a text; an
  appended load keeps the tree and fills a node of it.  The tree that was built up to
  a fault stays.  Unless a fragment is allowed, a text has to have an element at its
  top; a text without any characters counts as loaded.

  WHERE A FAULT IS REPORTED.  Places at or beyond the end are reported as the last
  byte.
-/
import XmlTree.Encoding.Codec
import XmlTree.Load.Reader
import XmlTree.Load.Builder

set_option autoImplicit false

namespace XmlTree

namespace Document

/-- Adds what a text says below a node.  Answers how it ended and where. -/
def loadBelow (doc : Document) (base : NodeId) (text : String) (options : ParseOptions) :
    LoadFault × Document :=
  let (buffer, texts) := doc.texts.addBuffer text
  let doc := { doc with texts }
  if text.isEmpty then
    (⟨.ok, 0⟩, doc)
  else
    let last := text.utf8ByteSize - 1
    let mode : ReaderMode := ⟨options, doc.kind base == .document⟩
    let transcript := Transcript.ofText mode text.toList
    let before := (doc.children base).length
    let (stopped, doc) := doc.addEvents ⟨base, buffer, options⟩ transcript.events
    -- what ended the building was met before what ended the reading
    match stopped <|> transcript.fault with
    | some fault => (⟨fault.status, min fault.offset last⟩, doc)
    | none =>
      let added := (doc.children base).drop before
      if options.contains .fragment || added.any (fun c => doc.kind c == .element) then
        (⟨.ok, 0⟩, doc)
      else
        (⟨.noDocumentElement, last⟩, doc)

/-- Replaces the content of the document by that of a text. -/
def loadString (doc : Document) (text : String) (options : ParseOptions) :
    LoadResult × Document :=
  let doc := doc.reset
  let (outcome, doc) := doc.loadBelow doc.root text options
  (⟨outcome.status, outcome.offset, .utf8⟩, doc)

/-- Replaces the content of the document by that of bytes. -/
def loadBytes (doc : Document) (bytes : Bytes) (options : ParseOptions) (encoding : Encoding) :
    LoadResult × Document :=
  let doc := doc.reset
  let encoding := encoding.forInput bytes
  let (outcome, doc) := doc.loadBelow doc.root (encoding.decodeLossy bytes) options
  (⟨outcome.status, outcome.offset, encoding⟩, doc)

/-- Replaces the content of the document by that of bytes that had to be fetched; a
failure to fetch them leaves it empty. -/
def loadFetched (doc : Document) (fetched : Except FetchFailure Bytes) (options : ParseOptions)
    (encoding : Encoding) : LoadResult × Document :=
  match fetched with
  | .ok bytes => doc.reset.loadBytes bytes options encoding
  | .error failure => (⟨failure.status, 0, encoding⟩, doc.reset)

/-- Adds the content of bytes at the end of the children of a node. -/
def appendBytes (doc : Document) (parent : NodeId) (bytes : Bytes) (options : ParseOptions)
    (encoding : Encoding) : LoadResult × Document :=
  if (doc.kind parent).hasChildren then
    let encoding := encoding.forInput bytes
    let (outcome, doc) :=
      doc.forgetOrder.loadBelow parent (encoding.decodeLossy bytes) options
    (⟨outcome.status, outcome.offset, encoding⟩, doc)
  else
    (⟨.appendInvalidRoot, 0, encoding⟩, doc)

end Document

end XmlTree
