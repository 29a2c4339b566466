/-
  Save/Save.lean --- saving documents and printing nodes.

  WHAT THIS FILE IS FOR.  Saving writes a byte order mark if asked for, a
  declaration unless there is one before the first element, and the tree.  Printing
  writes the tree of one node and nothing else.
-/
import XmlTree.Save.Markup
import XmlTree.Save.Piece

set_option autoImplicit false

namespace XmlTree

namespace Document

/-- Whether a declaration stands at the top before the first element. -/
def hasDeclaration (doc : Document) : Bool :=
  ((doc.children doc.root).map doc.kind).find? (fun k => k == .declaration || k == .element)
    == some .declaration

/-- The pieces of the declaration that is added to a document without one. -/
def declarationPieces (options : FormatOptions) (encoding : Encoding) : List String :=
  let name := if encoding = .latin1 then [" encoding=\"ISO-8859-1\""] else []
  let lineEnd := if options.contains .raw then [] else ["\n"]
  "<?xml version=\"1.0\"" :: (name ++ "?>" :: lineEnd)

/-- The pieces of a whole document in a concrete encoding. -/
def pieces (doc : Document) (indent : String) (options : FormatOptions) (encoding : Encoding) :
    List Piece :=
  let mark :=
    if options.contains .writeBom && encoding != .latin1 then
      [Piece.raw encoding.byteOrderMark]
    else
      []
  let declaration :=
    if !options.contains .noDeclaration && !doc.hasDeclaration then
      declarationPieces options encoding
    else
      []
  let markup := (doc.tree doc.root).markupPieces (.ofOptions indent options) 0
  mark ++ (declaration ++ markup).map Piece.text

/-- Writes a document to a sink.  Answers whether the sink took everything, and its
state. -/
def save {σ : Type} (doc : Document) (out : Sink σ) (sink : σ) (indent : String)
    (options : FormatOptions) (encoding : Encoding) : Except SinkFailure Unit × σ :=
  (OutputBuffer.new sink encoding OutputBuffer.defaultCapacity).writeAll out
    (doc.pieces indent options encoding.forOutput)

/-- A document as a text. -/
def saveString (doc : Document) (indent : String) (options : FormatOptions) : String :=
  (doc.save Sink.text "" indent options .utf8).2

/-- Writes the tree of a node to a sink, as if the node stood at the given depth; a
stale handle writes nothing. -/
def print {σ : Type} (doc : Document) (out : Sink σ) (sink : σ) (id : NodeId) (indent : String)
    (options : FormatOptions) (encoding : Encoding) (depth : Nat) : Except SinkFailure Unit × σ :=
  let pieces :=
    if doc.contains id then (doc.tree id).markupPieces (.ofOptions indent options) depth else []
  (OutputBuffer.new sink encoding OutputBuffer.defaultCapacity).writeAll out
    (pieces.map Piece.text)

end Document

end XmlTree
