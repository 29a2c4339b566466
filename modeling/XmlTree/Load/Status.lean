/-
  Load/Status.lean --- how a load can end.
-/
import XmlTree.Encoding.Basic

set_option autoImplicit false

namespace XmlTree

/-- The outcome of a load. -/
inductive LoadStatus where
  | ok
  | fileNotFound
  | ioError
  | outOfMemory
  | internalError
  | unrecognizedTag
  | badPi
  | badComment
  | badCdata
  | badDoctype
  | badPcdata
  | badStartElement
  | badAttribute
  | badEndElement
  | endElementMismatch
  /-- what a load was to be appended to cannot have children -/
  | appendInvalidRoot
  | noDocumentElement
  deriving DecidableEq, Repr, Inhabited

namespace LoadStatus

/-- All outcomes. -/
def all : List LoadStatus :=
  [ok, fileNotFound, ioError, outOfMemory, internalError, unrecognizedTag, badPi, badComment,
    badCdata, badDoctype, badPcdata, badStartElement, badAttribute, badEndElement,
    endElementMismatch, appendInvalidRoot, noDocumentElement]

/-- What is said about an outcome. -/
def message : LoadStatus → String
  | ok => "No error"
  | fileNotFound => "File was not found"
  | ioError => "Error reading from file/stream"
  | outOfMemory => "Could not allocate memory"
  | internalError => "Internal error occurred"
  | unrecognizedTag => "Could not determine tag type"
  | badPi => "Error parsing document declaration/processing instruction"
  | badComment => "Error parsing comment"
  | badCdata => "Error parsing CDATA section"
  | badDoctype => "Error parsing document type declaration"
  | badPcdata => "Error parsing PCDATA section"
  | badStartElement => "Error parsing start element tag"
  | badAttribute => "Error parsing element attribute"
  | badEndElement => "Error parsing end element tag"
  | endElementMismatch => "Start-end tags mismatch"
  | appendInvalidRoot => "Unable to append nodes: root is not an element or document"
  | noDocumentElement => "No document element found"

end LoadStatus

/-- What a load reports: how it ended, where it failed in the decoded text, and the
encoding that the text was read in. -/
structure LoadResult where
  status : LoadStatus
  /-- a number of bytes; zero when the load succeeded -/
  offset : Nat
  encoding : Encoding
  deriving DecidableEq, Repr, Inhabited

namespace LoadResult

/-- A result that nothing has been reported in. -/
def unset : LoadResult := ⟨.internalError, 0, .auto⟩

/-- Whether the load succeeded. -/
def isOk (r : LoadResult) : Bool := r.status = .ok

/-- What is said about a load. -/
def message (r : LoadResult) : String :=
  if r.isOk then r.status.message
  else r.status.message ++ " at offset " ++ String.ofList (Nat.toDigits 10 r.offset)

end LoadResult

/-- Why bytes could not be fetched. -/
inductive FetchFailure where
  | notFound
  | outOfMemory
  | other
  deriving DecidableEq, Repr, Inhabited

/-- The outcome of a load whose bytes could not be fetched. -/
def FetchFailure.status : FetchFailure → LoadStatus
  | notFound => .fileNotFound
  | outOfMemory => .outOfMemory
  | other => .ioError

end XmlTree
