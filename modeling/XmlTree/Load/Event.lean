/-
  Load/Event.lean --- what markup says, one construct at a time.

  WHAT THIS FILE IS FOR.  Reading markup gives a list of events in the order of the
  text, and possibly a fault at its end.  An event carries the characters it is made
  of and where they stand, so that a tree built from it can refer to the loaded text
  instead of copying it.
-/
import XmlTree.Load.Status

set_option autoImplicit false

namespace XmlTree

/-- A piece of the loaded text: its characters and the byte they begin at. -/
structure Span where
  start : Nat
  text : List Char
  deriving DecidableEq, Repr, Inhabited

/-- The byte after a piece of text. -/
def Span.stop (s : Span) : Nat := s.start + byteSize s.text

/-- One construct of markup. -/
inductive LoadEvent where
  /-- characters between tags, as they stand; `closing` tells that an end tag comes
  right after them -/
  | text (raw : Span) (closing : Bool)
  /-- the start of an element -/
  | openElement (name : Span)
  /-- the end of the innermost open element -/
  | closeElement
  /-- an attribute of what was opened last, with its raw value if it has one -/
  | attribute (name : Span) (raw : Option Span)
  | comment (raw : Span)
  | cdata (raw : Span)
  /-- a processing instruction, with its value if it has one -/
  | pi (target : Span) (value : Option Span)
  | declaration (target : Span)
  | doctype (body : Span)
  deriving DecidableEq, Repr, Inhabited

/-- Why and where reading stopped. -/
structure LoadFault where
  status : LoadStatus
  /-- bytes before the place of the fault -/
  offset : Nat
  deriving DecidableEq, Repr, Inhabited

/-- What was read up to the end of the text, or up to a fault. -/
structure Transcript where
  events : List LoadEvent
  fault : Option LoadFault
  deriving DecidableEq, Repr, Inhabited

/-- The transcript with further events in front. -/
def Transcript.after (t : Transcript) (events : List LoadEvent) : Transcript :=
  { t with events := events ++ t.events }

end XmlTree
