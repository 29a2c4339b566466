/-
  Text/Slice.lean --- a range of bytes of a text, read as a text.

  A range is a text again only if both of its ends fall between two characters.
  `sliceBytes?` answers exactly then.
-/
set_option autoImplicit false

namespace XmlTree

/-- The part of `s` from byte `start` up to byte `stop`, if the range lies in
`s` and cuts no character. -/
def sliceBytes? (s : String) (start stop : Nat) : Option String :=
  if start ≤ stop then
    match s.pos? ⟨start⟩, s.pos? ⟨stop⟩ with
    | some b, some e => some (s.extract b e)
    | _, _ => none
  else
    none

/-- The longest text of at most `limit` bytes that begins `s` and cuts no
character. -/
def clipBytes (s : String) (limit : Nat) : String :=
  String.ofList (go limit s.toList)
where
  /-- Takes characters while the next one still fits. -/
  go (room : Nat) : List Char → List Char
    | [] => []
    | c :: cs => if c.utf8Size ≤ room then c :: go (room - c.utf8Size) cs else []

end XmlTree
