/-
  Save/Markup.lean --- a tree written as markup.

  WHAT THIS FILE IS FOR.  A tree is turned into pieces of text: tags, attributes,
  character data and the other constructs, with line breaks and indentation between
  them if asked for.

  NO VALUE CAN LEAVE ITS CONSTRUCT.  In character data and attribute values the
  characters of markup become references; `]]>` is cut in two sections, `--` and a
  hyphen at the end of a comment get a space, and so does `?>` in an instruction.

  WHAT GOES BETWEEN TAGS.  A gap says what separates the next tag from what was
  written before: a line break with indentation, indentation alone, or nothing, which
  is the case next to character data.
-/
import XmlTree.Document.Tree
import XmlTree.Text.Chars
import XmlTree.Options

set_option autoImplicit false

namespace XmlTree

/-! ## Style -/

/-- How a tree is written. -/
structure MarkupStyle where
  /-- written once for each level; empty for no indentation -/
  indent : String
  options : FormatOptions
  deriving DecidableEq, Repr, Inhabited

namespace MarkupStyle

/-- The style for an indentation and options, where the options may leave the
indentation out. -/
def ofOptions (indent : String) (options : FormatOptions) : MarkupStyle :=
  let used := options.intersects (.union .indent .indentAttributes) && !options.contains .raw
  ⟨if used then indent else "", options⟩

/-- Whether a switch is on. -/
def has (s : MarkupStyle) (flag : FormatOptions) : Bool := s.options.contains flag

/-- The style inside a declaration: never more than one line. -/
def flat (s : MarkupStyle) : MarkupStyle := ⟨"", s.options.union .raw⟩

/-- The character around attribute values. -/
def quote (s : MarkupStyle) : String := if s.has .attributeSingleQuote then "'" else "\""

end MarkupStyle

/-! ## Escaping -/

/-- Where a text stands. -/
inductive TextContext where
  | pcdata
  | attribute
  deriving DecidableEq, Repr, Inhabited

/-- Whether a character cannot stand for itself. -/
def needsEscape (ctx : TextContext) (c : Char) : Bool :=
  match ctx with
  | .pcdata =>
    c == '&' || c == '<' || c == '>'
      || (c.toNat < 32 && !(c == '\t' || c == '\n' || c == '\r'))
  | .attribute => c == '&' || c == '<' || c == '"' || c == '\'' || c.toNat < 32

/-- The pieces that are written for a character that cannot stand for itself. -/
def escapePieces (style : MarkupStyle) (c : Char) : List String :=
  let single := style.has .attributeSingleQuote
  if c = '&' then ["&amp;"]
  else if c = '<' then ["&lt;"]
  else if c = '>' then ["&gt;"]
  else if c = '"' then [if single then "\"" else "&quot;"]
  else if c = '\'' then [if single then "&apos;" else "'"]
  else if style.has .skipControlChars then []
  else
    ["&#", String.singleton (Char.ofNat ('0'.toNat + c.toNat / 10)),
      String.singleton (Char.ofNat ('0'.toNat + c.toNat % 10)), ";"]

/-- The pieces of a text: the longest runs of characters that stand for themselves,
and the escapes between them.  `run` holds the run so far, the last character
first. -/
def escapedPieces (style : MarkupStyle) (ctx : TextContext) (run : List Char) :
    List Char → List String
  | [] => [String.ofList run.reverse]
  | c :: cs =>
    if needsEscape ctx c then
      String.ofList run.reverse :: (escapePieces style c ++ escapedPieces style ctx [] cs)
    else
      escapedPieces style ctx (c :: run) cs

/-- The pieces of character data or of an attribute value. -/
def textPieces (style : MarkupStyle) (ctx : TextContext) (s : String) : List String :=
  if style.has .noEscapes then [s] else escapedPieces style ctx [] s.toList

/-! ## Constructs -/

/-- The pieces of a CDATA section.  Where the text ends a section early, the section
is closed after the brackets and another one opened. -/
def cdataPieces (cs : List Char) : List String :=
  match _h : cutAt? "]]>".toList cs with
  | some (before, after) =>
    "<![CDATA[" :: String.ofList (before ++ "]]".toList) :: "]]>" :: cdataPieces ('>' :: after)
  | none => ["<![CDATA[", String.ofList cs, "]]>"]
termination_by cs.length
decreasing_by
  have := length_of_cutAt? _h
  simp at this ⊢
  omega

/-- The pieces of a comment's text: a hyphen before another one, or at the end, is
followed by a space. -/
def commentTextPieces (run : List Char) : List Char → List String
  | [] => [String.ofList run.reverse]
  | c :: cs =>
    if c = '-' && (cs.isEmpty || cs.head? = some '-') then
      String.ofList run.reverse :: "- " :: commentTextPieces [] cs
    else
      commentTextPieces (c :: run) cs

/-- The pieces of an instruction's text: what would end it is parted. -/
def piTextPieces (cs : List Char) : List String :=
  match _h : cutAt? "?>".toList cs with
  | some (before, after) => String.ofList before :: "? >" :: piTextPieces after
  | none => [String.ofList cs]
termination_by cs.length
decreasing_by
  have := length_of_cutAt? _h
  simp at this
  omega

/-- The name that is written for something without a name. -/
def anonymousName : String := ":anonymous"

/-- The name that is written. -/
def writtenName (name : Option String) : String := name.getD anonymousName

/-- The pieces of an attribute at the given depth. -/
def attributePieces (style : MarkupStyle) (depth : Nat) (a : TreeAttribute) : List String :=
  let ownLine := style.has .indentAttributes && !style.has .raw
  let separator :=
    if ownLine then
      "\n" :: (if style.indent.isEmpty then [] else List.replicate (depth + 1) style.indent)
    else
      [" "]
  let value := a.value.elim [] (textPieces style .attribute)
  separator ++ writtenName a.name :: "=" :: style.quote :: (value ++ [style.quote])

/-- The pieces of the attributes of a node. -/
def attributesPieces (style : MarkupStyle) (depth : Nat) (as : List TreeAttribute) :
    List String :=
  as.flatMap (attributePieces style depth)

/-- The pieces of a node that has no children. -/
def leafPieces (style : MarkupStyle) (l : TreeLabel) : List String :=
  let value := l.value.getD ""
  match l.kind with
  | .pcdata => textPieces style .pcdata value
  | .cdata => cdataPieces value.toList
  | .comment => "<!--" :: (commentTextPieces [] value.toList ++ ["-->"])
  | .pi =>
    let text := if l.value.isSome then " " :: piTextPieces value.toList else []
    "<?" :: writtenName l.name :: (text ++ ["?>"])
  | .declaration =>
    "<?" :: writtenName l.name :: (attributesPieces style.flat 0 l.attributes ++ ["?>"])
  | .doctype =>
    let text := if l.value.isSome then [" ", value] else []
    "<!DOCTYPE" :: (text ++ [">"])
  | _ => []

/-! ## Gaps -/

/-- What separates the next tag from what was written before. -/
inductive Gap where
  /-- nothing -/
  | joined
  /-- indentation -/
  | indented
  /-- a line break and indentation -/
  | line
  deriving DecidableEq, Repr, Inhabited

/-- The pieces of a line break. -/
def lineBreak (style : MarkupStyle) : List String := if style.has .raw then [] else ["\n"]

/-- The pieces of the indentation at a depth. -/
def indentation (style : MarkupStyle) (depth : Nat) : List String :=
  if style.indent.isEmpty then [] else List.replicate depth style.indent

/-- The pieces of a gap before a tag at a depth. -/
def Gap.pieces (style : MarkupStyle) (depth : Nat) : Gap → List String
  | joined => []
  | indented => indentation style depth
  | line => lineBreak style ++ indentation style depth

/-- The gap after a tree. -/
def Gap.after : Tree → Gap
  | .node l children =>
    match l.kind with
    | .pcdata | .cdata => joined
    | .document => lastGap indented children
    | _ => line
where
  /-- The gap after trees that stand side by side. -/
  lastGap (gap : Gap) : List Tree → Gap
    | [] => gap
    | t :: ts => lastGap (Gap.after t) ts

/-! ## Trees -/

/-- The pieces of the end tag of an element. -/
def endTag (l : TreeLabel) : List String := ["</", writtenName l.name, ">"]

/-- The pieces of an element without children and without text of its own. -/
def emptyElementEnd (style : MarkupStyle) (l : TreeLabel) : List String :=
  if style.has .noEmptyElementTags then ["></", writtenName l.name, ">"]
  else if style.has .raw then ["/>"]
  else [" ", "/>"]

mutual

/-- The pieces of a tree at a depth, after a gap, with `tail` after them. -/
def Tree.pieces (style : MarkupStyle) (depth : Nat) (gap : Gap) (tail : List String) :
    Tree → List String
  | .node l children =>
    match l.kind with
    | .null => tail
    | .pcdata | .cdata => leafPieces style l ++ tail
    | .document =>
      gap.pieces style depth ++ Tree.allPieces style depth .indented tail children
    | .element =>
      let start := gap.pieces style depth
        ++ "<" :: writtenName l.name :: attributesPieces style depth l.attributes
      let inner := if l.value.isSome then Gap.joined else .line
      match children, l.value with
      | [], none => start ++ (emptyElementEnd style l ++ tail)
      | [], some value => start ++ ">" :: (textPieces style .pcdata value ++ (endTag l ++ tail))
      | children, value =>
        let text := value.elim [] (textPieces style .pcdata)
        let last := Gap.after.lastGap inner children
        let close := last.pieces style depth ++ (endTag l ++ tail)
        start ++ ">" :: (text ++ Tree.allPieces style (depth + 1) inner close children)
    | _ => gap.pieces style depth ++ (leafPieces style l ++ tail)

/-- The pieces of trees side by side, with `tail` after them. -/
def Tree.allPieces (style : MarkupStyle) (depth : Nat) (gap : Gap) (tail : List String) :
    List Tree → List String
  | [] => tail
  | t :: ts => t.pieces style depth gap (Tree.allPieces style depth (Gap.after t) tail ts)

end

/-- The pieces of a tree by itself, with the line break that ends it. -/
def Tree.markupPieces (style : MarkupStyle) (depth : Nat) (t : Tree) : List String :=
  let final := if Gap.after t = .line then lineBreak style else []
  t.pieces style depth .indented final

end XmlTree
