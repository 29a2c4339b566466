/-
  Query/Function.lean --- the core function library.

  WHAT THIS FILE IS FOR.  Each function of the core library as a function of the
  values of its arguments.  Functions of text work on characters; positions in a text
  are numbers that are rounded, and start at one.

  ROUNDING is upwards at a half.  What lies from minus one half to zero is rounded to
  negative zero.
-/
import XmlTree.Query.Context

set_option autoImplicit false

namespace XmlTree

/-! ## Numbers -/

/-- The nearest integer, the greater one of two. -/
def roundNearest (x : Float) : Float := (x + 0.5).floor

/-- The nearest integer, the greater one of two, where zero keeps the sign. -/
def roundKeepingSign (x : Float) : Float :=
  if -0.5 ≤ x && x ≤ 0 then x.ceil else roundNearest x

/-! ## Texts -/

/-- The characters from the position `start` on, as many as `count` says or all. -/
def substringOf (cs : List Char) (start : Float) (count : Option Float) : List Char :=
  let size := cs.length
  let beyond := Float.ofNat size + 1
  let first := roundNearest start
  let last := count.elim beyond fun n => first + roundNearest n
  if first.isNaN || last.isNaN || beyond ≤ first || last ≤ first || last < 1 then
    []
  else
    let begin := if first < 1 then 1 else first.toUInt64.toNat
    let finish := if beyond ≤ last then size + 1 else last.toUInt64.toNat
    (cs.drop (begin - 1)).take (finish - begin)

/-- The words of a text with one space between them. -/
def normalizeSpaceOf (cs : List Char) : List Char :=
  List.intercalate [' '] ((cs.splitOnP isSpace).filter fun word => !word.isEmpty)

/-- Replaces each character of `source` by the one at the same position in `target`,
or drops it when there is none. -/
def translateOf (source target : List Char) (cs : List Char) : List Char :=
  cs.filterMap fun c =>
    match source.idxOf? c with
    | some i => target[i]?
    | none => some c

/-- The part of a name after its first colon; the name when there is none. -/
def localNameOf (name : String) : String :=
  (cutAt? [':'] name.toList).elim name fun (_, rest) => String.ofList rest

/-- The part of a name before its first colon. -/
def namespaceOf? (name : String) : Option String :=
  (cutAt? [':'] name.toList).map fun (space, _) => String.ofList space

/-- Whether a language is the wanted one or a kind of it.  The case of ASCII letters
does not count. -/
def isLanguage (wanted actual : String) : Bool :=
  match dropMark? (wanted.toList.map Char.toLower) (actual.toList.map Char.toLower) with
  | some [] => true
  | some (c :: _) => c == '-'
  | none => false

/-! ## Nodes -/

namespace Document

/-- The name of a node or attribute. -/
def queryName (doc : Document) : QueryNode → String
  | .null => ""
  | .node id => doc.name id
  | .attribute attr _ => doc.attrName attr

/-- The value that the nearest node at or above `id` gives to the attribute `name`. -/
def inheritedAttribute? (doc : Document) (name : String) (id : NodeId) : Option String :=
  (id :: doc.ancestors id).findSome? fun n => doc.attributeValue? n name

/-- The namespace of an element or attribute.  What declares it is looked for upwards;
an attribute without a namespace in its name is in none. -/
def namespaceUri (doc : Document) : QueryNode → String
  | .null => ""
  | .node id =>
    if doc.kind id = .element then
      let declaration := (namespaceOf? (doc.name id)).elim "xmlns" ("xmlns:" ++ ·)
      (doc.inheritedAttribute? declaration id).getD ""
    else
      ""
  | .attribute attr parent =>
    match namespaceOf? (doc.attrName attr) with
    | some space => (doc.inheritedAttribute? ("xmlns:" ++ space) parent).getD ""
    | none => ""

/-- Whether the language of a tree node is the wanted one. -/
def hasLanguage (doc : Document) (wanted : String) : QueryNode → Bool
  | .node id => (doc.inheritedAttribute? "xml:lang" id).any (isLanguage wanted)
  | _ => false

end Document

/-! ## Calls -/

namespace CoreFunction

/-- The node that a function is about: the first one of its argument, or the context
node when it goes without. -/
def subject (order : DocumentOrder) (context : Context) : List Value → QueryNode
  | [] => context.node
  | a :: _ => a.toNodeSet.first order

/-- The text that a function is about: that of its argument, or of the context node
when it goes without. -/
def subjectText (order : DocumentOrder) (context : Context) : List Value → String
  | [] => order.doc.stringValue context.node
  | a :: _ => a.toText order

/-- The value of a function at a place. -/
def apply (order : DocumentOrder) (context : Context) (f : CoreFunction) (arguments : List Value) :
    Value :=
  let doc := order.doc
  match f, arguments with
  | .last, _ => .number (Float.ofNat context.size)
  | .position, _ => .number (Float.ofNat context.position)
  | .count, [a] => .number (Float.ofNat a.toNodeSet.nodes.length)
  | .id, _ => .nodeSet .empty
  | .localName, as => .string (localNameOf (doc.queryName (subject order context as)))
  | .namespaceUri, as => .string (doc.namespaceUri (subject order context as))
  | .name, as => .string (doc.queryName (subject order context as))
  | .string, as => .string (subjectText order context as)
  | .concat, as => .string (as.foldl (fun joined a => joined ++ a.toText order) "")
  | .startsWith, [a, b] => .boolean (beginsWith (b.toText order).toList (a.toText order).toList)
  | .contains, [a, b] => .boolean (cutAt? (b.toText order).toList (a.toText order).toList).isSome
  | .substringBefore, [a, b] =>
    let cut := cutAt? (b.toText order).toList (a.toText order).toList
    .string (cut.elim "" fun (before, _) => String.ofList before)
  | .substringAfter, [a, b] =>
    let cut := cutAt? (b.toText order).toList (a.toText order).toList
    .string (cut.elim "" fun (_, after) => String.ofList after)
  | .substring, [a, start] =>
    .string (String.ofList (substringOf (a.toText order).toList (start.toNumber order) none))
  | .substring, [a, start, amount] =>
    .string (String.ofList
      (substringOf (a.toText order).toList (start.toNumber order) (some (amount.toNumber order))))
  | .stringLength, as => .number (Float.ofNat (subjectText order context as).length)
  | .normalizeSpace, as =>
    .string (String.ofList (normalizeSpaceOf (subjectText order context as).toList))
  | .translate, [a, source, target] =>
    .string (String.ofList (translateOf (source.toText order).toList (target.toText order).toList
      (a.toText order).toList))
  | .boolean, [a] => .boolean a.toBoolean
  | .not, [a] => .boolean !a.toBoolean
  | .alwaysTrue, _ => .boolean true
  | .alwaysFalse, _ => .boolean false
  | .lang, [a] => .boolean (doc.hasLanguage (a.toText order) context.node)
  | .number, [] => .number (doc.numberValue context.node)
  | .number, a :: _ => .number (a.toNumber order)
  | .sum, [a] =>
    -- a sum begins at negative zero, which is what nothing adds up to
    .number (a.toNodeSet.nodes.foldl (fun total n => total + doc.numberValue n) (-0.0))
  | .floor, [a] => .number (a.toNumber order).floor
  | .ceiling, [a] => .number (a.toNumber order).ceil
  | .round, [a] => .number (roundKeepingSign (a.toNumber order))
  | f, _ => .initial f.type

end CoreFunction

end XmlTree
