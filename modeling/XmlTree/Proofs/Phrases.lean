/-
  Proofs/Phrases.lean --- expressions as they are written down.

  WHAT THIS FILE IS FOR.  A phrase is an expression together with what its tree does not
  hold: the digits of its numbers.  Everything else about its text follows from the tree.
  The operators bind in this order, the loosest first, and those of one line group from the
  left:

      or
      and
      =  !=
      <  <=  >  >=
      +  -
      *  div  mod
      |

  Parentheses are written where an operand would otherwise fall apart, around a bare slash
  that is an operand, and around what a path or a filter begins with unless it can stand
  there by itself.

  WORDS.  The text of a phrase is a list of words, each a token with its letters, with any
  white space between them that keeps them apart.
-/
import XmlTree.Proofs.Typing

set_option autoImplicit false

namespace XmlTree

/-! ## Names of axes and functions -/

/-- The name of an axis. -/
def Axis.spelled : Axis → String
  | .child => "child"
  | .descendant => "descendant"
  | .descendantOrSelf => "descendant-or-self"
  | .parent => "parent"
  | .ancestor => "ancestor"
  | .ancestorOrSelf => "ancestor-or-self"
  | .followingSibling => "following-sibling"
  | .precedingSibling => "preceding-sibling"
  | .following => "following"
  | .preceding => "preceding"
  | .self => "self"
  | .attribute => "attribute"
  | .namespace_ => "namespace"

theorem Axis.ofName?_spelled (axis : Axis) : Axis.ofName? axis.spelled = some axis := by
  cases axis <;> rfl

/-- The name of a function. -/
def CoreFunction.spelled : CoreFunction → String
  | .last => "last"
  | .position => "position"
  | .count => "count"
  | .id => "id"
  | .localName => "local-name"
  | .namespaceUri => "namespace-uri"
  | .name => "name"
  | .string => "string"
  | .concat => "concat"
  | .startsWith => "starts-with"
  | .contains => "contains"
  | .substringBefore => "substring-before"
  | .substringAfter => "substring-after"
  | .substring => "substring"
  | .stringLength => "string-length"
  | .normalizeSpace => "normalize-space"
  | .translate => "translate"
  | .boolean => "boolean"
  | .not => "not"
  | .alwaysTrue => "true"
  | .alwaysFalse => "false"
  | .lang => "lang"
  | .number => "number"
  | .sum => "sum"
  | .floor => "floor"
  | .ceiling => "ceiling"
  | .round => "round"

/-- A function is found under its own name only. -/
theorem CoreFunction.resolve?_spelled {f : CoreFunction} {count : Nat} (h : f.Accepts count) :
    resolve? f.spelled count = some f := by
  obtain ⟨name, h⟩ := h
  have hname : name = f.spelled := by
    unfold resolve? at h
    split at h
    case h_13 =>
      split at h
      · cases h
        rfl
      · cases h
    all_goals
      cases h
    all_goals
      rfl
  exact hname ▸ h

/-- No function has the name of a kind of nodes. -/
theorem CoreFunction.ofKindName?_spelled (f : CoreFunction) :
    NodeTest.ofKindName? f.spelled = none := by
  cases f <;> rfl

/-! ## Words -/

/-- A token as it is written. -/
structure Word where
  token : Token
  letters : List Char

namespace Word

/-- A token that is always written alike. -/
def sign (token : Token) (letters : String) : Word := ⟨token, letters.toList⟩

def slash : Word := sign .slash "/"
def doubleColon : Word := sign .doubleColon "::"
def comma : Word := sign .comma ","
def star : Word := sign .star "*"
def minus : Word := sign .minus "-"
def leftParen : Word := sign .leftParen "("
def rightParen : Word := sign .rightParen ")"
def leftBracket : Word := sign .leftBracket "["
def rightBracket : Word := sign .rightBracket "]"

/-- A name. -/
def name (n : List Char) : Word := ⟨.name n, n⟩

/-- A text in quotes: in single ones if there are double ones in it. -/
def quoted (s : List Char) : Word :=
  let quote := if s.contains '"' then '\'' else '"'
  ⟨.string s, quote :: (s ++ [quote])⟩

/-- A number in digits, with its fraction if it has a point. -/
def numeral (whole : List Char) (fraction : Option (List Char)) : Word :=
  ⟨.number (.ofParts false whole (fraction.getD []) 0), whole ++ fraction.elim [] ('.' :: ·)⟩

/-- Words in parentheses, unless they can stand bare. -/
def grouped (bare : Bool) (ws : List Word) : List Word :=
  if bare then ws else leftParen :: (ws ++ [rightParen])

end Word

/-- How an operator is written. -/
def BinaryOp.word : BinaryOp → Word
  | or => .name "or".toList
  | and => .name "and".toList
  | eq => .sign .eq "="
  | notEq => .sign .notEq "!="
  | lt => .sign .lt "<"
  | ltEq => .sign .ltEq "<="
  | gt => .sign .gt ">"
  | gtEq => .sign .gtEq ">="
  | add => .sign .plus "+"
  | sub => .minus
  | mul => .star
  | div => .name "div".toList
  | mod => .name "mod".toList
  | union => .sign .pipe "|"

theorem BinaryOp.binaryOp?_word (op : BinaryOp) : Grammar.binaryOp? op.word.token = some op := by
  cases op <;> rfl

/-- How a node test is written. -/
def NodeTest.words : NodeTest → List Word
  | any => [.star]
  | name n => [.name n.toList]
  | inNamespace start => [.name (start.toList ++ ['*'])]
  | node => [.name "node".toList, .leftParen, .rightParen]
  | text => [.name "text".toList, .leftParen, .rightParen]
  | comment => [.name "comment".toList, .leftParen, .rightParen]
  | pi none => [.name "processing-instruction".toList, .leftParen, .rightParen]
  | pi (some target) =>
    [.name "processing-instruction".toList, .leftParen, .quoted target.toList, .rightParen]

/-- How the beginning of a step is written. -/
def Axis.stepWords (axis : Axis) (test : NodeTest) : List Word :=
  .name axis.spelled.toList :: .doubleColon :: test.words

/-! ## Phrases -/

/-- An expression as it is written down, but for its parentheses. -/
inductive Phrase where
  | root
  | step (axis : Axis) (test : NodeTest) (predicates : List Phrase)
  | path (input : Phrase) (axis : Axis) (test : NodeTest) (predicates : List Phrase)
  | filter (base : Phrase) (predicates : List Phrase)
  | call (function : CoreFunction) (arguments : List Phrase)
  | binary (op : BinaryOp) (left right : Phrase)
  | negate (operand : Phrase)
  | number (whole : List Char) (fraction : Option (List Char))
  | string (value : String)

mutual

/-- The tree of a phrase. -/
def Phrase.expr : Phrase → Expr
  | .root => .root
  | .step axis test predicates => .step axis test (exprAll predicates)
  | .path input axis test predicates => .path input.expr axis test (exprAll predicates)
  | .filter base predicates => .filter base.expr (exprAll predicates)
  | .call f arguments => .call f (exprAll arguments)
  | .binary op left right => .binary op left.expr right.expr
  | .negate operand => .negate operand.expr
  | .number whole fraction =>
    .number (DecimalLiteral.ofParts false whole (fraction.getD []) 0).toFloat
  | .string value => .string value

/-- The trees of several phrases. -/
def Phrase.exprAll : List Phrase → List Expr
  | [] => []
  | p :: ps => p.expr :: exprAll ps

end

namespace Phrase

theorem exprAll_eq_map (ps : List Phrase) : exprAll ps = ps.map expr := by
  induction ps with
  | nil => rfl
  | cons p ps ih => rw [exprAll, ih, List.map_cons]

@[simp]
theorem length_exprAll (ps : List Phrase) : (exprAll ps).length = ps.length := by
  rw [exprAll_eq_map, List.length_map]

/-- How tightly a phrase holds together.  A bare slash does not at all, for a step may
follow it. -/
def strength : Phrase → Nat
  | root => 0
  | binary op _ _ => op.precedence
  | _ => 8

/-- Whether a path can begin with a phrase as it is. -/
def beginsPath : Phrase → Bool
  | step _ _ _ | path _ _ _ _ | filter _ _ | call _ _ => true
  | _ => false

/-- Whether a filter can begin with a phrase as it is. -/
def beginsFilter : Phrase → Bool
  | call _ _ => true
  | _ => false

/-- Whether a phrase is a bare slash. -/
def isRoot : Phrase → Bool
  | root => true
  | _ => false

end Phrase

mutual

/-- The words of a phrase.  `minus` is the precedence up to which the operand of a minus is
in parentheses. -/
def Phrase.words (minus : Nat) : Phrase → List Word
  | .root => [.slash]
  | .step axis test predicates => axis.stepWords test ++ predicateWords minus predicates
  | .path input axis test predicates =>
    (if input.isRoot then [.slash]
      else Word.grouped input.beginsPath (input.words minus) ++ [.slash])
      ++ (axis.stepWords test ++ predicateWords minus predicates)
  | .filter base predicates =>
    Word.grouped base.beginsFilter (base.words minus) ++ predicateWords minus predicates
  | .call f arguments =>
    .name f.spelled.toList :: .leftParen :: argumentWords minus true arguments
  | .binary op left right =>
    Word.grouped (op.precedence - 1 < left.strength) (left.words minus)
      ++ op.word :: Word.grouped (op.precedence < right.strength) (right.words minus)
  | .negate operand => .minus :: Word.grouped (minus < operand.strength) (operand.words minus)
  | .number whole fraction => [.numeral whole fraction]
  | .string value => [.quoted value.toList]

/-- The words of predicates, each in brackets. -/
def Phrase.predicateWords (minus : Nat) : List Phrase → List Word
  | [] => []
  | p :: ps => .leftBracket :: (p.words minus ++ .rightBracket :: predicateWords minus ps)

/-- The words of arguments, with commas before all but the first, and of the parenthesis
after them. -/
def Phrase.argumentWords (minus : Nat) (first : Bool) : List Phrase → List Word
  | [] => [.rightParen]
  | p :: ps => (if first then [] else [.comma]) ++ (p.words minus ++ argumentWords minus false ps)

end

/-- Whether a phrase is two others with `|` between them. -/
def Phrase.isUnion : Phrase → Bool
  | binary .union _ _ => true
  | _ => false

mutual

/-- Whether a union is negated anywhere in a phrase. -/
def Phrase.negatesUnion : Phrase → Bool
  | .root | .number _ _ | .string _ => false
  | .step _ _ predicates => anyNegatesUnion predicates
  | .path input _ _ predicates => input.negatesUnion || anyNegatesUnion predicates
  | .filter base predicates => base.negatesUnion || anyNegatesUnion predicates
  | .call _ arguments => anyNegatesUnion arguments
  | .binary _ left right => left.negatesUnion || right.negatesUnion
  | .negate operand => operand.isUnion || operand.negatesUnion

/-- Whether a union is negated anywhere in several phrases. -/
def Phrase.anyNegatesUnion : List Phrase → Bool
  | [] => false
  | p :: ps => p.negatesUnion || anyNegatesUnion ps

end

/-! ## Levels -/

namespace Phrase

/-- The number of steps that a path has so far. -/
def spine : Phrase → Nat
  | step _ _ _ => 1
  | path input _ _ _ => input.spine + 1
  | _ => 0

/-- The number of levels that are still counted after a phrase: one for each operator that
is not in parentheses. -/
def left : Phrase → Nat
  | binary op l r =>
    (if op.precedence - 1 < l.strength then l.left else 0) + 1
      + (if op.precedence < r.strength then r.left else 0)
  | negate _ => 1
  | _ => 0

/-- Levels of what is in parentheses, which count one more, unless it is bare. -/
def groupedPeak (bare : Bool) (peak : Nat) : Nat := if bare then peak else 1 + peak

end Phrase

mutual

/-- The greatest number of levels within a phrase. -/
def Phrase.peak : Phrase → Nat
  | .root | .number _ _ | .string _ => 0
  | .step _ _ predicates => listPeak predicates
  | .path input _ _ predicates =>
    max (if input.isRoot then 0 else groupedPeak input.beginsPath input.peak)
      (input.spine + listPeak predicates)
  | .filter base predicates =>
    max (groupedPeak base.beginsFilter base.peak) (listPeak predicates)
  | .call _ arguments => listPeak arguments
  | .binary op l r =>
    max (groupedPeak (op.precedence - 1 < l.strength) l.peak)
      ((if op.precedence - 1 < l.strength then l.left else 0) + 1
        + groupedPeak (op.precedence < r.strength) r.peak)
  | .negate operand => 2 + groupedPeak (7 < operand.strength) operand.peak

/-- The greatest number of levels within predicates or arguments, where each one counts on
from the one before. -/
def Phrase.listPeak : List Phrase → Nat
  | [] => 0
  | p :: ps => 1 + max (1 + p.peak) (listPeak ps)

end

/-- The greatest number of levels of a whole text. -/
def Phrase.levels (p : Phrase) : Nat := 1 + p.peak

end XmlTree
