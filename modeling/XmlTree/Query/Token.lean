/-
  Query/Token.lean --- the tokens of path expressions.

  WHAT THIS FILE IS FOR.  An expression is cut into tokens, each with the byte it
  begins at, so that a syntax error can point into the expression.  The tokens end
  with the end of the text, or with the first place where no token begins.  The words
  `and`, `or`, `div` and `mod` are names here: only their place in the expression
  makes them operators.
-/
import XmlTree.Text.Chars
import XmlTree.Number.Decimal

set_option autoImplicit false

namespace XmlTree

/-- A token of a path expression. -/
inductive Token where
  | slash
  | doubleSlash
  | dot
  | doubleDot
  | atSign
  | pipe
  | plus
  | minus
  | star
  | eq
  | notEq
  | lt
  | ltEq
  | gt
  | gtEq
  | leftParen
  | rightParen
  | leftBracket
  | rightBracket
  | number (value : DecimalLiteral)
  | string (value : List Char)
  /-- a name, a name with a namespace, or a namespace with `*` -/
  | name (value : List Char)
  | variableName (value : List Char)
  | doubleColon
  | comma
  /-- where no token begins -/
  | invalid
  | eof
  deriving DecidableEq, Repr, Inhabited

/-- A token in its place. -/
structure Lexeme where
  token : Token
  /-- the byte that the token begins at -/
  start : Nat
  /-- whether `(` is the next character after the token that is not white -/
  beforeParen : Bool
  deriving DecidableEq, Repr, Inhabited

namespace Token

/-- Whether a name without a colon begins with a character. -/
def startsName (c : Char) : Bool := c.isAlpha || c == '_' || 128 ≤ c.toNat

/-- Whether a name without a colon goes on with a character. -/
def continuesName (c : Char) : Bool := startsName c || c.isDigit || c == '-' || c == '.'

/-- Number of characters of the name at the start of a text, with a namespace before
it if there is one. -/
def nameLength (cs : List Char) : Nat :=
  let first := (cs.takeWhile continuesName).length
  match cs.drop first with
  | ':' :: '*' :: _ => first + 2
  | ':' :: c :: rest =>
    if startsName c then first + 2 + (rest.takeWhile continuesName).length else first
  | _ => first

/-- Number of characters of the number at the start of a text, and the number. -/
def scanNumber (cs : List Char) : Nat × DecimalLiteral :=
  let whole := cs.takeWhile Char.isDigit
  match cs.drop whole.length with
  | '.' :: rest =>
    let fraction := rest.takeWhile Char.isDigit
    (whole.length + 1 + fraction.length, .ofParts false whole fraction 0)
  | _ => (whole.length, .ofParts false whole [] 0)

/-- The token that begins with `c`, where `cs` follows, and the number of characters
taken.  A string without its end takes none. -/
def scan (c : Char) (cs : List Char) : Token × Nat :=
  let next := cs.head?
  match c with
  | '>' => if next = some '=' then (.gtEq, 2) else (.gt, 1)
  | '<' => if next = some '=' then (.ltEq, 2) else (.lt, 1)
  | '!' => if next = some '=' then (.notEq, 2) else (.invalid, 1)
  | '=' => (.eq, 1)
  | '+' => (.plus, 1)
  | '-' => (.minus, 1)
  | '*' => (.star, 1)
  | '|' => (.pipe, 1)
  | '(' => (.leftParen, 1)
  | ')' => (.rightParen, 1)
  | '[' => (.leftBracket, 1)
  | ']' => (.rightBracket, 1)
  | ',' => (.comma, 1)
  | '@' => (.atSign, 1)
  | '/' => if next = some '/' then (.doubleSlash, 2) else (.slash, 1)
  | ':' => if next = some ':' then (.doubleColon, 2) else (.invalid, 1)
  | '$' =>
    if next.any startsName then
      let n := nameLength cs
      (.variableName (cs.take n), n + 1)
    else
      (.invalid, 1)
  | '.' =>
    if next = some '.' then (.doubleDot, 2)
    else if next.any Char.isDigit then
      let (n, value) := scanNumber (c :: cs)
      (.number value, n)
    else
      (.dot, 1)
  | _ =>
    if c = '"' || c = '\'' then
      match cutAt? [c] cs with
      | some (value, _) => (.string value, value.length + 2)
      | none => (.invalid, 0)
    else if c.isDigit then
      let (n, value) := scanNumber (c :: cs)
      (.number value, n)
    else if startsName c then
      let n := nameLength (c :: cs)
      (.name ((c :: cs).take n), n)
    else
      (.invalid, 1)

end Token

namespace Lexeme

/-- Whether `(` is the first character of a text that is not white. -/
def parenFirst (cs : List Char) : Bool := (dropSpace cs).head? = some '('

/-- The tokens of a text that begins at the byte `offset`, through the end of the
text or the first place where no token begins. -/
def scanAll (offset : Nat) (text : List Char) : List Lexeme :=
  let space := text.takeWhile isSpace
  let start := offset + byteSize space
  match _h : text.drop space.length with
  | [] => [⟨.eof, start, false⟩]
  | c :: cs =>
    let (token, taken) := Token.scan c cs
    let rest := (c :: cs).drop taken
    if token = .invalid then
      [⟨.invalid, start, parenFirst rest⟩]
    else
      -- no token but an invalid one is without characters
      let rest := cs.drop (taken - 1)
      ⟨token, start, parenFirst rest⟩ :: scanAll (start + byteSize ((c :: cs).take taken)) rest
termination_by text.length
decreasing_by
  have := congrArg List.length _h
  simp at this ⊢
  omega

/-- The tokens of an expression. -/
def ofText (text : String) : List Lexeme := scanAll 0 text.toList

end Lexeme

end XmlTree
