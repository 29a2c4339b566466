/-
  Query/Grammar.lean --- from tokens to expressions.

  WHAT THIS FILE IS FOR.  An expression is read by recursive descent.  Operators are
  read by precedence climbing, and unary minus binds tighter than every operator but
  union.  Types are checked while the tree is made, so an operator or a step that
  needs a node-set fails here.

  TERMINATION.  Every reader answers what is left of the tokens together with a proof
  that it is shorter; a reader that calls another one on the same tokens calls one of
  a lower rank.

  NESTING is limited.  A counter of levels is raised for every expression, operator,
  minus, predicate, argument and step, and goes back where an expression, a list of
  predicates, a list of arguments or a path ends.
-/
import XmlTree.Query.Token
import XmlTree.Query.Expr

set_option autoImplicit false

namespace XmlTree

/-! ## Faults -/

/-- Why an expression cannot be read. -/
inductive SyntaxCause where
  | trailingTokens
  | tooDeep
  | unionOfOthers
  | stepFromOther
  | predicateOnOther
  | unclosedBracket
  | noVariables
  | unknownVariable
  | unclosedParen
  | notPrimary
  | notCall
  | missingComma
  | unknownFunction
  | argumentNotNodeSet
  | predicateAfterDot
  | twoAxes
  | unknownAxis
  | notNodeTest
  | unknownNodeType
  | unclosedPi
  | piNotLiteral
  | unclosedNodeType
  deriving DecidableEq, Repr, Inhabited

/-- What is said about a cause. -/
def SyntaxCause.message : SyntaxCause → String
  | trailingTokens => "Incorrect query"
  | tooDeep => "Exceeded maximum allowed query depth"
  | unionOfOthers => "Union operator has to be applied to node sets"
  | stepFromOther => "Step has to be applied to node set"
  | predicateOnOther => "Predicate has to be applied to node set"
  | unclosedBracket => "Expected ']' to match an opening '['"
  | noVariables => "Unknown variable: variable set is not provided"
  | unknownVariable => "Unknown variable: variable set does not contain the given name"
  | unclosedParen => "Expected ')' to match an opening '('"
  | notPrimary => "Unrecognizable primary expression"
  | notCall => "Unrecognized function call"
  | missingComma => "No comma between function arguments"
  | unknownFunction => "Unrecognized function or wrong parameter count"
  | argumentNotNodeSet => "Function has to be applied to node set"
  | predicateAfterDot => "Predicates are not allowed after an abbreviated step"
  | twoAxes => "Two axis specifiers in one step"
  | unknownAxis => "Unknown axis"
  | notNodeTest => "Unrecognized node test"
  | unknownNodeType => "Unrecognized node type"
  | unclosedPi => "Unmatched brace near processing-instruction()"
  | piNotLiteral => "Only literals are allowed as arguments to processing-instruction()"
  | unclosedNodeType => "Unmatched brace near node type test"

/-- A cause, and the byte of the expression where the token at fault begins. -/
structure SyntaxFault where
  cause : SyntaxCause
  offset : Nat
  deriving DecidableEq, Repr, Inhabited

namespace Grammar

/-- What a reader answers: a value, the tokens left, and the number of levels. -/
structure Parsed (α : Type) (bound : Nat) where
  value : α
  rest : List Lexeme
  depth : Nat
  within : rest.length < bound

/-- Greatest number of levels. -/
def maxDepth : Nat := 128

/-- The variables that an expression may refer to, if there are any. -/
abbrev Scope : Type := Option (List VariableRef)

/-- The first of the tokens; the end of the text when there is none. -/
def current (ts : List Lexeme) : Token := ts.head?.elim .eof (·.token)

/-- Where the first of the tokens begins. -/
def place (ts : List Lexeme) : Nat := ts.head?.elim 0 (·.start)

/-- A fault at the first of the tokens. -/
def fault {α : Type} (ts : List Lexeme) (cause : SyntaxCause) : Except SyntaxFault α :=
  .error ⟨cause, place ts⟩

/-- One level more, unless there are too many. -/
def descend (ts : List Lexeme) (depth : Nat) : Except SyntaxFault Nat :=
  if maxDepth < depth + 1 then fault ts .tooDeep else .ok (depth + 1)

/-- Takes the given token. -/
def expect (token : Token) (ts : List Lexeme) (cause : SyntaxCause) :
    Except SyntaxFault { rest : List Lexeme // rest.length < ts.length } :=
  match ts with
  | t :: rest => if t.token = token then .ok ⟨rest, by simp⟩ else fault (t :: rest) cause
  | [] => fault [] cause

/-- The operator that a token stands for between two expressions. -/
def binaryOp? : Token → Option BinaryOp
  | .name n =>
    if n = "or".toList then some .or
    else if n = "and".toList then some .and
    else if n = "div".toList then some .div
    else if n = "mod".toList then some .mod
    else none
  | .eq => some .eq
  | .notEq => some .notEq
  | .lt => some .lt
  | .ltEq => some .ltEq
  | .gt => some .gt
  | .gtEq => some .gtEq
  | .plus => some .add
  | .minus => some .sub
  | .star => some .mul
  | .pipe => some .union
  | _ => none

/-- The step that `//` stands for. -/
def descendantOrSelf (input : Expr) : Expr := .path input .descendantOrSelf .node []

/-- A step from `input`, or from the context node. -/
def stepFrom (input : Option Expr) (axis : Axis) (test : NodeTest) (predicates : List Expr) :
    Expr :=
  match input with
  | some e => .path e axis test predicates
  | none => .step axis test predicates

/-- The test that a name alone stands for; `*` after a colon asks for a namespace. -/
def nameTest (name : List Char) : NodeTest :=
  match name.reverse with
  | '*' :: ':' :: c :: start => .inNamespace (String.ofList (':' :: c :: start).reverse)
  | _ => .name (String.ofList name)

/-- Whether a step can begin with a token after `/`. -/
def beginsStep : Token → Bool
  | .name _ | .atSign | .dot | .doubleDot | .star => true
  | _ => false

/-- Reads the rest of a node test after its name. -/
def parseNameTest (name : List Char) (ts : List Lexeme) :
    Except SyntaxFault (NodeTest × { rest : List Lexeme // rest.length ≤ ts.length }) :=
  if current ts = .leftParen then
    let inner := ts.drop 1
    let isPi := name = "processing-instruction".toList
    match current inner with
    | .rightParen =>
      match NodeTest.ofKindName? (String.ofList name) with
      | some test => .ok (test, ⟨inner.drop 1, by simp [inner]⟩)
      | none => fault (inner.drop 1) .unknownNodeType
    | .string target =>
      if isPi then
        match expect .rightParen (inner.drop 1) .unclosedPi with
        | .ok ⟨rest, h⟩ =>
          .ok (.pi (some (String.ofList target)), ⟨rest, by simp [inner] at h; omega⟩)
        | .error e => .error e
      else
        fault inner .unclosedNodeType
    | _ => fault inner (if isPi then .piNotLiteral else .unclosedNodeType)
  else
    .ok (nameTest name, ⟨ts, Nat.le_refl _⟩)

/-- A part of a step: an axis and a test, and the tokens left. -/
abbrev StepHead (bound : Nat) : Type :=
  (Axis × NodeTest) × { rest : List Lexeme // rest.length < bound }

/-- Reads an axis, unless one was given before, and a node test. -/
def parseStepHead (axis : Axis) (axisGiven : Bool) (ts : List Lexeme) :
    Except SyntaxFault (StepHead ts.length) :=
  match ts with
  | [] => fault [] .notNodeTest
  | ⟨.star, _, _⟩ :: more => .ok ((axis, .any), ⟨more, by simp⟩)
  | ⟨.name name, _, _⟩ :: more =>
    if current more = .doubleColon then
      if axisGiven then fault more .twoAxes
      else
        match Axis.ofName? (String.ofList name) with
        | none => fault more .unknownAxis
        | some axis =>
          let inner := more.drop 1
          match current inner with
          | .star =>
            .ok ((axis, .any), ⟨inner.drop 1, by
              simp only [inner, List.length_drop, List.length_cons]; omega⟩)
          | .name name =>
            match parseNameTest name (inner.drop 1) with
            | .ok (test, ⟨rest, h⟩) =>
              .ok ((axis, test), ⟨rest, by simp [inner] at h ⊢; omega⟩)
            | .error e => .error e
          | _ => fault inner .notNodeTest
    else
      match parseNameTest name more with
      | .ok (test, ⟨rest, h⟩) => .ok ((axis, test), ⟨rest, by simp; omega⟩)
      | .error e => .error e
  | t :: more => fault (t :: more) .notNodeTest

mutual

/-- Reads an expression; only operators that bind tighter than `limit` belong to it. -/
def parseExpression (scope : Scope) (limit : Nat) (ts : List Lexeme) (depth : Nat) :
    Except SyntaxFault (Parsed Expr ts.length) := do
  let inner ← descend ts depth
  let lhs ← parseOperand scope ts inner
  have := lhs.within
  let e ← parseBinary scope limit lhs.value lhs.rest lhs.depth
  return ⟨e.value, e.rest, depth, by have := e.within; omega⟩
termination_by ts.length * 8 + 6
decreasing_by all_goals omega

/-- Reads the operators and operands that follow `lhs`. -/
def parseBinary (scope : Scope) (limit : Nat) (lhs : Expr) (ts : List Lexeme) (depth : Nat) :
    Except SyntaxFault (Parsed Expr (ts.length + 1)) :=
  match ts with
  | [] => .ok ⟨lhs, [], depth, by simp⟩
  | t :: more => do
    match binaryOp? t.token with
    | none => return ⟨lhs, t :: more, depth, by simp⟩
    | some op =>
      if op.precedence ≤ limit then
        return ⟨lhs, t :: more, depth, by simp⟩
      else
        let inner ← descend more depth
        let operand ← parseOperand scope more inner
        have := operand.within
        let rhs ← parseBinary scope op.precedence operand.value operand.rest operand.depth
        have := rhs.within
        if op = .union && (lhs.type != .nodeSet || rhs.value.type != .nodeSet) then
          fault rhs.rest .unionOfOthers
        else
          let e ← parseBinary scope limit (.binary op lhs rhs.value) rhs.rest rhs.depth
          return ⟨e.value, e.rest, e.depth, by have := e.within; simp; omega⟩
termination_by ts.length * 8
decreasing_by all_goals (simp only [List.length_cons]; omega)

/-- Reads a negated expression or a path. -/
def parseOperand (scope : Scope) (ts : List Lexeme) (depth : Nat) :
    Except SyntaxFault (Parsed Expr ts.length) :=
  match ts with
  | [] => fault [] .notNodeTest
  | t :: more => do
    match t.token with
    | .minus =>
      let inner ← descend more depth
      let e ← parseExpression scope 7 more inner
      return ⟨.negate e.value, e.rest, e.depth, by have := e.within; simp; omega⟩
    | .name n =>
      if t.beforeParen && (NodeTest.ofKindName? (String.ofList n)).isNone then
        parseFilterPath scope (t :: more) depth
      else
        parseLocationPath scope (t :: more) depth
    | .variableName _ | .leftParen | .string _ | .number _ =>
      parseFilterPath scope (t :: more) depth
    | _ => parseLocationPath scope (t :: more) depth
termination_by ts.length * 8 + 5
decreasing_by all_goals (simp only [List.length_cons]; omega)

/-- Reads a primary expression with predicates and steps after it. -/
def parseFilterPath (scope : Scope) (ts : List Lexeme) (depth : Nat) :
    Except SyntaxFault (Parsed Expr ts.length) := do
  let e ← parseFilter scope ts depth
  have := e.within
  match _h : e.rest with
  | [] => return e
  | t :: more =>
    if t.token = .slash then
      let p ← parseRelativePath scope (some e.value) more e.depth
      return ⟨p.value, p.rest, p.depth, by
        have := p.within
        have := congrArg List.length _h
        simp only [List.length_cons] at this
        omega⟩
    else if t.token = .doubleSlash then
      if e.value.type != .nodeSet then
        fault more .stepFromOther
      else
        let p ← parseRelativePath scope (some (descendantOrSelf e.value)) more e.depth
        return ⟨p.value, p.rest, p.depth, by
        have := p.within
        have := congrArg List.length _h
        simp only [List.length_cons] at this
        omega⟩
    else
      return e
termination_by ts.length * 8 + 4
decreasing_by
  · omega
  all_goals
    have := congrArg List.length _h
    simp only [List.length_cons] at this
    omega

/-- Reads a primary expression with predicates after it. -/
def parseFilter (scope : Scope) (ts : List Lexeme) (depth : Nat) :
    Except SyntaxFault (Parsed Expr ts.length) := do
  let e ← parsePrimary scope ts depth
  have := e.within
  if current e.rest = .leftBracket then
    if e.value.type != .nodeSet then
      fault e.rest .predicateOnOther
    else
      let ps ← parsePredicates scope e.rest e.depth
      return ⟨.filter e.value ps.value, ps.rest, ps.depth, by have := ps.within; omega⟩
  else
    return e
termination_by ts.length * 8 + 3
decreasing_by all_goals omega

/-- Reads predicates as long as they follow. -/
def parsePredicates (scope : Scope) (ts : List Lexeme) (depth : Nat) :
    Except SyntaxFault (Parsed (List Expr) (ts.length + 1)) :=
  match ts with
  | [] => .ok ⟨[], [], depth, by simp⟩
  | t :: more => do
    if t.token = .leftBracket then
      let inner ← descend more depth
      let e ← parseExpression scope 0 more inner
      have := e.within
      let ⟨rest, _⟩ ← expect .rightBracket e.rest .unclosedBracket
      let ps ← parsePredicates scope rest e.depth
      return ⟨e.value :: ps.value, ps.rest, depth, by have := ps.within; simp; omega⟩
    else
      return ⟨[], t :: more, depth, by simp⟩
termination_by ts.length * 8
decreasing_by all_goals (simp only [List.length_cons]; omega)

/-- Reads a variable, an expression in parentheses, a literal or a call. -/
def parsePrimary (scope : Scope) (ts : List Lexeme) (depth : Nat) :
    Except SyntaxFault (Parsed Expr ts.length) :=
  match ts with
  | [] => fault [] .notPrimary
  | t :: more => do
    match t.token with
    | .variableName name =>
      match scope with
      | none => fault (t :: more) .noVariables
      | some refs =>
        match refs.find? fun r => r.name = String.ofList name with
        | some ref => return ⟨.variable ref, more, depth, by simp⟩
        | none => fault (t :: more) .unknownVariable
    | .leftParen =>
      let e ← parseExpression scope 0 more depth
      have := e.within
      let ⟨rest, _⟩ ← expect .rightParen e.rest .unclosedParen
      return ⟨e.value, rest, e.depth, by simp; omega⟩
    | .string s => return ⟨.string (String.ofList s), more, depth, by simp⟩
    | .number n => return ⟨.number n.toFloat, more, depth, by simp⟩
    | .name name =>
      let ⟨inner, _⟩ ← expect .leftParen more .notCall
      let as ← parseArguments scope true inner depth
      have := as.within
      let count := as.value.length
      match CoreFunction.resolve? (String.ofList name) count with
      | none => fault as.rest .unknownFunction
      | some f =>
        if f.takesNodeSet count && as.value.any (fun a => a.type != .nodeSet) then
          fault as.rest .argumentNotNodeSet
        else
          return ⟨.call f as.value, as.rest, depth, by simp; omega⟩
    | _ => fault (t :: more) .notPrimary
termination_by ts.length * 8 + 2
decreasing_by all_goals (simp only [List.length_cons]; omega)

/-- Reads the arguments of a call and the parenthesis after them. -/
def parseArguments (scope : Scope) (first : Bool) (ts : List Lexeme) (depth : Nat) :
    Except SyntaxFault (Parsed (List Expr) ts.length) :=
  match ts with
  | [] => fault [] .notNodeTest
  | t :: more => do
    if t.token = .rightParen then
      return ⟨[], more, depth, by simp⟩
    else
      let ⟨start, hstart⟩ ← (if first then .ok ⟨t :: more, Nat.le_refl _⟩
        else match expect .comma (t :: more) .missingComma with
          | .ok ⟨rest, h⟩ => .ok ⟨rest, Nat.le_of_lt h⟩
          | .error e => .error e :
        Except SyntaxFault { rest : List Lexeme // rest.length ≤ (t :: more).length })
      let inner ← descend start depth
      let e ← parseExpression scope 0 start inner
      have := e.within
      let as ← parseArguments scope false e.rest e.depth
      return ⟨e.value :: as.value, as.rest, as.depth, by have := as.within; omega⟩
termination_by ts.length * 8 + 7
decreasing_by all_goals (simp only [List.length_cons] at *; omega)

/-- Reads a path from the top of the tree or from the context node. -/
def parseLocationPath (scope : Scope) (ts : List Lexeme) (depth : Nat) :
    Except SyntaxFault (Parsed Expr ts.length) :=
  match ts with
  | [] => fault [] .notNodeTest
  | t :: more => do
    if t.token = .slash then
      if beginsStep (current more) then
        let p ← parseRelativePath scope (some .root) more depth
        return ⟨p.value, p.rest, p.depth, by have := p.within; simp; omega⟩
      else
        return ⟨.root, more, depth, by simp⟩
    else if t.token = .doubleSlash then
      let p ← parseRelativePath scope (some (descendantOrSelf .root)) more depth
      return ⟨p.value, p.rest, p.depth, by have := p.within; simp; omega⟩
    else
      parseRelativePath scope none (t :: more) depth
termination_by ts.length * 8 + 4
decreasing_by all_goals (simp only [List.length_cons]; omega)

/-- Reads steps with `/` or `//` between them. -/
def parseRelativePath (scope : Scope) (input : Option Expr) (ts : List Lexeme) (depth : Nat) :
    Except SyntaxFault (Parsed Expr ts.length) := do
  let s ← parseStep scope input ts depth
  have := s.within
  let p ← parseMoreSteps scope s.value s.rest s.depth
  return ⟨p.value, p.rest, s.depth, by have := p.within; omega⟩
termination_by ts.length * 8 + 3
decreasing_by all_goals omega

/-- Reads further steps as long as they follow. -/
def parseMoreSteps (scope : Scope) (input : Expr) (ts : List Lexeme) (depth : Nat) :
    Except SyntaxFault (Parsed Expr (ts.length + 1)) :=
  match ts with
  | [] => .ok ⟨input, [], depth, by simp⟩
  | t :: more => do
    if t.token = .slash || t.token = .doubleSlash then
      let double := t.token = .doubleSlash
      let inner ← descend more (if double then depth + 1 else depth)
      let source := if double then descendantOrSelf input else input
      let s ← parseStep scope (some source) more inner
      have := s.within
      let p ← parseMoreSteps scope s.value s.rest s.depth
      return ⟨p.value, p.rest, p.depth, by have := p.within; simp; omega⟩
    else
      return ⟨input, t :: more, depth, by simp⟩
termination_by ts.length * 8
decreasing_by all_goals (simp only [List.length_cons]; omega)

/-- Reads one step. -/
def parseStep (scope : Scope) (input : Option Expr) (ts : List Lexeme) (depth : Nat) :
    Except SyntaxFault (Parsed Expr ts.length) :=
  if input.any (fun e => e.type != .nodeSet) then
    fault ts .stepFromOther
  else
    match ts with
    | [] => fault [] .notNodeTest
    | t :: more => do
      match t.token with
      | .dot =>
        if current more = .leftBracket then fault more .predicateAfterDot
        else return ⟨stepFrom input .self .node [], more, depth, by simp⟩
      | .doubleDot =>
        if current more = .leftBracket then fault more .predicateAfterDot
        else return ⟨stepFrom input .parent .node [], more, depth, by simp⟩
      | .atSign =>
        let ((axis, test), ⟨rest, _⟩) ← parseStepHead .attribute true more
        let ps ← parsePredicates scope rest depth
        return ⟨stepFrom input axis test ps.value, ps.rest, ps.depth,
          by have := ps.within; simp; omega⟩
      | _ =>
        let ((axis, test), ⟨rest, _⟩) ← parseStepHead .child false (t :: more)
        let ps ← parsePredicates scope rest depth
        return ⟨stepFrom input axis test ps.value, ps.rest, ps.depth,
          by have := ps.within; simp only [List.length_cons] at *; omega⟩
termination_by ts.length * 8 + 2
decreasing_by all_goals (simp only [List.length_cons] at *; omega)

end

end Grammar

/-- The expression that a whole text spells; `scope` holds the variables that it may
refer to. -/
def Expr.parse (scope : Grammar.Scope) (text : String) : Except SyntaxFault Expr := do
  let e ← Grammar.parseExpression scope 0 (Lexeme.ofText text) 0
  if Grammar.current e.rest = .eof then return e.value
  else Grammar.fault e.rest .trailingTokens

end XmlTree
