/-
  Proofs/Watching.lean --- reading expressions under watch.

  WHAT THIS FILE IS FOR.  The readers of expressions call each other, share one counter of
  levels and go round in five loops, each on whatever token comes next.  That they come to an
  end at all is told by the proofs they carry.  Here the same readers are written once more
  without any proof, as bare recursion on a count of calls, and with an eye on what could go
  wrong.  An alarm is raised

    - if the calls run out;
    - if more expressions are read inside each other than there are levels;
    - if a round of a loop took no token;
    - if a reader asks for what comes after the last token.

  The readers under watch answer what the readers do, so no alarm is ever raised.

  FAULTS are reported at the token that comes next, and there is one: the last token of a text
  is never taken.
-/
import XmlTree.Proofs.ByteTokens
import XmlTree.Proofs.Readers
import XmlTree.Proofs.Typing

set_option autoImplicit false

namespace XmlTree

/-! ## Alarms -/

/-- What must not happen while an expression is read. -/
inductive Alarm where
  | outOfCalls
  | tooManyInside
  | noProgress
  | afterLast
  deriving DecidableEq, Repr, Inhabited

/-- Why a reader under watch stops. -/
inductive Stop where
  | fault (f : SyntaxFault)
  | alarm (a : Alarm)
  deriving DecidableEq, Repr, Inhabited

namespace Grammar

/-! ## Single tokens -/

/-- A fault at the next token. -/
def watchFault {α : Type} (ts : List Lexeme) (cause : SyntaxCause) : Except Stop α :=
  match ts with
  | [] => .error (.alarm .afterLast)
  | t :: _ => .error (.fault ⟨cause, t.start⟩)

/-- Takes a token, behind which there has to be another one. -/
def watchNext : List Lexeme → Except Stop (List Lexeme)
  | _ :: t :: more => .ok (t :: more)
  | _ => .error (.alarm .afterLast)

/-- Takes the given token. -/
def watchExpect (token : Token) (ts : List Lexeme) (cause : SyntaxCause) :
    Except Stop (List Lexeme) :=
  if current ts = token then watchNext ts else watchFault ts cause

/-- One level more, unless there are too many. -/
def watchDescend (ts : List Lexeme) (depth : Nat) : Except Stop Nat :=
  if maxDepth < depth + 1 then watchFault ts .tooDeep else .ok (depth + 1)

/-- The end of a round of a loop, which has to leave fewer tokens than it found. -/
def watchRound (before after : List Lexeme) : Except Stop Unit :=
  if after.length < before.length then .ok () else .error (.alarm .noProgress)

/-- Takes the comma before an argument, unless it is the first one. -/
def watchStart (first : Bool) (ts : List Lexeme) : Except Stop (List Lexeme) :=
  if first then .ok ts else watchExpect .comma ts .missingComma

/-- Reads the rest of a node test after its name. -/
def watchNameTest (name : List Char) (ts : List Lexeme) :
    Except Stop (NodeTest × List Lexeme) :=
  if current ts = .leftParen then do
    let inner ← watchNext ts
    let isPi := name = "processing-instruction".toList
    match current inner with
    | .rightParen =>
      let rest ← watchNext inner
      match NodeTest.ofKindName? (String.ofList name) with
      | some test => return (test, rest)
      | none => watchFault rest .unknownNodeType
    | .string target =>
      if isPi then
        let more ← watchNext inner
        let rest ← watchExpect .rightParen more .unclosedPi
        return (.pi (some (String.ofList target)), rest)
      else
        watchFault inner .unclosedNodeType
    | _ => watchFault inner (if isPi then .piNotLiteral else .unclosedNodeType)
  else
    .ok (nameTest name, ts)

/-- Reads an axis, unless one was given before, and a node test. -/
def watchStepHead (axis : Axis) (axisGiven : Bool) (ts : List Lexeme) :
    Except Stop ((Axis × NodeTest) × List Lexeme) :=
  match current ts with
  | .star => do
    let rest ← watchNext ts
    return ((axis, .any), rest)
  | .name name => do
    let more ← watchNext ts
    if current more = .doubleColon then
      if axisGiven then watchFault more .twoAxes
      else
        match Axis.ofName? (String.ofList name) with
        | none => watchFault more .unknownAxis
        | some axis =>
          let inner ← watchNext more
          match current inner with
          | .star =>
            let rest ← watchNext inner
            return ((axis, .any), rest)
          | .name name =>
            let rest ← watchNext inner
            let (test, rest) ← watchNameTest name rest
            return ((axis, test), rest)
          | _ => watchFault inner .notNodeTest
    else
      let (test, rest) ← watchNameTest name more
      return ((axis, test), rest)
  | _ => watchFault ts .notNodeTest

/-! ## Expressions -/

mutual

/-- Reads an expression.  `calls` bounds how deep the calls go, and `inside` how many more
expressions may be read inside each other. -/
def watchExpression (scope : Scope) (calls inside limit : Nat) (ts : List Lexeme) (depth : Nat) :
    Except Stop (Answer Expr) :=
  match calls with
  | 0 => .error (.alarm .outOfCalls)
  | calls + 1 => do
    let inner ← watchDescend ts depth
    match inside with
    | 0 => .error (.alarm .tooManyInside)
    | inside + 1 =>
      let (lhs, rest, d) ← watchOperand scope calls inside ts inner
      let (e, rest, _) ← watchBinary scope calls inside limit lhs rest d
      return (e, rest, depth)

/-- Reads the operators and operands that follow `lhs`, one operator in each round. -/
def watchBinary (scope : Scope) (calls inside limit : Nat) (lhs : Expr) (ts : List Lexeme)
    (depth : Nat) : Except Stop (Answer Expr) :=
  match calls with
  | 0 => .error (.alarm .outOfCalls)
  | calls + 1 =>
    match binaryOp? (current ts) with
    | none => .ok (lhs, ts, depth)
    | some op =>
      if op.precedence ≤ limit then .ok (lhs, ts, depth)
      else do
        let more ← watchNext ts
        let inner ← watchDescend more depth
        let (operand, rest, d) ← watchOperand scope calls inside more inner
        let (rhs, rest, d) ← watchTighter scope calls inside op.precedence operand rest d
        if op = .union && (lhs.type != .nodeSet || rhs.type != .nodeSet) then
          watchFault rest .unionOfOthers
        else
          let _ ← watchRound ts rest
          watchBinary scope calls inside limit (.binary op lhs rhs) rest d

/-- Extends an operand as long as an operator follows that binds tighter than the one before
it. -/
def watchTighter (scope : Scope) (calls inside limit : Nat) (rhs : Expr) (ts : List Lexeme)
    (depth : Nat) : Except Stop (Answer Expr) :=
  match calls with
  | 0 => .error (.alarm .outOfCalls)
  | calls + 1 =>
    match binaryOp? (current ts) with
    | none => .ok (rhs, ts, depth)
    | some op =>
      if op.precedence ≤ limit then .ok (rhs, ts, depth)
      else do
        let (rhs, rest, d) ← watchBinary scope calls inside limit rhs ts depth
        let _ ← watchRound ts rest
        watchTighter scope calls inside limit rhs rest d

/-- Reads a negated expression or a path. -/
def watchOperand (scope : Scope) (calls inside : Nat) (ts : List Lexeme) (depth : Nat) :
    Except Stop (Answer Expr) :=
  match calls with
  | 0 => .error (.alarm .outOfCalls)
  | calls + 1 =>
    match current ts with
    | .minus => do
      let more ← watchNext ts
      let inner ← watchDescend more depth
      let (e, rest, d) ← watchExpression scope calls inside 7 more inner
      return (.negate e, rest, d)
    | .name n =>
      if ts.head?.any (·.beforeParen) && (NodeTest.ofKindName? (String.ofList n)).isNone then
        watchFilterPath scope calls inside ts depth
      else
        watchLocationPath scope calls inside ts depth
    | .variableName _ | .leftParen | .string _ | .number _ =>
      watchFilterPath scope calls inside ts depth
    | _ => watchLocationPath scope calls inside ts depth

/-- Reads a primary expression with predicates and steps after it. -/
def watchFilterPath (scope : Scope) (calls inside : Nat) (ts : List Lexeme) (depth : Nat) :
    Except Stop (Answer Expr) :=
  match calls with
  | 0 => .error (.alarm .outOfCalls)
  | calls + 1 => do
    let (e, rest, d) ← watchFilter scope calls inside ts depth
    if current rest = .slash then
      let more ← watchNext rest
      watchRelativePath scope calls inside (some e) more d
    else if current rest = .doubleSlash then
      let more ← watchNext rest
      if e.type != .nodeSet then watchFault more .stepFromOther
      else watchRelativePath scope calls inside (some (descendantOrSelf e)) more d
    else
      return (e, rest, d)

/-- Reads a primary expression with predicates after it. -/
def watchFilter (scope : Scope) (calls inside : Nat) (ts : List Lexeme) (depth : Nat) :
    Except Stop (Answer Expr) :=
  match calls with
  | 0 => .error (.alarm .outOfCalls)
  | calls + 1 => do
    let (e, rest, d) ← watchPrimary scope calls inside ts depth
    if current rest = .leftBracket then
      if e.type != .nodeSet then watchFault rest .predicateOnOther
      else
        let (ps, rest, d) ← watchPredicates scope calls inside rest d
        return (.filter e ps, rest, d)
    else
      return (e, rest, d)

/-- Reads predicates as long as they follow, one in each round. -/
def watchPredicates (scope : Scope) (calls inside : Nat) (ts : List Lexeme) (depth : Nat) :
    Except Stop (Answer (List Expr)) :=
  match calls with
  | 0 => .error (.alarm .outOfCalls)
  | calls + 1 =>
    if current ts = .leftBracket then do
      let more ← watchNext ts
      let inner ← watchDescend more depth
      let (e, rest, d) ← watchExpression scope calls inside 0 more inner
      let rest ← watchExpect .rightBracket rest .unclosedBracket
      let _ ← watchRound ts rest
      let (ps, rest, _) ← watchPredicates scope calls inside rest d
      return (e :: ps, rest, depth)
    else
      .ok ([], ts, depth)

/-- Reads a variable, an expression in parentheses, a literal or a call. -/
def watchPrimary (scope : Scope) (calls inside : Nat) (ts : List Lexeme) (depth : Nat) :
    Except Stop (Answer Expr) :=
  match calls with
  | 0 => .error (.alarm .outOfCalls)
  | calls + 1 =>
    match current ts with
    | .variableName name =>
      match scope with
      | none => watchFault ts .noVariables
      | some refs =>
        match refs.find? fun r => r.name = String.ofList name with
        | some ref => do
          let more ← watchNext ts
          return (.variable ref, more, depth)
        | none => watchFault ts .unknownVariable
    | .leftParen => do
      let more ← watchNext ts
      let (e, rest, d) ← watchExpression scope calls inside 0 more depth
      let rest ← watchExpect .rightParen rest .unclosedParen
      return (e, rest, d)
    | .string s => do
      let more ← watchNext ts
      return (.string (String.ofList s), more, depth)
    | .number n => do
      let more ← watchNext ts
      return (.number n.toFloat, more, depth)
    | .name name => do
      let more ← watchNext ts
      let inner ← watchExpect .leftParen more .notCall
      let (as, rest, _) ← watchArguments scope calls inside true inner depth
      match CoreFunction.resolve? (String.ofList name) as.length with
      | none => watchFault rest .unknownFunction
      | some f =>
        if f.takesNodeSet as.length && as.any (fun a => a.type != .nodeSet) then
          watchFault rest .argumentNotNodeSet
        else
          return (.call f as, rest, depth)
    | _ => watchFault ts .notPrimary

/-- Reads the arguments of a call and the parenthesis after them, one argument in each
round. -/
def watchArguments (scope : Scope) (calls inside : Nat) (first : Bool) (ts : List Lexeme)
    (depth : Nat) : Except Stop (Answer (List Expr)) :=
  match calls with
  | 0 => .error (.alarm .outOfCalls)
  | calls + 1 =>
    if current ts = .rightParen then do
      let more ← watchNext ts
      return ([], more, depth)
    else do
      let start ← watchStart first ts
      let inner ← watchDescend start depth
      let (e, rest, d) ← watchExpression scope calls inside 0 start inner
      let _ ← watchRound ts rest
      let (as, rest, d) ← watchArguments scope calls inside false rest d
      return (e :: as, rest, d)

/-- Reads a path from the top of the tree or from the context node. -/
def watchLocationPath (scope : Scope) (calls inside : Nat) (ts : List Lexeme) (depth : Nat) :
    Except Stop (Answer Expr) :=
  match calls with
  | 0 => .error (.alarm .outOfCalls)
  | calls + 1 =>
    if current ts = .slash then do
      let more ← watchNext ts
      if beginsStep (current more) then
        watchRelativePath scope calls inside (some .root) more depth
      else
        return (.root, more, depth)
    else if current ts = .doubleSlash then do
      let more ← watchNext ts
      watchRelativePath scope calls inside (some (descendantOrSelf .root)) more depth
    else
      watchRelativePath scope calls inside none ts depth

/-- Reads steps with `/` or `//` between them. -/
def watchRelativePath (scope : Scope) (calls inside : Nat) (input : Option Expr)
    (ts : List Lexeme) (depth : Nat) : Except Stop (Answer Expr) :=
  match calls with
  | 0 => .error (.alarm .outOfCalls)
  | calls + 1 => do
    let (e, rest, d) ← watchStep scope calls inside input ts depth
    let (e, rest, _) ← watchMoreSteps scope calls inside e rest d
    return (e, rest, d)

/-- Reads further steps as long as they follow, one in each round. -/
def watchMoreSteps (scope : Scope) (calls inside : Nat) (input : Expr) (ts : List Lexeme)
    (depth : Nat) : Except Stop (Answer Expr) :=
  match calls with
  | 0 => .error (.alarm .outOfCalls)
  | calls + 1 =>
    if current ts = .slash || current ts = .doubleSlash then do
      let double := current ts = .doubleSlash
      let more ← watchNext ts
      let inner ← watchDescend more (if double then depth + 1 else depth)
      let source := if double then descendantOrSelf input else input
      let (e, rest, d) ← watchStep scope calls inside (some source) more inner
      let _ ← watchRound ts rest
      watchMoreSteps scope calls inside e rest d
    else
      .ok (input, ts, depth)

/-- Reads one step. -/
def watchStep (scope : Scope) (calls inside : Nat) (input : Option Expr) (ts : List Lexeme)
    (depth : Nat) : Except Stop (Answer Expr) :=
  match calls with
  | 0 => .error (.alarm .outOfCalls)
  | calls + 1 =>
    if input.any (fun e => e.type != .nodeSet) then
      watchFault ts .stepFromOther
    else
      match current ts with
      | .dot => do
        let more ← watchNext ts
        if current more = .leftBracket then watchFault more .predicateAfterDot
        else return (stepFrom input .self .node [], more, depth)
      | .doubleDot => do
        let more ← watchNext ts
        if current more = .leftBracket then watchFault more .predicateAfterDot
        else return (stepFrom input .parent .node [], more, depth)
      | .atSign => do
        let more ← watchNext ts
        let ((axis, test), rest) ← watchStepHead .attribute true more
        let (ps, rest, d) ← watchPredicates scope calls inside rest depth
        return (stepFrom input axis test ps, rest, d)
      | _ => do
        let ((axis, test), rest) ← watchStepHead .child false ts
        let (ps, rest, d) ← watchPredicates scope calls inside rest depth
        return (stepFrom input axis test ps, rest, d)

end

/-! ## Agreeing -/

section Agreeing

variable {all ts more rest : List Lexeme} {t : Lexeme} {α β γ δ : Type}

/-- The last of the tokens is the end of the text, or where no token begins. -/
def Ended (all : List Lexeme) : Prop :=
  ∃ us t, all = us ++ [t] ∧ (t.token = .eof ∨ t.token = .invalid)

/-- Tokens that are left, of which there is one at least. -/
structure Remains (all ts : List Lexeme) : Prop where
  suffix : ts <:+ all
  ne_nil : ts ≠ []

theorem Remains.tail (hall : Ended all) (h : Remains all (t :: more))
    (ht : t.token ≠ .eof ∧ t.token ≠ .invalid) : Remains all more := by
  refine ⟨(List.suffix_cons t more).trans h.suffix, ?_⟩
  rintro rfl
  obtain ⟨us, last, rfl, hlast⟩ := hall
  obtain ⟨vs, hvs⟩ := h.suffix
  obtain ⟨-, hlasts⟩ := List.append_inj' hvs rfl
  obtain rfl := List.singleton_inj.1 hlasts
  exact hlast.elim ht.1 ht.2

/-- A reader under watch raises no alarm: it answers what the reader does, or stops at the same
fault, which is at the start of one of the tokens. -/
inductive Agrees (all : List Lexeme) (R : α → β → Prop) :
    Except Stop α → Except SyntaxFault β → Prop where
  | answer {a : α} {b : β} (h : R a b) : Agrees all R (.ok a) (.ok b)
  | fault {f : SyntaxFault} (h : ∃ t ∈ all, t.start = f.offset) :
      Agrees all R (.error (.fault f)) (.error f)

namespace Agrees

variable {R : α → β → Prop} {R' : γ → δ → Prop} {w : Except Stop α} {x : Except SyntaxFault β}
  {g : α → Except Stop γ} {f : β → Except SyntaxFault δ} {y : Except SyntaxFault δ}

/-- What comes after agrees if it agrees after every answer. -/
theorem bind (h : Agrees all R w x) (hf : ∀ a b, R a b → x = .ok b → Agrees all R' (g a) (f b)) :
    Agrees all R' (w >>= g) (x >>= f) := by
  cases h with
  | answer h => exact hf _ _ h rfl
  | fault h => exact .fault h

theorem bind_left (h : Agrees all R w x) {R'' : γ → β → Prop}
    (hg : ∀ a b, R a b → x = .ok b → Agrees all R'' (g a) (.ok b)) :
    Agrees all R'' (w >>= g) x := by
  cases h with
  | answer h => exact hg _ _ h rfl
  | fault h => exact .fault h

theorem bind_right (h : Agrees all R w x) {R'' : α → δ → Prop}
    (hf : ∀ a b, R a b → x = .ok b → Agrees all R'' (.ok a) (f b)) :
    Agrees all R'' w (x >>= f) := by
  cases h with
  | answer h => exact hf _ _ h rfl
  | fault h => exact .fault h

/-- Taking a token that is not the last one. -/
theorem next (hall : Ended all) (h : Remains all (t :: more))
    (ht : t.token ≠ .eof ∧ t.token ≠ .invalid) {g : List Lexeme → Except Stop γ}
    (hg : Remains all more → Agrees all R' (g more) y) :
    Agrees all R' (watchNext (t :: more) >>= g) y := by
  have hmore := h.tail hall ht
  cases more with
  | nil => exact absurd rfl hmore.ne_nil
  | cons t' more => exact hg hmore

theorem round {before after : List Lexeme} {g : Unit → Except Stop γ}
    (hlength : after.length < before.length) (hg : Agrees all R' (g ()) y) :
    Agrees all R' (watchRound before after >>= g) y := by
  rw [watchRound, if_pos hlength]
  exact hg

end Agrees

theorem agrees_fault {R : α → β → Prop} (h : Remains all ts) (cause : SyntaxCause) :
    Agrees all R (watchFault ts cause) (fault ts cause) := by
  cases ts with
  | nil => exact absurd rfl h.ne_nil
  | cons t more => exact .fault ⟨t, h.suffix.subset List.mem_cons_self, rfl⟩

theorem agrees_descend (h : Remains all ts) (depth : Nat) :
    Agrees all (fun inner inner' => inner = inner' ∧ inner' = depth + 1 ∧ depth < maxDepth)
      (watchDescend ts depth) (descend ts depth) := by
  unfold watchDescend descend
  split
  · exact agrees_fault h _
  · exact .answer ⟨rfl, rfl, by omega⟩

theorem agrees_expect (hall : Ended all) (h : Remains all ts) (token : Token)
    (htoken : token ≠ .eof ∧ token ≠ .invalid) (cause : SyntaxCause) :
    Agrees all (fun rest rest' => rest = rest'.1 ∧ Remains all rest'.1)
      (watchExpect token ts cause) (expect token ts cause) := by
  cases ts with
  | nil => exact absurd rfl h.ne_nil
  | cons t more =>
    unfold watchExpect expect
    simp only [show current (t :: more) = t.token from rfl]
    split
    · rename_i ht
      subst ht
      have hmore := h.tail hall htoken
      cases more with
      | nil => exact absurd rfl hmore.ne_nil
      | cons t' more => exact .answer ⟨rfl, hmore⟩
    · exact agrees_fault h _

/-- An answer is what a reader answers; tokens are left, and the levels are no fewer. -/
structure Matches (all : List Lexeme) (depth : Nat) {n : Nat} (a : Answer α) (p : Parsed α n) :
    Prop where
  eq : a = (p.value, p.rest, p.depth)
  remains : Remains all p.rest
  le_depth : depth ≤ p.depth

end Agreeing

/-! ## Operators -/

theorem binaryOp?_ne_end {token : Token} {op : BinaryOp} (h : binaryOp? token = some op) :
    token ≠ .eof ∧ token ≠ .invalid := by
  constructor <;> rintro rfl <;> cases h

/-- Operators are read as long as they bind tighter than the limit, and if there is none nothing
is taken. -/
theorem parseBinary_stops {scope : Scope} (limit : Nat) (lhs : Expr) (ts : List Lexeme)
    (depth : Nat) {p : Parsed Expr (ts.length + 1)}
    (h : parseBinary scope limit lhs ts depth = .ok p) :
    (∀ op, binaryOp? (current p.rest) = some op → op.precedence ≤ limit) ∧
      (p.rest.length < ts.length ∨ p.rest = ts) := by
  obtain ⟨n, hn⟩ : ∃ n, n = ts.length := ⟨_, rfl⟩
  induction n using Nat.strong_induction_on generalizing lhs ts depth with | h n ih =>
  cases ts with
  | nil =>
    rw [parseBinary] at h
    cases h
    exact ⟨fun op hop => (Option.some_ne_none op hop.symm).elim, .inr rfl⟩
  | cons t more =>
    rw [List.length_cons] at hn
    rw [parseBinary] at h
    split at h
    · rename_i hop
      cases h
      refine ⟨fun op hop' => ?_, .inr rfl⟩
      rw [show current (t :: more) = t.token from rfl, hop] at hop'
      cases hop'
    · rename_i op hop
      split at h
      · rename_i hlimit
        cases h
        refine ⟨fun op' hop' => ?_, .inr rfl⟩
        rw [show current (t :: more) = t.token from rfl, hop] at hop'
        cases hop'
        exact hlimit
      · obtain ⟨inner, -, h⟩ := exists_ok_of_bind h
        obtain ⟨operand, -, h⟩ := exists_ok_of_bind h
        have hwithin := operand.within
        obtain ⟨rhs, -, h⟩ := exists_ok_of_bind h
        have hwithin' := rhs.within
        split at h
        · cases h
        · obtain ⟨e, he, h⟩ := exists_ok_of_bind h
          cases h
          have hwithin'' := e.within
          obtain ⟨hstops, -⟩ := ih rhs.rest.length (by omega) _ rhs.rest rhs.depth he rfl
          exact ⟨hstops, .inl (by simp only [List.length_cons]; omega)⟩

theorem watchTighter_stop {scope : Scope} {calls inside limit depth : Nat} {rhs : Expr}
    {ts : List Lexeme} (hcalls : 0 < calls)
    (h : ∀ op, binaryOp? (current ts) = some op → op.precedence ≤ limit) :
    watchTighter scope calls inside limit rhs ts depth = .ok (rhs, ts, depth) := by
  match calls, hcalls with
  | calls + 1, _ =>
    rw [watchTighter]
    cases hop : binaryOp? (current ts) with
    | none => rfl
    | some op => exact if_pos (h op hop)

theorem parseBinary_stop {scope : Scope} {limit depth : Nat} {lhs : Expr} {ts : List Lexeme}
    (h : ∀ op, binaryOp? (current ts) = some op → op.precedence ≤ limit) :
    parseBinary scope limit lhs ts depth = .ok ⟨lhs, ts, depth, Nat.lt_succ_self _⟩ := by
  cases ts with
  | nil => rw [parseBinary]
  | cons t more =>
    rw [parseBinary]
    split
    · rfl
    · rename_i op hop
      rw [if_pos (h op hop)]
      rfl

/-! ## Node tests -/

section Heads

variable {all ts : List Lexeme}

theorem agrees_nameTest (hall : Ended all) (hts : Remains all ts) (name : List Char) :
    Agrees all (fun a b => a = (b.1, b.2.1) ∧ Remains all b.2.1) (watchNameTest name ts)
      (parseNameTest name ts) := by
  unfold watchNameTest parseNameTest
  split
  · rename_i hparen
    match ts, hts, hparen with
    | ⟨_, open', paren'⟩ :: inner, hts, rfl =>
      refine .next hall hts ⟨nofun, nofun⟩ fun hinner => ?_
      match inner, hinner with
      | [], hinner => exact absurd rfl hinner.ne_nil
      | ⟨token, start, paren⟩ :: more, hinner =>
        cases token
        case rightParen =>
          refine .next hall hinner ⟨nofun, nofun⟩ fun hmore => ?_
          change Agrees all _ (match NodeTest.ofKindName? _ with | some _ => _ | none => _)
            (match NodeTest.ofKindName? _ with | some _ => _ | none => _)
          cases NodeTest.ofKindName? (String.ofList name) with
          | none => exact agrees_fault hmore _
          | some test => exact .answer ⟨rfl, hmore⟩
        case string target =>
          change Agrees all _ (if _ then _ else _) (if _ then _ else _)
          split
          · refine .next hall hinner ⟨nofun, nofun⟩ fun hmore => ?_
            have hexpect : Agrees all _ _ (expect .rightParen
                (List.drop 1 (List.drop 1
                  (⟨.leftParen, open', paren'⟩ :: ⟨.string target, start, paren⟩ :: more)))
                .unclosedPi) :=
              agrees_expect hall hmore .rightParen ⟨nofun, nofun⟩ .unclosedPi
            generalize expect .rightParen (List.drop 1 (List.drop 1 _)) .unclosedPi = x,
              watchExpect .rightParen more .unclosedPi = w at hexpect ⊢
            cases hexpect with
            | answer h => exact .answer ⟨by rw [h.1], h.2⟩
            | fault h => exact .fault h
          · exact agrees_fault hinner _
        all_goals exact agrees_fault hinner _
  · exact .answer ⟨rfl, hts⟩

theorem agrees_stepHead (hall : Ended all) (hts : Remains all ts) (axis : Axis) (given : Bool) :
    Agrees all (fun a b => a = (b.1, b.2.1) ∧ Remains all b.2.1) (watchStepHead axis given ts)
      (parseStepHead axis given ts) := by
  match ts, hts with
  | [], hts => exact absurd rfl hts.ne_nil
  | ⟨token, start, paren⟩ :: more, hts =>
    unfold watchStepHead parseStepHead
    cases token
    case star =>
      refine .next hall hts ⟨nofun, nofun⟩ fun hmore => ?_
      exact .answer ⟨rfl, hmore⟩
    case name name =>
      refine .next hall hts ⟨nofun, nofun⟩ fun hmore => ?_
      match more, hmore with
      | [], hmore => exact absurd rfl hmore.ne_nil
      | t :: inner, hmore =>
        change Agrees all _ (if t.token = .doubleColon then _ else _)
          (if t.token = .doubleColon then _ else _)
        split
        · rename_i hcolons
          cases given with
          | true => exact agrees_fault hmore _
          | false =>
            change Agrees all _
              (match Axis.ofName? (String.ofList name) with | none => _ | some _ => _)
              (match Axis.ofName? (String.ofList name) with | none => _ | some _ => _)
            cases Axis.ofName? (String.ofList name) with
            | none => exact agrees_fault hmore _
            | some axis =>
              refine .next hall hmore ⟨by simp [hcolons], by simp [hcolons]⟩ fun hinner => ?_
              match inner, hinner with
              | [], hinner => exact absurd rfl hinner.ne_nil
              | ⟨token, start, paren⟩ :: more, hinner =>
                cases token
                case star =>
                  refine .next hall hinner ⟨nofun, nofun⟩ fun hmore => ?_
                  exact .answer ⟨rfl, hmore⟩
                case name name =>
                  refine .next hall hinner ⟨nofun, nofun⟩ fun hmore => ?_
                  have htest : Agrees all _ _ (parseNameTest name
                      (List.drop 1 (List.drop 1 (t :: ⟨.name name, start, paren⟩ :: more)))) :=
                    agrees_nameTest hall hmore name
                  conv => rhs; whnf
                  generalize parseNameTest name (List.drop 1 (List.drop 1 _)) = x,
                    watchNameTest name more = w at htest ⊢
                  cases htest with
                  | answer h => exact .answer ⟨by rw [h.1], h.2⟩
                  | fault h => exact .fault h
                all_goals exact agrees_fault hinner _
        · have htest := agrees_nameTest hall hmore name
          generalize parseNameTest name (t :: inner) = x,
            watchNameTest name (t :: inner) = w at htest ⊢
          cases htest with
          | answer h => exact .answer ⟨by rw [h.1], h.2⟩
          | fault h => exact .fault h
    all_goals exact agrees_fault hts _

end Heads

/-! ## The readers under watch -/

section Watched

variable {all : List Lexeme} {scope : Scope}

mutual

theorem agrees_expression (hall : Ended all) (calls inside limit : Nat) (ts : List Lexeme)
    (depth : Nat) (hts : Remains all ts) (hcalls : ts.length * 8 + 6 < calls)
    (hinside : maxDepth ≤ inside + depth) :
    Agrees all (Matches all depth) (watchExpression scope calls inside limit ts depth)
      (parseExpression scope limit ts depth) := by
  match calls, hcalls with
  | calls + 1, hcalls =>
    rw [watchExpression, parseExpression]
    refine (agrees_descend hts depth).bind ?_
    rintro _ inner ⟨rfl, rfl, hlt⟩ -
    match inside, hinside with
    | 0, hinside => omega
    | inside + 1, hinside =>
      refine (agrees_operand hall calls inside ts (depth + 1) hts (by omega) (by omega)).bind ?_
      rintro _ lhs ⟨rfl, hlhs, hdeep⟩ -
      have hwithin := lhs.within
      refine (agrees_binary hall calls inside limit lhs.value lhs.rest lhs.depth hlhs (by omega)
        (by omega)).bind ?_
      rintro _ e ⟨rfl, he, -⟩ -
      exact .answer ⟨rfl, he, Nat.le_refl _⟩
termination_by structural calls

theorem agrees_binary (hall : Ended all) (calls inside limit : Nat) (lhs : Expr)
    (ts : List Lexeme) (depth : Nat) (hts : Remains all ts) (hcalls : ts.length * 8 < calls)
    (hinside : maxDepth ≤ inside + depth) :
    Agrees all (Matches all depth) (watchBinary scope calls inside limit lhs ts depth)
      (parseBinary scope limit lhs ts depth) := by
  match calls, ts, hts, hcalls with
  | calls + 1, [], hts, hcalls => exact absurd rfl hts.ne_nil
  | calls + 1, t :: more, hts, hcalls =>
    rw [List.length_cons] at hcalls
    rw [watchBinary, parseBinary]
    simp only [show current (t :: more) = t.token from rfl]
    cases hop : binaryOp? t.token with
    | none => exact .answer ⟨rfl, hts, Nat.le_refl _⟩
    | some op =>
      simp only
      split
      · exact .answer ⟨rfl, hts, Nat.le_refl _⟩
      · refine .next hall hts (binaryOp?_ne_end hop) fun hmore => ?_
        refine (agrees_descend hmore depth).bind ?_
        rintro _ inner ⟨rfl, rfl, hlt⟩ -
        refine (agrees_operand hall calls inside more (depth + 1) hmore (by omega)
          (by omega)).bind ?_
        rintro _ operand ⟨rfl, hoperand, hdeep⟩ -
        have hwithin := operand.within
        refine (agrees_tighter hall calls inside op.precedence operand.value operand.rest
          operand.depth hoperand (by omega) (by omega)).bind ?_
        rintro _ rhs ⟨rfl, hrhs, hdeeper⟩ -
        have hwithin' := rhs.within
        dsimp only
        split
        · exact agrees_fault hrhs _
        · refine .round (by rw [List.length_cons]; omega) ?_
          refine (agrees_binary hall calls inside limit (.binary op lhs rhs.value) rhs.rest
            rhs.depth hrhs (by omega) (by omega)).bind_right ?_
          rintro _ e ⟨rfl, he, hdeepest⟩ -
          exact .answer ⟨rfl, he, by simp only; omega⟩
termination_by structural calls

theorem agrees_tighter (hall : Ended all) (calls inside limit : Nat) (rhs : Expr)
    (ts : List Lexeme) (depth : Nat) (hts : Remains all ts) (hcalls : ts.length * 8 + 1 < calls)
    (hinside : maxDepth ≤ inside + depth) :
    Agrees all (Matches all depth) (watchTighter scope calls inside limit rhs ts depth)
      (parseBinary scope limit rhs ts depth) := by
  match calls, hcalls with
  | calls + 1, hcalls =>
    have hbinary := agrees_binary hall calls inside limit rhs ts depth hts (by omega) hinside
    by_cases hstop : ∀ op, binaryOp? (current ts) = some op → op.precedence ≤ limit
    · rw [watchTighter_stop (Nat.succ_pos _) hstop, parseBinary_stop hstop]
      exact .answer ⟨rfl, hts, Nat.le_refl _⟩
    · simp only [not_forall] at hstop
      obtain ⟨op, hop, hlimit⟩ := hstop
      rw [watchTighter, hop]
      simp only [if_neg hlimit]
      refine hbinary.bind_left ?_
      rintro _ p ⟨rfl, hp, hdeep⟩ hread
      obtain ⟨hstops, hshorter | hsame⟩ := parseBinary_stops limit rhs ts depth hread
      · refine .round hshorter ?_
        rw [watchTighter_stop (by omega) hstops]
        exact .answer ⟨rfl, hp, hdeep⟩
      · rw [hsame] at hstops
        exact absurd (hstops op hop) hlimit
termination_by structural calls

theorem agrees_operand (hall : Ended all) (calls inside : Nat) (ts : List Lexeme)
    (depth : Nat) (hts : Remains all ts) (hcalls : ts.length * 8 + 5 < calls)
    (hinside : maxDepth ≤ inside + depth) :
    Agrees all (Matches all depth) (watchOperand scope calls inside ts depth)
      (parseOperand scope ts depth) := by
  match calls, ts, hts, hcalls with
  | calls + 1, [], hts, hcalls => exact absurd rfl hts.ne_nil
  | calls + 1, ⟨token, start, paren⟩ :: more, hts, hcalls =>
    rw [List.length_cons] at hcalls
    rw [watchOperand, parseOperand]
    have hfilter := agrees_filterPath hall calls inside _ depth hts
      (by rw [List.length_cons]; omega) hinside
    have hlocation := agrees_locationPath hall calls inside _ depth hts
      (by rw [List.length_cons]; omega) hinside
    cases token
    case minus =>
      refine .next hall hts ⟨nofun, nofun⟩ fun hmore => ?_
      refine (agrees_descend hmore depth).bind ?_
      rintro _ inner ⟨rfl, rfl, hlt⟩ -
      refine (agrees_expression hall calls inside 7 more (depth + 1) hmore (by omega)
        (by omega)).bind ?_
      rintro _ e ⟨rfl, he, hdeep⟩ -
      exact .answer ⟨rfl, he, by simp only; omega⟩
    case name n =>
      change Agrees all _ (if (paren && _) = true then _ else _)
        (if (paren && _) = true then _ else _)
      split
      · exact hfilter
      · exact hlocation
    case variableName | leftParen | string | number => exact hfilter
    all_goals exact hlocation
termination_by structural calls

theorem agrees_filterPath (hall : Ended all) (calls inside : Nat) (ts : List Lexeme)
    (depth : Nat) (hts : Remains all ts) (hcalls : ts.length * 8 + 4 < calls)
    (hinside : maxDepth ≤ inside + depth) :
    Agrees all (Matches all depth) (watchFilterPath scope calls inside ts depth)
      (parseFilterPath scope ts depth) := by
  match calls, hcalls with
  | calls + 1, hcalls =>
    rw [watchFilterPath, parseFilterPath]
    refine (agrees_filter hall calls inside ts depth hts (by omega) hinside).bind ?_
    rintro _ ⟨e, rest, d, hwithin⟩ ⟨rfl, he, hdeep⟩ -
    dsimp only at he hdeep ⊢
    match rest, he, hwithin with
    | [], he, hwithin => exact absurd rfl he.ne_nil
    | t :: more, he, hwithin =>
      rw [List.length_cons] at hwithin
      simp only [show current (t :: more) = t.token from rfl]
      split
      · rename_i hslash
        refine .next hall he ⟨by simp [hslash], by simp [hslash]⟩ fun hmore => ?_
        refine (agrees_relativePath hall calls inside (some e) more d hmore (by omega)
          (by omega)).bind_right ?_
        rintro _ q ⟨rfl, hq, hdeeper⟩ -
        exact .answer ⟨rfl, hq, by simp only; omega⟩
      · split
        · rename_i hdouble
          refine .next hall he ⟨by simp [hdouble], by simp [hdouble]⟩ fun hmore => ?_
          split
          · exact agrees_fault hmore _
          · refine (agrees_relativePath hall calls inside (some (descendantOrSelf e)) more d hmore
              (by omega) (by omega)).bind_right ?_
            rintro _ q ⟨rfl, hq, hdeeper⟩ -
            exact .answer ⟨rfl, hq, by simp only; omega⟩
        · exact .answer ⟨rfl, he, hdeep⟩
termination_by structural calls

theorem agrees_filter (hall : Ended all) (calls inside : Nat) (ts : List Lexeme)
    (depth : Nat) (hts : Remains all ts) (hcalls : ts.length * 8 + 3 < calls)
    (hinside : maxDepth ≤ inside + depth) :
    Agrees all (Matches all depth) (watchFilter scope calls inside ts depth)
      (parseFilter scope ts depth) := by
  match calls, hcalls with
  | calls + 1, hcalls =>
    rw [watchFilter, parseFilter]
    refine (agrees_primary hall calls inside ts depth hts (by omega) hinside).bind ?_
    rintro _ e ⟨rfl, he, hdeep⟩ -
    have hwithin := e.within
    dsimp only
    split
    · split
      · exact agrees_fault he _
      · refine (agrees_predicates hall calls inside e.rest e.depth he (by omega) (by omega)).bind ?_
        rintro _ ps ⟨rfl, hps, hdeeper⟩ -
        exact .answer ⟨rfl, hps, by simp only; omega⟩
    · exact .answer ⟨rfl, he, hdeep⟩
termination_by structural calls

theorem agrees_predicates (hall : Ended all) (calls inside : Nat) (ts : List Lexeme)
    (depth : Nat) (hts : Remains all ts) (hcalls : ts.length * 8 < calls)
    (hinside : maxDepth ≤ inside + depth) :
    Agrees all (Matches all depth) (watchPredicates scope calls inside ts depth)
      (parsePredicates scope ts depth) := by
  match calls, ts, hts, hcalls with
  | calls + 1, [], hts, hcalls => exact absurd rfl hts.ne_nil
  | calls + 1, t :: more, hts, hcalls =>
    rw [List.length_cons] at hcalls
    rw [watchPredicates, parsePredicates]
    simp only [show current (t :: more) = t.token from rfl]
    split
    · rename_i hbracket
      refine .next hall hts ⟨by simp [hbracket], by simp [hbracket]⟩ fun hmore => ?_
      refine (agrees_descend hmore depth).bind ?_
      rintro _ inner ⟨rfl, rfl, hlt⟩ -
      refine (agrees_expression hall calls inside 0 more (depth + 1) hmore (by omega)
        (by omega)).bind ?_
      rintro _ e ⟨rfl, he, hdeep⟩ -
      have hwithin := e.within
      refine (agrees_expect hall he .rightBracket ⟨nofun, nofun⟩ _).bind ?_
      rintro _ rest ⟨rfl, hrest⟩ -
      have hshorter := rest.2
      refine .round (by rw [List.length_cons]; omega) ?_
      refine (agrees_predicates hall calls inside rest.1 e.depth hrest (by omega)
        (by omega)).bind ?_
      rintro _ ps ⟨rfl, hps, hdeeper⟩ -
      exact .answer ⟨rfl, hps, Nat.le_refl _⟩
    · exact .answer ⟨rfl, hts, Nat.le_refl _⟩
termination_by structural calls

theorem agrees_primary (hall : Ended all) (calls inside : Nat) (ts : List Lexeme)
    (depth : Nat) (hts : Remains all ts) (hcalls : ts.length * 8 + 2 < calls)
    (hinside : maxDepth ≤ inside + depth) :
    Agrees all (Matches all depth) (watchPrimary scope calls inside ts depth)
      (parsePrimary scope ts depth) := by
  match calls, ts, hts, hcalls with
  | calls + 1, [], hts, hcalls => exact absurd rfl hts.ne_nil
  | calls + 1, ⟨token, start, paren⟩ :: more, hts, hcalls =>
    rw [List.length_cons] at hcalls
    rw [watchPrimary, parsePrimary]
    cases token
    case variableName name =>
      cases scope with
      | none => exact agrees_fault hts _
      | some refs =>
        change Agrees all _ (match refs.find? _ with | some _ => _ | none => _)
          (match refs.find? _ with | some _ => _ | none => _)
        cases refs.find? fun r => r.name = String.ofList name with
        | none => exact agrees_fault hts _
        | some ref =>
          refine .next hall hts ⟨nofun, nofun⟩ fun hmore => ?_
          exact .answer ⟨rfl, hmore, Nat.le_refl _⟩
    case leftParen =>
      refine .next hall hts ⟨nofun, nofun⟩ fun hmore => ?_
      refine (agrees_expression hall calls inside 0 more depth hmore (by omega) hinside).bind ?_
      rintro _ e ⟨rfl, he, hdeep⟩ -
      refine (agrees_expect hall he .rightParen ⟨nofun, nofun⟩ _).bind ?_
      rintro _ ⟨rest, hlength⟩ ⟨rfl, hrest⟩ -
      exact .answer ⟨rfl, hrest, hdeep⟩
    case string s =>
      refine .next hall hts ⟨nofun, nofun⟩ fun hmore => ?_
      exact .answer ⟨rfl, hmore, Nat.le_refl _⟩
    case number n =>
      refine .next hall hts ⟨nofun, nofun⟩ fun hmore => ?_
      exact .answer ⟨rfl, hmore, Nat.le_refl _⟩
    case name name =>
      refine .next hall hts ⟨nofun, nofun⟩ fun hmore => ?_
      refine (agrees_expect hall hmore .leftParen ⟨nofun, nofun⟩ _).bind ?_
      rintro _ inner ⟨rfl, hinner⟩ -
      have hshorter := inner.2
      refine (agrees_arguments hall calls inside true inner.1 depth hinner (by omega)
        hinside).bind ?_
      rintro _ as ⟨rfl, has, -⟩ -
      dsimp only
      cases CoreFunction.resolve? (String.ofList name) as.value.length with
      | none => exact agrees_fault has _
      | some f =>
        simp only
        split
        · exact agrees_fault has _
        · exact .answer ⟨rfl, has, Nat.le_refl _⟩
    all_goals exact agrees_fault hts _
termination_by structural calls

theorem agrees_arguments (hall : Ended all) (calls inside : Nat) (first : Bool)
    (ts : List Lexeme) (depth : Nat) (hts : Remains all ts) (hcalls : ts.length * 8 + 7 < calls)
    (hinside : maxDepth ≤ inside + depth) :
    Agrees all (Matches all depth) (watchArguments scope calls inside first ts depth)
      (parseArguments scope first ts depth) := by
  match calls, ts, hts, hcalls with
  | calls + 1, [], hts, hcalls => exact absurd rfl hts.ne_nil
  | calls + 1, t :: more, hts, hcalls =>
    rw [List.length_cons] at hcalls
    rw [watchArguments, parseArguments]
    simp only [show current (t :: more) = t.token from rfl]
    split
    · rename_i hparen
      refine .next hall hts ⟨by simp [hparen], by simp [hparen]⟩ fun hmore => ?_
      exact .answer ⟨rfl, hmore, Nat.le_refl _⟩
    · refine Agrees.bind (R := fun rest rest' => rest = rest'.1 ∧ Remains all rest'.1) ?_ ?_
      · cases first with
        | true => exact .answer ⟨rfl, hts⟩
        | false =>
          have hexpect := agrees_expect hall hts .comma ⟨nofun, nofun⟩ .missingComma
          simp only [watchStart, Bool.false_eq_true, if_false]
          generalize expect .comma (t :: more) .missingComma = x,
            watchExpect .comma (t :: more) .missingComma = w at hexpect ⊢
          cases hexpect with
          | answer h => exact .answer h
          | fault h => exact .fault h
      rintro _ start ⟨rfl, hstart⟩ -
      have hshorter : start.1.length ≤ more.length + 1 := start.2
      refine (agrees_descend hstart depth).bind ?_
      rintro _ inner ⟨rfl, rfl, hlt⟩ -
      refine (agrees_expression hall calls inside 0 start.1 (depth + 1) hstart (by omega)
        (by omega)).bind ?_
      rintro _ e ⟨rfl, he, hdeep⟩ -
      have hwithin := e.within
      refine .round (show e.rest.length < more.length + 1 by omega) ?_
      refine (agrees_arguments hall calls inside false e.rest e.depth he (by omega)
        (by omega)).bind ?_
      rintro _ as ⟨rfl, has, hdeeper⟩ -
      exact .answer ⟨rfl, has, by simp only; omega⟩
termination_by structural calls

theorem agrees_locationPath (hall : Ended all) (calls inside : Nat) (ts : List Lexeme)
    (depth : Nat) (hts : Remains all ts) (hcalls : ts.length * 8 + 4 < calls)
    (hinside : maxDepth ≤ inside + depth) :
    Agrees all (Matches all depth) (watchLocationPath scope calls inside ts depth)
      (parseLocationPath scope ts depth) := by
  match calls, ts, hts, hcalls with
  | calls + 1, [], hts, hcalls => exact absurd rfl hts.ne_nil
  | calls + 1, t :: more, hts, hcalls =>
    have hcalls' := hcalls
    rw [List.length_cons] at hcalls
    rw [watchLocationPath, parseLocationPath]
    simp only [show current (t :: more) = t.token from rfl]
    split
    · rename_i hslash
      refine .next hall hts ⟨by simp [hslash], by simp [hslash]⟩ fun hmore => ?_
      split
      · refine (agrees_relativePath hall calls inside (some .root) more depth hmore (by omega)
          hinside).bind_right ?_
        rintro _ q ⟨rfl, hq, hdeep⟩ -
        exact .answer ⟨rfl, hq, hdeep⟩
      · exact .answer ⟨rfl, hmore, Nat.le_refl _⟩
    · split
      · rename_i hdouble
        refine .next hall hts ⟨by simp [hdouble], by simp [hdouble]⟩ fun hmore => ?_
        refine (agrees_relativePath hall calls inside (some (descendantOrSelf .root)) more depth
          hmore (by omega) hinside).bind_right ?_
        rintro _ q ⟨rfl, hq, hdeep⟩ -
        exact .answer ⟨rfl, hq, hdeep⟩
      · exact agrees_relativePath hall calls inside none (t :: more) depth hts (by omega) hinside
termination_by structural calls

theorem agrees_relativePath (hall : Ended all) (calls inside : Nat) (input : Option Expr)
    (ts : List Lexeme) (depth : Nat) (hts : Remains all ts) (hcalls : ts.length * 8 + 3 < calls)
    (hinside : maxDepth ≤ inside + depth) :
    Agrees all (Matches all depth) (watchRelativePath scope calls inside input ts depth)
      (parseRelativePath scope input ts depth) := by
  match calls, hcalls with
  | calls + 1, hcalls =>
    rw [watchRelativePath, parseRelativePath]
    refine (agrees_step hall calls inside input ts depth hts (by omega) hinside).bind ?_
    rintro _ e ⟨rfl, he, hdeep⟩ -
    have hwithin := e.within
    refine (agrees_moreSteps hall calls inside e.value e.rest e.depth he (by omega)
      (by omega)).bind ?_
    rintro _ q ⟨rfl, hq, -⟩ -
    exact .answer ⟨rfl, hq, hdeep⟩
termination_by structural calls

theorem agrees_moreSteps (hall : Ended all) (calls inside : Nat) (input : Expr)
    (ts : List Lexeme) (depth : Nat) (hts : Remains all ts) (hcalls : ts.length * 8 < calls)
    (hinside : maxDepth ≤ inside + depth) :
    Agrees all (Matches all depth) (watchMoreSteps scope calls inside input ts depth)
      (parseMoreSteps scope input ts depth) := by
  match calls, ts, hts, hcalls with
  | calls + 1, [], hts, hcalls => exact absurd rfl hts.ne_nil
  | calls + 1, t :: more, hts, hcalls =>
    rw [List.length_cons] at hcalls
    rw [watchMoreSteps, parseMoreSteps]
    simp only [show current (t :: more) = t.token from rfl]
    split
    · rename_i hslash
      have htoken : t.token ≠ .eof ∧ t.token ≠ .invalid := by
        constructor <;> intro h <;> simp [h] at hslash
      refine .next hall hts htoken fun hmore => ?_
      refine (agrees_descend hmore _).bind ?_
      rintro _ inner ⟨rfl, rfl, hlt⟩ -
      have hdeeper : depth ≤ if t.token = .doubleSlash then depth + 1 else depth := by
        split <;> omega
      refine (agrees_step hall calls inside _ more _ hmore (by omega) (by omega)).bind ?_
      rintro _ e ⟨rfl, he, hdeep⟩ -
      have hwithin := e.within
      refine .round (show e.rest.length < _ by rw [List.length_cons]; omega) ?_
      refine (agrees_moreSteps hall calls inside e.value e.rest e.depth he (by omega)
        (by omega)).bind_right ?_
      rintro _ q ⟨rfl, hq, hdeepest⟩ -
      exact .answer ⟨rfl, hq, by simp only; omega⟩
    · exact .answer ⟨rfl, hts, Nat.le_refl _⟩
termination_by structural calls

theorem agrees_step (hall : Ended all) (calls inside : Nat) (input : Option Expr)
    (ts : List Lexeme) (depth : Nat) (hts : Remains all ts) (hcalls : ts.length * 8 + 2 < calls)
    (hinside : maxDepth ≤ inside + depth) :
    Agrees all (Matches all depth) (watchStep scope calls inside input ts depth)
      (parseStep scope input ts depth) := by
  match calls, ts, hts, hcalls with
  | calls + 1, [], hts, hcalls => exact absurd rfl hts.ne_nil
  | calls + 1, ⟨token, start, paren⟩ :: more, hts, hcalls =>
    rw [List.length_cons] at hcalls
    rw [watchStep, parseStep]
    split
    · exact agrees_fault hts _
    · cases token
      case dot | doubleDot =>
        refine .next hall hts ⟨nofun, nofun⟩ fun hmore => ?_
        change Agrees all _ (if current more = .leftBracket then _ else _)
          (if current more = .leftBracket then _ else _)
        split
        · exact agrees_fault hmore _
        · exact .answer ⟨rfl, hmore, Nat.le_refl _⟩
      case atSign =>
        refine .next hall hts ⟨nofun, nofun⟩ fun hmore => ?_
        refine (agrees_stepHead hall hmore .attribute true).bind ?_
        rintro _ ⟨⟨axis, test⟩, rest, hshorter⟩ ⟨rfl, hrest⟩ -
        refine (agrees_predicates hall calls inside rest depth hrest (by omega) hinside).bind ?_
        rintro _ ps ⟨rfl, hps, hdeep⟩ -
        exact .answer ⟨rfl, hps, hdeep⟩
      all_goals
        refine (agrees_stepHead hall hts .child false).bind ?_
        rintro _ ⟨⟨axis, test⟩, rest, hshorter⟩ ⟨rfl, hrest⟩ -
        rw [List.length_cons] at hshorter
        refine (agrees_predicates hall calls inside rest depth hrest (by omega) hinside).bind ?_
        rintro _ ps ⟨rfl, hps, hdeep⟩ -
        exact .answer ⟨rfl, hps, hdeep⟩
termination_by structural calls

end

end Watched

/-! ## Whole texts -/

/-- Reads the tokens of a whole text off its bytes, and then the expression under watch.  The
number of calls that may be inside each other goes by the number of tokens, and that of
expressions by the number of levels. -/
def watchText (scope : Scope) (text : String) : Option (Except Stop Expr) :=
  ((Scanner.ofText text).lexemes? (text.utf8ByteSize + 1)).map fun ts => do
    let (e, rest, _) ← watchExpression scope (ts.length * 8 + 7) maxDepth 0 ts 0
    if current rest = .eof then return e else watchFault rest .trailingTokens

end Grammar

/-! ## Tokens of a text -/

/-- The token that a text without leading white space begins with. -/
def Token.first : List Char → Token
  | [] => .eof
  | c :: cs => (Token.scan c cs).1

theorem Token.first_eq_eof_iff {cs : List Char} : Token.first cs = .eof ↔ cs = [] := by
  cases cs with
  | nil => exact ⟨fun _ => rfl, fun _ => rfl⟩
  | cons c cs => exact ⟨fun h => absurd h (scan_progress c cs).1, nofun⟩

namespace Lexeme

/-- The tokens end with the first that is the end of the text, or none. -/
theorem ended_scanAll (o : Nat) (text : List Char) : Grammar.Ended (scanAll o text) := by
  match hdrop : text.drop (text.takeWhile isSpace).length with
  | [] =>
    rw [scanAll_of_end hdrop]
    exact ⟨[], _, rfl, .inl rfl⟩
  | c :: cs =>
    by_cases hinvalid : (Token.scan c cs).1 = .invalid
    · rw [scanAll_of_invalid hdrop hinvalid]
      exact ⟨[], _, rfl, .inr rfl⟩
    · have hpos := (Token.scan_progress c cs).2 hinvalid
      obtain ⟨us, t, heq, ht⟩ := ended_scanAll (o + byteSize (text.takeWhile isSpace)
        + byteSize ((c :: cs).take (Token.scan c cs).2)) ((c :: cs).drop (Token.scan c cs).2)
      rw [scanAll_of_token hdrop hinvalid, heq]
      exact ⟨_ :: us, t, rfl, ht⟩
termination_by text.length
decreasing_by
  have := congrArg List.length hdrop
  simp only [List.length_drop, List.length_cons] at this ⊢
  omega

/-- A token starts between two characters of the text, or at its end, and the rest of the text
begins with it. -/
theorem starts_scanAll (o : Nat) (text : List Char) {t : Lexeme} (ht : t ∈ scanAll o text) :
    ∃ before rest, text = before ++ rest ∧ t.start = o + byteSize before ∧
      t.token = Token.first rest := by
  have hsplit := (List.take_append_drop (text.takeWhile isSpace).length text).symm
  rw [take_length_takeWhile] at hsplit
  match hdrop : text.drop (text.takeWhile isSpace).length with
  | [] =>
    rw [scanAll_of_end hdrop, List.mem_singleton] at ht
    exact ⟨_, _, hsplit, by rw [ht], by rw [ht, hdrop]; rfl⟩
  | c :: cs =>
    by_cases hinvalid : (Token.scan c cs).1 = .invalid
    · rw [scanAll_of_invalid hdrop hinvalid, List.mem_singleton] at ht
      exact ⟨_, _, hsplit, by rw [ht], by rw [ht, hdrop]; exact hinvalid.symm⟩
    · rw [scanAll_of_token hdrop hinvalid, List.mem_cons] at ht
      obtain rfl | ht := ht
      · exact ⟨_, _, hsplit, rfl, by rw [hdrop]; rfl⟩
      · have hpos := (Token.scan_progress c cs).2 hinvalid
        obtain ⟨before, rest, heq, hstart, htoken⟩ := starts_scanAll _ _ ht
        refine ⟨text.takeWhile isSpace ++ (c :: cs).take (Token.scan c cs).2 ++ before, rest,
          ?_, ?_, htoken⟩
        · rw [List.append_assoc, List.append_assoc, ← heq, List.take_append_drop, ← hdrop]
          exact hsplit
        · rw [hstart, byteSize_append, byteSize_append]
          omega
termination_by text.length
decreasing_by
  have := congrArg List.length hdrop
  simp only [List.length_drop, List.length_cons] at this ⊢
  omega

end Lexeme

/-! ## Reading under watch -/

namespace Grammar

/-- A text is read under watch like without, and no alarm is raised. -/
theorem agrees_text (scope : Scope) (text : String) :
    ∃ w, watchText scope text = some w ∧
      Agrees (Lexeme.ofText text) (· = ·) w (Expr.parse scope text) := by
  have hall : Ended (Lexeme.ofText text) := Lexeme.ended_scanAll 0 text.toList
  have hts : Remains (Lexeme.ofText text) (Lexeme.ofText text) := by
    refine ⟨List.suffix_refl _, ?_⟩
    obtain ⟨us, t, heq, -⟩ := hall
    rw [heq]
    exact List.append_ne_nil_of_right_ne_nil _ (List.cons_ne_nil _ _)
  rw [watchText, Scanner.lexemes?_ofText]
  refine ⟨_, rfl, (agrees_expression hall _ maxDepth 0 _ 0 hts (Nat.lt_succ_self _)
    (Nat.le_add_right _ _)).bind ?_⟩
  rintro _ e ⟨rfl, he, -⟩ -
  dsimp only
  split
  · exact .answer rfl
  · exact agrees_fault he _

end Grammar

/-- Compiling comes to an end and nothing goes wrong on the way.  The tokens are read off the
bytes of the text without a slice that cuts a character; the calls of the readers inside each
other are no more than eight for each token, and no more of them read expressions than there are
levels; each round of a loop takes a token; and no reader asks for what is behind the last
token.  A fault is reported at the start of a token, or at the end of the text. -/
theorem Query.compile_watched (scope : Grammar.Scope) (text : String) :
    (Grammar.watchText scope text).map (Except.map Expr.fold) =
        some ((Query.compile scope text).outcome.mapError .fault) ∧
      ∀ f, (Query.compile scope text).fault? = some f →
        ∃ t ∈ Lexeme.ofText text, t.start = f.offset ∧
          ∃ before rest, text.toList = before ++ rest ∧ byteSize before = f.offset ∧
            t.token = Token.first rest ∧ (t.token = .eof ↔ rest = []) := by
  obtain ⟨w, hw, hagrees⟩ := Grammar.agrees_text scope text
  rw [hw, Query.fault?, Query.compile]
  generalize Expr.parse scope text = x at hagrees ⊢
  cases hagrees with
  | answer h => exact ⟨by rw [h]; rfl, nofun⟩
  | fault h =>
    refine ⟨rfl, ?_⟩
    rintro _ ⟨rfl⟩
    obtain ⟨t, ht, hstart⟩ := h
    obtain ⟨before, rest, heq, hbefore, htoken⟩ := Lexeme.starts_scanAll 0 text.toList ht
    exact ⟨t, ht, hstart, before, rest, heq, by rw [← hstart, hbefore, Nat.zero_add], htoken,
      by rw [htoken, Token.first_eq_eof_iff]⟩

end XmlTree
