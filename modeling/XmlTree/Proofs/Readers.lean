/-
  Proofs/Readers.lean --- what each reader of expressions does next.

  WHAT THIS FILE IS FOR.  A reader answers what it leaves together with a proof that it is
  shorter, which is what lets the readers call each other.  To say what they read the proofs
  are only in the way.  Here they are taken off, and there is one equation for each thing
  that a reader can find next, in terms of readers without proofs.

  LEVELS.  A reader either answers what it is said to, or finds that there are too many
  levels; which of the two depends on the greatest number of levels on its way alone.
-/
import XmlTree.Query.Query

set_option autoImplicit false

namespace XmlTree

namespace Grammar

/-! ## Answers without bounds -/

/-- A value, the tokens left, and the number of levels. -/
abbrev Answer (α : Type) : Type := α × List Lexeme × Nat

variable {α β : Type} {n m : Nat}

/-- What a reader answers, without the proof that tokens were taken. -/
def bare (r : Except SyntaxFault (Parsed α n)) : Except SyntaxFault (Answer α) :=
  r.map fun p => (p.value, p.rest, p.depth)

theorem bare_bind {x : Except SyntaxFault α} {f : α → Except SyntaxFault (Parsed β m)} :
    bare (x >>= f) = x >>= fun a => bare (f a) := by
  cases x <;> rfl

theorem bare_bind_parsed {x : Except SyntaxFault (Parsed α n)}
    {f : Parsed α n → Except SyntaxFault (Parsed β m)} {g : Answer α → Except SyntaxFault (Answer β)}
    (h : ∀ p, bare (f p) = g (p.value, p.rest, p.depth)) : bare (x >>= f) = bare x >>= g := by
  cases x with
  | error e => rfl
  | ok p => exact h p

/-- The answer with another value. -/
def replace (f : α → β) (r : Except SyntaxFault (Answer α)) : Except SyntaxFault (Answer β) :=
  r.map fun (v, rest, d) => (f v, rest, d)

/-- The answer with the number of levels set back. -/
def setBack (depth : Nat) (r : Except SyntaxFault (Answer α)) : Except SyntaxFault (Answer α) :=
  r.map fun (v, rest, _) => (v, rest, depth)

variable {scope : Scope} {limit depth : Nat} {t : Lexeme} {more ts : List Lexeme} {e lhs : Expr}

/-! ## Expressions -/

/-- Reads an operand and the operators that follow it. -/
def readOperands (scope : Scope) (limit : Nat) (ts : List Lexeme) (depth : Nat) :
    Except SyntaxFault (Answer Expr) :=
  bare (parseOperand scope ts depth) >>= fun (e, rest, d) => bare (parseBinary scope limit e rest d)

theorem bare_parseExpression :
    bare (parseExpression scope limit ts depth) =
      descend ts depth >>= fun inner => setBack depth (readOperands scope limit ts inner) := by
  rw [parseExpression, bare_bind]
  refine congrArg _ (funext fun inner => ?_)
  rw [readOperands]
  cases parseOperand scope ts inner with
  | error e => rfl
  | ok lhs =>
    change bare (parseBinary scope limit lhs.value lhs.rest lhs.depth >>= _) =
      setBack depth (bare (parseBinary scope limit lhs.value lhs.rest lhs.depth))
    cases parseBinary scope limit lhs.value lhs.rest lhs.depth <;> rfl

/-- An expression ends where no operator that binds tighter than the limit follows. -/
theorem bare_parseBinary_stop
    (h : ∀ op, binaryOp? (current ts) = some op → op.precedence ≤ limit) :
    bare (parseBinary scope limit lhs ts depth) = .ok (lhs, ts, depth) := by
  cases ts with
  | nil =>
    rw [parseBinary]
    rfl
  | cons t more =>
    rw [parseBinary]
    split
    · rfl
    · rename_i op hop
      rw [if_pos (h op hop)]
      rfl

theorem bare_parseBinary_op {op : BinaryOp} (h : binaryOp? t.token = some op)
    (hlimit : limit < op.precedence) :
    bare (parseBinary scope limit lhs (t :: more) depth) =
      descend more depth >>= fun inner =>
      readOperands scope op.precedence more inner >>= fun (e, rest, d) =>
        if op = .union && (lhs.type != .nodeSet || e.type != .nodeSet) then
          fault rest .unionOfOthers
        else bare (parseBinary scope limit (.binary op lhs e) rest d) := by
  rw [parseBinary]
  split
  · rename_i hnone
    rw [h] at hnone
    cases hnone
  · rename_i op' hop'
    obtain rfl : op = op' := Option.some.inj (h.symm.trans hop')
    rw [if_neg (Nat.not_le.2 hlimit), bare_bind]
    refine congrArg _ (funext fun inner => ?_)
    rw [readOperands]
    cases parseOperand scope more inner with
    | error e => rfl
    | ok operand =>
      change bare (parseBinary scope op.precedence operand.value operand.rest operand.depth
          >>= _) = bare (parseBinary scope op.precedence operand.value operand.rest operand.depth)
          >>= _
      refine bare_bind_parsed fun rhs => ?_
      dsimp only
      split
      · rfl
      · cases parseBinary scope limit (.binary op lhs rhs.value) rhs.rest rhs.depth <;> rfl

/-! ## Operands -/

theorem bare_parseOperand_minus (h : t.token = .minus) :
    bare (parseOperand scope (t :: more) depth) =
      descend more depth >>= fun inner =>
        replace Expr.negate (bare (parseExpression scope 7 more inner)) := by
  rw [parseOperand, h, bare_bind]
  refine congrArg _ (funext fun inner => ?_)
  cases parseExpression scope 7 more inner <;> rfl

/-- A name with a parenthesis is a call, unless it is a kind of nodes. -/
theorem bare_parseOperand_call {n : List Char} (h : t.token = .name n)
    (hparen : t.beforeParen = true) (hkind : NodeTest.ofKindName? (String.ofList n) = none) :
    bare (parseOperand scope (t :: more) depth) = bare (parseFilterPath scope (t :: more) depth) := by
  rw [parseOperand, h]
  simp [hparen, hkind]

theorem bare_parseOperand_name {n : List Char} (h : t.token = .name n)
    (hparen : t.beforeParen = false) :
    bare (parseOperand scope (t :: more) depth) =
      bare (parseLocationPath scope (t :: more) depth) := by
  rw [parseOperand, h]
  simp [hparen]

theorem bare_parseOperand_slash (h : t.token = .slash) :
    bare (parseOperand scope (t :: more) depth) =
      bare (parseLocationPath scope (t :: more) depth) := by
  rw [parseOperand, h]

/-- Whether a token is one that only a primary expression begins with. -/
def beginsPrimary : Token → Bool
  | .leftParen | .string _ | .number _ => true
  | _ => false

theorem bare_parseOperand_primary (h : beginsPrimary t.token = true) :
    bare (parseOperand scope (t :: more) depth) = bare (parseFilterPath scope (t :: more) depth) := by
  rw [parseOperand]
  split
  all_goals first
    | rfl
    | (rename_i htoken; rw [htoken] at h; cases h)
    | skip
  rename_i hparen hstring hnumber _
  cases htoken : t.token <;> simp_all [beginsPrimary]

/-! ## Filters -/

/-- Reads the steps that follow a primary expression with its predicates. -/
def readSteps (scope : Scope) : Answer Expr → Except SyntaxFault (Answer Expr)
  | (e, [], d) => .ok (e, [], d)
  | (e, t :: more, d) =>
    if t.token = .slash then bare (parseRelativePath scope (some e) more d)
    else if t.token = .doubleSlash then
      if e.type != .nodeSet then fault more .stepFromOther
      else bare (parseRelativePath scope (some (descendantOrSelf e)) more d)
    else .ok (e, t :: more, d)

theorem bare_parseFilterPath :
    bare (parseFilterPath scope ts depth) =
      bare (parseFilter scope ts depth) >>= readSteps scope := by
  rw [parseFilterPath]
  refine bare_bind_parsed fun p => ?_
  split
  · rename_i hrest
    have hread : readSteps scope (p.value, p.rest, p.depth) = .ok (p.value, p.rest, p.depth) := by
      rw [hrest]
      rfl
    exact hread.symm
  · rename_i t more hrest
    simp only [hrest, readSteps]
    split
    · cases parseRelativePath scope (some p.value) more p.depth <;> rfl
    · split
      · split
        · rfl
        · cases parseRelativePath scope (some (descendantOrSelf p.value)) more p.depth <;> rfl
      · simp [bare, Except.map, hrest, pure, Except.pure]

/-- Nothing more belongs to a path where no slash follows. -/
theorem readSteps_stop {d : Nat} (hslash : current ts ≠ .slash) (hdouble : current ts ≠ .doubleSlash) :
    readSteps scope (e, ts, d) = .ok (e, ts, d) := by
  cases ts with
  | nil => rfl
  | cons t more =>
    rw [readSteps, if_neg (show t.token ≠ .slash from hslash),
      if_neg (show t.token ≠ .doubleSlash from hdouble)]

/-- Reads the predicates that follow a primary expression. -/
def readPredicates (scope : Scope) : Answer Expr → Except SyntaxFault (Answer Expr)
  | (e, rest, d) =>
    if current rest = .leftBracket then
      if e.type != .nodeSet then fault rest .predicateOnOther
      else replace (Expr.filter e) (bare (parsePredicates scope rest d))
    else .ok (e, rest, d)

theorem bare_parseFilter :
    bare (parseFilter scope ts depth) =
      bare (parsePrimary scope ts depth) >>= readPredicates scope := by
  rw [parseFilter]
  refine bare_bind_parsed fun p => ?_
  simp only [readPredicates]
  split
  · split
    · rfl
    · cases parsePredicates scope p.rest p.depth <;> rfl
  · rfl

/-- Takes the given token. -/
def take (token : Token) (ts : List Lexeme) (cause : SyntaxCause) :
    Except SyntaxFault (List Lexeme) :=
  (expect token ts cause).map Subtype.val

theorem take_cons {token : Token} {cause : SyntaxCause} (h : t.token = token) :
    take token (t :: more) cause = .ok more := by
  rw [take, expect, if_pos h]
  rfl

theorem bare_parsePredicates_stop (h : current ts ≠ .leftBracket) :
    bare (parsePredicates scope ts depth) = .ok ([], ts, depth) := by
  cases ts with
  | nil =>
    rw [parsePredicates]
    rfl
  | cons t more =>
    rw [parsePredicates, if_neg (show t.token ≠ .leftBracket from h)]
    rfl

theorem bare_parsePredicates_bracket (h : t.token = .leftBracket) :
    bare (parsePredicates scope (t :: more) depth) =
      descend more depth >>= fun inner =>
      bare (parseExpression scope 0 more inner) >>= fun (e, rest, d) =>
      take .rightBracket rest .unclosedBracket >>= fun rest =>
        setBack depth (replace (e :: ·) (bare (parsePredicates scope rest d))) := by
  rw [parsePredicates, if_pos h, bare_bind]
  refine congrArg _ (funext fun inner => bare_bind_parsed fun p => ?_)
  dsimp only
  rw [bare_bind, take]
  cases expect .rightBracket p.rest .unclosedBracket with
  | error e => rfl
  | ok r =>
    change bare (parsePredicates scope r.1 p.depth >>= _) =
      setBack depth (replace (p.value :: ·) (bare (parsePredicates scope r.1 p.depth)))
    cases parsePredicates scope r.1 p.depth <;> rfl

/-! ## Primary expressions -/

theorem bare_parsePrimary_paren (h : t.token = .leftParen) :
    bare (parsePrimary scope (t :: more) depth) =
      bare (parseExpression scope 0 more depth) >>= fun (e, rest, d) =>
      take .rightParen rest .unclosedParen >>= fun rest => .ok (e, rest, d) := by
  rw [parsePrimary, h]
  refine bare_bind_parsed fun p => ?_
  dsimp only
  rw [bare_bind, take]
  cases expect .rightParen p.rest .unclosedParen <;> rfl

theorem bare_parsePrimary_string {s : List Char} (h : t.token = .string s) :
    bare (parsePrimary scope (t :: more) depth) =
      .ok (.string (String.ofList s), more, depth) := by
  rw [parsePrimary, h]
  rfl

theorem bare_parsePrimary_number {n : DecimalLiteral} (h : t.token = .number n) :
    bare (parsePrimary scope (t :: more) depth) = .ok (.number n.toFloat, more, depth) := by
  rw [parsePrimary, h]
  rfl

/-- The call of a function by name with arguments that were read. -/
def readCall (name : List Char) (depth : Nat) : Answer (List Expr) →
    Except SyntaxFault (Answer Expr)
  | (as, rest, _) =>
    match CoreFunction.resolve? (String.ofList name) as.length with
    | none => fault rest .unknownFunction
    | some f =>
      if f.takesNodeSet as.length && as.any (fun a => a.type != .nodeSet) then
        fault rest .argumentNotNodeSet
      else .ok (.call f as, rest, depth)

theorem bare_parsePrimary_call {n : List Char} (h : t.token = .name n) :
    bare (parsePrimary scope (t :: more) depth) =
      take .leftParen more .notCall >>= fun inner =>
      bare (parseArguments scope true inner depth) >>= readCall n depth := by
  rw [parsePrimary, h]
  simp only
  rw [bare_bind, take]
  cases expect .leftParen more .notCall with
  | error e => rfl
  | ok r =>
    refine bare_bind_parsed fun p => ?_
    simp only [readCall]
    cases CoreFunction.resolve? (String.ofList n) p.value.length with
    | none => rfl
    | some f =>
      simp only
      split <;> rfl

theorem bare_parseArguments_close {first : Bool} (h : t.token = .rightParen) :
    bare (parseArguments scope first (t :: more) depth) = .ok ([], more, depth) := by
  rw [parseArguments, if_pos h]
  rfl

/-- Reads an argument, and those that follow it. -/
def readArguments (scope : Scope) (ts : List Lexeme) (depth : Nat) :
    Except SyntaxFault (Answer (List Expr)) :=
  descend ts depth >>= fun inner =>
  bare (parseExpression scope 0 ts inner) >>= fun (e, rest, d) =>
    replace (e :: ·) (bare (parseArguments scope false rest d))

theorem bare_parseArguments_first (h : t.token ≠ .rightParen) :
    bare (parseArguments scope true (t :: more) depth) =
      readArguments scope (t :: more) depth := by
  rw [parseArguments, if_neg h, readArguments]
  change bare (descend (t :: more) depth >>= _) = _
  rw [bare_bind]
  refine congrArg _ (funext fun inner => bare_bind_parsed fun p => ?_)
  dsimp only
  cases parseArguments scope false p.rest p.depth <;> rfl

theorem bare_parseArguments_comma (h : t.token = .comma) :
    bare (parseArguments scope false (t :: more) depth) = readArguments scope more depth := by
  have hexpect : expect .comma (t :: more) .missingComma = .ok ⟨more, by simp⟩ := by
    rw [expect, if_pos h]
  rw [parseArguments, if_neg (by simp [h]), readArguments]
  simp only [hexpect]
  change bare (descend more depth >>= _) = _
  rw [bare_bind]
  refine congrArg _ (funext fun inner => bare_bind_parsed fun p => ?_)
  dsimp only
  cases parseArguments scope false p.rest p.depth <;> rfl

/-! ## Paths -/

theorem bare_parseLocationPath_step (h : t.token = .slash)
    (hstep : beginsStep (current more) = true) :
    bare (parseLocationPath scope (t :: more) depth) =
      bare (parseRelativePath scope (some .root) more depth) := by
  rw [parseLocationPath, if_pos h, if_pos hstep]
  cases parseRelativePath scope (some .root) more depth <;> rfl

theorem bare_parseLocationPath_root (h : t.token = .slash)
    (hstep : beginsStep (current more) = false) :
    bare (parseLocationPath scope (t :: more) depth) = .ok (.root, more, depth) := by
  rw [parseLocationPath, if_pos h, if_neg (by simp [hstep])]
  rfl

theorem bare_parseLocationPath_name {n : List Char} (h : t.token = .name n) :
    bare (parseLocationPath scope (t :: more) depth) =
      bare (parseRelativePath scope none (t :: more) depth) := by
  rw [parseLocationPath, if_neg (by simp [h]), if_neg (by simp [h])]

theorem bare_parseRelativePath {input : Option Expr} :
    bare (parseRelativePath scope input ts depth) =
      bare (parseStep scope input ts depth) >>= fun (e, rest, d) =>
        setBack d (bare (parseMoreSteps scope e rest d)) := by
  rw [parseRelativePath]
  refine bare_bind_parsed fun p => ?_
  dsimp only
  cases parseMoreSteps scope p.value p.rest p.depth <;> rfl

theorem bare_parseMoreSteps_stop (hslash : current ts ≠ .slash)
    (hdouble : current ts ≠ .doubleSlash) :
    bare (parseMoreSteps scope e ts depth) = .ok (e, ts, depth) := by
  cases ts with
  | nil =>
    rw [parseMoreSteps]
    rfl
  | cons t more =>
    have h : t.token ≠ .slash ∧ t.token ≠ .doubleSlash := ⟨hslash, hdouble⟩
    rw [parseMoreSteps, if_neg (by simp [h])]
    rfl

theorem bare_parseMoreSteps_slash (h : t.token = .slash) :
    bare (parseMoreSteps scope e (t :: more) depth) =
      descend more depth >>= fun inner =>
      bare (parseStep scope (some e) more inner) >>= fun (e, rest, d) =>
        bare (parseMoreSteps scope e rest d) := by
  rw [parseMoreSteps, if_pos (by simp [h])]
  simp only [h, reduceCtorEq, if_false]
  rw [bare_bind]
  refine congrArg _ (funext fun inner => bare_bind_parsed fun p => ?_)
  dsimp only
  cases parseMoreSteps scope p.value p.rest p.depth <;> rfl

/-- A step that begins with a name. -/
theorem bare_parseStep_name {input : Option Expr} {n : List Char} {axis : Axis} {test : NodeTest}
    {rest : List Lexeme} {hrest : rest.length < (t :: more).length}
    (hinput : ∀ e, input = some e → e.type = .nodeSet) (h : t.token = .name n)
    (hhead : parseStepHead .child false (t :: more) = .ok ((axis, test), ⟨rest, hrest⟩)) :
    bare (parseStep scope input (t :: more) depth) =
      replace (stepFrom input axis test) (bare (parsePredicates scope rest depth)) := by
  have hset : ¬ (input.any fun e => e.type != .nodeSet) = true := by
    cases input with
    | none => simp
    | some e => simp [hinput e rfl]
  rw [parseStep, if_neg hset]
  simp only [h, hhead]
  change bare (parsePredicates scope rest depth >>= _) = _
  cases parsePredicates scope rest depth <;> rfl

/-! ## Levels -/

/-- A reader that comes to `top` levels at most answers `y`, unless that is too many; then
it is a fault. -/
structure Reads {γ : Type} (x : Except SyntaxFault γ) (top : Nat) (y : Except SyntaxFault γ) :
    Prop where
  within : top ≤ maxDepth → x = y
  beyond : maxDepth < top → ∃ offset, x = .error ⟨.tooDeep, offset⟩

namespace Reads

variable {γ δ : Type} {x y : Except SyntaxFault γ} {a : γ} {top top' : Nat}

/-- What comes to no level that there may not be is what it is. -/
theorem same (x : Except SyntaxFault γ) (htop : top ≤ maxDepth) : Reads x top x :=
  ⟨fun _ => rfl, fun h => by omega⟩

theorem of_eq (h : x = y) (htop : top ≤ maxDepth) : Reads x top y := h ▸ same x htop

theorem of_top_eq (h : Reads x top y) (htop : top = top') : Reads x top' y := htop ▸ h

/-- What comes after a reader starts from what the reader answers. -/
theorem bind {f : γ → Except SyntaxFault δ} {z : Except SyntaxFault δ} (h : Reads x top (.ok a))
    (hf : top ≤ maxDepth → Reads (f a) top' z) : Reads (x >>= f) (max top top') z := by
  constructor
  · intro hle
    rw [h.within (by omega)]
    exact (hf (by omega)).within (by omega)
  · intro hlt
    by_cases htop : top ≤ maxDepth
    · rw [h.within htop]
      exact (hf htop).beyond (by omega)
    · obtain ⟨offset, hx⟩ := h.beyond (by omega)
      exact ⟨offset, by rw [hx]; rfl⟩

/-- What comes after a reader without a level of its own. -/
theorem bind_eq {f : γ → Except SyntaxFault δ} {z : Except SyntaxFault δ}
    (h : Reads x top (.ok a)) (hf : f a = z) : Reads (x >>= f) top z := by
  subst hf
  have hself : max top top = top := Nat.max_self top
  exact (h.bind fun hle => same (f a) hle).of_top_eq hself

theorem trans {z : Except SyntaxFault γ} (h : Reads x top y)
    (h' : top ≤ maxDepth → Reads y top' z) : Reads x (max top top') z := by
  constructor
  · intro hle
    rw [h.within (by omega), (h' (by omega)).within (by omega)]
  · intro hlt
    by_cases htop : top ≤ maxDepth
    · rw [h.within htop]
      exact (h' htop).beyond (by omega)
    · exact h.beyond (by omega)

/-- A token that has to be there, and is. -/
theorem take {token : Token} {cause : SyntaxCause} {f : List Lexeme → Except SyntaxFault δ}
    {z : Except SyntaxFault δ} (ht : t.token = token) (h : Reads (f more) top z) :
    Reads (Grammar.take token (t :: more) cause >>= f) top z := by
  rw [take_cons ht]
  exact h

theorem map (f : γ → δ) (h : Reads x top y) : Reads (x.map f) top (y.map f) := by
  constructor
  · intro hle
    rw [h.within hle]
  · intro hlt
    obtain ⟨offset, hx⟩ := h.beyond hlt
    exact ⟨offset, by rw [hx]; rfl⟩

/-- One more level. -/
theorem descend (ts : List Lexeme) (depth : Nat) :
    Reads (Grammar.descend ts depth) (depth + 1) (.ok (depth + 1)) := by
  constructor
  · intro hle
    rw [Grammar.descend, if_neg (by omega)]
  · intro hlt
    rw [Grammar.descend, if_pos hlt]
    exact ⟨_, rfl⟩

end Reads

end Grammar

end XmlTree
