/-
  Proofs/Heights.lean --- how tall an expression can be that was read.

  WHAT THIS FILE IS FOR.  Evaluating an expression and folding its constant parts go down its
  tree, so their depth is the height of the tree.  The readers count levels, and no count ever
  exceeds the greatest one; but a count goes back where a group ends, and the tree that was made
  stays as tall as it is and can be extended again.

  THE BOUND.  When `k` levels are left, an operand gains at most `k` steps and `k` operators on
  what can be made with one level less.  So the greatest height grows with the square of the
  greatest number of levels, and `k * (k + 2)` bounds it.  It is not far off: expressions of
  height `k * k` are read.
-/
import Mathlib.Tactic.Ring
import XmlTree.Proofs.Printing

set_option autoImplicit false

namespace XmlTree

/-! ## Height -/

mutual

/-- The number of expressions on the longest way down into an expression. -/
def Expr.height : Expr → Nat
  | .root | .number _ | .string _ | .boolean _ | .variable _ => 1
  | .step _ _ predicates => heightAll predicates + 1
  | .path input _ _ predicates => max input.height (heightAll predicates) + 1
  | .filter base predicates => max base.height (heightAll predicates) + 1
  | .call _ arguments => heightAll arguments + 1
  | .binary _ left right => max left.height right.height + 1
  | .negate operand => operand.height + 1

/-- The greatest height of several expressions. -/
def Expr.heightAll : List Expr → Nat
  | [] => 0
  | e :: es => max e.height (heightAll es)

end

namespace Grammar

variable {scope : Scope}

/-! ## What the levels that are left allow -/

/-- A bound on the height of an expression that is read when `left` levels are left. -/
def wholeBound (left : Nat) : Nat := left * (left + 2)

/-- A bound on the height of an operand that is read when `left` levels are left: steps behind a
filter of an expression in parentheses. -/
def operandBound (left : Nat) : Nat := wholeBound left + 3 + left

/-- One level more: an operand with as many operators behind it as there are levels. -/
theorem wholeBound_succ (left : Nat) : wholeBound (left + 1) = operandBound left + left := by
  unfold operandBound wholeBound
  ring

theorem wholeBound_mono {left left' : Nat} (h : left ≤ left') :
    wholeBound left ≤ wholeBound left' :=
  Nat.mul_le_mul h (Nat.add_le_add_right h 2)

theorem operandBound_mono {left left' : Nat} (h : left ≤ left') :
    operandBound left ≤ operandBound left' := by
  have := wholeBound_mono h
  unfold operandBound
  omega

/-- A level is only entered when one is left. -/
theorem left_of_descend {ts : List Lexeme} {depth inner : Nat} (h : descend ts depth = .ok inner) :
    inner = depth + 1 ∧ maxDepth - depth = (maxDepth - (depth + 1)) + 1 ∧ depth < maxDepth := by
  unfold descend at h
  split at h
  · cases h
  · cases h
    omega

theorem height_stepFrom {input : Option Expr} {n : Nat} (axis : Axis) (test : NodeTest)
    (ps : List Expr) (hinput : ∀ e, input = some e → e.height ≤ n) :
    (stepFrom input axis test ps).height ≤ max n (Expr.heightAll ps) + 1 := by
  cases input with
  | none =>
    rw [stepFrom, Expr.height]
    omega
  | some e =>
    have := hinput e rfl
    rw [stepFrom, Expr.height]
    omega

theorem height_descendantOrSelf (e : Expr) : (descendantOrSelf e).height = e.height + 1 := by
  rw [descendantOrSelf, Expr.height, Expr.heightAll]
  omega

/-! ## Every reader stays within its bound -/

mutual

theorem height_parseExpression (limit : Nat) (ts : List Lexeme) (depth : Nat)
    {p : Parsed Expr ts.length} (h : parseExpression scope limit ts depth = .ok p) :
    p.depth = depth ∧ p.value.height ≤ wholeBound (maxDepth - depth) := by
  rw [parseExpression] at h
  obtain ⟨inner, hinner, h⟩ := exists_ok_of_bind h
  obtain ⟨lhs, hlhs, h⟩ := exists_ok_of_bind h
  have hwithin := lhs.within
  obtain ⟨e, he, h⟩ := exists_ok_of_bind h
  cases h
  obtain ⟨rfl, hleft, hlt⟩ := left_of_descend hinner
  obtain ⟨hlow, hhigh, hoperand⟩ := height_parseOperand ts (depth + 1) hlt hlhs
  obtain ⟨hlow', hhigh', hbinary⟩ := height_parseBinary limit lhs.value lhs.rest lhs.depth hhigh he
  have hmono := operandBound_mono
    (show maxDepth - (lhs.depth + 1) ≤ maxDepth - (depth + 1) by omega)
  refine ⟨rfl, ?_⟩
  rw [hleft, wholeBound_succ]
  simp only
  omega
termination_by ts.length * 8 + 6
decreasing_by all_goals omega

theorem height_parseBinary (limit : Nat) (lhs : Expr) (ts : List Lexeme) (depth : Nat)
    (hdepth : depth ≤ maxDepth) {p : Parsed Expr (ts.length + 1)}
    (h : parseBinary scope limit lhs ts depth = .ok p) :
    depth ≤ p.depth ∧ p.depth ≤ maxDepth ∧
      p.value.height ≤ max lhs.height (operandBound (maxDepth - (depth + 1))) +
        (p.depth - depth) := by
  match ts, p, h with
  | [], p, h =>
    rw [parseBinary] at h
    cases h
    exact ⟨Nat.le_refl _, hdepth, by simp⟩
  | t :: more, p, h =>
    rw [parseBinary] at h
    split at h
    · cases h
      exact ⟨Nat.le_refl _, hdepth, by simp⟩
    · rename_i op hop
      split at h
      · cases h
        exact ⟨Nat.le_refl _, hdepth, by simp⟩
      · obtain ⟨inner, hinner, h⟩ := exists_ok_of_bind h
        obtain ⟨operand, hoperand, h⟩ := exists_ok_of_bind h
        have hwithin := operand.within
        obtain ⟨rhs, hrhs, h⟩ := exists_ok_of_bind h
        have hwithin' := rhs.within
        split at h
        · cases h
        · obtain ⟨e, he, h⟩ := exists_ok_of_bind h
          cases h
          obtain ⟨rfl, hleft, hlt⟩ := left_of_descend hinner
          obtain ⟨hlow₁, hhigh₁, hoperand⟩ := height_parseOperand more (depth + 1) hlt hoperand
          obtain ⟨hlow₂, hhigh₂, hright⟩ := height_parseBinary op.precedence operand.value
            operand.rest operand.depth hhigh₁ hrhs
          obtain ⟨hlow₃, hhigh₃, hall⟩ := height_parseBinary limit (.binary op lhs rhs.value)
            rhs.rest rhs.depth hhigh₂ he
          -- later operands are read with fewer levels left
          have hmono₁ := operandBound_mono
            (show maxDepth - (operand.depth + 1) ≤ maxDepth - (depth + 1) by omega)
          have hmono₂ := operandBound_mono
            (show maxDepth - (rhs.depth + 1) ≤ maxDepth - (depth + 1) by omega)
          rw [Expr.height] at hall
          refine ⟨by simp only; omega, by simp only; omega, ?_⟩
          simp only
          omega
termination_by ts.length * 8
decreasing_by all_goals (simp only [List.length_cons]; omega)

theorem height_parseOperand (ts : List Lexeme) (depth : Nat) (hdepth : depth ≤ maxDepth)
    {p : Parsed Expr ts.length} (h : parseOperand scope ts depth = .ok p) :
    depth ≤ p.depth ∧ p.depth ≤ maxDepth ∧
      p.value.height ≤ operandBound (maxDepth - depth) := by
  have hpath : ∀ {q : Parsed Expr ts.length}, q.depth = depth ∧
      q.value.height ≤ operandBound (maxDepth - depth) → depth ≤ q.depth ∧ q.depth ≤ maxDepth ∧
        q.value.height ≤ operandBound (maxDepth - depth) := by
    rintro q ⟨hsame, hheight⟩
    exact ⟨by omega, by omega, hheight⟩
  match ts, p, h with
  | [], p, h =>
    rw [parseOperand] at h
    cases h
  | t :: more, p, h =>
    rw [parseOperand] at h
    split at h
    · obtain ⟨inner, hinner, h⟩ := exists_ok_of_bind h
      obtain ⟨e, he, h⟩ := exists_ok_of_bind h
      cases h
      obtain ⟨rfl, hleft, hlt⟩ := left_of_descend hinner
      obtain ⟨hsame, hheight⟩ := height_parseExpression 7 more (depth + 1) he
      have hmono := wholeBound_mono (show maxDepth - (depth + 1) ≤ maxDepth - depth by omega)
      refine ⟨by simp only; omega, by simp only; omega, ?_⟩
      simp only [Expr.height]
      unfold operandBound
      omega
    · split at h
      · exact hpath (height_parseFilterPath (t :: more) depth hdepth h)
      · exact hpath (height_parseLocationPath (t :: more) depth hdepth h)
    · exact hpath (height_parseFilterPath (t :: more) depth hdepth h)
    · exact hpath (height_parseFilterPath (t :: more) depth hdepth h)
    · exact hpath (height_parseFilterPath (t :: more) depth hdepth h)
    · exact hpath (height_parseFilterPath (t :: more) depth hdepth h)
    · exact hpath (height_parseLocationPath (t :: more) depth hdepth h)
termination_by ts.length * 8 + 5
decreasing_by all_goals (simp only [List.length_cons]; omega)

theorem height_parseFilterPath (ts : List Lexeme) (depth : Nat) (hdepth : depth ≤ maxDepth)
    {p : Parsed Expr ts.length} (h : parseFilterPath scope ts depth = .ok p) :
    p.depth = depth ∧ p.value.height ≤ operandBound (maxDepth - depth) := by
  rw [parseFilterPath] at h
  obtain ⟨e, he, h⟩ := exists_ok_of_bind h
  have hwithin := e.within
  obtain ⟨hsame, hfilter⟩ := height_parseFilter ts depth hdepth he
  have hmono := wholeBound_mono (show maxDepth - (depth + 1) ≤ maxDepth - depth by omega)
  unfold operandBound
  split at h
  · cases h
    exact ⟨hsame, by omega⟩
  · rename_i t more hrest
    have hlength : more.length + 1 < ts.length := by
      rw [hrest, List.length_cons] at hwithin
      exact hwithin
    split at h
    · obtain ⟨q, hq, h⟩ := exists_ok_of_bind h
      cases h
      rw [hsame] at hq
      obtain ⟨hsame', hpath⟩ := height_parseRelativePath (some e.value) more depth hdepth
        (fun _ hsome => Option.some.inj hsome ▸ hfilter) hq
      exact ⟨hsame', by simp only; omega⟩
    · split at h
      · split at h
        · cases h
        · obtain ⟨q, hq, h⟩ := exists_ok_of_bind h
          cases h
          rw [hsame] at hq
          obtain ⟨hsame', hpath⟩ := height_parseRelativePath (some (descendantOrSelf e.value)) more
            depth hdepth (n := wholeBound (maxDepth - depth) + 2) (fun _ hsome => by
              rw [← Option.some.inj hsome, height_descendantOrSelf]
              omega) hq
          exact ⟨hsame', by simp only; omega⟩
      · cases h
        exact ⟨hsame, by omega⟩
termination_by ts.length * 8 + 4
decreasing_by all_goals omega

theorem height_parseFilter (ts : List Lexeme) (depth : Nat) (hdepth : depth ≤ maxDepth)
    {p : Parsed Expr ts.length} (h : parseFilter scope ts depth = .ok p) :
    p.depth = depth ∧ p.value.height ≤ wholeBound (maxDepth - depth) + 1 := by
  rw [parseFilter] at h
  obtain ⟨e, he, h⟩ := exists_ok_of_bind h
  have hwithin := e.within
  obtain ⟨hsame, hprimary⟩ := height_parsePrimary ts depth he
  split at h
  · rename_i hbracket
    split at h
    · cases h
    · obtain ⟨ps, hps, h⟩ := exists_ok_of_bind h
      cases h
      rw [hsame] at hps
      obtain ⟨hsame', hlt, hpredicates⟩ := height_parsePredicates e.rest depth hps
      have hleft : maxDepth - depth = (maxDepth - (depth + 1)) + 1 := by
        have := hlt hbracket
        omega
      have hsucc := wholeBound_succ (maxDepth - (depth + 1))
      rw [← hleft] at hsucc
      unfold operandBound at hsucc
      refine ⟨hsame', ?_⟩
      simp only [Expr.height]
      omega
  · cases h
    exact ⟨hsame, by omega⟩
termination_by ts.length * 8 + 3
decreasing_by all_goals omega

theorem height_parsePredicates (ts : List Lexeme) (depth : Nat)
    {p : Parsed (List Expr) (ts.length + 1)}
    (h : parsePredicates scope ts depth = .ok p) :
    p.depth = depth ∧ (current ts = .leftBracket → depth < maxDepth) ∧
      Expr.heightAll p.value ≤ wholeBound (maxDepth - (depth + 1)) := by
  match ts, p, h with
  | [], p, h =>
    rw [parsePredicates] at h
    cases h
    exact ⟨rfl, nofun, Nat.zero_le _⟩
  | t :: more, p, h =>
    rw [parsePredicates] at h
    split at h
    · obtain ⟨inner, hinner, h⟩ := exists_ok_of_bind h
      obtain ⟨e, he, h⟩ := exists_ok_of_bind h
      have hwithin := e.within
      obtain ⟨⟨rest, hrest⟩, -, h⟩ := exists_ok_of_bind h
      obtain ⟨ps, hps, h⟩ := exists_ok_of_bind h
      cases h
      obtain ⟨rfl, hleft, hlt⟩ := left_of_descend hinner
      obtain ⟨hsame, hheight⟩ := height_parseExpression 0 more (depth + 1) he
      rw [hsame] at hps
      obtain ⟨-, -, hmore⟩ := height_parsePredicates rest (depth + 1) hps
      have hmono := wholeBound_mono
        (show maxDepth - (depth + 1 + 1) ≤ maxDepth - (depth + 1) by omega)
      refine ⟨rfl, fun _ => hlt, ?_⟩
      simp only [Expr.heightAll]
      omega
    · rename_i hother
      cases h
      exact ⟨rfl, fun hbracket => absurd hbracket hother, Nat.zero_le _⟩
termination_by ts.length * 8
decreasing_by all_goals (simp only [List.length_cons]; omega)

theorem height_parsePrimary (ts : List Lexeme) (depth : Nat)
    {p : Parsed Expr ts.length} (h : parsePrimary scope ts depth = .ok p) :
    p.depth = depth ∧ p.value.height ≤ max 1 (wholeBound (maxDepth - depth)) := by
  match ts, p, h with
  | [], p, h =>
    rw [parsePrimary] at h
    cases h
  | t :: more, p, h =>
    rw [parsePrimary] at h
    split at h
    · split at h
      · cases h
      · split at h
        · cases h
          exact ⟨rfl, by simp [Expr.height]⟩
        · cases h
    · obtain ⟨e, he, h⟩ := exists_ok_of_bind h
      have hwithin := e.within
      obtain ⟨⟨rest, hrest⟩, -, h⟩ := exists_ok_of_bind h
      cases h
      obtain ⟨hsame, hheight⟩ := height_parseExpression 0 more depth he
      exact ⟨hsame, by simp only; omega⟩
    · cases h
      exact ⟨rfl, by simp [Expr.height]⟩
    · cases h
      exact ⟨rfl, by simp [Expr.height]⟩
    · obtain ⟨⟨inner, hinner⟩, -, h⟩ := exists_ok_of_bind h
      obtain ⟨as, has, h⟩ := exists_ok_of_bind h
      dsimp only at h
      split at h
      · cases h
      · split at h
        · cases h
        · cases h
          obtain ⟨hlt, harguments⟩ := height_parseArguments true inner depth has
          refine ⟨rfl, ?_⟩
          simp only [Expr.height]
          cases hvalue : as.value with
          | nil => simp [Expr.heightAll]
          | cons a more =>
            have hleft : maxDepth - depth = (maxDepth - (depth + 1)) + 1 := by
              have := hlt (by simp [hvalue])
              omega
            have hsucc := wholeBound_succ (maxDepth - (depth + 1))
            rw [← hleft] at hsucc
            unfold operandBound at hsucc
            rw [hvalue] at harguments
            omega
    · cases h
termination_by ts.length * 8 + 2
decreasing_by all_goals (simp only [List.length_cons]; omega)

theorem height_parseArguments (first : Bool) (ts : List Lexeme) (depth : Nat)
    {p : Parsed (List Expr) ts.length} (h : parseArguments scope first ts depth = .ok p) :
    (p.value ≠ [] → depth < maxDepth) ∧
      Expr.heightAll p.value ≤ wholeBound (maxDepth - (depth + 1)) := by
  match ts, p, h with
  | [], p, h =>
    rw [parseArguments] at h
    cases h
  | t :: more, p, h =>
    rw [parseArguments] at h
    split at h
    · cases h
      exact ⟨fun hne => absurd rfl hne, Nat.zero_le _⟩
    · obtain ⟨⟨start, hstart⟩, -, h⟩ := exists_ok_of_bind h
      have hlength : start.length ≤ more.length + 1 := hstart
      obtain ⟨inner, hinner, h⟩ := exists_ok_of_bind h
      obtain ⟨e, he, h⟩ := exists_ok_of_bind h
      have hwithin := e.within
      obtain ⟨as, has, h⟩ := exists_ok_of_bind h
      cases h
      obtain ⟨rfl, hleft, hlt⟩ := left_of_descend hinner
      obtain ⟨hsame, hheight⟩ := height_parseExpression 0 start (depth + 1) he
      rw [hsame] at has
      obtain ⟨-, hmore⟩ := height_parseArguments false e.rest (depth + 1) has
      have hmono := wholeBound_mono
        (show maxDepth - (depth + 1 + 1) ≤ maxDepth - (depth + 1) by omega)
      refine ⟨fun _ => hlt, ?_⟩
      simp only [Expr.heightAll]
      omega
termination_by ts.length * 8 + 7
decreasing_by all_goals (simp only [List.length_cons]; omega)

theorem height_parseLocationPath (ts : List Lexeme) (depth : Nat) (hdepth : depth ≤ maxDepth)
    {p : Parsed Expr ts.length} (h : parseLocationPath scope ts depth = .ok p) :
    p.depth = depth ∧ p.value.height ≤ operandBound (maxDepth - depth) := by
  have hmono := wholeBound_mono (show maxDepth - (depth + 1) ≤ maxDepth - depth by omega)
  unfold operandBound
  match ts, p, h with
  | [], p, h =>
    rw [parseLocationPath] at h
    cases h
  | t :: more, p, h =>
    rw [parseLocationPath] at h
    split at h
    · split at h
      · obtain ⟨q, hq, h⟩ := exists_ok_of_bind h
        cases h
        obtain ⟨hsame, hpath⟩ := height_parseRelativePath (some .root) more depth hdepth (n := 1)
          (fun _ hsome => by rw [← Option.some.inj hsome, Expr.height]) hq
        exact ⟨hsame, by simp only; omega⟩
      · cases h
        exact ⟨rfl, by simp only [Expr.height]; omega⟩
    · split at h
      · obtain ⟨q, hq, h⟩ := exists_ok_of_bind h
        cases h
        obtain ⟨hsame, hpath⟩ := height_parseRelativePath (some (descendantOrSelf .root)) more depth
          hdepth (n := 2)
          (fun _ hsome => by
            rw [← Option.some.inj hsome, height_descendantOrSelf, Expr.height]) hq
        exact ⟨hsame, by simp only; omega⟩
      · obtain ⟨hsame, hpath⟩ := height_parseRelativePath none (t :: more) depth hdepth (n := 0)
          (fun _ hsome => by cases hsome) h
        exact ⟨hsame, by omega⟩
termination_by ts.length * 8 + 4
decreasing_by all_goals (simp only [List.length_cons]; omega)

theorem height_parseRelativePath (input : Option Expr) (ts : List Lexeme) (depth : Nat)
    (hdepth : depth ≤ maxDepth) {n : Nat} (hinput : ∀ e, input = some e → e.height ≤ n)
    {p : Parsed Expr ts.length} (h : parseRelativePath scope input ts depth = .ok p) :
    p.depth = depth ∧ p.value.height ≤
      max n (wholeBound (maxDepth - (depth + 1))) + 1 + (maxDepth - depth) := by
  rw [parseRelativePath] at h
  obtain ⟨s, hs, h⟩ := exists_ok_of_bind h
  have hwithin := s.within
  obtain ⟨q, hq, h⟩ := exists_ok_of_bind h
  cases h
  obtain ⟨hsame, hstep⟩ := height_parseStep input ts depth hinput hs
  rw [hsame] at hq
  have hmore := height_parseMoreSteps s.value s.rest depth hdepth hq
  exact ⟨hsame, by simp only; omega⟩
termination_by ts.length * 8 + 3
decreasing_by all_goals omega

theorem height_parseMoreSteps (input : Expr) (ts : List Lexeme) (depth : Nat)
    (hdepth : depth ≤ maxDepth) {p : Parsed Expr (ts.length + 1)}
    (h : parseMoreSteps scope input ts depth = .ok p) :
    p.value.height ≤ max input.height (wholeBound (maxDepth - (depth + 1))) +
      (maxDepth - depth) := by
  match ts, p, h with
  | [], p, h =>
    rw [parseMoreSteps] at h
    cases h
    simp only
    omega
  | t :: more, p, h =>
    rw [parseMoreSteps] at h
    split at h
    · obtain ⟨inner, hinner, h⟩ := exists_ok_of_bind h
      obtain ⟨s, hs, h⟩ := exists_ok_of_bind h
      have hwithin := s.within
      obtain ⟨q, hq, h⟩ := exists_ok_of_bind h
      cases h
      obtain ⟨rfl, hleft, hlt⟩ := left_of_descend hinner
      -- `//` is a step of its own and takes a level of its own
      by_cases hdouble : t.token = .doubleSlash
      · simp only [hdouble, if_true] at hs hleft hlt
        obtain ⟨hsame, hstep⟩ := height_parseStep _ more _ (n := input.height + 1)
          (fun e hsome => by rw [← Option.some.inj hsome, height_descendantOrSelf]) hs
        rw [hsame] at hq
        have hmore := height_parseMoreSteps s.value s.rest _ (by omega) hq
        have hmono := wholeBound_mono
          (show maxDepth - (depth + 1 + 1 + 1) ≤ maxDepth - (depth + 1) by omega)
        simp only
        omega
      · simp only [hdouble, if_false] at hs hleft hlt
        obtain ⟨hsame, hstep⟩ := height_parseStep _ more _ (n := input.height)
          (fun e hsome => by rw [← Option.some.inj hsome]) hs
        rw [hsame] at hq
        have hmore := height_parseMoreSteps s.value s.rest _ (by omega) hq
        have hmono := wholeBound_mono
          (show maxDepth - (depth + 1 + 1) ≤ maxDepth - (depth + 1) by omega)
        simp only
        omega
    · cases h
      simp only
      omega
termination_by ts.length * 8
decreasing_by all_goals (simp only [List.length_cons]; omega)

theorem height_parseStep (input : Option Expr) (ts : List Lexeme) (depth : Nat) {n : Nat}
    (hinput : ∀ e, input = some e → e.height ≤ n) {p : Parsed Expr ts.length}
    (h : parseStep scope input ts depth = .ok p) :
    p.depth = depth ∧
      p.value.height ≤ max n (wholeBound (maxDepth - (depth + 1))) + 1 := by
  have hbare : ∀ axis, (stepFrom input axis .node []).height ≤
      max n (wholeBound (maxDepth - (depth + 1))) + 1 := by
    intro axis
    have := height_stepFrom axis .node [] hinput
    rw [Expr.heightAll] at this
    omega
  match ts, p, h with
  | [], p, h =>
    rw [parseStep.eq_def] at h
    split at h
    · cases h
    · cases h
  | t :: more, p, h =>
    rw [parseStep.eq_def] at h
    split at h
    · cases h
    · simp only at h
      split at h
      · split at h
        · cases h
        · cases h
          exact ⟨rfl, hbare _⟩
      · split at h
        · cases h
        · cases h
          exact ⟨rfl, hbare _⟩
      · obtain ⟨⟨⟨axis, test⟩, rest, hrest⟩, -, h⟩ := exists_ok_of_bind h
        obtain ⟨ps, hps, h⟩ := exists_ok_of_bind h
        cases h
        obtain ⟨hsame, -, hpredicates⟩ := height_parsePredicates rest depth hps
        have := height_stepFrom axis test ps.value hinput
        exact ⟨hsame, by simp only; omega⟩
      · obtain ⟨⟨⟨axis, test⟩, rest, hrest⟩, -, h⟩ := exists_ok_of_bind h
        have hlength : rest.length < more.length + 1 := hrest
        obtain ⟨ps, hps, h⟩ := exists_ok_of_bind h
        cases h
        obtain ⟨hsame, -, hpredicates⟩ := height_parsePredicates rest depth hps
        have := height_stepFrom axis test ps.value hinput
        exact ⟨hsame, by simp only; omega⟩
termination_by ts.length * 8 + 2
decreasing_by all_goals (simp only [List.length_cons]; omega)

end

end Grammar

/-! ## Constant parts -/

namespace Expr

theorem height_pos (e : Expr) : 0 < e.height := by
  cases e <;> simp [height]

theorem height_of_isLiteral {e : Expr} (h : e.isLiteral = true) : e.height = 1 := by
  cases e with
  | number | string | boolean => rw [height]
  | root | step | path | filter | call | binary | negate | «variable» => cases h

theorem height_negated_le (e : Expr) : e.negated.height ≤ e.height + 1 := by
  rw [negated.eq_def]
  split
  · simp [height]
  · rw [height]

end Expr

mutual

/-- Evaluating constant parts beforehand makes no expression taller. -/
theorem Expr.height_fold_le (e : Expr) : e.fold.height ≤ e.height := by
  cases e with
  | root | number | string | boolean | «variable» => simp [Expr.fold]
  | step axis test predicates =>
    have hpredicates := Expr.heightAll_foldAll_le predicates
    rw [Expr.fold, Expr.height, Expr.height]
    omega
  | path input axis test predicates =>
    have hinput := Expr.height_fold_le input
    have hpredicates := Expr.heightAll_foldAll_le predicates
    rw [Expr.fold, Expr.height, Expr.height]
    omega
  | filter base predicates =>
    have hbase := Expr.height_fold_le base
    have hpredicates := Expr.heightAll_foldAll_le predicates
    rw [Expr.fold, Expr.height, Expr.height]
    omega
  | negate operand =>
    have hoperand := Expr.height_fold_le operand
    have hnegated := operand.fold.height_negated_le
    rw [Expr.fold, Expr.height]
    omega
  | binary op left right =>
    rcases Expr.fold_binary op left right with ⟨h, -⟩ | ⟨h, v, hv⟩
    · have hleft := Expr.height_fold_le left
      have hright := Expr.height_fold_le right
      rw [h, Expr.height, Expr.height]
      omega
    · rw [h, Expr.height_of_isLiteral hv.evaluated.1]
      exact Expr.height_pos _
  | call f arguments =>
    rcases Expr.fold_call f arguments with ⟨h, -⟩ | ⟨h, v, hv⟩
    · have harguments := Expr.heightAll_foldAll_le arguments
      rw [h, Expr.height, Expr.height]
      omega
    · rw [h, Expr.height_of_isLiteral hv.evaluated.1]
      exact Expr.height_pos _

theorem Expr.heightAll_foldAll_le (es : List Expr) :
    Expr.heightAll (Expr.foldAll es) ≤ Expr.heightAll es := by
  cases es with
  | nil => rw [Expr.foldAll]
  | cons e es =>
    have hfirst := Expr.height_fold_le e
    have hmore := Expr.heightAll_foldAll_le es
    rw [Expr.foldAll, Expr.heightAll, Expr.heightAll]
    omega

end

/-! ## Tall expressions -/

namespace Phrase

/-- The step to the children of one name. -/
def childStep : Phrase := .step .child (.name "a") []

/-- A phrase with as many steps behind it. -/
def steps : Nat → Phrase → Phrase
  | 0, p => p
  | n + 1, p => .path (steps n p) .child (.name "a") []

/-- A phrase with as many operators behind it. -/
def unions : Nat → Phrase → Phrase
  | 0, p => p
  | n + 1, p => .binary .union (unions n p) childStep

/-- A phrase that is made taller again and again in parentheses, each time by as many steps
and operators as the parentheses around it leave levels for. -/
def tower : Nat → Phrase
  | 0 => .root
  | n + 1 => unions (n + 1) (steps (n + 2) (tower n))

section Towers

variable {p : Phrase} {scope : Grammar.Scope}

theorem spellable_steps (h : p.Spellable) (n : Nat) : (steps n p).Spellable := by
  induction n with
  | zero => exact h
  | succ n ih => exact .path .child ih (.inl (by decide)) nofun

theorem spellable_unions (h : p.Spellable) (n : Nat) : (unions n p).Spellable := by
  induction n with
  | zero => exact h
  | succ n ih => exact .binary .union ih (.step .child (.inl (by decide)) nofun)

theorem spellable_tower (n : Nat) : (tower n).Spellable := by
  induction n with
  | zero => exact .root
  | succ n ih => exact spellable_unions (spellable_steps ih _) _

theorem type_steps (h : p.expr.type = .nodeSet) (n : Nat) :
    (steps n p).expr.type = .nodeSet := by
  cases n with
  | zero => exact h
  | succ n => rfl

theorem type_unions (h : p.expr.type = .nodeSet) (n : Nat) :
    (unions n p).expr.type = .nodeSet := by
  cases n with
  | zero => exact h
  | succ n => rfl

theorem type_tower (n : Nat) : (tower n).expr.type = .nodeSet := by
  cases n with
  | zero => rfl
  | succ n => rfl

theorem typed_steps (h : p.expr.Typed scope) (hset : p.expr.type = .nodeSet) (n : Nat) :
    (steps n p).expr.Typed scope := by
  induction n with
  | zero => exact h
  | succ n ih => exact .path .child _ ih (type_steps hset n) nofun

theorem typed_unions (h : p.expr.Typed scope) (hset : p.expr.type = .nodeSet) (n : Nat) :
    (unions n p).expr.Typed scope := by
  induction n with
  | zero => exact h
  | succ n ih => exact .binary .union ih (.step .child _ nofun) fun _ => ⟨type_unions hset n, rfl⟩

theorem typed_tower (n : Nat) : (tower n).expr.Typed scope := by
  induction n with
  | zero => exact .root
  | succ n ih =>
    exact typed_unions (typed_steps ih (type_tower n) _) (type_steps (type_tower n) _) _

theorem height_steps (p : Phrase) (n : Nat) : (steps n p).expr.height = p.expr.height + n := by
  induction n with
  | zero => rfl
  | succ n ih =>
    rw [steps, expr, Expr.height, ih, exprAll, Expr.heightAll]
    omega

theorem height_unions (p : Phrase) (n : Nat) : (unions n p).expr.height = p.expr.height + n := by
  induction n with
  | zero => rfl
  | succ n ih =>
    have hpos := p.expr.height_pos
    have hchild : childStep.expr.height = 1 := rfl
    rw [unions, expr, Expr.height, ih, hchild]
    omega

theorem height_tower (n : Nat) : (tower n).expr.height = (n + 1) * (n + 1) := by
  induction n with
  | zero => rfl
  | succ n ih =>
    rw [tower, height_unions, height_steps, ih]
    ring

/-- No constant part is in a tower. -/
theorem fold_tower (n : Nat) : (tower n).expr.fold = (tower n).expr := by
  have hsteps : ∀ {p : Phrase} (n : Nat), p.expr.fold = p.expr →
      (steps n p).expr.fold = (steps n p).expr := by
    intro p n h
    induction n with
    | zero => exact h
    | succ n ih => rw [steps, expr, Expr.fold, ih, exprAll, Expr.foldAll]
  have hunions : ∀ {p : Phrase} (n : Nat), p.expr.fold = p.expr →
      (unions n p).expr.fold = (unions n p).expr := by
    intro p n h
    induction n with
    | zero => exact h
    | succ n ih =>
      have hchild : childStep.expr.fold = childStep.expr := rfl
      rw [unions, expr, Expr.fold, ih, hchild]
      rfl
  induction n with
  | zero => rfl
  | succ n ih => exact hunions _ (hsteps _ ih)

/-- What a path of a tower begins with stands in parentheses, unless it is a slash. -/
theorem peak_steps (hpath : p.beginsPath = false) (hspine : p.spine = 0) (n : Nat) :
    (steps (n + 1) p).spine = n + 1 ∧
      (steps (n + 1) p).peak = max (if p.isRoot then 0 else 1 + p.peak) n := by
  induction n with
  | zero =>
    simp only [steps, spine, peak, hspine, hpath, groupedPeak, listPeak]
    simp
  | succ n ih =>
    obtain ⟨ihspine, ihpeak⟩ := ih
    have hroot : (steps (n + 1) p).isRoot = false := rfl
    have hbegins : (steps (n + 1) p).beginsPath = true := rfl
    rw [steps, spine, peak, ihspine, hroot, hbegins, groupedPeak, ihpeak, listPeak]
    simp only [if_true, Bool.false_eq_true, if_false]
    exact ⟨trivial, by omega⟩

theorem peak_unions (hstrength : p.strength = 8) (hleft : p.left = 0) (n : Nat) :
    6 < (unions n p).strength ∧ (unions n p).left = n ∧ (unions n p).peak = max p.peak n := by
  induction n with
  | zero =>
    refine ⟨?_, hleft, ?_⟩
    · rw [unions, hstrength]
      decide
    · rw [unions, Nat.max_zero]
  | succ n ih =>
    obtain ⟨ihstrength, ihleft, ihpeak⟩ := ih
    have hchild : childStep.left = 0 ∧ childStep.peak = 0 ∧ childStep.strength = 8 :=
      ⟨rfl, rfl, rfl⟩
    refine ⟨?_, ?_, ?_⟩
    · exact Nat.lt_succ_self 6
    · simp [unions, left, BinaryOp.precedence, ihstrength, ihleft, hchild]
    · simp [unions, peak, BinaryOp.precedence, ihstrength, ihleft, ihpeak, hchild, groupedPeak]

theorem levels_tower (n : Nat) : (tower n).levels = n + 1 := by
  have hpeak : ∀ n, (tower n).peak = n := by
    intro n
    induction n with
    | zero => rfl
    | succ n ih =>
      have hshape : (tower n).beginsPath = false ∧ (tower n).spine = 0 := by
        cases n <;> exact ⟨rfl, rfl⟩
      obtain ⟨-, hsteps⟩ := peak_steps hshape.1 hshape.2 (n + 1)
      obtain ⟨-, -, hunions⟩ := peak_unions (p := steps (n + 2) (tower n)) rfl rfl (n + 1)
      rw [tower, hunions, hsteps, ih]
      split <;> omega
  rw [levels, hpeak, Nat.add_comm]

end Towers

end Phrase

/-! ## Whole texts -/

open Grammar (maxDepth)

/-- A tower with a blank behind each word. -/
def Phrase.towerText (n : Nat) : String := String.ofList (Word.joined ((tower n).words 7))

/-- A tower is read while there are levels for it. -/
theorem Expr.parse_tower {scope : Grammar.Scope} {n : Nat} (h : n < maxDepth) :
    Expr.parse scope (Phrase.towerText n) = .ok (Phrase.tower n).expr := by
  have htext : Written ((Phrase.tower n).words 7) (Phrase.towerText n).toList := by
    rw [Phrase.towerText, String.toList_ofList]
    exact Word.written_joined _
  refine (Phrase.reads_parse (Phrase.spellable_tower n) (Phrase.typed_tower n) htext).within ?_
  rw [Phrase.levels_tower]
  exact h

/-- The tree of every text that is read is at most as tall as the square of the greatest number
of levels, and a little; evaluating its constant parts beforehand does not make it taller. -/
theorem Query.height_compile_le {scope : Grammar.Scope} {text : String} {e : Expr}
    (h : Expr.parse scope text = .ok e) :
    e.height ≤ maxDepth * (maxDepth + 2) ∧ (Query.compile scope text).expr? = some e.fold ∧
      e.fold.height ≤ e.height := by
  refine ⟨?_, ?_, e.height_fold_le⟩
  · unfold Expr.parse at h
    obtain ⟨p, hp, h⟩ := Grammar.exists_ok_of_bind h
    split at h
    · cases h
      exact (Grammar.height_parseExpression 0 (Lexeme.ofText text) 0 hp).2
    · cases h
  · rw [expr?, compile, h]
    rfl

theorem Query.height_compile_le_tower :
    Expr.parse none (Phrase.towerText 127) = .ok (Phrase.tower 127).expr ∧
      maxDepth * maxDepth ≤ (Phrase.tower 127).expr.height ∧
      (Phrase.tower 127).expr.height ≤ maxDepth * (maxDepth + 2) := by
  have hparse : Expr.parse none (Phrase.towerText 127) = .ok (Phrase.tower 127).expr :=
    Expr.parse_tower (by decide)
  refine ⟨hparse, ?_, (Query.height_compile_le hparse).1⟩
  rw [Phrase.height_tower]
  decide

/-- A small multiple of the greatest number of levels does not bound the height: a tower of
twenty-two rounds is read, and what is evaluated is taller than four times that number. -/
theorem Query.exists_taller :
    ∃ e, Expr.parse none (Phrase.towerText 22) = .ok e ∧
      (Query.compile none (Phrase.towerText 22)).expr? = some e ∧ 4 * maxDepth < e.height := by
  have hparse : Expr.parse none (Phrase.towerText 22) = .ok (Phrase.tower 22).expr :=
    Expr.parse_tower (by decide)
  refine ⟨(Phrase.tower 22).expr, hparse, ?_, ?_⟩
  · rw [expr?, compile, hparse]
    exact congrArg some (Phrase.fold_tower 22)
  · rw [Phrase.height_tower]
    decide

end XmlTree
