/-
  Proofs/Typing.lean --- what is read has its parts fit together.

  WHAT THIS FILE IS FOR.  The types of an expression are checked where the expression is
  read, each check in the reader that makes the part in question.  Put together, the checks
  are one judgement on trees: what stands where a node-set is needed has the type of a
  node-set, a function has as many arguments as it takes, and a variable is in scope.  Every
  tree that is read satisfies it, and evaluating constant parts beforehand keeps it.

  READERS.  There is one lemma for each reader, and they follow each other as the readers
  do: each is about shorter tokens, or about the same tokens and a reader of a lower rank.
-/
import XmlTree.Proofs.Folding
import XmlTree.Query.Query

set_option autoImplicit false

namespace XmlTree

/-! ## The judgement -/

/-- Whether a function can be called with as many arguments. -/
def CoreFunction.Accepts (f : CoreFunction) (count : Nat) : Prop :=
  ∃ name, resolve? name count = some f

/-- The parts of an expression fit together, and its variables are in scope. -/
inductive Expr.Typed (scope : Grammar.Scope) : Expr → Prop where
  | root : Typed scope .root
  | step (axis : Axis) (test : NodeTest) {predicates : List Expr}
      (hpredicates : ∀ p ∈ predicates, Typed scope p) :
      Typed scope (.step axis test predicates)
  | path {input : Expr} (axis : Axis) (test : NodeTest) {predicates : List Expr}
      (hinput : Typed scope input) (hset : input.type = .nodeSet)
      (hpredicates : ∀ p ∈ predicates, Typed scope p) :
      Typed scope (.path input axis test predicates)
  | filter {base : Expr} {predicates : List Expr}
      (hbase : Typed scope base) (hset : base.type = .nodeSet)
      (hpredicates : ∀ p ∈ predicates, Typed scope p) :
      Typed scope (.filter base predicates)
  | call {f : CoreFunction} {arguments : List Expr}
      (haccepts : f.Accepts arguments.length)
      (hset : f.takesNodeSet arguments.length = true → ∀ a ∈ arguments, a.type = .nodeSet)
      (harguments : ∀ a ∈ arguments, Typed scope a) :
      Typed scope (.call f arguments)
  | binary (op : BinaryOp) {left right : Expr}
      (hleft : Typed scope left) (hright : Typed scope right)
      (hset : op = .union → left.type = .nodeSet ∧ right.type = .nodeSet) :
      Typed scope (.binary op left right)
  | negate {operand : Expr} (hoperand : Typed scope operand) : Typed scope (.negate operand)
  | number (value : Float) : Typed scope (.number value)
  | string (value : String) : Typed scope (.string value)
  | boolean (value : Bool) : Typed scope (.boolean value)
  | «variable» {ref : VariableRef} (hscope : ref ∈ scope.getD []) : Typed scope (.variable ref)

namespace Expr

variable {scope : Grammar.Scope} {e : Expr} {predicates : List Expr}

theorem Typed.stepFrom {input : Option Expr} (axis : Axis) (test : NodeTest)
    (hinput : ∀ e, input = some e → e.Typed scope)
    (hset : ∀ e, input = some e → e.type = .nodeSet)
    (hpredicates : ∀ p ∈ predicates, p.Typed scope) :
    (Grammar.stepFrom input axis test predicates).Typed scope := by
  cases input with
  | none => exact .step axis test hpredicates
  | some e => exact .path axis test (hinput e rfl) (hset e rfl) hpredicates

theorem Typed.descendantOrSelf (he : e.Typed scope) (hset : e.type = .nodeSet) :
    (Grammar.descendantOrSelf e).Typed scope :=
  .path .descendantOrSelf .node he hset nofun

theorem type_stepFrom (input : Option Expr) (axis : Axis) (test : NodeTest)
    (predicates : List Expr) :
    (Grammar.stepFrom input axis test predicates).type = .nodeSet := by
  cases input <;> rfl

end Expr

/-! ## Reading -/

namespace Grammar

/-- What comes after a step is answered only if the step is. -/
theorem exists_ok_of_bind {α β : Type} {r : Except SyntaxFault α} {f : α → Except SyntaxFault β}
    {b : β} (h : r >>= f = .ok b) : ∃ a, r = .ok a ∧ f a = .ok b := by
  cases r with
  | error e => cases h
  | ok a => exact ⟨a, rfl, h⟩

variable {scope : Scope}

mutual

theorem typed_parseExpression (limit : Nat) (ts : List Lexeme) (depth : Nat)
    {p : Parsed Expr ts.length} (h : parseExpression scope limit ts depth = .ok p) :
    p.value.Typed scope := by
  rw [parseExpression] at h
  obtain ⟨inner, -, h⟩ := exists_ok_of_bind h
  obtain ⟨lhs, hlhs, h⟩ := exists_ok_of_bind h
  have hwithin := lhs.within
  obtain ⟨e, he, h⟩ := exists_ok_of_bind h
  cases h
  exact typed_parseBinary limit lhs.value lhs.rest lhs.depth
    (typed_parseOperand ts inner hlhs) he
termination_by ts.length * 8 + 6
decreasing_by all_goals omega

theorem typed_parseBinary (limit : Nat) (lhs : Expr) (ts : List Lexeme) (depth : Nat)
    (hlhs : lhs.Typed scope) {p : Parsed Expr (ts.length + 1)}
    (h : parseBinary scope limit lhs ts depth = .ok p) : p.value.Typed scope := by
  match ts, p, h with
  | [], p, h =>
    rw [parseBinary] at h
    cases h
    exact hlhs
  | t :: more, p, h =>
    rw [parseBinary] at h
    split at h
    · cases h
      exact hlhs
    · rename_i op hop
      split at h
      · cases h
        exact hlhs
      · obtain ⟨inner, -, h⟩ := exists_ok_of_bind h
        obtain ⟨operand, hoperand, h⟩ := exists_ok_of_bind h
        have hwithin := operand.within
        obtain ⟨rhs, hrhs, h⟩ := exists_ok_of_bind h
        have hwithin' := rhs.within
        have hright := typed_parseBinary op.precedence operand.value operand.rest
          operand.depth (typed_parseOperand more inner hoperand) hrhs
        split at h
        · cases h
        · rename_i hoperands
          obtain ⟨e, he, h⟩ := exists_ok_of_bind h
          cases h
          have hset : op = .union → lhs.type = .nodeSet ∧ rhs.value.type = .nodeSet := by
            intro hunion
            simpa [hunion] using hoperands
          exact typed_parseBinary limit _ rhs.rest rhs.depth (.binary op hlhs hright hset) he
termination_by ts.length * 8
decreasing_by all_goals (simp only [List.length_cons]; omega)

theorem typed_parseOperand (ts : List Lexeme) (depth : Nat) {p : Parsed Expr ts.length}
    (h : parseOperand scope ts depth = .ok p) : p.value.Typed scope := by
  match ts, p, h with
  | [], p, h =>
    rw [parseOperand] at h
    cases h
  | t :: more, p, h =>
    rw [parseOperand] at h
    split at h
    · obtain ⟨inner, -, h⟩ := exists_ok_of_bind h
      obtain ⟨e, he, h⟩ := exists_ok_of_bind h
      cases h
      exact .negate (typed_parseExpression 7 more inner he)
    · split at h
      · exact typed_parseFilterPath (t :: more) depth h
      · exact typed_parseLocationPath (t :: more) depth h
    · exact typed_parseFilterPath (t :: more) depth h
    · exact typed_parseFilterPath (t :: more) depth h
    · exact typed_parseFilterPath (t :: more) depth h
    · exact typed_parseFilterPath (t :: more) depth h
    · exact typed_parseLocationPath (t :: more) depth h
termination_by ts.length * 8 + 5
decreasing_by all_goals (simp only [List.length_cons]; omega)

theorem typed_parseFilterPath (ts : List Lexeme) (depth : Nat) {p : Parsed Expr ts.length}
    (h : parseFilterPath scope ts depth = .ok p) : p.value.Typed scope := by
  rw [parseFilterPath] at h
  obtain ⟨e, he, h⟩ := exists_ok_of_bind h
  have hwithin := e.within
  have hfilter := typed_parseFilter ts depth he
  split at h
  · cases h
    exact hfilter
  · rename_i t more hrest
    have hlength : more.length + 1 < ts.length := by
      rw [hrest, List.length_cons] at hwithin
      exact hwithin
    split at h
    · obtain ⟨q, hq, h⟩ := exists_ok_of_bind h
      cases h
      exact typed_parseRelativePath (some e.value) more e.depth
        (fun _ hsome => Option.some.inj hsome ▸ hfilter) hq
    · split at h
      · split at h
        · cases h
        · rename_i hset
          obtain ⟨q, hq, h⟩ := exists_ok_of_bind h
          cases h
          exact typed_parseRelativePath (some (descendantOrSelf e.value)) more e.depth
            (fun _ hsome => Option.some.inj hsome ▸ hfilter.descendantOrSelf (by simpa using hset))
            hq
      · cases h
        exact hfilter
termination_by ts.length * 8 + 4
decreasing_by all_goals omega

theorem typed_parseFilter (ts : List Lexeme) (depth : Nat) {p : Parsed Expr ts.length}
    (h : parseFilter scope ts depth = .ok p) : p.value.Typed scope := by
  rw [parseFilter] at h
  obtain ⟨e, he, h⟩ := exists_ok_of_bind h
  have hwithin := e.within
  have hprimary := typed_parsePrimary ts depth he
  split at h
  · split at h
    · cases h
    · rename_i hset
      obtain ⟨ps, hps, h⟩ := exists_ok_of_bind h
      cases h
      exact .filter hprimary (by simpa using hset) (allTyped_parsePredicates e.rest e.depth hps)
  · cases h
    exact hprimary
termination_by ts.length * 8 + 3
decreasing_by all_goals omega

theorem allTyped_parsePredicates (ts : List Lexeme) (depth : Nat)
    {p : Parsed (List Expr) (ts.length + 1)}
    (h : parsePredicates scope ts depth = .ok p) : ∀ e ∈ p.value, e.Typed scope := by
  match ts, p, h with
  | [], p, h =>
    rw [parsePredicates] at h
    cases h
    exact nofun
  | t :: more, p, h =>
    rw [parsePredicates] at h
    split at h
    · obtain ⟨inner, -, h⟩ := exists_ok_of_bind h
      obtain ⟨e, he, h⟩ := exists_ok_of_bind h
      have hwithin := e.within
      obtain ⟨⟨rest, hrest⟩, -, h⟩ := exists_ok_of_bind h
      obtain ⟨ps, hps, h⟩ := exists_ok_of_bind h
      cases h
      exact List.forall_mem_cons.2 ⟨typed_parseExpression 0 more inner he,
        allTyped_parsePredicates rest e.depth hps⟩
    · cases h
      exact nofun
termination_by ts.length * 8
decreasing_by all_goals (simp only [List.length_cons]; omega)

theorem typed_parsePrimary (ts : List Lexeme) (depth : Nat) {p : Parsed Expr ts.length}
    (h : parsePrimary scope ts depth = .ok p) : p.value.Typed scope := by
  match ts, p, h with
  | [], p, h =>
    rw [parsePrimary] at h
    cases h
  | t :: more, p, h =>
    rw [parsePrimary] at h
    split at h
    · -- a variable is looked for among those in scope
      split at h
      · cases h
      · rename_i refs
        split at h
        · rename_i ref hfound
          cases h
          exact .variable (List.mem_of_find?_eq_some hfound)
        · cases h
    · obtain ⟨e, he, h⟩ := exists_ok_of_bind h
      have hwithin := e.within
      obtain ⟨⟨rest, hrest⟩, -, h⟩ := exists_ok_of_bind h
      cases h
      exact typed_parseExpression 0 more depth he
    · cases h
      exact .string _
    · cases h
      exact .number _
    · obtain ⟨⟨inner, hinner⟩, -, h⟩ := exists_ok_of_bind h
      obtain ⟨as, has, h⟩ := exists_ok_of_bind h
      dsimp only at h
      split at h
      · cases h
      · rename_i f hresolve
        split at h
        · cases h
        · rename_i hset
          cases h
          have harguments := allTyped_parseArguments true inner depth has
          refine .call ⟨_, hresolve⟩ (fun htakes a ha => ?_) harguments
          rw [htakes, Bool.true_and, List.any_eq_true] at hset
          exact Decidable.byContradiction fun hother => hset ⟨a, ha, by simpa using hother⟩
    · cases h
termination_by ts.length * 8 + 2
decreasing_by all_goals (simp only [List.length_cons]; omega)

theorem allTyped_parseArguments (first : Bool) (ts : List Lexeme) (depth : Nat)
    {p : Parsed (List Expr) ts.length} (h : parseArguments scope first ts depth = .ok p) :
    ∀ e ∈ p.value, e.Typed scope := by
  match ts, p, h with
  | [], p, h =>
    rw [parseArguments] at h
    cases h
  | t :: more, p, h =>
    rw [parseArguments] at h
    split at h
    · cases h
      exact nofun
    · obtain ⟨⟨start, hstart⟩, -, h⟩ := exists_ok_of_bind h
      have hlength : start.length ≤ more.length + 1 := hstart
      obtain ⟨inner, -, h⟩ := exists_ok_of_bind h
      obtain ⟨e, he, h⟩ := exists_ok_of_bind h
      have hwithin := e.within
      obtain ⟨as, has, h⟩ := exists_ok_of_bind h
      cases h
      exact List.forall_mem_cons.2 ⟨typed_parseExpression 0 start inner he,
        allTyped_parseArguments false e.rest e.depth has⟩
termination_by ts.length * 8 + 7
decreasing_by all_goals (simp only [List.length_cons]; omega)

theorem typed_parseLocationPath (ts : List Lexeme) (depth : Nat) {p : Parsed Expr ts.length}
    (h : parseLocationPath scope ts depth = .ok p) : p.value.Typed scope := by
  have hroot : Expr.root.Typed scope := .root
  match ts, p, h with
  | [], p, h =>
    rw [parseLocationPath] at h
    cases h
  | t :: more, p, h =>
    rw [parseLocationPath] at h
    split at h
    · split at h
      · obtain ⟨q, hq, h⟩ := exists_ok_of_bind h
        cases h
        exact typed_parseRelativePath (some .root) more depth
          (fun _ hsome => Option.some.inj hsome ▸ hroot) hq
      · cases h
        exact hroot
    · split at h
      · obtain ⟨q, hq, h⟩ := exists_ok_of_bind h
        cases h
        exact typed_parseRelativePath (some (descendantOrSelf .root)) more depth
          (fun _ hsome => Option.some.inj hsome ▸ hroot.descendantOrSelf rfl) hq
      · exact typed_parseRelativePath none (t :: more) depth (fun _ hsome => by cases hsome) h
termination_by ts.length * 8 + 4
decreasing_by all_goals (simp only [List.length_cons]; omega)

theorem typed_parseRelativePath (input : Option Expr) (ts : List Lexeme) (depth : Nat)
    (hinput : ∀ e, input = some e → e.Typed scope) {p : Parsed Expr ts.length}
    (h : parseRelativePath scope input ts depth = .ok p) : p.value.Typed scope := by
  rw [parseRelativePath] at h
  obtain ⟨s, hs, h⟩ := exists_ok_of_bind h
  have hwithin := s.within
  obtain ⟨q, hq, h⟩ := exists_ok_of_bind h
  cases h
  obtain ⟨hstep, hset⟩ := typed_parseStep input ts depth hinput hs
  exact typed_parseMoreSteps s.value s.rest s.depth hstep hset hq
termination_by ts.length * 8 + 3
decreasing_by all_goals omega

theorem typed_parseMoreSteps (input : Expr) (ts : List Lexeme) (depth : Nat)
    (hinput : input.Typed scope) (hset : input.type = .nodeSet) {p : Parsed Expr (ts.length + 1)}
    (h : parseMoreSteps scope input ts depth = .ok p) : p.value.Typed scope := by
  match ts, p, h with
  | [], p, h =>
    rw [parseMoreSteps] at h
    cases h
    exact hinput
  | t :: more, p, h =>
    rw [parseMoreSteps] at h
    split at h
    · obtain ⟨inner, -, h⟩ := exists_ok_of_bind h
      obtain ⟨s, hs, h⟩ := exists_ok_of_bind h
      have hwithin := s.within
      obtain ⟨q, hq, h⟩ := exists_ok_of_bind h
      cases h
      obtain ⟨hstep, hset'⟩ := typed_parseStep _ more inner (fun e hsome => by
        cases hsome
        split
        · exact hinput.descendantOrSelf hset
        · exact hinput) hs
      exact typed_parseMoreSteps s.value s.rest s.depth hstep hset' hq
    · cases h
      exact hinput
termination_by ts.length * 8
decreasing_by all_goals (simp only [List.length_cons]; omega)

theorem typed_parseStep (input : Option Expr) (ts : List Lexeme) (depth : Nat)
    (hinput : ∀ e, input = some e → e.Typed scope) {p : Parsed Expr ts.length}
    (h : parseStep scope input ts depth = .ok p) :
    p.value.Typed scope ∧ p.value.type = .nodeSet := by
  match ts, p, h with
  | [], p, h =>
    rw [parseStep.eq_def] at h
    split at h
    · cases h
    · cases h
  | t :: more, p, h =>
    rw [parseStep.eq_def] at h
    split at h
    · cases h
    · rename_i hother
      have hset : ∀ e, input = some e → e.type = .nodeSet := by
        intro e hsome
        simpa [hsome] using hother
      simp only at h
      split at h
      · split at h
        · cases h
        · cases h
          exact ⟨.stepFrom .self .node hinput hset nofun, Expr.type_stepFrom _ _ _ _⟩
      · split at h
        · cases h
        · cases h
          exact ⟨.stepFrom .parent .node hinput hset nofun, Expr.type_stepFrom _ _ _ _⟩
      · obtain ⟨⟨⟨axis, test⟩, rest, hrest⟩, -, h⟩ := exists_ok_of_bind h
        obtain ⟨ps, hps, h⟩ := exists_ok_of_bind h
        cases h
        exact ⟨.stepFrom axis test hinput hset (allTyped_parsePredicates rest depth hps),
          Expr.type_stepFrom _ _ _ _⟩
      · obtain ⟨⟨⟨axis, test⟩, rest, hrest⟩, -, h⟩ := exists_ok_of_bind h
        have hlength : rest.length < more.length + 1 := hrest
        obtain ⟨ps, hps, h⟩ := exists_ok_of_bind h
        cases h
        exact ⟨.stepFrom axis test hinput hset (allTyped_parsePredicates rest depth hps),
          Expr.type_stepFrom _ _ _ _⟩
termination_by ts.length * 8 + 2
decreasing_by all_goals (simp only [List.length_cons]; omega)

end

end Grammar

theorem Expr.typed_parse {scope : Grammar.Scope} {text : String} {e : Expr}
    (h : Expr.parse scope text = .ok e) : e.Typed scope := by
  obtain ⟨p, hp, h⟩ := Grammar.exists_ok_of_bind h
  have htyped := Grammar.typed_parseExpression 0 (Lexeme.ofText text) 0 hp
  split at h
  · cases h
    exact htyped
  · cases h

/-! ## Evaluating constant parts -/

namespace Expr

variable {scope : Grammar.Scope} {e : Expr}

theorem foldAll_eq_map (es : List Expr) : foldAll es = es.map fold := by
  induction es with
  | nil => rw [foldAll, List.map_nil]
  | cons e es ih => rw [foldAll, ih, List.map_cons]

theorem Typed.of_isLiteral (h : e.isLiteral = true) : e.Typed scope := by
  cases e with
  | number x => exact .number x
  | string s => exact .string s
  | boolean b => exact .boolean b
  | root | step | path | filter | call | binary | negate | «variable» => cases h

theorem Typed.negated (h : e.Typed scope) : e.negated.Typed scope := by
  rw [Expr.negated.eq_def]
  split
  · exact .number _
  · exact .negate h

theorem forall_mem_foldAll {P : Expr → Prop} {es : List Expr} (h : ∀ e ∈ es, P e.fold) :
    ∀ e ∈ foldAll es, P e := by
  rw [foldAll_eq_map]
  exact List.forall_mem_map.2 h

/-- Evaluating constant parts beforehand keeps the parts that are left fitting together:
it changes neither the type of a part nor the number of arguments. -/
theorem Typed.fold (h : e.Typed scope) : e.fold.Typed scope := by
  induction h with
  | root => rw [Expr.fold] <;> first | exact .root | simp
  | number x => rw [Expr.fold] <;> first | exact .number x | simp
  | string s => rw [Expr.fold] <;> first | exact .string s | simp
  | boolean b => rw [Expr.fold] <;> first | exact .boolean b | simp
  | «variable» hscope => rw [Expr.fold] <;> first | exact .variable hscope | simp
  | step axis test _ ih =>
    rw [Expr.fold]
    exact .step axis test (forall_mem_foldAll ih)
  | path axis test _ hset _ ihinput ihpredicates =>
    rw [Expr.fold]
    exact .path axis test ihinput ((type_fold _).trans hset) (forall_mem_foldAll ihpredicates)
  | filter _ hset _ ihbase ihpredicates =>
    rw [Expr.fold]
    exact .filter ihbase ((type_fold _).trans hset) (forall_mem_foldAll ihpredicates)
  | negate _ ih =>
    rw [Expr.fold]
    exact ih.negated
  | @call f arguments haccepts hset _ ih =>
    rcases fold_call f arguments with ⟨h, -⟩ | ⟨h, v, hv⟩
    · have hlength : (foldAll arguments).length = arguments.length := by
        rw [foldAll_eq_map, List.length_map]
      rw [h]
      refine .call (hlength ▸ haccepts) (fun htakes => ?_) (forall_mem_foldAll ih)
      refine forall_mem_foldAll fun a ha => ?_
      rw [type_fold]
      exact hset (hlength ▸ htakes) a ha
    · exact h ▸ .of_isLiteral hv.evaluated.1
  | @binary op left right _ _ hset ihleft ihright =>
    rcases fold_binary op left right with ⟨h, -⟩ | ⟨h, v, hv⟩
    · rw [h]
      refine .binary op ihleft ihright fun hunion => ?_
      rw [type_fold, type_fold]
      exact hset hunion
    · exact h ▸ .of_isLiteral hv.evaluated.1

end Expr

/-! ## Queries -/

/-- The expression of a query has its parts fit together. -/
theorem Query.typed_compile {scope : Grammar.Scope} {text : String} {e : Expr}
    (h : (Query.compile scope text).expr? = some e) : e.Typed scope := by
  unfold expr? compile at h
  cases hparse : Expr.parse scope text with
  | error fault =>
    rw [hparse] at h
    cases h
  | ok read =>
    rw [hparse] at h
    cases h
    exact (Expr.typed_parse hparse).fold

end XmlTree
