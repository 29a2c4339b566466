/-
  Proofs/Folding.lean --- evaluating constant parts beforehand changes no value.

  WHAT THIS FILE IS FOR.  A part of an expression whose operands are literals is evaluated
  where there is no node and no variable, and the literal of its value is put in its place.
  That is sound only if the value is the same at every other place: no operator and no
  function that is evaluated beforehand may look at the context, or at a tree.

  PLAIN VALUES.  A truth value, a number and a text read the same in every document; a
  node-set does not.  Literals have plain values, and of plain values every operator and
  every function that counts as pure makes a value that depends on nothing else.
-/
import XmlTree.Query.Fold

set_option autoImplicit false

namespace XmlTree

/-! ## Plain values -/

/-- A value that is no node-set. -/
def Value.IsPlain (v : Value) : Prop := v.type ≠ .nodeSet

namespace Value

variable {order order' : DocumentOrder} {a b v : Value}

theorem not_isPlain_nodeSet (s : NodeSet) : ¬ (nodeSet s).IsPlain := fun h => h rfl

theorem toText_eq (h : v.IsPlain) : v.toText order = v.toText order' := by
  cases v with
  | nodeSet s => exact absurd h (not_isPlain_nodeSet s)
  | boolean b => rfl
  | number x => rfl
  | string s => rfl

theorem toNumber_eq (h : v.IsPlain) : v.toNumber order = v.toNumber order' := by
  cases v with
  | nodeSet s => exact absurd h (not_isPlain_nodeSet s)
  | boolean b => rfl
  | number x => rfl
  | string s => rfl

theorem comparedNumbers_eq (h : v.IsPlain) :
    v.comparedNumbers order = v.comparedNumbers order' := by
  cases v with
  | nodeSet s => exact absurd h (not_isPlain_nodeSet s)
  | boolean b => rfl
  | number x => rfl
  | string s => rfl

theorem compareNumbers_eq (holds : Float → Float → Bool) (ha : a.IsPlain) (hb : b.IsPlain) :
    a.compareNumbers order holds b = a.compareNumbers order' holds b := by
  have hleft : a.comparedNumbers order = a.comparedNumbers order' := comparedNumbers_eq ha
  have hright : b.comparedNumbers order = b.comparedNumbers order' := comparedNumbers_eq hb
  rw [compareNumbers, compareNumbers, hleft, hright]

theorem compareEqual_eq (equal : Bool) (ha : a.IsPlain) (hb : b.IsPlain) :
    a.compareEqual order equal b = a.compareEqual order' equal b := by
  cases a with
  | nodeSet s => exact absurd ha (not_isPlain_nodeSet s)
  | boolean x | number x | string x =>
    cases b with
    | nodeSet t => exact absurd hb (not_isPlain_nodeSet t)
    | boolean y | number y | string y => rfl

theorem nodes_toNodeSet (h : v.IsPlain) : v.toNodeSet.nodes = [] := by
  cases v with
  | nodeSet s => exact absurd h (not_isPlain_nodeSet s)
  | boolean b | number x | string s => rfl

end Value

/-! ## Operators and functions -/

/-- The type of the result of an operator is known beforehand. -/
theorem BinaryOp.type_apply (op : BinaryOp) (order : DocumentOrder) (a b : Value) :
    (op.apply order a b).type = op.type := by
  cases op <;> rfl

/-- An operator between plain values looks at no document. -/
theorem BinaryOp.apply_eq {order order' : DocumentOrder} {op : BinaryOp} {a b : Value}
    (hop : op ≠ .union) (ha : a.IsPlain) (hb : b.IsPlain) :
    op.apply order a b = op.apply order' a b := by
  have hnumber : ∀ v : Value, v.IsPlain → v.toNumber order = v.toNumber order' :=
    fun _ hv => Value.toNumber_eq hv
  cases op with
  | union => exact absurd rfl hop
  | or | and => rfl
  | eq | notEq => exact congrArg Value.boolean (Value.compareEqual_eq _ ha hb)
  | lt | ltEq | gt | gtEq => exact congrArg Value.boolean (Value.compareNumbers_eq _ ha hb)
  | add | sub | mul | div | mod => rw [apply, apply, hnumber a ha, hnumber b hb]

namespace CoreFunction

variable {order order' : DocumentOrder} {context context' : Context} {f : CoreFunction}
  {arguments : List Value}

theorem type_ne_none (f : CoreFunction) : f.type ≠ .none := by
  cases f <;> decide

/-- The type of the value of a function is known beforehand, whatever it is called
with. -/
theorem type_apply (f : CoreFunction) (order : DocumentOrder) (context : Context)
    (arguments : List Value) : (f.apply order context arguments).type = f.type := by
  unfold apply
  split
  all_goals first
    | rfl
    | exact Value.type_initial (type_ne_none f)

/-- No pure function answers nodes. -/
theorem type_ne_nodeSet_of_isPure {count : Nat} (h : f.isPure count = true) :
    f.type ≠ .nodeSet := by
  intro htype
  cases f <;> simp_all [isPure, CoreFunction.type]

theorem subjectText_eq (hne : arguments ≠ []) (hplain : ∀ v ∈ arguments, v.IsPlain) :
    subjectText order context arguments = subjectText order' context' arguments := by
  cases arguments with
  | nil => exact absurd rfl hne
  | cons a as => exact Value.toText_eq (hplain a (by simp))

theorem foldl_toText_eq (hplain : ∀ v ∈ arguments, v.IsPlain) (start : String) :
    arguments.foldl (fun joined v => joined ++ v.toText order) start
      = arguments.foldl (fun joined v => joined ++ v.toText order') start := by
  induction arguments generalizing start with
  | nil => rw [List.foldl_nil, List.foldl_nil]
  | cons a as ih =>
    have htext : a.toText order = a.toText order' :=
      Value.toText_eq (hplain a List.mem_cons_self)
    rw [List.foldl_cons, List.foldl_cons, htext]
    exact ih (fun v hv => hplain v (List.mem_cons_of_mem a hv)) _

/-- A pure function of plain values looks neither at the context nor at a document. -/
theorem apply_eq (hpure : f.isPure arguments.length = true)
    (hplain : ∀ v ∈ arguments, v.IsPlain) :
    f.apply order context arguments = f.apply order' context' arguments := by
  have htext : ∀ v ∈ arguments, v.toText order = v.toText order' :=
    fun v hv => Value.toText_eq (hplain v hv)
  have hnumber : ∀ v ∈ arguments, v.toNumber order = v.toNumber order' :=
    fun v hv => Value.toNumber_eq (hplain v hv)
  have hjoined : arguments.foldl (fun joined v => joined ++ v.toText order) ""
      = arguments.foldl (fun joined v => joined ++ v.toText order') "" := foldl_toText_eq hplain ""
  have hsubject : 0 < arguments.length →
      subjectText order context arguments = subjectText order' context' arguments :=
    fun hlength => subjectText_eq (List.length_pos_iff.1 hlength) hplain
  -- the equations of the function that read the context are those of the impure ones
  unfold apply
  split
  case h_26 a =>
    have hempty : a.toNodeSet.nodes = [] := Value.nodes_toNodeSet (hplain a (by simp))
    simp [hempty]
  all_goals simp_all [isPure]

end CoreFunction

/-! ## Constant expressions -/

namespace Expr

variable {e : Expr} {es : List Expr} {v : Value}

/-- `v` is the value of an expression at every place, whatever the variables hold. -/
structure HasConstant (e : Expr) (v : Value) : Prop where
  plain : v.IsPlain
  type_eq : v.type = e.type
  eval_eq : ∀ env ctx, e.eval env ctx = v

theorem exists_constant_of_isLiteral (h : e.isLiteral = true) : ∃ v, e.HasConstant v := by
  cases e with
  | number x => exact ⟨.number x, by simp [Value.IsPlain, Value.type], rfl, fun _ _ => by rw [eval]⟩
  | string s => exact ⟨.string s, by simp [Value.IsPlain, Value.type], rfl, fun _ _ => by rw [eval]⟩
  | boolean b => exact ⟨.boolean b, by simp [Value.IsPlain, Value.type], rfl, fun _ _ => by rw [eval]⟩
  | root | step | path | filter | call | binary | negate | «variable» => cases h

theorem length_evalAll (env : Environment) (es : List Expr) (ctx : Context) :
    (evalAll env es ctx).length = es.length := by
  induction es with
  | nil => simp [evalAll]
  | cons e es ih => simp [evalAll, ih]

/-- Literals have the same values everywhere. -/
theorem exists_constants_of_isLiteral (h : es.all isLiteral = true) :
    ∃ vs : List Value, (∀ v ∈ vs, v.IsPlain) ∧ ∀ env ctx, evalAll env es ctx = vs := by
  induction es with
  | nil => exact ⟨[], by simp, fun _ _ => by rw [evalAll]⟩
  | cons e es ih =>
    rw [List.all_cons, Bool.and_eq_true] at h
    obtain ⟨v, hv⟩ := exists_constant_of_isLiteral h.1
    obtain ⟨vs, hplain, heval⟩ := ih h.2
    refine ⟨v :: vs, ?_, fun env ctx => ?_⟩
    · intro w hw
      rcases List.mem_cons.1 hw with rfl | hw
      · exact hv.plain
      · exact hplain w hw
    · rw [evalAll, hv.eval_eq env ctx, heval env ctx]

/-- An operator between literals is a constant, except for the union. -/
theorem exists_constant_binary {op : BinaryOp} {left right : Expr} (hop : op ≠ .union)
    (hleft : left.isLiteral = true) (hright : right.isLiteral = true) :
    ∃ v, (binary op left right).HasConstant v := by
  obtain ⟨a, ha⟩ := exists_constant_of_isLiteral hleft
  obtain ⟨b, hb⟩ := exists_constant_of_isLiteral hright
  have htype : (op.apply nowhere.order a b).type = op.type := op.type_apply nowhere.order a b
  refine ⟨op.apply nowhere.order a b, ?_, htype, fun env ctx => ?_⟩
  · intro hset
    rw [htype] at hset
    cases op <;> simp_all [BinaryOp.type]
  · rw [eval_binary, ha.eval_eq, hb.eval_eq]
    exact BinaryOp.apply_eq hop ha.plain hb.plain

/-- A pure function of literals is a constant. -/
theorem exists_constant_call {f : CoreFunction} {arguments : List Expr}
    (hpure : f.isPure arguments.length = true) (hall : arguments.all isLiteral = true) :
    ∃ v, (call f arguments).HasConstant v := by
  obtain ⟨vs, hplain, heval⟩ := exists_constants_of_isLiteral hall
  have hlength : vs.length = arguments.length := by
    rw [← heval nowhere (.only .null), length_evalAll]
  have htype := f.type_apply nowhere.order (.only .null) vs
  refine ⟨f.apply nowhere.order (.only .null) vs, ?_, htype, fun env ctx => ?_⟩
  · intro hset
    exact CoreFunction.type_ne_nodeSet_of_isPure hpure (htype.symm.trans hset)
  · rw [eval, heval env ctx]
    exact CoreFunction.apply_eq (hlength ▸ hpure) hplain

namespace HasConstant

/-- A constant expression is replaced by a literal of the same value. -/
theorem evaluated (h : e.HasConstant v) :
    e.evaluated.isLiteral = true ∧ e.evaluated.HasConstant v := by
  have hplain := h.plain
  have htype := h.type_eq
  rw [Expr.evaluated, h.eval_eq]
  cases v with
  | nodeSet s => exact absurd hplain (Value.not_isPlain_nodeSet s)
  | number x => exact ⟨rfl, hplain, rfl, fun _ _ => by simp [ofValue?, eval]⟩
  | string x => exact ⟨rfl, hplain, rfl, fun _ _ => by simp [ofValue?, eval]⟩
  | boolean x => exact ⟨rfl, hplain, rfl, fun _ _ => by simp [ofValue?, eval]⟩

theorem type_evaluated (h : e.HasConstant v) : e.evaluated.type = e.type :=
  h.evaluated.2.type_eq.symm.trans h.type_eq

theorem eval_evaluated (h : e.HasConstant v) (env : Environment) (ctx : Context) :
    e.evaluated.eval env ctx = e.eval env ctx :=
  (h.evaluated.2.eval_eq env ctx).trans (h.eval_eq env ctx).symm

end HasConstant

theorem type_negated (e : Expr) : e.negated.type = .number := by
  cases e <;> rfl

theorem eval_negated (e : Expr) (env : Environment) (ctx : Context) :
    e.negated.eval env ctx = (negate e).eval env ctx := by
  cases e <;> simp [negated, eval, Value.toNumber]

/-! ## The whole tree -/

theorem fold_binary (op : BinaryOp) (left right : Expr) :
    (binary op left right).fold = binary op left.fold right.fold ∧
        (op != .union && left.fold.isLiteral && right.fold.isLiteral) = false ∨
      (binary op left right).fold = (binary op left.fold right.fold).evaluated ∧
        ∃ v, (binary op left.fold right.fold).HasConstant v := by
  rw [fold]
  by_cases h : (op != .union && left.fold.isLiteral && right.fold.isLiteral) = true
  · rw [if_pos h]
    simp only [Bool.and_eq_true, bne_iff_ne] at h
    exact .inr ⟨rfl, exists_constant_binary h.1.1 h.1.2 h.2⟩
  · rw [if_neg h]
    exact .inl ⟨rfl, Bool.eq_false_iff.2 h⟩

theorem fold_call (f : CoreFunction) (arguments : List Expr) :
    (call f arguments).fold = call f (foldAll arguments) ∧
        (f.isPure (foldAll arguments).length && (foldAll arguments).all isLiteral) = false ∨
      (call f arguments).fold = (call f (foldAll arguments)).evaluated ∧
        ∃ v, (call f (foldAll arguments)).HasConstant v := by
  rw [fold]
  by_cases h : (f.isPure (foldAll arguments).length && (foldAll arguments).all isLiteral) = true
  · rw [if_pos h]
    rw [Bool.and_eq_true] at h
    exact .inr ⟨rfl, exists_constant_call h.1 h.2⟩
  · rw [if_neg h]
    exact .inl ⟨rfl, Bool.eq_false_iff.2 h⟩

theorem type_fold (e : Expr) : e.fold.type = e.type := by
  cases e with
  | binary op left right =>
    rcases fold_binary op left right with ⟨h, -⟩ | ⟨h, v, hv⟩
    · rw [h, type, type]
    · rw [h, hv.type_evaluated, type, type]
  | call f arguments =>
    rcases fold_call f arguments with ⟨h, -⟩ | ⟨h, v, hv⟩
    · rw [h, type, type]
    · rw [h, hv.type_evaluated, type, type]
  | negate operand =>
    rw [fold, type_negated, type]
  | root | step | path | filter | number | string | boolean | «variable» => simp [fold, type]

end Expr

mutual

theorem Expr.eval_fold (env : Environment) (e : Expr) (ctx : Context) :
    e.fold.eval env ctx = e.eval env ctx := by
  cases e with
  | root | number | string | boolean | «variable» => rw [Expr.fold] <;> simp
  | step axis test predicates =>
    rw [Expr.fold, Expr.eval, Expr.eval, Expr.pickByAll_foldAll env predicates]
  | path input axis test predicates =>
    rw [Expr.fold, Expr.eval, Expr.eval, Expr.eval_fold env input]
    simp only [Expr.pickByAll_foldAll env predicates]
  | filter base predicates =>
    rw [Expr.fold, Expr.eval, Expr.eval, Expr.eval_fold env base,
      Expr.pickByAll_foldAll env predicates]
  | negate operand =>
    rw [Expr.fold, Expr.eval_negated, Expr.eval, Expr.eval, Expr.eval_fold env operand]
  | binary op left right =>
    have hparts : (Expr.binary op left.fold right.fold).eval env ctx
        = (Expr.binary op left right).eval env ctx := by
      rw [Expr.eval_binary, Expr.eval_binary, Expr.eval_fold env left, Expr.eval_fold env right]
    rcases Expr.fold_binary op left right with ⟨h, -⟩ | ⟨h, v, hv⟩
    · rw [h, hparts]
    · rw [h, hv.eval_evaluated, hparts]
  | call f arguments =>
    have hparts : (Expr.call f (Expr.foldAll arguments)).eval env ctx
        = (Expr.call f arguments).eval env ctx := by
      rw [Expr.eval, Expr.eval, Expr.evalAll_foldAll env arguments]
    rcases Expr.fold_call f arguments with ⟨h, -⟩ | ⟨h, v, hv⟩
    · rw [h, hparts]
    · rw [h, hv.eval_evaluated, hparts]

theorem Expr.evalAll_foldAll (env : Environment) (es : List Expr) (ctx : Context) :
    Expr.evalAll env (Expr.foldAll es) ctx = Expr.evalAll env es ctx := by
  cases es with
  | nil => rw [Expr.foldAll]
  | cons e es =>
    rw [Expr.foldAll, Expr.evalAll, Expr.evalAll, Expr.eval_fold env e,
      Expr.evalAll_foldAll env es]

/-- A predicate picks the same nodes, also when its value is a position. -/
theorem Expr.pickByAll_foldAll (env : Environment) (predicates : List Expr)
    (nodes : List QueryNode) :
    Expr.pickByAll env (Expr.foldAll predicates) nodes
      = Expr.pickByAll env predicates nodes := by
  cases predicates with
  | nil => rw [Expr.foldAll]
  | cons p ps =>
    rw [Expr.foldAll, Expr.pickByAll, Expr.pickByAll, Expr.pickByAll_foldAll env ps]
    simp only [Expr.eval_fold env p]

end

/-! ## Nothing is left to evaluate -/

mutual

/-- Whether no part is left, other than a literal, whose value is known from literals. -/
def Expr.isReduced : Expr → Bool
  | .step _ _ predicates => allReduced predicates
  | .path input _ _ predicates => input.isReduced && allReduced predicates
  | .filter base predicates => base.isReduced && allReduced predicates
  | .negate (.number _) => false
  | .negate operand => operand.isReduced
  | .binary op left right =>
    left.isReduced && right.isReduced &&
      (op == .union || !(left.isLiteral && right.isLiteral))
  | .call f arguments =>
    allReduced arguments && !(f.isPure arguments.length && arguments.all Expr.isLiteral)
  | .root | .number _ | .string _ | .boolean _ | .variable _ => true

/-- Whether no such part is left in any of several expressions. -/
def Expr.allReduced : List Expr → Bool
  | [] => true
  | e :: es => e.isReduced && allReduced es

end

theorem Expr.isReduced_of_isLiteral {e : Expr} (h : e.isLiteral = true) :
    e.isReduced = true := by
  cases e <;> first | rfl | cases h

theorem Expr.isReduced_negated {e : Expr} (h : e.isReduced = true) :
    e.negated.isReduced = true := by
  cases e <;> first | rfl | exact h

mutual

theorem Expr.isReduced_fold (e : Expr) : e.fold.isReduced = true := by
  cases e with
  | root | number | string | boolean | «variable» => rw [Expr.fold, Expr.isReduced] <;> simp
  | step axis test predicates =>
    rw [Expr.fold, Expr.isReduced]
    exact Expr.allReduced_foldAll predicates
  | path input axis test predicates =>
    rw [Expr.fold, Expr.isReduced, Expr.isReduced_fold input, Expr.allReduced_foldAll predicates]
    rfl
  | filter base predicates =>
    rw [Expr.fold, Expr.isReduced, Expr.isReduced_fold base, Expr.allReduced_foldAll predicates]
    rfl
  | negate operand =>
    rw [Expr.fold]
    exact Expr.isReduced_negated (Expr.isReduced_fold operand)
  | binary op left right =>
    rcases Expr.fold_binary op left right with ⟨h, hleft⟩ | ⟨h, v, hv⟩
    · rw [h, Expr.isReduced, Expr.isReduced_fold left, Expr.isReduced_fold right]
      rw [bne, Bool.and_assoc, Bool.and_eq_false_iff, Bool.not_eq_false'] at hleft
      rcases hleft with hop | hliterals
      · rw [hop]
        rfl
      · rw [hliterals]
        simp
    · exact h ▸ Expr.isReduced_of_isLiteral hv.evaluated.1
  | call f arguments =>
    rcases Expr.fold_call f arguments with ⟨h, hpure⟩ | ⟨h, v, hv⟩
    · rw [h, Expr.isReduced, hpure, Expr.allReduced_foldAll arguments]
      rfl
    · exact h ▸ Expr.isReduced_of_isLiteral hv.evaluated.1

theorem Expr.allReduced_foldAll (es : List Expr) :
    Expr.allReduced (Expr.foldAll es) = true := by
  cases es with
  | nil => rw [Expr.foldAll, Expr.allReduced]
  | cons e es =>
    rw [Expr.foldAll, Expr.allReduced, Expr.isReduced_fold e, Expr.allReduced_foldAll es]
    rfl

end

/-- Evaluating the constant parts of an expression beforehand keeps its type, and its
value at every place of every document under every assignment of the variables; and it
leaves no part that could be evaluated beforehand. -/
theorem Expr.fold_preserves_meaning (e : Expr) :
    e.fold.type = e.type ∧
      (∀ (env : Environment) (ctx : Context), e.fold.eval env ctx = e.eval env ctx) ∧
      e.fold.isReduced = true :=
  ⟨e.type_fold, fun env ctx => e.eval_fold env ctx, e.isReduced_fold⟩

/-- A number that is computed picks the node at that position. -/
example (axis : Axis) (test : NodeTest) (x y : Float) :
    (Expr.step axis test [.binary .add (.number x) (.number y)]).fold
      = .step axis test [.number (x + y)] := by
  rfl

end XmlTree
