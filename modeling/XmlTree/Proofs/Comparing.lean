/-
  Proofs/Comparing.lean --- what the six comparisons say of two values.

  WHAT THIS FILE IS FOR.  Equality and order are compared in two different ways, each with its
  own cases for node-sets.  Here is one rule for all sixteen pairs of types and all six
  comparisons, that of XPath 1.0, section 3.4, and the place where the rule is not kept.

  THE RULE.  Every operand stands for some plain values: a node-set for the texts of its
  nodes, or next to a truth value for whether it has any; another operand for itself.  The
  comparison holds if it holds between a value of the one and a value of the other.  Two plain
  values are read as truth values, as numbers or as texts, and for the order as numbers.

  WHERE IT IS NOT KEPT.  Equality follows the rule for all operands.  The order follows it but
  for a node-set next to a truth value: its nodes are then compared one by one, like next to a
  number, so that an empty one is neither less than `true()` nor greater than `false()` nor
  anything else.

  CHANGING PLACES.  Turning a comparison around and exchanging its operands never makes a
  difference, where the rule is kept and where it is not.
-/
import XmlTree.Proofs.Folding
import XmlTree.Query.Eval

set_option autoImplicit false

namespace XmlTree

/-! ## Numbers that change places -/

section Floats

open Float.Model

/-- The order of two numbers of the same sign is decided by their exponents, then by their
mantissas; it is turned around when they change places. -/
theorem compare_then_swap (e e' : Int) (m m' : Nat) :
    (compare e' e).then (compare m' m) = ((compare e e').then (compare m m')).swap := by
  have hswap (x y : Int) : (compare x y).swap = compare y x := Std.OrientedCmp.eq_swap.symm
  have hswapNat (x y : Nat) : (compare x y).swap = compare y x := Std.OrientedCmp.eq_swap.symm
  rw [Ordering.swap_then, hswap, hswapNat]

theorem unpacked_compare_swap (a b : UnpackedFloat) :
    b.compare a = (a.compare b).map Ordering.swap := by
  rcases a with (_ | _) | _ | _ | ⟨_ | _, m, e⟩ <;>
    rcases b with (_ | _) | _ | _ | ⟨_ | _, m', e'⟩ <;>
    first
      | rfl
      | exact congrArg some (compare_then_swap e e' m m')
      | exact congrArg (fun o => some o.swap) (compare_then_swap e e' m m')

/-- Equality of numbers does not depend on which of them comes first. -/
theorem float_beq_comm (x y : Float) : (x == y) = (y == x) := by
  have hswap := unpacked_compare_swap x.toModel.unpack y.toModel.unpack
  change (_ == some Ordering.eq) = (_ == some Ordering.eq)
  rw [hswap]
  rcases UnpackedFloat.compare x.toModel.unpack y.toModel.unpack with _ | _ | _ | _ <;> rfl

end Floats

/-! ## Comparisons -/

/-- The operators that compare two values. -/
inductive Comparison where
  | eq
  | notEq
  | lt
  | ltEq
  | gt
  | gtEq
  deriving DecidableEq, Repr

namespace Comparison

/-- The operator of a comparison. -/
def op : Comparison → BinaryOp
  | eq => .eq
  | notEq => .notEq
  | lt => .lt
  | ltEq => .ltEq
  | gt => .gt
  | gtEq => .gtEq

/-- The comparison that says the same of two values in the other order. -/
def mirror : Comparison → Comparison
  | eq => eq
  | notEq => notEq
  | lt => gt
  | ltEq => gtEq
  | gt => lt
  | gtEq => ltEq

/-- Whether a comparison asks which of two values is the greater one. -/
def isRelational : Comparison → Bool
  | eq | notEq => false
  | lt | ltEq | gt | gtEq => true

/-- What equality or difference says of two values of which it is known whether they are the
same. -/
def ofSame (c : Comparison) (same : Bool) : Bool :=
  match c with
  | notEq => !same
  | _ => same

/-- What a comparison says of two numbers. -/
def ofNumbers (c : Comparison) (x y : Float) : Bool :=
  match c with
  | eq | notEq => c.ofSame (x == y)
  | lt => x < y
  | ltEq => x ≤ y
  | gt => x > y
  | gtEq => x ≥ y

/-- What a comparison says of two values neither of which is a node-set.  For an order both
are read as numbers.  For equality both are read as truth values if one of them is one, else
as numbers if one of them is one, else as texts. -/
def ofPlain (order : DocumentOrder) (c : Comparison) (x y : Value) : Bool :=
  if c.isRelational then c.ofNumbers (x.toNumber order) (y.toNumber order)
  else if x.type = .boolean ∨ y.type = .boolean then c.ofSame (x.toBoolean == y.toBoolean)
  else if x.type = .number ∨ y.type = .number then
    c.ofNumbers (x.toNumber order) (y.toNumber order)
  else c.ofSame (x.toText order == y.toText order)

end Comparison

/-- The plain values that stand for an operand: the truth value of a node-set that is taken as
one, the texts of the nodes of any other, and the operand itself if it is no node-set. -/
def Value.standing (order : DocumentOrder) (asTruth : Bool) : Value → List Value
  | .nodeSet s =>
    if asTruth then [.boolean (!s.nodes.isEmpty)]
    else s.nodes.map fun n => .string (order.doc.stringValue n)
  | v => [v]

namespace Comparison

/-- Whether some plain values of two operands stand in a comparison, where a node-set next to
a truth value is taken as one if `asTruths` is set. -/
def meets (asTruths : Bool) (order : DocumentOrder) (c : Comparison) (a b : Value) : Bool :=
  (a.standing order (asTruths && b.type = .boolean)).any fun x =>
    (b.standing order (asTruths && a.type = .boolean)).any fun y => c.ofPlain order x y

/-- Whether two values stand in a comparison as section 3.4 of XPath 1.0 has it. -/
def holds (order : DocumentOrder) (c : Comparison) (a b : Value) : Bool := c.meets true order a b

/-- One operand is a node-set and the other one a truth value. -/
def Mixed (a b : Value) : Prop :=
  a.type = .nodeSet ∧ b.type = .boolean ∨ a.type = .boolean ∧ b.type = .nodeSet

/-- The rule is kept: always by equality, and by an order but for a node-set next to a truth
value. -/
def KeepsRule (c : Comparison) (a b : Value) : Prop := c.isRelational = false ∨ ¬ Mixed a b

variable {order : DocumentOrder} {c : Comparison} {a b : Value}

/-- Only between a node-set and a truth value does it matter what the node-set is taken as. -/
theorem meets_eq_holds (h : ¬ Mixed a b) (asTruths : Bool) :
    c.meets asTruths order a b = c.holds order a b := by
  cases a <;> cases b <;> first
    | rfl
    | exact absurd (.inl ⟨rfl, rfl⟩) h
    | exact absurd (.inr ⟨rfl, rfl⟩) h
    | simp [holds, meets, Value.standing, Value.type]

/-! ## Changing places -/

theorem ofNumbers_mirror (c : Comparison) (x y : Float) :
    c.mirror.ofNumbers y x = c.ofNumbers x y := by
  cases c <;> first | rfl | simp only [mirror, ofNumbers, float_beq_comm]

theorem ofSame_mirror (c : Comparison) (same : Bool) : c.mirror.ofSame same = c.ofSame same := by
  cases c <;> rfl

theorem isRelational_mirror (c : Comparison) : c.mirror.isRelational = c.isRelational := by
  cases c <;> rfl

theorem ofPlain_mirror (order : DocumentOrder) (c : Comparison) (x y : Value) :
    c.mirror.ofPlain order y x = c.ofPlain order x y := by
  simp only [ofPlain, isRelational_mirror, ofNumbers_mirror, ofSame_mirror,
    or_comm (a := y.type = _), Bool.beq_comm (a := y.toBoolean),
    Bool.beq_comm (a := y.toText order)]

theorem meets_mirror (asTruths : Bool) (order : DocumentOrder) (c : Comparison) (a b : Value) :
    c.mirror.meets asTruths order b a = c.meets asTruths order a b := by
  have hexchange : c.mirror.meets asTruths order b a = true
      ↔ c.meets asTruths order a b = true := by
    simp only [meets, ofPlain_mirror, List.any_eq_true]
    constructor <;> rintro ⟨x, hx, y, hy, h⟩ <;> exact ⟨y, hy, x, hx, h⟩
  exact Bool.eq_iff_iff.mpr hexchange

/-! ## What the operators answer -/

/-- The numbers that an order compares are those of the plain values, where a node-set stands
for its nodes whatever it is next to. -/
theorem comparedNumbers_eq (order : DocumentOrder) (v : Value) :
    v.comparedNumbers order = (v.standing order false).map (Value.toNumber order) := by
  cases v <;> simp [Value.comparedNumbers, Value.standing, Document.numberValue, Value.toNumber]

/-- An order compares the numbers of the nodes of a node-set, whatever the other operand is. -/
theorem compareNumbers_eq (h : c.isRelational = true) (order : DocumentOrder) (a b : Value) :
    a.compareNumbers order c.ofNumbers b = c.meets false order a b := by
  simp only [Value.compareNumbers, comparedNumbers_eq, meets, ofPlain, h, Bool.false_and,
    if_true, List.any_map, Function.comp_def]

/-- Equality and difference compare the plain values of the operands, a node-set next to a
truth value taken as one. -/
theorem compareEqual_eq (h : c.isRelational = false) (order : DocumentOrder) (a b : Value) :
    a.compareEqual order (c.ofSame true) b = c.holds order a b := by
  have hsame (same : Bool) : (same == c.ofSame true) = c.ofSame same := by
    cases c <;> cases same <;> rfl
  have hnumbers (x y : Float) : c.ofNumbers x y = c.ofSame (x == y) := by
    cases c <;> first | rfl | exact nomatch h
  cases a <;> cases b <;>
    simp [Value.compareEqual, holds, meets, Value.standing, Value.type, ofPlain, h, hsame,
      hnumbers, Value.toText, Value.toNumber, Document.numberValue, Value.toBoolean,
      List.any_map, Function.comp_def, Bool.beq_comm, float_beq_comm]

/-- The value of a comparison, whatever the operands are. -/
theorem apply_op (order : DocumentOrder) (c : Comparison) (a b : Value) :
    c.op.apply order a b = .boolean (c.meets (!c.isRelational) order a b) := by
  cases c with
  | eq => exact congrArg Value.boolean (compareEqual_eq (c := eq) rfl order a b)
  | notEq => exact congrArg Value.boolean (compareEqual_eq (c := notEq) rfl order a b)
  | lt => exact congrArg Value.boolean (compareNumbers_eq (c := lt) rfl order a b)
  | ltEq => exact congrArg Value.boolean (compareNumbers_eq (c := ltEq) rfl order a b)
  | gt => exact congrArg Value.boolean (compareNumbers_eq (c := gt) rfl order a b)
  | gtEq => exact congrArg Value.boolean (compareNumbers_eq (c := gtEq) rfl order a b)

/-- Where the rule is kept, the value of a comparison is what the rule says. -/
theorem apply_op_of_keepsRule (h : c.KeepsRule a b) :
    c.op.apply order a b = .boolean (c.holds order a b) := by
  rw [apply_op]
  rcases h with hequality | hunmixed
  · rw [hequality]
    rfl
  · rw [meets_eq_holds hunmixed]

/-- An order compares a node-set with a truth value by the number of every node and the number
of the truth value. -/
theorem apply_op_mixed (h : c.isRelational = true) (order : DocumentOrder) (s : NodeSet)
    (t : Bool) :
    c.op.apply order (.nodeSet s) (.boolean t)
      = .boolean (s.nodes.any fun n =>
          c.ofNumbers (order.doc.numberValue n) (Value.numberOfBool t)) := by
  rw [apply_op, h, Bool.not_true, ← compareNumbers_eq h]
  simp only [Value.compareNumbers, Value.comparedNumbers, List.any_map, List.any_cons,
    List.any_nil, Bool.or_false, Function.comp_def, Value.toNumber]

theorem apply_mirror (order : DocumentOrder) (c : Comparison) (a b : Value) :
    c.mirror.op.apply order b a = c.op.apply order a b := by
  rw [apply_op, apply_op, isRelational_mirror, meets_mirror]

/-- What two values compare to. -/
structure Decided (order : DocumentOrder) (c : Comparison) (a b : Value) : Prop where
  /-- The rule decides equality between all values, and an order between all but a node-set
  and a truth value. -/
  rule : c.KeepsRule a b → c.op.apply order a b = .boolean (c.holds order a b)
  /-- There an order looks at the nodes one by one. -/
  nodewise : c.isRelational = true →
    ∀ s t, a = .nodeSet s → b = .boolean t →
      c.op.apply order a b = .boolean (s.nodes.any fun n =>
        c.ofNumbers (order.doc.numberValue n) (Value.numberOfBool t))
  /-- Turned around and with the operands exchanged, the comparison has the same value. -/
  mirrored : c.mirror.op.apply order b a = c.op.apply order a b
  /-- The value is that of every expression whose operands have these values, and of the one
  turned around. -/
  evaluated : ∀ (env : Environment) (left right : Expr) (ctx : Context),
    env.order = order → left.eval env ctx = a → right.eval env ctx = b →
      (Expr.binary c.op left right).eval env ctx = c.op.apply order a b
        ∧ (Expr.binary c.mirror.op right left).eval env ctx = c.op.apply order a b

/-- Every comparison of every two values is decided like this. -/
theorem decided (order : DocumentOrder) (c : Comparison) (a b : Value) : c.Decided order a b where
  rule := apply_op_of_keepsRule
  nodewise := by
    rintro h s t rfl rfl
    exact apply_op_mixed h order s t
  mirrored := apply_mirror order c a b
  evaluated := by
    rintro env left right ctx rfl rfl rfl
    exact ⟨Expr.eval_binary env c.op left right ctx,
      (Expr.eval_binary env c.mirror.op right left ctx).trans (apply_mirror ..)⟩

/-- A set without nodes is not less than `true()`, though as truth values the one is zero and
the other one. -/
theorem lt_true_of_no_nodes (order : DocumentOrder) (known : NodeOrder) :
    BinaryOp.lt.apply order (.nodeSet ⟨[], known⟩) (.boolean true) = .boolean false
      ∧ lt.holds order (.nodeSet ⟨[], known⟩) (.boolean true) = true := by
  have hless : (0 : Float) < 1 := by decide +kernel
  refine ⟨rfl, ?_⟩
  simp [holds, meets, Value.standing, Value.type, ofPlain, isRelational, ofNumbers, Value.toNumber,
    Value.numberOfBool, hless]

end Comparison

end XmlTree
