/-
  Proofs/Scoping.lean --- an expression refers to the variables it was read with.

  WHAT THIS FILE IS FOR.  A variable gets into an expression in one place only, where its
  name is found among the variables in scope.  So whatever is read refers to variables in
  scope, and evaluating constant parts beforehand adds none: an expression that is read
  without variables refers to none.
-/
import XmlTree.Proofs.Typing

set_option autoImplicit false

namespace XmlTree

/-! ## Variables of an expression -/

mutual

/-- The variables that an expression refers to. -/
def Expr.refs : Expr → List VariableRef
  | .root | .number _ | .string _ | .boolean _ => []
  | .step _ _ predicates => refsAll predicates
  | .path input _ _ predicates => input.refs ++ refsAll predicates
  | .filter base predicates => base.refs ++ refsAll predicates
  | .call _ arguments => refsAll arguments
  | .binary _ left right => left.refs ++ right.refs
  | .negate operand => operand.refs
  | .variable ref => [ref]

/-- The variables that several expressions refer to. -/
def Expr.refsAll : List Expr → List VariableRef
  | [] => []
  | e :: es => e.refs ++ refsAll es

end

/-- All variables of an expression are in scope. -/
def Expr.InScope (scope : Grammar.Scope) (e : Expr) : Prop := e.refs ⊆ scope.getD []

/-- All variables of several expressions are in scope. -/
def Expr.AllInScope (scope : Grammar.Scope) (es : List Expr) : Prop :=
  refsAll es ⊆ scope.getD []

namespace Expr

variable {scope : Grammar.Scope} {e : Expr} {es : List Expr}

theorem AllInScope.of_forall (h : ∀ e ∈ es, e.InScope scope) : AllInScope scope es := by
  induction es with
  | nil => exact List.nil_subset _
  | cons e es ih =>
    rw [List.forall_mem_cons] at h
    exact List.append_subset.2 ⟨h.1, ih h.2⟩

theorem Typed.inScope (h : e.Typed scope) : e.InScope scope := by
  induction h with
  | root | number | string | boolean => exact List.nil_subset _
  | «variable» hscope => exact List.cons_subset.2 ⟨hscope, List.nil_subset _⟩
  | step axis test _ ih => exact AllInScope.of_forall ih
  | path axis test _ _ _ ihinput ihpredicates =>
    exact List.append_subset.2 ⟨ihinput, AllInScope.of_forall ihpredicates⟩
  | filter _ _ _ ihbase ihpredicates =>
    exact List.append_subset.2 ⟨ihbase, AllInScope.of_forall ihpredicates⟩
  | call _ _ _ ih => exact AllInScope.of_forall ih
  | binary op _ _ _ ihleft ihright => exact List.append_subset.2 ⟨ihleft, ihright⟩
  | negate _ ih => exact ih

end Expr

/-! ## Queries -/

/-- The variables that a query refers to; none if it could not be read. -/
def Query.refs (q : Query) : List VariableRef := q.expr?.elim [] Expr.refs

/-- A query refers to variables that it was compiled with. -/
theorem Query.mem_scope_of_mem_refs {scope : Grammar.Scope} {text : String} {r : VariableRef}
    (hr : r ∈ (Query.compile scope text).refs) : r ∈ scope.getD [] := by
  unfold refs at hr
  cases hexpr : (Query.compile scope text).expr? with
  | none =>
    rw [hexpr] at hr
    cases hr
  | some e =>
    rw [hexpr] at hr
    exact (typed_compile hexpr).inScope hr

/-- A query that is compiled without variables refers to none. -/
theorem Query.refs_compile_none (text : String) : (Query.compile none text).refs = [] :=
  List.eq_nil_iff_forall_not_mem.2 fun _ hr => by cases mem_scope_of_mem_refs hr

end XmlTree
