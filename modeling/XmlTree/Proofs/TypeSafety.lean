/-
  Proofs/TypeSafety.lean --- evaluation never meets a value of the wrong type.

  WHAT THIS FILE IS FOR.  Evaluation reads a value that is no node-set as the empty one where
  a node-set is needed, and a function that misses an argument answers the initial value of
  its type.  Neither may ever happen, or a wrong answer would stand where a fault should.

  CHECKED EVALUATION is evaluation that gives up at these places: where a node-set is needed
  and another value is there, and where a function reads an argument that it was not given.
  What a query was compiled to never makes it give up, at no part and at no place, whatever
  was done with the variables since; so the two evaluations agree.
-/
import XmlTree.Proofs.Typing
import XmlTree.Proofs.Variables

set_option autoImplicit false

namespace XmlTree

/-! ## Checked evaluation -/

/-- The node-set that a value is; nothing for another value. -/
def Value.nodeSet? : Value → Option NodeSet
  | nodeSet s => some s
  | _ => none

/-- The value of an operator; nothing when a union is given anything but node-sets. -/
def BinaryOp.applyChecked? (order : DocumentOrder) (op : BinaryOp) (a b : Value) : Option Value :=
  match op with
  | union => do return .nodeSet ((← a.nodeSet?).union (← b.nodeSet?))
  | op => some (op.apply order a b)

/-- The value of a function at a place; nothing when an argument that it reads is not there,
or is no node-set where one is needed. -/
def CoreFunction.applyChecked? (order : DocumentOrder) (context : Context) (f : CoreFunction)
    (arguments : List Value) : Option Value :=
  let doc := order.doc
  let text (i : Nat) : Option String := arguments[i]?.map (Value.toText order)
  let number (i : Nat) : Option Float := arguments[i]?.map (Value.toNumber order)
  let truth (i : Nat) : Option Bool := arguments[i]?.map Value.toBoolean
  let nodes (i : Nat) : Option NodeSet := arguments[i]?.bind Value.nodeSet?
  let subject : Option QueryNode :=
    if arguments.isEmpty then some context.node else (nodes 0).map (NodeSet.first order)
  let subjectText : Option String :=
    if arguments.isEmpty then some (doc.stringValue context.node) else text 0
  match f with
  | .last => some (.number (Float.ofNat context.size))
  | .position => some (.number (Float.ofNat context.position))
  | .count => do return .number (Float.ofNat (← nodes 0).nodes.length)
  | .id => some (.nodeSet .empty)
  | .localName => do return .string (localNameOf (doc.queryName (← subject)))
  | .namespaceUri => do return .string (doc.namespaceUri (← subject))
  | .name => do return .string (doc.queryName (← subject))
  | .string => do return .string (← subjectText)
  | .concat => some (.string (arguments.foldl (fun joined a => joined ++ a.toText order) ""))
  | .startsWith => do return .boolean (beginsWith (← text 1).toList (← text 0).toList)
  | .contains => do return .boolean (cutAt? (← text 1).toList (← text 0).toList).isSome
  | .substringBefore => do
    let cut := cutAt? (← text 1).toList (← text 0).toList
    return .string (cut.elim "" fun (before, _) => String.ofList before)
  | .substringAfter => do
    let cut := cutAt? (← text 1).toList (← text 0).toList
    return .string (cut.elim "" fun (_, after) => String.ofList after)
  | .substring => do
    return .string (String.ofList (substringOf (← text 0).toList (← number 1) (number 2)))
  | .stringLength => do return .number (Float.ofNat (← subjectText).length)
  | .normalizeSpace => do
    return .string (String.ofList (normalizeSpaceOf (← subjectText).toList))
  | .translate => do
    return .string (String.ofList
      (translateOf (← text 1).toList (← text 2).toList (← text 0).toList))
  | .boolean => do return .boolean (← truth 0)
  | .not => do return .boolean !(← truth 0)
  | .alwaysTrue => some (.boolean true)
  | .alwaysFalse => some (.boolean false)
  | .lang => do return .boolean (doc.hasLanguage (← text 0) context.node)
  | .number =>
    if arguments.isEmpty then some (.number (doc.numberValue context.node))
    else do return .number (← number 0)
  | .sum => do
    return .number ((← nodes 0).nodes.foldl (fun total n => total + doc.numberValue n) (-0.0))
  | .floor => do return .number (← number 0).floor
  | .ceiling => do return .number (← number 0).ceil
  | .round => do return .number (roundKeepingSign (← number 0))

/-- The nodes of a list that a predicate picks, if it has a value at each of them. -/
def pickByChecked? (predicate : Context → Option Value) (nodes : List QueryNode) :
    Option (List QueryNode) := do
  let size := nodes.length
  let values ← (nodes.zipIdx 1).mapM fun (n, i) => predicate ⟨n, i, size⟩
  return (((nodes.zipIdx 1).zip values).filter fun ((_, i), v) => v.picks i).map (·.1.1)

mutual

/-- The value of an expression at a place, as long as every value that is read as a node-set
is one and every argument that is read is there. -/
def Expr.evalChecked? (env : Environment) : Expr → Context → Option Value
  | .root, ctx => some (.nodeSet ⟨(env.doc.topOf ctx.node).toList.map .node, .sorted⟩)
  | .step axis test predicates, ctx => do
    let nodes := env.doc.axisNodes axis test ctx.node
    return .nodeSet ⟨← pickByAllChecked? env predicates nodes, axis.order⟩
  | .path input axis test predicates, ctx => do
    let sources ← (← input.evalChecked? env ctx).nodeSet?
    let lists ← sources.nodes.mapM fun n =>
      pickByAllChecked? env predicates (env.doc.axisNodes axis test n)
    return .nodeSet (axis.gather sources.order lists)
  | .filter base predicates, ctx => do
    let set ← (← base.evalChecked? env ctx).nodeSet?
    let sorted := if set.order = .sorted then set else set.sort env.order false
    return .nodeSet ⟨← pickByAllChecked? env predicates sorted.nodes, .sorted⟩
  | .call f arguments, ctx => do
    f.applyChecked? env.order ctx (← evalAllChecked? env arguments ctx)
  | .binary op left right, ctx => do
    let a ← left.evalChecked? env ctx
    if op.settledBy a then return .boolean a.toBoolean
    else op.applyChecked? env.order a (← right.evalChecked? env ctx)
  | .negate operand, ctx => do
    return .number (-(← operand.evalChecked? env ctx).toNumber env.order)
  | .number x, _ => some (.number x)
  | .string s, _ => some (.string s)
  | .boolean b, _ => some (.boolean b)
  | .variable ref, _ => some (env.values.value ref)

/-- The values of several expressions. -/
def Expr.evalAllChecked? (env : Environment) : List Expr → Context → Option (List Value)
  | [], _ => some []
  | e :: es, ctx => do return (← e.evalChecked? env ctx) :: (← evalAllChecked? env es ctx)

/-- The nodes of a list that predicates pick, one after the other. -/
def Expr.pickByAllChecked? (env : Environment) :
    List Expr → List QueryNode → Option (List QueryNode)
  | [], nodes => some nodes
  | p :: ps, nodes => do
    pickByAllChecked? env ps (← pickByChecked? (fun ctx => p.evalChecked? env ctx) nodes)

end

/-! ## Functions -/

theorem Value.exists_nodeSet {v : Value} (h : v.type = .nodeSet) : ∃ s, v = .nodeSet s := by
  cases v with
  | nodeSet s => exact ⟨s, rfl⟩
  | boolean | number | string => exact absurd h nofun

namespace CoreFunction

variable {f : CoreFunction} {count : Nat}

/-- The numbers of arguments that a function can be called with. -/
def Takes (f : CoreFunction) (count : Nat) : Prop :=
  match f with
  | last | position | alwaysTrue | alwaysFalse => count = 0
  | localName | namespaceUri | name | string | stringLength | normalizeSpace | number => count ≤ 1
  | .count | id | boolean | not | lang | sum | floor | ceiling | round => count = 1
  | startsWith | contains | substringBefore | substringAfter => count = 2
  | substring => count = 2 ∨ count = 3
  | translate => count = 3
  | concat => 2 ≤ count

theorem Accepts.takes (h : f.Accepts count) : f.Takes count := by
  obtain ⟨name, h⟩ := h
  unfold resolve? at h
  split at h
  case h_13 =>
    split at h
    · rename_i hcount
      cases h
      exact hcount
    · cases h
  all_goals
    cases h
  all_goals
    simp [Takes]

variable {order : DocumentOrder} {context : Context}

theorem applyChecked?_nil (h : f.Takes 0) :
    f.applyChecked? order context [] = some (f.apply order context []) := by
  cases f <;> first | rfl | exact absurd h (by simp [Takes])

theorem applyChecked?_one (a : Value) (h : f.Takes 1)
    (hset : f.takesNodeSet 1 = true → a.type = .nodeSet) :
    f.applyChecked? order context [a] = some (f.apply order context [a]) := by
  cases hnodes : f.takesNodeSet 1 with
  | true =>
    obtain ⟨s, rfl⟩ := Value.exists_nodeSet (hset hnodes)
    cases f <;> first | rfl | exact absurd h (by simp [Takes])
  | false =>
    cases f <;> first | rfl | contradiction | exact absurd h (by simp [Takes])

theorem applyChecked?_two (a b : Value) (h : f.Takes 2) :
    f.applyChecked? order context [a, b] = some (f.apply order context [a, b]) := by
  cases f <;> first | rfl | exact absurd h (by simp [Takes])

theorem applyChecked?_three (a b c : Value) (h : f.Takes 3) :
    f.applyChecked? order context [a, b, c] = some (f.apply order context [a, b, c]) := by
  cases f <;> first | rfl | exact absurd h (by simp [Takes])

/-- A function that is called with as many arguments as it takes, of the type it takes,
reads no other argument and nothing as a node-set that is none. -/
theorem applyChecked?_eq {arguments : List Value} (h : f.Takes arguments.length)
    (hset : f.takesNodeSet arguments.length = true → ∀ a ∈ arguments, a.type = .nodeSet) :
    f.applyChecked? order context arguments = some (f.apply order context arguments) := by
  match arguments, h, hset with
  | [], h, _ => exact applyChecked?_nil h
  | [a], h, hset => exact applyChecked?_one a h fun hnodes => hset hnodes a (by simp)
  | [a, b], h, _ => exact applyChecked?_two a b h
  | [a, b, c], h, _ => exact applyChecked?_three a b c h
  | a :: b :: c :: d :: rest, h, _ =>
    cases f <;> first | rfl | exact absurd h (by simp [Takes])

end CoreFunction

/-! ## Evaluation -/

theorem BinaryOp.applyChecked?_eq {op : BinaryOp} {order : DocumentOrder} {a b : Value}
    (hset : op = .union → a.type = .nodeSet ∧ b.type = .nodeSet) :
    op.applyChecked? order a b = some (op.apply order a b) := by
  cases op with
  | union =>
    obtain ⟨ha, hb⟩ := hset rfl
    obtain ⟨s, rfl⟩ := Value.exists_nodeSet ha
    obtain ⟨t, rfl⟩ := Value.exists_nodeSet hb
    rfl
  | or | and | eq | notEq | lt | ltEq | gt | gtEq | add | sub | mul | div | mod => rfl

theorem filter_zip_map {α β : Type} (xs : List α) (g : α → β) (p : α × β → Bool) :
    (xs.zip (xs.map g)).filter p = (xs.filter fun x => p (x, g x)).map fun x => (x, g x) := by
  induction xs with
  | nil => rfl
  | cons x xs ih =>
    rw [List.map_cons, List.zip_cons_cons, List.filter_cons, List.filter_cons, ih]
    split <;> rfl

/-- A predicate that has a value at every node picks the same nodes. -/
theorem pickByChecked?_eq {predicate? : Context → Option Value} {predicate : Context → Value}
    (h : ∀ ctx, predicate? ctx = some (predicate ctx)) (nodes : List QueryNode) :
    pickByChecked? predicate? nodes = some (pickBy predicate nodes) := by
  have hvalues : ((nodes.zipIdx 1).mapM fun (n, i) => predicate? ⟨n, i, nodes.length⟩)
      = some ((nodes.zipIdx 1).map fun (n, i) => predicate ⟨n, i, nodes.length⟩) := by
    simp only [h]
    exact List.mapM_pure
  rw [pickByChecked?, hvalues]
  simp only [Option.bind_eq_bind, Option.bind_some, filter_zip_map, List.map_map]
  rfl

namespace Expr

variable {scope : Grammar.Scope} {env : Environment} {e : Expr} {es : List Expr}

/-- The value of an expression has the type that was known beforehand. -/
theorem Typed.type_eval (h : e.Typed scope)
    (hvalues : ∀ ref ∈ scope.getD [], (env.values.value ref).type = ref.type) (ctx : Context) :
    (e.eval env ctx).type = e.type := by
  cases h with
  | root | step | path | filter | number | string | boolean | negate =>
    rw [eval]
    rfl
  | call =>
    rw [eval]
    exact CoreFunction.type_apply _ _ _ _
  | binary op =>
    rw [eval_binary]
    exact op.type_apply _ _ _
  | «variable» href =>
    rw [eval]
    exact hvalues _ href

theorem evalAllChecked?_eq {ctx : Context}
    (h : ∀ e ∈ es, e.evalChecked? env ctx = some (e.eval env ctx)) :
    evalAllChecked? env es ctx = some (evalAll env es ctx) := by
  induction es with
  | nil => rw [evalAllChecked?, evalAll]
  | cons e es ih =>
    rw [List.forall_mem_cons] at h
    rw [evalAllChecked?, evalAll, h.1, ih h.2]
    rfl

theorem pickByAllChecked?_eq
    (h : ∀ e ∈ es, ∀ ctx, e.evalChecked? env ctx = some (e.eval env ctx))
    (nodes : List QueryNode) :
    pickByAllChecked? env es nodes = some (pickByAll env es nodes) := by
  induction es generalizing nodes with
  | nil => rw [pickByAllChecked?, pickByAll]
  | cons e es ih =>
    rw [List.forall_mem_cons] at h
    rw [pickByAllChecked?, pickByAll, pickByChecked?_eq h.1]
    exact ih h.2 _

theorem forall_mem_evalAll {P : Value → Prop} {ctx : Context}
    (h : ∀ e ∈ es, P (e.eval env ctx)) : ∀ v ∈ evalAll env es ctx, P v := by
  induction es with
  | nil =>
    rw [evalAll]
    exact nofun
  | cons e es ih =>
    rw [evalAll]
    exact List.forall_mem_cons.2 ⟨h e List.mem_cons_self,
      ih fun e he => h e (List.mem_cons_of_mem _ he)⟩

/-- Checked evaluation never gives up. -/
theorem Typed.evalChecked?_eq (h : e.Typed scope)
    (hvalues : ∀ ref ∈ scope.getD [], (env.values.value ref).type = ref.type) :
    ∀ ctx, e.evalChecked? env ctx = some (e.eval env ctx) := by
  induction h with
  | root | number | string | boolean | «variable» =>
    intro ctx
    rw [evalChecked?, eval]
  | step axis test _ ih =>
    intro ctx
    rw [evalChecked?, eval, pickByAllChecked?_eq ih]
    rfl
  | @path input axis test predicates hinput hset _ ihinput ih =>
    intro ctx
    obtain ⟨s, hs⟩ := Value.exists_nodeSet ((hinput.type_eval hvalues ctx).trans hset)
    rw [evalChecked?, eval, ihinput, hs]
    have hlists : (s.nodes.mapM fun n =>
        pickByAllChecked? env predicates (env.doc.axisNodes axis test n))
        = some (s.nodes.map fun n =>
          pickByAll env predicates (env.doc.axisNodes axis test n)) := by
      simp only [pickByAllChecked?_eq ih]
      exact List.mapM_pure
    simp only [Option.bind_eq_bind, Option.bind_some, Value.nodeSet?, hlists]
    rfl
  | filter hbase hset _ ihbase ih =>
    intro ctx
    obtain ⟨s, hs⟩ := Value.exists_nodeSet ((hbase.type_eval hvalues ctx).trans hset)
    rw [evalChecked?, eval, ihbase, hs]
    simp only [pickByAllChecked?_eq ih]
    rfl
  | @call f arguments haccepts hset harguments ih =>
    intro ctx
    rw [evalChecked?, eval, evalAllChecked?_eq fun a ha => ih a ha ctx]
    refine CoreFunction.applyChecked?_eq ?_ fun hnodes => forall_mem_evalAll fun a ha => ?_
    · rw [length_evalAll]
      exact haccepts.takes
    · rw [length_evalAll] at hnodes
      exact ((harguments a ha).type_eval hvalues ctx).trans (hset hnodes a ha)
  | @binary op left right hleft hright hset ihleft ihright =>
    intro ctx
    rw [evalChecked?, eval, ihleft, ihright]
    simp only [Option.bind_eq_bind, Option.bind_some]
    split
    · rfl
    · refine BinaryOp.applyChecked?_eq fun hunion => ?_
      obtain ⟨hl, hr⟩ := hset hunion
      exact ⟨(hleft.type_eval hvalues ctx).trans hl, (hright.type_eval hvalues ctx).trans hr⟩
  | negate _ ih =>
    intro ctx
    rw [evalChecked?, eval, ih]
    rfl

end Expr

/-! ## Parts of an expression -/

mutual

/-- An expression and everything it is made of. -/
def Expr.parts : Expr → List Expr
  | .step axis test predicates => .step axis test predicates :: partsAll predicates
  | .path input axis test predicates =>
    .path input axis test predicates :: (input.parts ++ partsAll predicates)
  | .filter base predicates => .filter base predicates :: (base.parts ++ partsAll predicates)
  | .call f arguments => .call f arguments :: partsAll arguments
  | .binary op left right => .binary op left right :: (left.parts ++ right.parts)
  | .negate operand => .negate operand :: operand.parts
  | e => [e]

/-- Several expressions and everything they are made of. -/
def Expr.partsAll : List Expr → List Expr
  | [] => []
  | e :: es => e.parts ++ partsAll es

end

namespace Expr

variable {scope : Grammar.Scope} {e : Expr} {es : List Expr}

theorem forall_mem_partsAll {P : Expr → Prop} (h : ∀ e ∈ es, ∀ part ∈ e.parts, P part) :
    ∀ part ∈ partsAll es, P part := by
  induction es with
  | nil => exact nofun
  | cons e es ih =>
    rw [List.forall_mem_cons] at h
    exact List.forall_mem_append.2 ⟨h.1, ih h.2⟩

/-- The parts of an expression have their own parts fit together. -/
theorem Typed.forall_mem_parts (h : e.Typed scope) : ∀ part ∈ e.parts, part.Typed scope := by
  induction h with
  | root => exact List.forall_mem_singleton.2 .root
  | number x => exact List.forall_mem_singleton.2 (.number x)
  | string s => exact List.forall_mem_singleton.2 (.string s)
  | boolean b => exact List.forall_mem_singleton.2 (.boolean b)
  | «variable» href => exact List.forall_mem_singleton.2 (.variable href)
  | step axis test hpredicates ih =>
    exact List.forall_mem_cons.2 ⟨.step axis test hpredicates, forall_mem_partsAll ih⟩
  | path axis test hinput hset hpredicates ihinput ih =>
    exact List.forall_mem_cons.2 ⟨.path axis test hinput hset hpredicates,
      List.forall_mem_append.2 ⟨ihinput, forall_mem_partsAll ih⟩⟩
  | filter hbase hset hpredicates ihbase ih =>
    exact List.forall_mem_cons.2 ⟨.filter hbase hset hpredicates,
      List.forall_mem_append.2 ⟨ihbase, forall_mem_partsAll ih⟩⟩
  | call haccepts hset harguments ih =>
    exact List.forall_mem_cons.2 ⟨.call haccepts hset harguments, forall_mem_partsAll ih⟩
  | binary op hleft hright hset ihleft ihright =>
    exact List.forall_mem_cons.2 ⟨.binary op hleft hright hset,
      List.forall_mem_append.2 ⟨ihleft, ihright⟩⟩
  | negate hoperand ih => exact List.forall_mem_cons.2 ⟨.negate hoperand, ih⟩

/-- What the types of an expression promise about its evaluation. -/
structure Safe (e : Expr) (env : Environment) : Prop where
  /-- every part has values of its type only -/
  type_eval : ∀ part ∈ e.parts, ∀ ctx, (part.eval env ctx).type = part.type
  /-- whatever is read as a node-set is one, and every argument that is read is there -/
  evalChecked? : ∀ part ∈ e.parts, ∀ ctx, part.evalChecked? env ctx = some (part.eval env ctx)

theorem Typed.safe {env : Environment} (h : e.Typed scope)
    (hvalues : ∀ ref ∈ scope.getD [], (env.values.value ref).type = ref.type) : e.Safe env :=
  ⟨fun part hpart => (h.forall_mem_parts part hpart).type_eval hvalues,
    fun part hpart => (h.forall_mem_parts part hpart).evalChecked?_eq hvalues⟩

end Expr

/-! ## Variables -/

namespace VariableSpace

/-- What the types of the variables of an earlier time promise later. -/
structure TypesFixed (before now : VariableSpace) : Prop where
  /-- a variable has the type that it was added with -/
  type_value : ∀ ref, before.Issued ref → (now.store.value ref).type = ref.type
  /-- a value of another type is refused by the handle, and nothing changes -/
  handle_refuses : ∀ ref value, before.Issued ref → value.type ≠ ref.type →
    now.apply (.assignTo ref value) = (false, now)
  /-- a value of another type is refused by a set that has the name, and nothing changes -/
  set_refuses : ∀ k set name ref value, now.sets[k]? = some set → set.find? name = some ref →
    value.type ≠ ref.type → now.apply (.assign k name value) = (false, now)
  /-- a value of the right type is accepted, and no other variable changes -/
  handle_accepts : ∀ ref value, before.Issued ref → value.type = ref.type →
    (now.apply (.assignTo ref value)).1 = true ∧
      (now.apply (.assignTo ref value)).2.store.value ref = value ∧
      ∀ i, i ≠ ref.cell →
        (now.apply (.assignTo ref value)).2.store.cells[i]? = now.store.cells[i]?

theorem Later.typesFixed {w w' : VariableSpace} (h : w.Later w') : w.TypesFixed w' := by
  have hholds : ∀ ref, w.Issued ref → w'.store.Holds ref :=
    fun ref href => h.sound.holds (h.issued ref href)
  refine ⟨fun ref href => (hholds ref href).type_value, ?_, ?_, ?_⟩
  · intro ref value href htype
    rw [apply, if_pos (h.issued ref href),
      VariableStore.assign_of_type_ne (hholds ref href) htype]
  · intro k set name ref value hk hfind htype
    have hsame : w'.sets.set k set = w'.sets := by
      obtain ⟨hsize, rfl⟩ := List.getElem?_eq_some_iff.1 hk
      exact List.set_getElem_self hsize
    simp only [apply, hk, VariableSet.assign_of_type_ne hfind htype, hsame]
  · intro ref value href htype
    rw [apply, if_pos (h.issued ref href)]
    exact ⟨(VariableStore.assign_fst_eq_true_iff (hholds ref href)).2 htype,
      VariableStore.value_assign (hholds ref href) htype,
      fun i hne => VariableStore.getElem?_assign_of_ne hne⟩

end VariableSpace

/-- The types of a query are right.  Let it be compiled with a set of variables, at any
time, and let anything be done with variables afterwards, accepted or refused.  Then in every
document and at every place each part of the query has values of its type only, all that is
read as a node-set is one, and no argument is missing; and the variables keep their types,
each refusing what has another type. -/
theorem Query.safe_compile (earlier later : List VariableChange) {set : VariableSet}
    (hset : set ∈ (VariableSpace.start.applyAll earlier).sets) {text : String} {e : Expr}
    (he : (Query.compile (some set.refs) text).expr? = some e) (order : DocumentOrder) :
    let before := VariableSpace.start.applyAll earlier
    let now := before.applyAll later
    e.Safe ⟨order, now.store⟩ ∧ before.TypesFixed now := by
  have hsound : (VariableSpace.start.applyAll earlier).Sound :=
    (VariableSpace.later_applyAll VariableSpace.sound_start earlier).sound
  have hfixed := (VariableSpace.later_applyAll hsound later).typesFixed
  exact ⟨(Query.typed_compile he).safe fun ref href => hfixed.type_value ref ⟨set, hset, href⟩,
    hfixed⟩

/-- A set with a variable that holds nodes and one that holds a text, which afterwards are
given values of their own and of other types, through the set and through a handle. -/
theorem Query.exists_safe_names : ∃ e : Expr,
    (Query.compile (some [⟨0, "a", .nodeSet⟩, ⟨1, "s", .string⟩])
      "count($a/b[name($a) = $s] | //c) < string-length(concat($s, name()))").expr? = some e ∧
    e.Safe ⟨Document.new.order, (VariableSpace.start.applyAll
      [.newSet, .add 0 "a" .nodeSet, .add 0 "s" .string, .assign 0 "s" (.boolean true),
        .assignTo ⟨0, "a", .nodeSet⟩ (.string "b"), .assign 0 "s" (.string "b")]).store⟩ := by
  have hset : (⟨[⟨0, "a", .nodeSet⟩, ⟨1, "s", .string⟩]⟩ : VariableSet) ∈
      (VariableSpace.start.applyAll
        [.newSet, .add 0 "a" .nodeSet, .add 0 "s" .string]).sets := by
    decide
  have hsome : ((Query.compile (some [⟨0, "a", .nodeSet⟩, ⟨1, "s", .string⟩])
      "count($a/b[name($a) = $s] | //c) < string-length(concat($s, name()))").expr?).isSome
      = true := by
    decide +kernel
  obtain ⟨e, he⟩ := Option.isSome_iff_exists.1 hsome
  exact ⟨e, he, (Query.safe_compile _ [.assign 0 "s" (.boolean true),
    .assignTo ⟨0, "a", .nodeSet⟩ (.string "b"), .assign 0 "s" (.string "b")] hset he
    Document.new.order).1⟩

end XmlTree
