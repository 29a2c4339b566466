/-
  Query/Variables.lean --- variables of expressions.

  WHAT THIS FILE IS FOR.  A variable is a cell that holds a value of a fixed type.
  An expression keeps the cells of the variables it refers to, so it sees the values
  they have when it is evaluated.  A set of variables gives names to cells, in the
  order in which they were added; a copy of a set has cells of its own.
-/
import XmlTree.Query.Value

set_option autoImplicit false

namespace XmlTree

/-! ## Cells -/

/-- The values of all cells. -/
structure VariableStore where
  cells : Array Value
  deriving Repr, Inhabited

namespace VariableStore

/-- No cells. -/
def empty : VariableStore := ⟨#[]⟩

/-- The value of a variable. -/
def value (store : VariableStore) (ref : VariableRef) : Value :=
  store.cells.getD ref.cell (.initial ref.type)

/-- Makes a cell. -/
def alloc (store : VariableStore) (value : Value) : Nat × VariableStore :=
  (store.cells.size, ⟨store.cells.push value⟩)

/-- Gives a variable a value; refused when the value has another type. -/
def assign (store : VariableStore) (ref : VariableRef) (value : Value) : Bool × VariableStore :=
  if (store.value ref).type = value.type then
    (true, ⟨store.cells.modify ref.cell fun _ => value⟩)
  else
    (false, store)

/-- The truth value of a variable; false for one of another type. -/
def boolean (store : VariableStore) (ref : VariableRef) : Bool :=
  match store.value ref with
  | .boolean b => b
  | _ => false

/-- The number of a variable; no number for one of another type. -/
def number (store : VariableStore) (ref : VariableRef) : Float :=
  match store.value ref with
  | .number x => x
  | _ => notANumber

/-- The text of a variable; empty for one of another type. -/
def string (store : VariableStore) (ref : VariableRef) : String :=
  match store.value ref with
  | .string s => s
  | _ => ""

/-- The node-set of a variable; empty for one of another type. -/
def nodeSet (store : VariableStore) (ref : VariableRef) : NodeSet := (store.value ref).toNodeSet

end VariableStore

/-! ## Sets -/

/-- Variables with different names, in the order in which they were added. -/
structure VariableSet where
  refs : List VariableRef
  deriving DecidableEq, Repr, Inhabited

namespace VariableSet

/-- No variables. -/
def empty : VariableSet := ⟨[]⟩

/-- The variable with a name. -/
def find? (set : VariableSet) (name : String) : Option VariableRef :=
  set.refs.find? fun r => r.name == name

/-- The variable with a name, which is added unless it is there.  Refused for an
empty name, for the type `none`, and when it is there with another type. -/
def add (set : VariableSet) (store : VariableStore) (name : String) (type : ValueType) :
    Option VariableRef × VariableSet × VariableStore :=
  if name.isEmpty || type = .none then
    (none, set, store)
  else
    match set.find? name with
    | some ref => (if ref.type = type then some ref else none, set, store)
    | none =>
      let (cell, store) := store.alloc (.initial type)
      let ref : VariableRef := ⟨cell, name, type⟩
      (some ref, ⟨set.refs ++ [ref]⟩, store)

/-- Gives the variable with a name a value; it is added unless it is there. -/
def assign (set : VariableSet) (store : VariableStore) (name : String) (value : Value) :
    Bool × VariableSet × VariableStore :=
  match set.add store name value.type with
  | (some ref, set, store) =>
    let (accepted, store) := store.assign ref value
    (accepted, set, store)
  | (none, set, store) => (false, set, store)

/-- The same names and values in new cells. -/
def clone (set : VariableSet) (store : VariableStore) : VariableSet × VariableStore :=
  set.refs.foldl
    (fun (copy, store) ref =>
      let (cell, store) := store.alloc (store.value ref)
      (⟨copy.refs ++ [{ ref with cell }]⟩, store))
    (empty, store)

end VariableSet

end XmlTree
