/-
  Document/Place.lean --- where something goes in an ordered list.

  Children and attributes are lists without repetition, and what is inserted goes
  to an end or beside a member.  Here the lists are plain ones; the linked lists of a
  document stand for them.
-/
set_option autoImplicit false

namespace XmlTree

/-- A place in a list. -/
inductive Place (α : Type) where
  | first
  | last
  | before (reference : α)
  | after (reference : α)
  deriving DecidableEq, Repr, Inhabited

namespace Place

variable {α : Type} [DecidableEq α]

/-- The member that the place refers to. -/
def reference? : Place α → Option α
  | before r | after r => some r
  | _ => none

/-- The list with `x` before the first occurrence of `r`; at the end if there is
none. -/
def insertBefore (r x : α) : List α → List α
  | [] => [x]
  | a :: rest => if a = r then x :: a :: rest else a :: insertBefore r x rest

/-- The list with `x` after the first occurrence of `r`; at the end if there is
none. -/
def insertAfter (r x : α) : List α → List α
  | [] => [x]
  | a :: rest => if a = r then a :: x :: rest else a :: insertAfter r x rest

/-- The list with `x` at the place. -/
def insert (place : Place α) (x : α) (xs : List α) : List α :=
  match place with
  | first => x :: xs
  | last => xs ++ [x]
  | before r => insertBefore r x xs
  | after r => insertAfter r x xs

end Place

/-! ## Beside a member -/

section Neighbours

variable {α : Type} [DecidableEq α]

/-- The members after the first occurrence of `x`, in order. -/
def membersAfter (x : α) : List α → List α
  | [] => []
  | a :: rest => if a = x then rest else membersAfter x rest

/-- The members before the first occurrence of `x`, in order; all of them if there
is none. -/
def membersBefore (x : α) (xs : List α) : List α := xs.takeWhile (· ≠ x)

/-- The member right after the first occurrence of `x`. -/
def memberAfter? (x : α) (xs : List α) : Option α := (membersAfter x xs).head?

/-- The member right before the first occurrence of `x`. -/
def memberBefore? (x : α) (xs : List α) : Option α := (membersBefore x xs).getLast?

end Neighbours

end XmlTree
