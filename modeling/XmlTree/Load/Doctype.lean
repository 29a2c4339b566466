/-
  Load/Doctype.lean --- where a document type declaration ends.

  A declaration ends at the first `>` that belongs to it.  Quoted strings, comments,
  processing instructions and conditional sections are passed over whole, sections
  with the sections inside them; every other `<` opens a declaration that has a `>`
  of its own.
-/
import XmlTree.Text.Chars

set_option autoImplicit false

namespace XmlTree

/-- What follows the `]]>` that closes `depth` open sections. -/
def afterSections? : (depth : Nat) → List Char → Option (List Char)
  | 0, cs => some cs
  | _ + 1, [] => none
  | depth + 1, '<' :: '!' :: '[' :: cs => afterSections? (depth + 2) cs
  | depth + 1, ']' :: ']' :: '>' :: cs => afterSections? depth cs
  | depth + 1, _ :: cs => afterSections? (depth + 1) cs

theorem length_of_afterSections? {depth : Nat} {cs rest : List Char}
    (h : afterSections? depth cs = some rest) : rest.length ≤ cs.length := by
  fun_induction afterSections? depth cs with
  | case1 cs => simp_all
  | case2 => simp at h
  | case3 _ _ ih => have := ih h; simp; omega
  | case4 _ _ ih => have := ih h; simp; omega
  | case5 _ _ _ _ _ ih => have := ih h; simp; omega

/-- The text from the `>` on that ends a document type declaration, when `depth`
declarations inside it are open. -/
def doctypeEnd? (depth : Nat) (cs : List Char) : Option (List Char) :=
  match cs with
  | [] => none
  | c :: rest =>
    if c = '"' || c = '\'' then
      match _h : cutAt? [c] rest with
      | some (_, after) => doctypeEnd? depth after
      | none => none
    else if beginsWith "<!--".toList (c :: rest) then
      match _h : cutAt? "-->".toList (c :: rest) with
      | some (_, after) => doctypeEnd? depth after
      | none => none
    else if beginsWith "<?".toList (c :: rest) then
      match _h : cutAt? "?>".toList (c :: rest) with
      | some (_, after) => doctypeEnd? depth after
      | none => none
    else if beginsWith "<![".toList (c :: rest) then
      match _h : afterSections? 1 (rest.drop 2) with
      | some after => doctypeEnd? depth after
      | none => none
    else if c = '<' then
      doctypeEnd? (depth + 1) rest
    else if c = '>' then
      if depth = 0 then some (c :: rest) else doctypeEnd? (depth - 1) rest
    else
      doctypeEnd? depth rest
termination_by cs.length
decreasing_by
  · have := length_of_cutAt? _h; simp; omega
  · have := length_of_cutAt? _h; simp at this ⊢; omega
  · have := length_of_cutAt? _h; simp at this ⊢; omega
  · have := length_of_afterSections? _h; simp at this ⊢; omega
  · simp
  · simp
  · simp

end XmlTree
