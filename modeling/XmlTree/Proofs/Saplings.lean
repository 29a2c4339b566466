/-
  Proofs/Saplings.lean --- a tree that is being built, as a value.

  WHAT THIS FILE IS FOR.  What the events of a text make of a tree can be said without handles,
  slots and lists that are linked: there is the innermost open element with what is in it so far,
  and there are the elements around it.  Here this value and its steps are defined for every set
  of switches, also for those under which character data is put into its element, or is joined
  to what stands before it.

  WHERE A STEP HAPPENS.  An event adds something behind what is there, or changes how the
  innermost open element or the last node in it reads.  Nothing else is looked at either, so
  what becomes of character data is told by that element and that node.
-/
import Mathlib.Data.List.ModifyLast
import XmlTree.Proofs.Planting

set_option autoImplicit false

namespace XmlTree

/-! ## Trees -/

/-- A node with another value. -/
def TreeLabel.withValue (value : Option String) (l : TreeLabel) : TreeLabel := { l with value }

/-- Character data with more behind it; nothing is left of a joined text without characters. -/
def TreeLabel.joined (more : String) (l : TreeLabel) : TreeLabel :=
  l.withValue (copiedText (some (l.valueText ++ more)))

/-- A node with one more attribute. -/
def TreeLabel.adorned (a : TreeAttribute) (l : TreeLabel) : TreeLabel :=
  { l with attributes := l.attributes ++ [a] }

namespace Tree

/-- A node with nothing below it. -/
def leaf (l : TreeLabel) : Tree := .node l []

/-- The tree with another one behind all that stand right below its top. -/
def addChild (t c : Tree) : Tree := .node t.label (t.children ++ [c])

/-- The tree with a change to the node at its top. -/
def relabel (f : TreeLabel → TreeLabel) (t : Tree) : Tree := .node (f t.label) t.children

/-- The tree with a change to the last of the nodes right below its top. -/
def relabelLast (f : TreeLabel → TreeLabel) (t : Tree) : Tree :=
  .node t.label (t.children.modifyLast (relabel f))

theorem relabelLast_of_childless {t : Tree} (h : t.children = []) (f : TreeLabel → TreeLabel) :
    t.relabelLast f = t := by
  obtain ⟨l, children⟩ := t
  obtain rfl : children = [] := h
  rfl

/-- Whether the node at the top is character data. -/
def isPcdata (t : Tree) : Bool := t.label.kind == .pcdata

/-- Whether the last of the nodes right below the top is character data. -/
def endsInPcdata (t : Tree) : Bool := t.children.getLast?.any isPcdata

theorem relabelLast_addChild (t c : Tree) (f : TreeLabel → TreeLabel) :
    (t.addChild c).relabelLast f = t.addChild (c.relabel f) := by
  rw [relabelLast, addChild, children, List.modifyLast_concat]
  rfl

mutual

/-- The nodes of a tree in document order. -/
def labels : Tree → List TreeLabel
  | .node l children => l :: allLabels children

/-- The nodes of trees side by side. -/
def allLabels : List Tree → List TreeLabel
  | [] => []
  | t :: ts => t.labels ++ allLabels ts

end

theorem allLabels_eq_flatMap (ts : List Tree) : allLabels ts = ts.flatMap labels := by
  induction ts with
  | nil => rfl
  | cons t ts ih => rw [allLabels, ih, List.flatMap_cons]

theorem labels_eq (t : Tree) : t.labels = t.label :: t.children.flatMap labels := by
  obtain ⟨l, children⟩ := t
  rw [labels, allLabels_eq_flatMap]
  rfl

theorem labels_addChild (t c : Tree) : (t.addChild c).labels = t.labels ++ c.labels := by
  rw [labels_eq, labels_eq t, addChild, label, children, List.flatMap_append,
    List.flatMap_singleton, List.cons_append]

end Tree

/-! ## Saplings -/

/-- A tree that is being built. -/
structure Sapling where
  /-- the innermost open element with what is in it so far -/
  tip : Tree
  /-- what is around it, the innermost first, each without what is still open in it -/
  outer : List Tree
  /-- whether attributes go to the last node in the tip, and not to the tip -/
  inLast : Bool
  deriving Repr, Inhabited

/-- What becomes of character data. -/
inductive TextFate where
  | dropped
  /-- the value of the element that it is in -/
  | embedded
  /-- a part of the value of the character data before it -/
  | joined
  /-- a node of its own -/
  | planted
  deriving DecidableEq, Repr, Inhabited

namespace Sapling

/-- The sapling that is a bare node. -/
def seed (l : TreeLabel) : Sapling := ⟨.leaf l, [], false⟩

/-- A node is added. -/
def plant (z : Sapling) (l : TreeLabel) : Sapling :=
  { z with tip := z.tip.addChild (.leaf l), inLast := false }

/-- A node is added that is open. -/
def enter (z : Sapling) (l : TreeLabel) : Sapling := ⟨.leaf l, z.tip :: z.outer, false⟩

/-- The innermost open element is closed. -/
def leave (z : Sapling) : Sapling :=
  match z.outer with
  | [] => { z with inLast := false }
  | t :: outer => ⟨t.addChild z.tip, outer, false⟩

/-- The node that was added last, or the innermost open element, gets an attribute. -/
def adorn (z : Sapling) (a : TreeAttribute) : Sapling :=
  let tip := if z.inLast then z.tip.relabelLast (.adorned a) else z.tip.relabel (.adorned a)
  { z with tip }

/-- Whether white space alone is kept as character data. -/
def keepsSpace (z : Sapling) (options : ParseOptions) (closing : Bool) : Bool :=
  options.intersects (.union .wsPcdata .wsPcdataSingle) && !options.contains .trimPcdata
    && (!options.contains .wsPcdataSingle || (closing && z.tip.children.isEmpty))

/-- Whether nothing is open. -/
def atTop (z : Sapling) : Bool := z.tip.label.kind == .document

/-- What becomes of character data. -/
def textFate (z : Sapling) (options : ParseOptions) (raw : List Char) (closing : Bool) :
    TextFate :=
  if raw.all isSpace && !z.keepsSpace options closing then .dropped
  else if z.atTop && !options.contains .fragment then .dropped
  else if options.contains .embedPcdata &&
      (!z.atTop && z.tip.children.isEmpty && z.tip.label.value.isNone) then .embedded
  else if options.contains .mergePcdata && z.tip.endsInPcdata then .joined
  else .planted

/-- Character data is dropped for one of two reasons. -/
theorem textFate_eq_dropped_iff {z : Sapling} {options : ParseOptions} {raw : List Char}
    {closing : Bool} :
    z.textFate options raw closing = .dropped ↔
      (raw.all isSpace && !z.keepsSpace options closing) = true ∨
        (z.atTop && !options.contains .fragment) = true := by
  unfold textFate
  split
  · rename_i hspace
    exact iff_of_true rfl (.inl hspace)
  · rename_i hspace
    split
    · rename_i htop
      exact iff_of_true rfl (.inr htop)
    · rename_i htop
      refine iff_of_false ?_ (not_or.2 ⟨hspace, htop⟩)
      split
      · exact TextFate.noConfusion
      · split <;> exact TextFate.noConfusion

/-- Character data goes to its element only if there is none yet and it is asked for. -/
theorem of_textFate_embedded {z : Sapling} {options : ParseOptions} {raw : List Char}
    {closing : Bool} (h : z.textFate options raw closing = .embedded) :
    options.contains .embedPcdata = true ∧ z.tip.children = [] ∧ z.tip.label.value = none := by
  unfold textFate at h
  split at h
  · cases h
  · split at h
    · cases h
    · split at h
      · rename_i hroom
        simp only [Bool.and_eq_true, List.isEmpty_iff, Option.isNone_iff_eq_none] at hroom
        exact ⟨hroom.1, hroom.2.1.2, hroom.2.2⟩
      · split at h <;> cases h

/-- Character data is joined only to character data and if it is asked for. -/
theorem of_textFate_joined {z : Sapling} {options : ParseOptions} {raw : List Char}
    {closing : Bool} (h : z.textFate options raw closing = .joined) :
    options.contains .mergePcdata = true ∧ z.tip.endsInPcdata = true := by
  unfold textFate at h
  split at h
  · cases h
  · split at h
    · cases h
    · split at h
      · cases h
      · split at h
        · rename_i hjoins
          exact Bool.and_eq_true_iff.1 hjoins
        · cases h

theorem textFate_ne_embedded {options : ParseOptions}
    (hembed : options.contains .embedPcdata = false) (z : Sapling) (raw : List Char)
    (closing : Bool) : z.textFate options raw closing ≠ .embedded := fun h =>
  Bool.noConfusion ((of_textFate_embedded h).1.symm.trans hembed)

theorem textFate_ne_joined {options : ParseOptions}
    (hmerge : options.contains .mergePcdata = false) (z : Sapling) (raw : List Char)
    (closing : Bool) : z.textFate options raw closing ≠ .joined := fun h =>
  Bool.noConfusion ((of_textFate_joined h).1.symm.trans hmerge)

/-- Character data is added. -/
def addText (options : ParseOptions) (source : String) (z : Sapling) (raw : Span)
    (closing : Bool) : Sapling :=
  let conversion := convertPcdata options raw.text
  let value := conversion.readIn source raw
  let tip := match z.textFate options raw.text closing with
    | .dropped => z.tip
    | .embedded => z.tip.relabel (.withValue value)
    | .joined => z.tip.relabelLast (.joined (String.ofList conversion.text))
    | .planted => z.tip.addChild (.leaf ⟨.pcdata, none, value, []⟩)
  { z with tip, inLast := false }

/-- The node that an event stands for is added. -/
def push (z : Sapling) (l : TreeLabel) : LoadEvent → Sapling
  | .openElement _ => z.enter l
  | .declaration _ => { z.plant l with inLast := true }
  | _ => z.plant l

/-- What an event says is added. -/
def add (options : ParseOptions) (source : String) (z : Sapling) : LoadEvent → Sapling
  | .text raw closing => z.addText options source raw closing
  | .closeElement => z.leave
  | .attribute name raw => z.adorn (name.attributeIn options source raw)
  | e => (e.nodeLabel? options source false).elim z fun l => z.push l e

/-- Markup that stands for a node adds it. -/
theorem add_markup {options : ParseOptions} {source : String} {e : LoadEvent} {l : TreeLabel}
    (hmarkup : ∀ raw closing, e ≠ .text raw closing)
    (hl : e.nodeLabel? options source false = some l) (z : Sapling) :
    z.add options source e = z.push l e := by
  cases e with
  | text raw closing => exact absurd rfl (hmarkup raw closing)
  | closeElement | «attribute» => cases hl
  | _ =>
    cases hl
    rfl

/-- What is reported of an event if a text would have to be kept for it that is too long. -/
def refusal? (options : ParseOptions) (z : Sapling) : LoadEvent → Option LoadFault
  | .text raw closing =>
    match z.textFate options raw.text closing with
    | .dropped => none
    | .embedded | .planted => (convertPcdata options raw.text).refusal? raw
    | .joined =>
      let before := z.tip.children.getLast?.elim "" fun t => t.label.valueText
      let joined := before ++ String.ofList (convertPcdata options raw.text).text
      if joined.utf8ByteSize < 2 ^ 32 then none else some (TreeBuilder.refusal raw)
  | e => e.refusal? options

theorem refusal?_of_markup {e : LoadEvent} (hmarkup : ∀ raw closing, e ≠ .text raw closing)
    (options : ParseOptions) (z : Sapling) : z.refusal? options e = e.refusal? options := by
  cases e with
  | text raw closing => exact absurd rfl (hmarkup raw closing)
  | _ => rfl

/-- The tree that is there when all that is open is taken to be closed. -/
def whole (z : Sapling) : Tree := z.outer.foldl (fun inner t => t.addChild inner) z.tip

end Sapling

/-- What is carried out of a text that is loaded, up to its end or up to a fault. -/
def Transcript.ofLoad (options : ParseOptions) (source : String) : Transcript :=
  (Transcript.ofText ⟨options, true⟩ source.toList).heeded (Sapling.add options source)
    (Sapling.refusal? options) (.seed Document.bareRoot)

/-- The tree that a text is read to, up to its end or up to a fault. -/
def Tree.ofLoad (options : ParseOptions) (source : String) : Tree :=
  ((Transcript.ofLoad options source).events.foldl (Sapling.add options source)
    (.seed Document.bareRoot)).whole

end XmlTree
