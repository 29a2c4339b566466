/-
  Proofs/Stability.lean --- what is saved, loaded and saved again.

  WHAT THIS FILE IS FOR.  A construct may be spelled in many ways, and a writer chooses one of
  them.  What is written for a tree is spelled in that way too, with two exceptions that the
  tree shows and the constructs do not.  An element that has only empty texts in it gets an
  end tag, and the white space in front of the text of an instruction is kept.  So the text
  is the same when it is saved again, exactly if there is neither.

  HOW IT IS SHOWN.  Joining character data does not change how constructs are spelled, and
  what is read of them is written as they are spelled.  Where one of the exceptions stands
  the spelling is shorter, and it is never longer.
-/
import XmlTree.Proofs.Reloading

set_option autoImplicit false

namespace XmlTree

variable {single atTop : Bool}

/-! ## The spelling of a construct -/

/-- The characters of an attribute. -/
def RawAttribute.spelling (single : Bool) (a : RawAttribute) : List Char :=
  ' ' :: (a.name.toList ++ '=' :: quoteChar single :: (a.raw ++ [quoteChar single]))

namespace Construct

/-- The characters of a construct without content of its own. -/
def leafSpelling (single : Bool) : Construct → List Char
  | run raw => raw
  | comment raw => "<!--".toList ++ (raw ++ "-->".toList)
  | cdata raw => spelled (sectionPieces raw)
  | pi target value =>
    "<?".toList ++ (target.toList ++ (value.elim [] (' ' :: ·) ++ "?>".toList))
  | declaration target as =>
    "<?".toList ++ (target.toList ++ (as.flatMap (RawAttribute.spelling single) ++ "?>".toList))
  | element .. => []

mutual

/-- The characters of a construct, spelled as a writer does. -/
def spelling (single : Bool) : Construct → List Char
  | element name as content =>
    let rest :=
      if content.isEmpty then "/>".toList
      else '>' :: (allSpelling single content ++ ("</".toList ++ (name.toList ++ ['>'])))
    '<' :: (name.toList ++ (as.flatMap (RawAttribute.spelling single) ++ rest))
  | item => item.leafSpelling single

/-- The characters of constructs one after the other. -/
def allSpelling (single : Bool) : List Construct → List Char
  | [] => []
  | item :: items => item.spelling single ++ allSpelling single items

end

theorem allSpelling_append (items more : List Construct) :
    allSpelling single (items ++ more) = allSpelling single items ++ allSpelling single more := by
  induction items with
  | nil => rfl
  | cons item items ih =>
    rw [List.cons_append, allSpelling, ih, allSpelling, List.append_assoc]

theorem allSpelling_singleton (item : Construct) :
    allSpelling single [item] = item.spelling single := List.append_nil _

/-- Runs that are joined are spelled as they were. -/
theorem allSpelling_prepend (item : Construct) (items : List Construct) :
    allSpelling single (prepend item items) = item.spelling single ++ allSpelling single items := by
  obtain ⟨raw, more, rest, rfl, rfl, heq⟩ | ⟨heq, -⟩ := prepend_cases item items
  · rw [heq, allSpelling, allSpelling]
    exact List.append_assoc raw more _
  · rw [heq, allSpelling]

theorem isEmpty_allJoined (items : List Construct) :
    (allJoined items).isEmpty = items.isEmpty := by
  cases items with
  | nil => rfl
  | cons item items =>
    rw [allJoined]
    obtain ⟨_, _, _, -, -, heq⟩ | ⟨heq, -⟩ := prepend_cases item.joined (allJoined items)
    · rw [heq]
      rfl
    · rw [heq]
      rfl

mutual

theorem spelling_joined (item : Construct) :
    item.joined.spelling single = item.spelling single := by
  match item with
  | element name as content =>
    rw [joined, spelling, spelling, isEmpty_allJoined, allSpelling_allJoined content]
  | run _ | comment _ | cdata _ | pi .. | declaration .. => rfl

theorem allSpelling_allJoined (items : List Construct) :
    allSpelling single (allJoined items) = allSpelling single items := by
  match items with
  | [] => rfl
  | item :: items =>
    rw [allJoined, allSpelling_prepend, spelling_joined item, allSpelling_allJoined items,
      allSpelling]

end

/-! ## Constructs as they are written -/

/-- A construct that may have been written for a tree whose values hold no carriage return. -/
inductive WrittenOut (single : Bool) : (atTop : Bool) → Construct → Prop where
  | run {cs : List Char} (clean : '\r' ∉ cs) :
      WrittenOut single false (.run (escaped (exactStyle single) .pcdata cs))
  | element {atTop : Bool} {name : String} {as : List RawAttribute} {content : List Construct}
      (attributes : ∀ a ∈ as, ∃ cs, a.raw = escaped (exactStyle single) .attribute cs)
      (below : ∀ item ∈ content, WrittenOut single false item) :
      WrittenOut single atTop (.element name as content)
  | comment {atTop : Bool} {raw : List Char} (clean : '\r' ∉ raw)
      (hyphens : ¬ "--".toList <:+: raw) (ends : raw.getLast? ≠ some '-') :
      WrittenOut single atTop (.comment raw)
  | cdata {atTop : Bool} {raw : List Char} (clean : '\r' ∉ raw)
      (markless : ¬ "]]>".toList <:+: raw) : WrittenOut single atTop (.cdata raw)
  | pi {atTop : Bool} {target : String} {value : Option (List Char)}
      (markless : ∀ cs ∈ value, ¬ "?>".toList <:+: cs) : WrittenOut single atTop (.pi target value)
  | declaration {atTop : Bool} {target : String} {as : List RawAttribute}
      (attributes : ∀ a ∈ as, ∃ cs, a.raw = escaped (exactStyle single) .attribute cs) :
      WrittenOut single atTop (.declaration target as)

/-- Runs that are joined may have been written as one. -/
theorem WrittenOut.prepend {item : Construct} {items : List Construct}
    (hitem : item.WrittenOut single atTop) (hitems : ∀ c ∈ items, c.WrittenOut single atTop) :
    ∀ c ∈ item.prepend items, c.WrittenOut single atTop := by
  obtain ⟨raw, more, rest, rfl, rfl, heq⟩ | ⟨heq, -⟩ := prepend_cases item items
  · obtain ⟨hmore, hrest⟩ := List.forall_mem_cons.1 hitems
    rw [heq]
    refine List.forall_mem_cons.2 ⟨?_, hrest⟩
    cases hitem with
    | run hclean =>
      cases hmore with
      | run hclean' =>
        rw [escaped, escaped, ← List.flatMap_append]
        exact .run (by simp [hclean, hclean'])
  · rw [heq]
    exact List.forall_mem_cons.2 ⟨hitem, hitems⟩

theorem writtenOut_allJoined {items : List Construct}
    (h : ∀ item ∈ items, item.joined.WrittenOut single atTop) :
    ∀ item ∈ allJoined items, item.WrittenOut single atTop := by
  induction items with
  | nil => exact List.forall_mem_nil _
  | cons item items ih =>
    obtain ⟨hitem, hrest⟩ := List.forall_mem_cons.1 h
    exact hitem.prepend (ih hrest)

theorem WrittenOut.joined {item : Construct} (h : item.WrittenOut single atTop) :
    item.joined.WrittenOut single atTop := by
  induction h with
  | run hclean => exact .run hclean
  | element has _ ih => exact .element has (writtenOut_allJoined ih)
  | comment hclean hhyphens hends => exact .comment hclean hhyphens hends
  | cdata hclean hmark => exact .cdata hclean hmark
  | pi hmark => exact .pi hmark
  | declaration has => exact .declaration has

/-! ## What is read of them is written as they are spelled -/

/-- Attributes that were escaped are read, and written as they were. -/
theorem spelling_tree {as : List RawAttribute}
    (h : ∀ a ∈ as, ∃ cs, a.raw = escaped (exactStyle single) .attribute cs) :
    (as.map (RawAttribute.tree .everything)).flatMap (TreeAttribute.spelling single) =
      as.flatMap (RawAttribute.spelling single) := by
  obtain ⟨-, -, -, hskip, -⟩ := has_exactStyle single
  rw [List.flatMap_map, List.flatMap_def, List.flatMap_def]
  refine congrArg List.flatten (List.map_congr_left fun a ha => ?_)
  obtain ⟨cs, hraw⟩ := h a ha
  have hread : (convertAttribute .everything a.raw).text = cs := by
    rw [hraw]
    exact (convertAttribute_escaped (by decide) (by decide) hskip _).2
  have hvalue : (a.tree .everything).valueText.toList = cs := by
    rw [TreeAttribute.valueText, RawAttribute.tree, hread]
    exact String.toList_ofList
  rw [TreeAttribute.spelling, hvalue, ← hraw]
  rfl

/-- Constructs in an element become nothing only if there are none. -/
theorem isEmpty_allTrees (items : List Construct) :
    (allTrees .everything false items).isEmpty = items.isEmpty := by
  cases items with
  | nil => rfl
  | cons item items =>
    obtain ⟨t, htree, -⟩ := exists_trees_everything item
    rw [allTrees, htree]
    rfl

theorem allWritten_allTrees {items : List Construct}
    (h : ∀ item ∈ items, Tree.allWritten single (item.trees .everything atTop) =
      item.spelling single) :
    Tree.allWritten single (allTrees .everything atTop items) = allSpelling single items := by
  induction items with
  | nil => rfl
  | cons item items ih =>
    obtain ⟨hitem, hrest⟩ := List.forall_mem_cons.1 h
    rw [allTrees, Tree.allWritten_append, hitem, ih hrest, allSpelling]

theorem WrittenOut.written_trees {item : Construct} (h : item.WrittenOut single atTop) :
    Tree.allWritten single (item.trees .everything atTop) = item.spelling single := by
  obtain ⟨-, -, -, hskip, -⟩ := has_exactStyle single
  have hleaf : ∀ {l : TreeLabel}, l.kind.isLeaf = true →
      Tree.allWritten single [.node l []] = l.written single := fun hl => by
    rw [Tree.allWritten, Tree.allWritten, Tree.written_leaf hl, List.append_nil]
  induction h with
  | @run cs hclean =>
    have htext :
        (convertPcdata .everything (escaped (exactStyle single) .pcdata cs)).text = cs := by
      rw [text_convertPcdata_escaped (by decide) (by decide) (by decide) hskip,
        unifyLineEnds_of_not_mem hclean]
    rw [trees, keepsRun_everything, Bool.not_false, if_pos rfl, hleaf rfl, TreeLabel.ofText, htext]
    simp [TreeLabel.written, TreeLabel.valueText, spelling, leafSpelling]
  | @element _ name as content has _ ih =>
    have hbelow := allWritten_allTrees ih
    rw [trees, Tree.allWritten, Tree.allWritten, List.append_nil, Tree.written, spelling]
    simp only [hbelow, isEmpty_allTrees, spelling_tree has, TreeLabel.nameText, Option.getD_some]
  | @comment _ raw hclean hhyphens hends =>
    rw [trees, hleaf rfl, TreeLabel.written]
    simp only [TreeLabel.kind_ofText, TreeLabel.valueText_ofText,
      unifyLineEnds_of_not_mem hclean, spacedHyphens_eq hhyphens hends]
    rfl
  | @cdata _ raw hclean hmark =>
    rw [trees, hleaf rfl, TreeLabel.written]
    simp only [TreeLabel.kind_ofText, TreeLabel.valueText_ofText,
      unifyLineEnds_of_not_mem hclean, cdataSections_of_markless hmark]
    rw [List.flatMap_singleton]
    rfl
  | @pi _ target value hmark =>
    rw [trees, hleaf rfl, TreeLabel.written]
    cases value with
    | none => rfl
    | some cs =>
      simp [TreeLabel.nameText, TreeLabel.valueText, spelling, leafSpelling,
        partedMarks_of_markless (hmark cs rfl)]
  | declaration has =>
    rw [trees, hleaf rfl, TreeLabel.written]
    simp only [spelling_tree has]
    rfl

end Construct

/-! ## What is written for trees -/

/-- A node whose text holds no carriage return, if it is character data, a section or a
comment. -/
def TreeLabel.ReturnFree (l : TreeLabel) : Prop :=
  l.kind ∈ [NodeKind.pcdata, .cdata, .comment] → '\r' ∉ l.valueText.toList

instance : DecidablePred TreeLabel.ReturnFree := fun _ => inferInstanceAs (Decidable (_ → _))

theorem writtenOut_attributes (as : List TreeAttribute) :
    ∀ a ∈ as.map (TreeAttribute.raw single),
      ∃ cs, a.raw = escaped (exactStyle single) .attribute cs :=
  List.forall_mem_map.2 fun _ _ => ⟨_, rfl⟩

/-- A node without children is written as constructs of the form that is asked for. -/
theorem TreeLabel.ReturnFree.writtenOut_items {l : TreeLabel} (h : l.ReturnFree)
    (hkind : l.kind.isLeaf = true) (htop : atTop = true → l.kind ≠ .pcdata)
    (children : List Tree) :
    ∀ item ∈ (Tree.node l children).items single, item.WrittenOut single atTop := by
  rw [Tree.items]
  cases hl : l.kind with
  | null | document | element | doctype =>
    rw [hl] at hkind
    cases hkind
  | pcdata =>
    have hclean := h (by simp [hl])
    obtain rfl : atTop = false := Bool.eq_false_iff.2 fun hatTop => htop hatTop hl
    simp only [Construct.ofRun]
    split
    · exact List.forall_mem_nil _
    · exact List.forall_mem_singleton.2 (.run hclean)
  | cdata =>
    have hclean := h (by simp [hl])
    refine List.forall_mem_map.2 fun part hpart => .cdata (fun hmem => hclean ?_)
      (not_infix_of_mem_cdataSections hpart)
    rw [← flatten_cdataSections l.valueText.toList]
    exact List.mem_flatten_of_mem hpart hmem
  | comment =>
    have hclean := h (by simp [hl])
    refine List.forall_mem_singleton.2 (.comment (fun hmem => ?_) (not_infix_spacedHyphens _)
      (getLast?_spacedHyphens _))
    obtain hspace | hmem := mem_spacedHyphens hmem
    · exact absurd hspace (by decide)
    · exact hclean hmem
  | pi =>
    refine List.forall_mem_singleton.2 (.pi fun cs hcs => ?_)
    obtain ⟨_, -, rfl⟩ := Option.map_eq_some_iff.1 hcs
    exact not_infix_dropSpace_partedMarks _
  | declaration =>
    exact List.forall_mem_singleton.2 (.declaration (writtenOut_attributes _))

mutual

/-- A tree is written as constructs of the form that is asked for. -/
theorem Tree.Sayable.writtenOut_items {atTop : Bool} (t : Tree) (h : t.Sayable atTop)
    (hclean : t.All TreeLabel.ReturnFree) (htop : atTop = true → ¬ t.IsPcdata) :
    ∀ item ∈ t.items single, item.WrittenOut single atTop := by
  match t with
  | .node l children =>
    obtain ⟨hlabel, hbelow⟩ := hclean
    obtain hl | ⟨hleaf, -⟩ := h.kind_cases
    · rw [Tree.items]
      simp only [hl]
      exact List.forall_mem_singleton.2 (.element (writtenOut_attributes _)
        (Tree.Sayable.writtenOut_allItems children (h.below hl) hbelow nofun))
    · exact hlabel.writtenOut_items hleaf htop children

theorem Tree.Sayable.writtenOut_allItems {atTop : Bool} (ts : List Tree)
    (h : ∀ t ∈ ts, t.Sayable atTop) (hclean : ∀ t ∈ ts, t.All TreeLabel.ReturnFree)
    (htop : atTop = true → ∀ t ∈ ts, ¬ t.IsPcdata) :
    ∀ item ∈ Tree.allItems single ts, item.WrittenOut single atTop := by
  match ts with
  | [] => exact List.forall_mem_nil _
  | t :: ts =>
    obtain ⟨ht, hrest⟩ := List.forall_mem_cons.1 h
    obtain ⟨hclean, hclean'⟩ := List.forall_mem_cons.1 hclean
    refine List.forall_mem_append.2 ⟨?_, ?_⟩
    · exact Tree.Sayable.writtenOut_items t ht hclean fun hatTop => htop hatTop t List.mem_cons_self
    · exact Tree.Sayable.writtenOut_allItems ts hrest hclean' fun hatTop u hu =>
        htop hatTop u (List.mem_cons_of_mem _ hu)

end

/-- What is read of what is written for trees is written as the constructs are spelled. -/
theorem Tree.Sayable.allWritten_again {ts : List Tree} (h : ∀ t ∈ ts, t.Sayable atTop)
    (hclean : ∀ t ∈ ts, t.All TreeLabel.ReturnFree)
    (htop : atTop = true → ∀ t ∈ ts, ¬ t.IsPcdata) :
    Tree.allWritten single (Construct.allTrees .everything atTop
      (Construct.allJoined (Tree.allItems single ts))) =
        Construct.allSpelling single (Tree.allItems single ts) := by
  have hout : ∀ item ∈ Tree.allItems single ts, item.WrittenOut single atTop :=
    Tree.Sayable.writtenOut_allItems ts h hclean htop
  have hjoined := Construct.writtenOut_allJoined fun item hitem => (hout item hitem).joined
  rw [Construct.allWritten_allTrees fun item hitem => (hjoined item hitem).written_trees,
    Construct.allSpelling_allJoined]

/-! ## Steady trees -/

/-- Character data that has no characters. -/
def Tree.IsEmptyText (t : Tree) : Prop := t.IsPcdata ∧ t.label.valueText.toList = []

/-- A node whose text does not begin with white space, if it is an instruction. -/
def TreeLabel.Steady (l : TreeLabel) : Prop :=
  l.kind = .pi → l.valueText.toList.head?.all (fun c => !isSpace c) = true

/-- A tree whose nodes are steady, where not all of the children of a node are empty texts. -/
inductive Tree.Steady : Tree → Prop where
  | node {label : TreeLabel} {children : List Tree} (label_steady : label.Steady)
      (filled : children ≠ [] → ∃ t ∈ children, ¬ t.IsEmptyText)
      (below : ∀ t ∈ children, Steady t) : Steady (.node label children)

theorem Tree.steady_node {label : TreeLabel} {children : List Tree} :
    (Tree.node label children).Steady ↔ label.Steady ∧
      (children ≠ [] → ∃ t ∈ children, ¬ t.IsEmptyText) ∧ ∀ t ∈ children, t.Steady := by
  constructor
  · rintro ⟨hlabel, hfilled, hbelow⟩
    exact ⟨hlabel, hfilled, hbelow⟩
  · rintro ⟨hlabel, hfilled, hbelow⟩
    exact ⟨hlabel, hfilled, hbelow⟩

/-- The first text is the second one if something holds, and shorter otherwise. -/
def SameOrShorter (p : Prop) (cs ds : List Char) : Prop :=
  p ∧ cs = ds ∨ ¬ p ∧ cs.length < ds.length

namespace SameOrShorter

variable {p q : Prop} {as bs cs ds : List Char}

theorem of_eq (hp : p) (h : cs = ds) : SameOrShorter p cs ds := .inl ⟨hp, h⟩

theorem eq_iff (h : SameOrShorter p cs ds) : cs = ds ↔ p := by
  obtain ⟨hp, rfl⟩ | ⟨hp, hshorter⟩ := h
  · exact iff_of_true rfl hp
  · exact iff_of_false (fun heq => absurd hshorter (by rw [heq]; exact Nat.lt_irrefl _)) hp

theorem length_le (h : SameOrShorter p cs ds) : cs.length ≤ ds.length := by
  obtain ⟨-, rfl⟩ | ⟨-, hshorter⟩ := h
  · exact Nat.le_refl _
  · exact Nat.le_of_lt hshorter

theorem append (h : SameOrShorter p as bs) (h' : SameOrShorter q cs ds) :
    SameOrShorter (p ∧ q) (as ++ cs) (bs ++ ds) := by
  have hle := h.length_le
  have hle' := h'.length_le
  obtain ⟨hp, rfl⟩ | ⟨hp, hshorter⟩ := h
  · obtain ⟨hq, rfl⟩ | ⟨hq, hshorter⟩ := h'
    · exact .inl ⟨⟨hp, hq⟩, rfl⟩
    · exact .inr ⟨fun hboth => hq hboth.2, by simpa using hshorter⟩
  · refine .inr ⟨fun hboth => hp hboth.1, ?_⟩
    rw [List.length_append, List.length_append]
    omega

/-- What stands before and after makes no difference. -/
theorem between (h : SameOrShorter p cs ds) (before after : List Char) :
    SameOrShorter p (before ++ (cs ++ after)) (before ++ (ds ++ after)) := by
  obtain ⟨hp, rfl⟩ | ⟨hp, hshorter⟩ := h
  · exact .inl ⟨hp, rfl⟩
  · exact .inr ⟨hp, by simpa using hshorter⟩

theorem congr (h : SameOrShorter p cs ds) (hpq : p ↔ q) : SameOrShorter q cs ds := by
  rwa [← propext hpq]

end SameOrShorter

theorem Construct.allSpelling_ofRun (raw : List Char) :
    allSpelling single (ofRun raw) = raw := by
  rw [ofRun]
  split
  · rename_i hempty
    exact (List.isEmpty_iff.1 hempty).symm
  · exact allSpelling_singleton _

theorem Construct.allSpelling_sections (parts : List (List Char)) :
    allSpelling single (parts.map .cdata) = spelled (parts.flatMap sectionPieces) := by
  induction parts with
  | nil => rfl
  | cons part parts ih =>
    rw [List.map_cons, allSpelling, ih, List.flatMap_cons, spelled_append]
    rfl

theorem spelling_raw (as : List TreeAttribute) :
    (as.map (TreeAttribute.raw single)).flatMap (RawAttribute.spelling single) =
      as.flatMap (TreeAttribute.spelling single) := List.flatMap_map ..

/-- White space in front is all that is dropped. -/
theorem sameOrShorter_dropSpace (cs : List Char) :
    SameOrShorter (cs.head?.all (fun c => !isSpace c) = true) (dropSpace cs) cs := by
  by_cases h : cs.head?.all (fun c => !isSpace c) = true
  · exact .of_eq h (dropSpace_eq_self h)
  · refine .inr ⟨h, ?_⟩
    cases cs with
    | nil => exact absurd rfl h
    | cons c cs =>
      have hspace : isSpace c = true := by simpa using h
      rw [dropSpace, List.dropWhile_cons_of_pos hspace]
      exact Nat.lt_succ_of_le (List.dropWhile_suffix isSpace).length_le

/-- The constructs of a node without children are spelled as the node is written, or shorter if
it is not steady. -/
theorem TreeLabel.sameOrShorter_written {l : TreeLabel} (hkind : l.kind.isLeaf = true)
    (children : List Tree) :
    SameOrShorter l.Steady (Construct.allSpelling single ((Tree.node l children).items single))
      (l.written single) := by
  have hsteady : l.kind ≠ .pi → l.Steady := fun hnot hpi => absurd hpi hnot
  rw [Tree.items, TreeLabel.written]
  cases hl : l.kind with
  | null | document | element | doctype =>
    rw [hl] at hkind
    cases hkind
  | pcdata => exact .of_eq (hsteady (by simp [hl])) (Construct.allSpelling_ofRun _)
  | cdata => exact .of_eq (hsteady (by simp [hl])) (Construct.allSpelling_sections _)
  | comment => exact .of_eq (hsteady (by simp [hl])) (Construct.allSpelling_singleton _)
  | declaration =>
    refine .of_eq (hsteady (by simp [hl])) ((Construct.allSpelling_singleton _).trans ?_)
    rw [← spelling_raw]
    rfl
  | pi =>
    have hhead : (partedMarks l.valueText.toList).head?.all (fun c => !isSpace c) = true ↔
        l.Steady := by
      rw [Steady, hl, head?_partedMarks]
      exact ⟨fun h _ => h, fun h => h rfl⟩
    rw [Construct.allSpelling_singleton]
    cases hv : l.value with
    | none =>
      have hempty : l.valueText.toList = [] := by rw [TreeLabel.valueText, hv]; rfl
      rw [hempty] at hhead
      exact .of_eq (hhead.1 rfl) rfl
    | some value =>
      have htext := (sameOrShorter_dropSpace (partedMarks l.valueText.toList)).congr hhead
      have hwhole := htext.between ("<?".toList ++ (l.nameText.toList ++ [' '])) "?>".toList
      simpa [Construct.spelling, Construct.leafSpelling] using hwhole

/-- What may stand in an element is written as nothing if it is an empty text. -/
theorem Tree.Sayable.items_eq_nil_iff {t : Tree} (h : t.Sayable atTop) :
    t.items single = [] ↔ t.IsEmptyText := by
  obtain ⟨-, -, -, hskip, -⟩ := has_exactStyle single
  by_cases htext : t.IsPcdata
  · obtain ⟨l, children⟩ := t
    have hl : l.kind = .pcdata := htext
    rw [Tree.items, Tree.IsEmptyText]
    simp only [hl, Construct.ofRun, htext, true_and, Tree.label]
    cases hvalue : l.valueText.toList with
    | nil => simp [escaped]
    | cons c cs =>
      have hsome := escaped_ne_nil hskip .pcdata (List.cons_ne_nil c cs)
      simp [hsome]
  · exact iff_of_false (h.items_apart htext).1 fun hempty => htext hempty.1

theorem Tree.Sayable.allItems_eq_nil_iff {ts : List Tree} (h : ∀ t ∈ ts, t.Sayable atTop) :
    Tree.allItems single ts = [] ↔ ∀ t ∈ ts, t.IsEmptyText := by
  induction ts with
  | nil => exact iff_of_true rfl (List.forall_mem_nil _)
  | cons t ts ih =>
    obtain ⟨ht, hrest⟩ := List.forall_mem_cons.1 h
    rw [Tree.allItems, List.append_eq_nil_iff, ht.items_eq_nil_iff, ih hrest, List.forall_mem_cons]

/-- An element is spelled as it is written if its content is, and if it does not have only empty
texts in it. -/
theorem Tree.sameOrShorter_element {l : TreeLabel} {children : List Tree} (hl : l.kind = .element)
    (hsayable : ∀ t ∈ children, t.Sayable false)
    (hinside : SameOrShorter (∀ t ∈ children, t.Steady)
      (Construct.allSpelling single (Tree.allItems single children))
      (Tree.allWritten single children)) :
    SameOrShorter (Tree.node l children).Steady
      (Construct.allSpelling single ((Tree.node l children).items single))
      ((Tree.node l children).written single) := by
  have hlabel : l.Steady := fun hpi => by
    rw [hl] at hpi
    cases hpi
  have hnone : Tree.allItems single children = [] ↔ ∀ t ∈ children, t.IsEmptyText :=
    Tree.Sayable.allItems_eq_nil_iff hsayable
  let front := '<' :: (l.nameText.toList ++ l.attributes.flatMap (TreeAttribute.spelling single))
  rw [Tree.items, Tree.written]
  simp only [hl, Construct.allSpelling_singleton, Construct.spelling, spelling_raw]
  cases children with
  | nil => exact .of_eq (.node hlabel (fun hne => absurd rfl hne) (List.forall_mem_nil _)) rfl
  | cons t ts =>
    by_cases hempty : ∀ u ∈ t :: ts, u.IsEmptyText
    · refine .inr ⟨?_, ?_⟩
      · rintro ⟨-, hfilled, -⟩
        obtain ⟨u, hu, hnot⟩ := hfilled (List.cons_ne_nil t ts)
        exact hnot (hempty u hu)
      · rw [hnone.2 hempty]
        simp
        omega
    · have hsome : (Tree.allItems single (t :: ts)).isEmpty = false := by
        rw [← Bool.not_eq_true, List.isEmpty_iff, hnone]
        exact hempty
      have hfilled : ∃ u ∈ t :: ts, ¬ u.IsEmptyText := by
        obtain ⟨u, hu⟩ := not_forall.1 hempty
        exact ⟨u, Classical.not_imp.1 hu⟩
      have hsteady : (∀ u ∈ t :: ts, u.Steady) ↔ (Tree.node l (t :: ts)).Steady := by
        rw [Tree.steady_node]
        exact ⟨fun hall => ⟨hlabel, fun _ => hfilled, hall⟩, fun hall => hall.2.2⟩
      have hwhole := (hinside.congr hsteady).between (front ++ ['>'])
        ("</".toList ++ (l.nameText.toList ++ ['>']))
      simpa [hsome, front] using hwhole

mutual

/-- The constructs of a tree are spelled as the tree is written, or shorter if it is not
steady. -/
theorem Tree.Sayable.sameOrShorter {atTop : Bool} (t : Tree) (h : t.Sayable atTop) :
    SameOrShorter t.Steady (Construct.allSpelling single (t.items single))
      (t.written single) := by
  match t with
  | .node l children =>
    obtain hl | ⟨hleaf, -⟩ := h.kind_cases
    · exact Tree.sameOrShorter_element hl (h.below hl)
        (Tree.Sayable.allSameOrShorter children (h.below hl))
    · obtain rfl := h.lawful.children_eq_nil (NodeKind.hasChildren_of_isLeaf hleaf)
      rw [Tree.written_leaf hleaf]
      refine (TreeLabel.sameOrShorter_written hleaf []).congr ?_
      rw [Tree.steady_node]
      exact ⟨fun hl => ⟨hl, fun hne => absurd rfl hne, List.forall_mem_nil _⟩, fun hl => hl.1⟩

/-- The constructs of trees side by side are spelled as the trees are written, or shorter if
not all are steady. -/
theorem Tree.Sayable.allSameOrShorter {atTop : Bool} (ts : List Tree)
    (h : ∀ t ∈ ts, t.Sayable atTop) :
    SameOrShorter (∀ t ∈ ts, t.Steady)
      (Construct.allSpelling single (Tree.allItems single ts)) (Tree.allWritten single ts) := by
  match ts with
  | [] => exact .of_eq (List.forall_mem_nil _) rfl
  | t :: ts =>
    obtain ⟨ht, hrest⟩ := List.forall_mem_cons.1 h
    rw [Tree.allItems, Construct.allSpelling_append, Tree.allWritten]
    refine ((Tree.Sayable.sameOrShorter t ht).append
      (Tree.Sayable.allSameOrShorter ts hrest)).congr ?_
    exact List.forall_mem_cons.symm

end

namespace Document

variable {doc : Document}

/-! ## Documents -/

/-- No tree at the top is character data if no node there is. -/
theorem Whole.not_isPcdata_children (h : Whole doc)
    (htop : ∀ c ∈ doc.children doc.root, doc.kind c ≠ .pcdata) :
    ∀ t ∈ (doc.children doc.root).map doc.tree, ¬ t.IsPcdata := by
  obtain ⟨lay, hrooted⟩ := h
  refine List.forall_mem_map.2 fun c hc htext => htop c hc ?_
  rw [← hrooted.toLaidOut.kind_tree hc]
  exact htext

/-- The text that is written for trees is loaded, and saved as their constructs are spelled. -/
theorem saveString_of_sayable {ts : List Tree} (hsayable : ∀ t ∈ ts, t.Sayable true)
    (hclean : ∀ t ∈ ts, t.All TreeLabel.ReturnFree) (htexts : ∀ t ∈ ts, ¬ t.IsPcdata)
    (helement : ∃ t ∈ ts, t.label.kind = .element) {saved : String}
    (hsaved : saved = String.ofList (Tree.allWritten single ts))
    (hsize : saved.utf8ByteSize < 2 ^ 32) (into : Document) :
    let loaded := into.loadString saved .everything
    loaded.1.status = .ok ∧ loaded.2.saveString "" (.exact single) =
      String.ofList (Construct.allSpelling single (Tree.allItems single ts)) := by
  have hmarkup : ParseOptions.everything.KeepsMarkup := by decide
  have hspelled : (Manuscript.last (Tree.allItems single ts)).SpelledBy true saved.toList := by
    rw [hsaved, String.toList_ofList]
    exact .last (Tree.Sayable.allContent ts hsayable)
  obtain ⟨hstatus, -, htree⟩ := loadString_of_manuscript hmarkup (by decide) hsize into hspelled
  refine ⟨hstatus.2 (ParseOptions.accepts_of_element
    (Tree.Sayable.exists_element_again hsayable helement single)), ?_⟩
  rw [saveString_of_manuscript hspelled htree single, Manuscript.trees,
    Tree.Sayable.allWritten_again hsayable hclean fun _ => htexts]

/-- What edits have built is saved, loaded and saved again as the same text exactly if its tree
is steady.  Its values are any texts, without carriage returns where they are line ends. -/
theorem Built.saveString_loadString (h : Built doc)
    (hnamed : (doc.tree doc.root).All TreeLabel.Named)
    (hclean : (doc.tree doc.root).All TreeLabel.ReturnFree)
    (htop : ∀ c ∈ doc.children doc.root, doc.kind c ≠ .pcdata)
    (helement : ∃ c ∈ doc.children doc.root, doc.kind c = .element) (single : Bool)
    (hsize : (doc.saveString "" (.exact single)).utf8ByteSize < 2 ^ 32) (into : Document) :
    let saved := doc.saveString "" (.exact single)
    let loaded := into.loadString saved .everything
    loaded.1.status = .ok ∧
      (loaded.2.saveString "" (.exact single) = saved ↔ (doc.tree doc.root).Steady) := by
  have hunadorned := h.tidy.unadorned_tree doc.root
  have hwhole := h.reachable.whole
  obtain ⟨hsayable, hwritten⟩ := hwhole.saveString_eq_written hnamed hunadorned single
  have hsome := hwhole.exists_element_tree hunadorned helement
  have htexts := hwhole.not_isPcdata_children htop
  rw [hwhole.tree_root_eq hunadorned] at hclean hsayable hwritten hsome ⊢
  generalize (doc.children doc.root).map doc.tree = ts at hclean hsayable hwritten hsome htexts ⊢
  rw [Tree.children] at hsayable hwritten hsome
  obtain ⟨-, hclean⟩ := hclean
  obtain ⟨hok, hagain⟩ := saveString_of_sayable hsayable hclean htexts hsome hwritten hsize into
  have hsame : SameOrShorter (∀ t ∈ ts, t.Steady)
      (Construct.allSpelling single (Tree.allItems single ts)) (Tree.allWritten single ts) :=
    Tree.Sayable.allSameOrShorter ts hsayable
  -- the element at the top is no empty text
  have hsteady : (Tree.node bareRoot ts).Steady ↔ ∀ t ∈ ts, t.Steady := by
    obtain ⟨t, ht, -⟩ := hsome
    have hfilled : ∃ t ∈ ts, ¬ t.IsEmptyText := ⟨t, ht, fun hempty => htexts t ht hempty.1⟩
    have hlabel : bareRoot.Steady := fun hpi => by cases hpi
    rw [Tree.steady_node]
    exact ⟨fun hall => hall.2.2, fun hall => ⟨hlabel, fun _ => hfilled, hall⟩⟩
  refine ⟨hok, ?_⟩
  rw [hagain, hwritten, String.ofList_inj, hsame.eq_iff, hsteady]

/-- An element with only an empty text, an instruction with a space in front of its text, and one
without any text. -/
def restless : List Change :=
  [.insertElement ⟨⟨0, 1⟩⟩ "a" .last, .insertAttribute ⟨⟨1, 1⟩⟩ "k" "\r" .last,
    .insertElement ⟨⟨1, 1⟩⟩ "b" .last, .insertChild ⟨⟨2, 1⟩⟩ .pcdata .last,
    .insertChild ⟨⟨1, 1⟩⟩ .pi .last, .setName ⟨⟨4, 1⟩⟩ "go", .setValue ⟨⟨4, 1⟩⟩ " x",
    .insertChild ⟨⟨1, 1⟩⟩ .pi .last, .setName ⟨⟨5, 1⟩⟩ "to"]

theorem saveString_restless :
    let doc := new.applyAll restless
    let saved := doc.saveString "" (.exact false)
    let loaded := new.loadString saved .everything
    saved = "<a k=\"&#13;\"><b></b><?go  x?><?to?></a>" ∧ loaded.1.status = .ok ∧
      loaded.2.saveString "" (.exact false) = "<a k=\"&#13;\"><b/><?go x?><?to?></a>" ∧
      ¬ (doc.tree doc.root).Steady := by
  have hedits : ∀ c ∈ restless, c.isLoad = false ∧ c.source? = none := by decide +kernel
  obtain ⟨hok, hiff⟩ := (Built.new.applyAll hedits).saveString_loadString (by decide +kernel)
    (by decide +kernel) (by decide +kernel) (by decide +kernel) false (by decide +kernel) new
  exact ⟨by decide +kernel, hok, by decide +kernel, fun h => absurd (hiff.2 h) (by decide +kernel)⟩

end Document

end XmlTree
