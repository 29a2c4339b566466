/-
  Proofs/Reloading.lean --- what is loaded, saved and loaded again.

  WHAT THIS FILE IS FOR.  What was loaded can be told from its markup but for little: its
  names are names, no text holds the mark that would end it, and no two texts stand side by
  side.  So it is saved and loaded again node for node, document types included.

  WHAT IS LOST.  A reference may put a carriage return into character data.  It is written as
  it is, and is then a line end.  Character data comes back as it was exactly where it holds
  none.

  COMMENTS with hyphens that a writer keeps apart are left out.
-/
import XmlTree.Proofs.Acceptance
import XmlTree.Proofs.RoundTrip

set_option autoImplicit false

namespace XmlTree

variable {options : ParseOptions} {atTop single : Bool} {items : List Construct}
  {text : List Char}

/-! ## What is read of content may be written -/

theorem AttributesSpelledBy.named {as : List RawAttribute} {spelling : List Char}
    (h : AttributesSpelledBy as spelling) :
    ∀ a ∈ as.map (RawAttribute.tree options), IsName a.nameText := by
  induction h with
  | nil => exact List.forall_mem_nil _
  | cons _ _ ha _ ih =>
    cases ha with
    | mk hname => exact List.forall_mem_cons.2 ⟨hname, ih⟩

/-- The names in content are names. -/
theorem Content.spellable_trees (h : Content atTop items text) :
    ∀ t ∈ Construct.allTrees options atTop items, t.All TreeLabel.Spellable := by
  have hleaf : ∀ {l : TreeLabel}, l.Spellable → ∀ t ∈ [Tree.node l []],
      t.All TreeLabel.Spellable := fun hl =>
    List.forall_mem_singleton.2 (.node hl (List.forall_mem_nil _))
  induction h with
  | nil => exact List.forall_mem_nil _
  | leaf hitem _ ih =>
    refine List.forall_mem_append.2 ⟨?_, ih⟩
    cases hitem with
    | run =>
      rw [Construct.trees]
      split
      · exact hleaf trivial
      · exact List.forall_mem_nil _
    | empty hname has => exact hleaf ⟨hname, has.named⟩
    | comment | cdata => exact hleaf trivial
    | bare hname htarget => exact hleaf ⟨hname, htarget⟩
    | pi hname htarget => exact hleaf ⟨hname, htarget⟩
    | declaration _ hname hdeclares has => exact hleaf ⟨⟨hname, hdeclares⟩, has.named⟩
  | element hname has _ _ _ ihInner ihRest =>
    refine List.forall_mem_append.2 ⟨List.forall_mem_singleton.2 (.node ?_ ihInner), ihRest⟩
    exact ⟨hname, has.named⟩

/-- The trees of content may stand in content. -/
theorem Content.sayable_trees (h : Content atTop items text) :
    ∀ t ∈ Construct.allTrees options atTop items, t.Sayable atTop := by
  intro t ht
  obtain ⟨hlawful, hunadorned, hallowed⟩ := h.lawful_trees options t ht
  exact ⟨h.spellable_trees t ht, hunadorned, hlawful, hallowed⟩

/-! ## What is read of content is settled -/

/-- A comment without two hyphens side by side and without one at its end. -/
def TreeLabel.HyphensApart (l : TreeLabel) : Prop :=
  l.kind = .comment →
    ¬ "--".toList <:+: l.valueText.toList ∧ l.valueText.toList.getLast? ≠ some '-'

instance : DecidablePred TreeLabel.HyphensApart := fun _ => inferInstanceAs (Decidable (_ → _))

theorem TreeLabel.hyphensApart_exact (l : TreeLabel) : l.exact.HyphensApart ↔ l.HyphensApart := by
  rw [HyphensApart, HyphensApart, l.kind_exact, l.valueText_exact]

theorem decodeReferences_ne_nil {cs : List Char} (h : cs ≠ []) : decodeReferences cs ≠ [] := by
  cases cs with
  | nil => exact absurd rfl h
  | cons c cs =>
    rw [decodeReferences]
    split
    · split <;> exact List.cons_ne_nil _ _
    · exact List.cons_ne_nil _ _

/-- Some character data is never none. -/
theorem text_convertPcdata_ne_nil {raw : List Char} (h : raw ≠ []) :
    (convertPcdata .everything raw).text ≠ [] := by
  have hescapes : ParseOptions.everything.contains .escapes = true := by decide
  have heol : ParseOptions.everything.contains .eol = true := by decide
  have htrim : ParseOptions.everything.contains .trimPcdata = false := by decide
  simp only [convertPcdata, hescapes, heol, htrim, Bool.false_eq_true, if_false, if_true]
  split
  · refine decodeReferences_ne_nil fun hnil => h ?_
    rw [← List.isEmpty_iff, ← isEmpty_unifyLineEnds, hnil]
    rfl
  · exact h

namespace Construct

theorem not_isPcdata_of_top {t : Tree} (ht : t ∈ allTrees .everything true items) :
    ¬ t.IsPcdata := by
  intro htext
  have hfragment := fragment_of_isPcdata ht htext
  exact absurd hfragment (by decide)

/-- A construct in an element is one node, and character data if the construct is. -/
theorem exists_trees_everything (item : Construct) :
    ∃ t, item.trees .everything false = [t] ∧ (t.IsPcdata → item.isRun = true) := by
  cases item with
  | run raw =>
    refine ⟨.node (.ofText .pcdata (convertPcdata .everything raw)) [], ?_, fun _ => rfl⟩
    rw [trees, keepsRun_everything]
    rfl
  | _ => exact ⟨_, rfl, fun htext => by cases htext⟩

/-- Where no runs stand side by side, no character data does. -/
theorem isChain_allTrees (h : allApart items = true) :
    (allTrees .everything atTop items).IsChain fun t u => t.IsPcdata → ¬ u.IsPcdata := by
  cases atTop with
  | true =>
    refine List.Pairwise.isChain (List.pairwise_of_forall_mem_list fun t ht _ _ htext => ?_)
    exact absurd htext (not_isPcdata_of_top ht)
  | false =>
    induction items with
    | nil => exact .nil
    | cons item items ih =>
      obtain ⟨hnext, -, hrest⟩ := allApart_cons.1 h
      obtain ⟨t, htree, htext⟩ := exists_trees_everything item
      rw [allTrees, htree, List.singleton_append]
      refine List.isChain_cons.2 ⟨fun u hu ht hu' => ?_, ih hrest⟩
      have hnext := hnext (htext ht)
      cases items with
      | nil => cases hu
      | cons other items =>
        obtain ⟨v, htree', htext'⟩ := exists_trees_everything other
        rw [allTrees, htree'] at hu
        obtain rfl : v = u := by simpa using hu
        rw [List.head?_cons, Option.any_some, htext' hu'] at hnext
        cases hnext

end Construct

/-- The text of a comment or of a section has its line ends unified. -/
theorem TreeLabel.valueText_ofText (kind : NodeKind) (raw : List Char) :
    (TreeLabel.ofText kind (TreeBuilder.sectionConversion .everything raw)).valueText.toList =
      unifyLineEnds raw := by
  rw [valueText, ofText, text_sectionConversion_everything]
  exact String.toList_ofList

/-- What is read of a construct without content of its own is settled. -/
theorem Construct.LeafSpelledBy.settled_trees {item : Construct} {spelling : List Char}
    (h : item.LeafSpelledBy atTop spelling)
    (hcomments : ∀ t ∈ item.trees .everything atTop, t.All TreeLabel.HyphensApart) :
    ∀ t ∈ item.trees .everything atTop, t.Settled := by
  have hleaf : ∀ {l : TreeLabel}, l.Settled → ∀ t ∈ [Tree.node l []], t.Settled := fun hl =>
    List.forall_mem_singleton.2
      (.node hl (fun _ => List.forall_mem_nil _) .nil (List.forall_mem_nil _))
  cases h with
  | @run raw hraw _ =>
    rw [Construct.trees]
    split
    · refine hleaf ?_
      simpa [TreeLabel.Settled, TreeLabel.ofText, TreeLabel.valueText] using
        text_convertPcdata_ne_nil hraw
    · exact List.forall_mem_nil _
  | empty | declaration => exact hleaf trivial
  | @comment raw _ =>
    obtain ⟨hlabel, -⟩ := hcomments _ List.mem_cons_self
    obtain ⟨hhyphens, hend⟩ := hlabel rfl
    have hreturn := return_not_mem_unifyLineEnds raw
    rw [← TreeLabel.valueText_ofText .comment] at hreturn
    exact hleaf ⟨hhyphens, hreturn, hend⟩
  | @cdata raw hmark =>
    have hreturn := return_not_mem_unifyLineEnds raw
    have hmark' : ¬ "]]>".toList <:+: unifyLineEnds raw := fun hmem =>
      hmark (infix_of_infix_unifyLineEnds (by decide) hmem)
    rw [← TreeLabel.valueText_ofText .cdata] at hreturn hmark'
    exact hleaf ⟨hmark', hreturn⟩
  | bare => exact hleaf (by simp [TreeLabel.Settled, TreeLabel.valueText])
  | pi _ _ _ _ htrimmed hmark =>
    refine hleaf ?_
    simpa [TreeLabel.Settled, TreeLabel.valueText] using ⟨hmark, htrimmed⟩

/-- The trees of content with hyphens apart in its comments are settled. -/
theorem Content.settled_trees (h : Content atTop items text)
    (hapart : Construct.allApart items = true)
    (hcomments : ∀ t ∈ Construct.allTrees .everything atTop items, t.All TreeLabel.HyphensApart) :
    ∀ t ∈ Construct.allTrees .everything atTop items, t.Settled := by
  induction h with
  | nil => exact List.forall_mem_nil _
  | leaf hitem _ ih =>
    obtain ⟨-, -, hrest⟩ := Construct.allApart_cons.1 hapart
    obtain ⟨hcomments, hcomments'⟩ := List.forall_mem_append.1 hcomments
    exact List.forall_mem_append.2 ⟨hitem.settled_trees hcomments, ih hrest hcomments'⟩
  | element _ _ _ _ _ ihInner ihRest =>
    obtain ⟨-, hinner, hrest⟩ := Construct.allApart_cons.1 hapart
    obtain ⟨hcomments, hcomments'⟩ := List.forall_mem_append.1 hcomments
    obtain ⟨-, hbelow⟩ := hcomments _ List.mem_cons_self
    refine List.forall_mem_append.2 ⟨List.forall_mem_singleton.2 ?_, ihRest hrest hcomments'⟩
    exact .node trivial (fun hkind => absurd rfl hkind) (Construct.isChain_allTrees hinner)
      (ihInner hinner hbelow)

theorem Content.allSettled_trees (h : Content atTop items text)
    (hapart : Construct.allApart items = true)
    (hcomments : ∀ t ∈ Construct.allTrees .everything atTop items, t.All TreeLabel.HyphensApart) :
    Tree.AllSettled atTop (Construct.allTrees .everything atTop items) where
  sayable := h.sayable_trees
  settled := h.settled_trees hapart hcomments
  apart := Construct.isChain_allTrees hapart
  top hatTop t ht := by
    subst hatTop
    exact Construct.not_isPcdata_of_top ht

/-! ## What is read of a manuscript is written as one -/

/-- What is read of content comes back, with the line ends of character data unified. -/
theorem Content.allPlain_again (h : Content atTop items text)
    (hapart : Construct.allApart items = true)
    (hcomments : ∀ t ∈ Construct.allTrees .everything atTop items, t.All TreeLabel.HyphensApart)
    (single : Bool) :
    let ts := Construct.allTrees .everything atTop items
    Tree.allPlain (Construct.allTrees .everything atTop
      (Construct.allJoined (Tree.allItems single ts))) = Tree.allPlain (Tree.allUnified ts) := by
  intro ts
  have hall := h.allSettled_trees hapart hcomments
  have hback : Tree.ComeBack atTop ts (Tree.allPlain (Construct.allTrees .everything atTop
      (Construct.allJoined (Tree.allItems single ts)))) :=
    Tree.Sayable.allComeBack ts hall.sayable [] (List.forall_mem_nil _)
  exact hback.eq_allPlain hall

namespace Manuscript

/-- The manuscript that is written for the trees of a manuscript. -/
def again (single : Bool) : Manuscript → Manuscript
  | last items =>
    last (Tree.allItems single (Construct.allTrees .everything true (Construct.allJoined items)))
  | typed items body more =>
    typed (Tree.allItems single (Construct.allTrees .everything true (Construct.allJoined items)))
      body (more.again single)

variable {m : Manuscript}

theorem trees_everything (items : List Construct) (body : List Char) (more : Manuscript) :
    (typed items body more).trees .everything =
      Construct.allTrees .everything true (Construct.allJoined items) ++
        doctypeTree body :: more.trees .everything := by
  have hdoctype : ParseOptions.everything.contains .doctype = true := by decide
  rw [trees, if_pos hdoctype]
  rfl

/-- The trees of a manuscript are written as one. -/
theorem SpelledBy.again (h : m.SpelledBy true text) (single : Bool) :
    (m.again single).SpelledBy true (Tree.allWritten single (m.trees .everything)) := by
  induction h with
  | last hcontent =>
    exact .last (Tree.Sayable.allContent _ hcontent.joined.1.sayable_trees)
  | @typed items more _ _ body _ _ hcontent _ htrimmed hstands _ ih =>
    have hcontent : Content true _ (Tree.allWritten single (Construct.allTrees .everything true
        (Construct.allJoined items))) :=
      Tree.Sayable.allContent _ hcontent.joined.1.sayable_trees
    have hspace : Blank [' '] := List.forall_mem_singleton.2 rfl
    have hspelled := SpelledBy.typed rfl hcontent hspace htrimmed hstands ih
    have hdoctype : (doctypeTree body).written single =
        "<!DOCTYPE".toList ++ (' ' :: (body ++ ['>'])) := by
      simp [doctypeTree, Tree.written, TreeLabel.written, TreeLabel.valueText]
    rw [trees_everything, Tree.allWritten_append, Tree.allWritten, hdoctype]
    simpa [Manuscript.again] using hspelled

/-- What is read of a manuscript comes back, with the line ends of character data unified. -/
theorem SpelledBy.allPlain_again (h : m.SpelledBy true text)
    (hcomments : ∀ t ∈ m.trees .everything, t.All TreeLabel.HyphensApart) (single : Bool) :
    Tree.allPlain ((m.again single).trees .everything) =
      Tree.allPlain (Tree.allUnified (m.trees .everything)) := by
  induction h with
  | last hcontent =>
    obtain ⟨hcontent, hapart⟩ := hcontent.joined
    exact hcontent.allPlain_again hapart hcomments single
  | @typed items more _ _ body _ _ hcontent _ _ _ _ ih =>
    obtain ⟨hcontent, hapart⟩ := hcontent.joined
    rw [trees_everything] at hcomments ⊢
    obtain ⟨hcomments, hmore⟩ := List.forall_mem_append.1 hcomments
    obtain ⟨-, hmore⟩ := List.forall_mem_cons.1 hmore
    have hfirst := hcontent.allPlain_again hapart hcomments single
    rw [Manuscript.again, trees_everything, Tree.allPlain_append, hfirst, Tree.allUnified_append,
      Tree.allPlain_append, Tree.allPlain, Tree.allUnified, Tree.allPlain, ih hmore]
    rfl

/-- What is read of a manuscript is content or a document type. -/
theorem SpelledBy.sayable_trees (h : m.SpelledBy true text) :
    ∀ t ∈ m.trees options, t.Sayable true ∨ t.label.kind = .doctype := by
  induction h with
  | last hcontent => exact fun t ht => .inl (hcontent.joined.1.sayable_trees t ht)
  | typed _ hcontent _ _ _ _ ih =>
    refine List.forall_mem_append.2 ⟨fun t ht => .inl (hcontent.joined.1.sayable_trees t ht),
      List.forall_mem_append.2 ⟨?_, ih⟩⟩
    split
    · exact List.forall_mem_singleton.2 (.inr rfl)
    · exact List.forall_mem_nil _

/-- Nothing is read of an empty manuscript. -/
theorem SpelledBy.trees_eq_nil (h : m.SpelledBy true text) (htext : text = []) :
    m.trees options = [] := by
  cases h with
  | last hcontent =>
    cases hcontent with
    | nil => rfl
    | leaf hitem =>
      obtain ⟨rfl, -⟩ := List.append_eq_nil_iff.1 htext
      cases hitem with
      | run hraw => exact absurd rfl hraw
    | element => cases htext
  | typed => simp at htext

/-- What a manuscript is written as is taken as a loaded text if the manuscript was. -/
theorem SpelledBy.accepts_again (h : m.SpelledBy true text)
    (hback : Tree.allPlain ((m.again single).trees .everything) =
      Tree.allPlain (Tree.allUnified (m.trees .everything)))
    (haccepts : ParseOptions.everything.accepts text
      ((m.trees .everything).map fun t => t.label.kind) = true) :
    ParseOptions.everything.accepts (Tree.allWritten single (m.trees .everything))
      (((m.again single).trees .everything).map fun t => t.label.kind) = true := by
  have hkinds : ((m.again single).trees .everything).map (fun t => t.label.kind) =
      (m.trees .everything).map fun t => t.label.kind := by
    have hsame := congrArg (List.map fun t => t.label.kind) hback
    simpa [Tree.allPlain_eq_map, Tree.allUnified_eq_map, Function.comp_def] using hsame
  rw [hkinds]
  cases text with
  | nil =>
    rw [h.trees_eq_nil rfl]
    rfl
  | cons c cs =>
    rw [ParseOptions.accepts, List.isEmpty_cons, Bool.false_or] at haccepts
    rw [ParseOptions.accepts, Bool.or_assoc, haccepts, Bool.or_true]

end Manuscript

/-! ## Trees with unified line ends -/

/-- A node that is no character data with a carriage return in it. -/
def TreeLabel.LinesUnified (l : TreeLabel) : Prop := l.kind = .pcdata → '\r' ∉ l.valueText.toList

instance : DecidablePred TreeLabel.LinesUnified := fun _ => inferInstanceAs (Decidable (_ → _))

theorem TreeLabel.unified_plain (l : TreeLabel) : l.plain.unified = l.unified.plain := by
  by_cases hl : l.kind = .pcdata
  · have hkind : l.plain.kind = .pcdata := hl
    rw [plain_unified hl, unified, if_pos hkind]
    rfl
  · have hkind : l.plain.kind ≠ .pcdata := hl
    rw [l.unified_eq hl, l.plain.unified_eq hkind]

theorem TreeLabel.unified_plain_eq_iff {l : TreeLabel} :
    l.plain.unified = l.plain ↔ l.LinesUnified := by
  by_cases hl : l.kind = .pcdata
  · have hsame : l.holding (unifyLineEnds l.valueText.toList) = l.plain ↔
        unifyLineEnds l.valueText.toList = l.valueText.toList := by
      simp [holding, plain, String.ext_iff]
    rw [unified_plain, plain_unified hl, hsame, unifyLineEnds_eq_iff]
    exact ⟨fun h _ => h, fun h => h hl⟩
  · have hkind : l.plain.kind ≠ .pcdata := hl
    exact ⟨fun _ hpcdata => absurd hpcdata hl, fun _ => l.plain.unified_eq hkind⟩

mutual

theorem Tree.unified_plain (t : Tree) : t.plain.unified = t.unified.plain := by
  match t with
  | .node l children =>
    rw [plain, unified, unified, plain, l.unified_plain, Tree.allUnified_allPlain children]

theorem Tree.allUnified_allPlain (ts : List Tree) :
    Tree.allUnified (Tree.allPlain ts) = Tree.allPlain (Tree.allUnified ts) := by
  match ts with
  | [] => rfl
  | t :: ts =>
    rw [allPlain, allUnified, allUnified, allPlain, Tree.unified_plain t,
      Tree.allUnified_allPlain ts]

end

mutual

/-- A tree is as it is with unified line ends if all its character data is. -/
theorem Tree.unified_plain_eq_iff (t : Tree) :
    t.plain.unified = t.plain ↔ t.All TreeLabel.LinesUnified := by
  match t with
  | .node l children =>
    rw [plain, unified, Tree.all_node, Tree.node.injEq, TreeLabel.unified_plain_eq_iff,
      Tree.allUnified_allPlain_eq_iff children]

theorem Tree.allUnified_allPlain_eq_iff (ts : List Tree) :
    Tree.allUnified (Tree.allPlain ts) = Tree.allPlain ts ↔
      ∀ t ∈ ts, t.All TreeLabel.LinesUnified := by
  match ts with
  | [] => exact ⟨fun _ => List.forall_mem_nil _, fun _ => rfl⟩
  | t :: ts =>
    rw [allPlain, allUnified, List.forall_mem_cons, List.cons.injEq, Tree.unified_plain_eq_iff t,
      Tree.allUnified_allPlain_eq_iff ts]

end

namespace Document

/-! ## Documents -/

/-- What is saved of a document that holds the trees of a manuscript. -/
theorem saveString_of_manuscript {doc : Document} {m : Manuscript} (h : m.SpelledBy true text)
    (htree : (doc.tree doc.root).exact = (Tree.node bareRoot (m.trees options)).exact)
    (single : Bool) :
    doc.saveString "" (.exact single) =
      String.ofList (Tree.allWritten single (m.trees options)) := by
  cases hroot : doc.tree doc.root with
  | node l ts =>
    rw [hroot, Tree.exact, Tree.exact, Tree.node.injEq] at htree
    obtain ⟨hlabel, hbelow⟩ := htree
    have hl : l.kind = .document := congrArg TreeLabel.kind hlabel
    have hsayable : ∀ t ∈ ts, t.Sayable true ∨ t.label.kind = .doctype := by
      intro t ht
      have hmem : t.exact ∈ Tree.allExact (m.trees options) := by
        rw [← hbelow, Tree.allExact_eq_map]
        exact List.mem_map_of_mem ht
      rw [Tree.allExact_eq_map] at hmem
      obtain ⟨u, hu, hsame⟩ := List.mem_map.1 hmem
      have hkind : u.label.kind = t.label.kind := by
        have hkinds := congrArg (fun t => t.label.kind) hsame
        simpa using hkinds
      refine (h.sayable_trees u hu).imp (fun hsayable => ?_) fun hdoctype => hkind ▸ hdoctype
      rwa [← Tree.sayable_exact, hsame, Tree.sayable_exact] at hsayable
    rw [saveString_eq_written hroot hl hsayable, ← Tree.allWritten_exact ts, hbelow,
      Tree.allWritten_exact]

/-- A document that holds the trees of a manuscript is saved and loaded again, with the line
ends of its character data unified. -/
theorem reloaded_of_manuscript {doc : Document} {m : Manuscript} (h : m.SpelledBy true text)
    (htree : (doc.tree doc.root).exact = (Tree.node bareRoot (m.trees .everything)).exact)
    (haccepts : ParseOptions.everything.accepts text
      ((m.trees .everything).map fun t => t.label.kind) = true)
    (hcomments : (doc.tree doc.root).All TreeLabel.HyphensApart)
    (hsize : (doc.saveString "" (.exact single)).utf8ByteSize < 2 ^ 32) (into : Document) :
    let again := into.loadString (doc.saveString "" (.exact single)) .everything
    again.1.status = .ok ∧
      (again.2.tree again.2.root).plain = (doc.tree doc.root).plain.unified := by
  have hwritten := saveString_of_manuscript h htree single
  have hagain : (m.again single).SpelledBy true (doc.saveString "" (.exact single)).toList := by
    rw [hwritten, String.toList_ofList]
    exact h.again single
  have hcomments : ∀ t ∈ m.trees .everything, t.All TreeLabel.HyphensApart := by
    rw [← Tree.all_exact TreeLabel.hyphensApart_exact, htree,
      Tree.all_exact TreeLabel.hyphensApart_exact, Tree.all_node] at hcomments
    exact hcomments.2
  have hback := h.allPlain_again hcomments single
  have hmarkup : ParseOptions.everything.KeepsMarkup := by decide
  obtain ⟨hstatus, -, htree'⟩ :=
    loadString_of_manuscript hmarkup (by decide) hsize into hagain
  intro again
  refine ⟨hstatus.2 ?_, ?_⟩
  · rw [hwritten, String.toList_ofList]
    exact h.accepts_again hback haccepts
  · rw [Tree.plain_eq_of_exact_eq htree, Tree.plain_eq_of_exact_eq htree', Tree.plain, hback,
      ← Tree.allUnified_allPlain]
    rfl

/-- What is loaded, saved and loaded again is there again, with the line ends of its character
data unified.  So nothing is lost exactly if no character data holds a carriage return, which
only a reference can have put there. -/
theorem loadString_saveString_loaded {text : String} (hsize : text.utf8ByteSize < 2 ^ 32)
    (into : Document) (hok : (into.loadString text .everything).1.status = .ok)
    (hcomments : ((into.loadString text .everything).2.tree
      (into.loadString text .everything).2.root).All TreeLabel.HyphensApart) (single : Bool)
    (hsaved : ((into.loadString text .everything).2.saveString "" (.exact single)).utf8ByteSize <
      2 ^ 32) (other : Document) :
    let loaded := (into.loadString text .everything).2
    let again := other.loadString (loaded.saveString "" (.exact single)) .everything
    again.1.status = .ok ∧
      (again.2.tree again.2.root).plain = (loaded.tree loaded.root).plain.unified ∧
      ((again.2.tree again.2.root).plain = (loaded.tree loaded.root).plain ↔
        (loaded.tree loaded.root).All TreeLabel.LinesUnified) := by
  have hmarkup : ParseOptions.everything.KeepsMarkup := by decide
  obtain ⟨m, hspelled⟩ := exists_manuscript_of_ok hmarkup into hok
  obtain ⟨hstatus, -, htree⟩ := loadString_of_manuscript hmarkup (by decide) hsize into hspelled
  obtain ⟨hstatus', hplain⟩ :=
    reloaded_of_manuscript hspelled htree (hstatus.1 hok) hcomments hsaved other
  refine ⟨hstatus', hplain, ?_⟩
  rw [hplain, Tree.unified_plain_eq_iff]

/-- A document type, and a carriage return in an attribute and in character data. -/
def returning : String := "<!DOCTYPE a><a k='&#13;'>x&#13;<?go ?></a>"

theorem reloaded_returning :
    let loaded := (new.loadString returning .everything).2
    let saved := loaded.saveString "" (.exact false)
    let again := new.loadString saved .everything
    saved = "<!DOCTYPE a><a k=\"&#13;\">x\r<?go ?></a>" ∧ again.1.status = .ok ∧
      (again.2.tree again.2.root).plain = (loaded.tree loaded.root).plain.unified ∧
      (again.2.tree again.2.root).plain ≠ (loaded.tree loaded.root).plain := by
  have hsize : returning.utf8ByteSize < 2 ^ 32 := by decide +kernel
  obtain ⟨hok, hunified, hiff⟩ := loadString_saveString_loaded hsize new (by decide +kernel)
    (by decide +kernel) false (by decide +kernel) new
  exact ⟨by decide +kernel, hok, hunified, fun h => absurd (hiff.1 h) (by decide +kernel)⟩

end Document

end XmlTree
