/-
  Proofs/Tending.lean --- the builder makes the tree that its events say.

  WHAT THIS FILE IS FOR.  The builder works on a document: it links records and keeps slots.
  Here it is shown that the document reads at every moment as the sapling that the events so far
  have grown to, and so that what a load leaves behind is the tree of its text, under all
  switches and up to the first fault.  How the load is answered is told by the text, too.
-/
import XmlTree.Proofs.Stems
import XmlTree.Proofs.Thinning

set_option autoImplicit false

namespace XmlTree

/-! ## The builder -/

namespace TreeBuilder

open Document

variable {source : String} {belowDocument : Bool} {target : LoadTarget} {b : TreeBuilder}
  {z : Sapling} {p : EventPlace} {e : LoadEvent} {lay : Layout}

/-- A text is being loaded, and what is there so far reads as a sapling. -/
structure Grows (source : String) (belowDocument : Bool) (target : LoadTarget) (b : TreeBuilder)
    (z : Sapling) (p : EventPlace) : Prop
    extends b.Loading source belowDocument target p where
  stem : b.doc.Stem [] (b.openNodes ++ [target.base]) (z.tip :: z.outer)
  owner : p.tagOpen = true →
    if z.inLast then (b.doc.children (b.cursor target)).getLast? = some b.owner
    else b.owner = b.cursor target

/-- The cursor is the first of the nodes that are open. -/
theorem exists_cursor_cons (target : LoadTarget) (b : TreeBuilder) :
    ∃ ids, b.openNodes ++ [target.base] = b.cursor target :: ids := by
  unfold cursor
  cases b.openNodes with
  | nil => exact ⟨[], rfl⟩
  | cons c ids => exact ⟨ids ++ [target.base], rfl⟩

/-! ### Character data -/

/-- What is asked about the cursor can be told from the tip. -/
structure Tip (b : TreeBuilder) (target : LoadTarget) (t : Tree) : Prop where
  contains : b.doc.contains (b.cursor target) = true
  label : b.doc.labelOf (b.cursor target) = t.label
  trees : (b.doc.children (b.cursor target)).map b.doc.tree = t.children

theorem Grows.tip (h : b.Grows source belowDocument target z p) : b.Tip target z.tip := by
  obtain ⟨ids, hids⟩ := exists_cursor_cons target b
  have hstem := h.stem
  rw [hids] at hstem
  cases hstem with
  | cons _ hc hlabel hchildren htrees _ =>
    refine ⟨hc, hlabel, ?_⟩
    rw [hchildren, List.append_nil]
    exact htrees

namespace Tip

variable {t : Tree}

theorem kind_eq (h : b.Tip target t) : b.doc.kind (b.cursor target) = t.label.kind := by
  rw [← kind_labelOf, h.label]

theorem firstChild?_eq (h : b.Tip target t) (hlaid : LaidOut b.doc lay) :
    (b.doc.firstChild? (b.cursor target)).isNone = t.children.isEmpty := by
  have hfirst := (hlaid.childLists.spells (b.cursor target)).first
  rw [← h.trees, List.isEmpty_map, hlaid.children_eq, Document.firstChild?_eq, hfirst]
  cases lay.children (b.cursor target) <;> rfl

theorem lastChild?_eq (hlaid : LaidOut b.doc lay) :
    b.doc.lastChild? (b.cursor target) = (b.doc.children (b.cursor target)).getLast? := by
  rw [hlaid.children_eq, Document.lastChild?_eq]
  exact (hlaid.childLists.spells (b.cursor target)).last

theorem keepsSpace_eq (h : b.Tip target z.tip) (hlaid : LaidOut b.doc lay) (closing : Bool) :
    b.keepsSpace target closing = z.keepsSpace target.options closing := by
  rw [TreeBuilder.keepsSpace, Sapling.keepsSpace, h.firstChild?_eq hlaid]

theorem embedsNext_eq (h : b.Tip target z.tip) (hlaid : LaidOut b.doc lay) :
    b.embedsNext target = (target.options.contains .embedPcdata &&
      (!z.atTop && z.tip.children.isEmpty && z.tip.label.value.isNone)) := by
  obtain ⟨r, hr⟩ := contains_iff.1 h.contains
  have hkind : r.kind = z.tip.label.kind := by rw [← h.kind_eq, kind, hr, Option.elim_some]
  have hfirst : r.children.first.isNone = z.tip.children.isEmpty := by
    rw [← h.firstChild?_eq hlaid, firstChild?, hr, Option.bind_some]
  have hvalue : r.value.isNull = z.tip.label.value.isNone := by
    simp only [← h.label, labelOf, hr, textOf?]
    cases r.value.isNull <;> rfl
  simp only [embedsNext, hr, hkind, hfirst, hvalue, Sapling.atTop, bne]

theorem endsInPcdata_eq (h : b.Tip target t) (hlaid : LaidOut b.doc lay) :
    t.endsInPcdata =
      (b.doc.children (b.cursor target)).getLast?.any fun c => b.doc.kind c == .pcdata := by
  rw [Tree.endsInPcdata, ← h.trees, List.getLast?_map]
  cases hlast : (b.doc.children (b.cursor target)).getLast? with
  | none => rfl
  | some c =>
    rw [Option.map_some, Option.any_some, Option.any_some, Tree.isPcdata,
      hlaid.kind_tree (List.mem_of_getLast? hlast)]

theorem joinsTo?_eq (h : b.Tip target t) (hlaid : LaidOut b.doc lay) :
    b.joinsTo? target = if target.options.contains .mergePcdata && t.endsInPcdata then
      (b.doc.children (b.cursor target)).getLast? else none := by
  rw [joinsTo?, lastChild?_eq hlaid, h.endsInPcdata_eq hlaid]
  cases target.options.contains .mergePcdata with
  | false => rfl
  | true =>
    cases (b.doc.children (b.cursor target)).getLast? with
    | none => rfl
    | some c => rfl

/-- What is done about character data is told by what becomes of it. -/
theorem addText_eq (h : b.Tip target z.tip) (hlaid : LaidOut b.doc lay) (raw : Span)
    (closing : Bool) :
    b.addText target raw closing =
      let conversion := convertPcdata target.options raw.text
      match z.textFate target.options raw.text closing with
      | .dropped => (none, b)
      | .embedded =>
        b.withSlot target raw conversion fun slot converted =>
          { converted with doc :=
              converted.doc.modifyNode (b.cursor target) fun r => { r with value := slot } }
      | .joined =>
        match (b.doc.children (b.cursor target)).getLast? with
        | some c =>
          match b.doc.replaceValue c (b.doc.value c ++ String.ofList conversion.text) with
          | (true, doc) => (none, { b with doc })
          | (false, doc) => (some (refusal raw), { b with doc })
        | none => (none, b)
      | .planted =>
        b.withSlot target raw conversion fun slot converted =>
          (converted.push target .pcdata .null slot).2 := by
  have htop : (b.doc.kind (b.cursor target) == .document) = z.atTop := by
    rw [h.kind_eq, Sapling.atTop]
  simp only [addText, Sapling.textFate, h.keepsSpace_eq hlaid, htop, h.embedsNext_eq hlaid,
    h.joinsTo?_eq hlaid]
  split
  · rfl
  · split
    · rfl
    · split
      · rfl
      · cases hjoins : target.options.contains .mergePcdata && z.tip.endsInPcdata with
        | false => rfl
        | true =>
          have hends := (Bool.and_eq_true_iff.1 hjoins).2
          rw [h.endsInPcdata_eq hlaid, Option.any_eq_true] at hends
          obtain ⟨c, hc, -⟩ := hends
          cases hlast : (b.doc.children (b.cursor target)).getLast? with
          | none =>
            rw [hlast] at hc
            cases hc
          | some last => rfl

/-- The last node at the cursor reads as the last one in the tip. -/
theorem valueText_getLast (h : b.Tip target t) (hlaid : LaidOut b.doc lay) {c : NodeId}
    (hlast : (b.doc.children (b.cursor target)).getLast? = some c) :
    (t.children.getLast?.elim "" fun t => t.label.valueText) = b.doc.value c := by
  have hparent : b.doc.parent? c = some (b.cursor target) :=
    hlaid.mem_children.1 (List.mem_of_getLast? hlast)
  rw [← h.trees, List.getLast?_map, hlast, Option.map_some, Option.elim_some,
    hlaid.tree_eq (contains_of_parent? hparent)]
  exact valueText_labelOf b.doc c

/-- Character data is refused if it is too long, or too long with what it is joined to. -/
theorem refusal?_text (h : b.Tip target z.tip) (hlaid : LaidOut b.doc lay) (raw : Span)
    (closing : Bool) :
    refusal? target b (.text raw closing) =
      z.refusal? target.options (.text raw closing) := by
  rw [TreeBuilder.refusal?, TreeBuilder.add, h.addText_eq hlaid, Sapling.refusal?]
  cases hfate : z.textFate target.options raw.text closing with
  | dropped => rfl
  | embedded => exact b.withSlot_fst target raw _ _
  | planted => exact b.withSlot_fst target raw _ _
  | joined =>
    have hends := (Sapling.of_textFate_joined hfate).2
    rw [h.endsInPcdata_eq hlaid, Option.any_eq_true] at hends
    obtain ⟨c, hlast, -⟩ := hends
    have hparent : b.doc.parent? c = some (b.cursor target) :=
      hlaid.mem_children.1 (List.mem_of_getLast? hlast)
    obtain ⟨r, hr⟩ := contains_iff.1 (contains_of_parent? hparent)
    simp only [hlast, h.valueText_getLast hlaid hlast]
    rw [replaceValue, hr]
    dsimp only
    obtain ⟨slot, owned, -, hshort, hdone⟩ | ⟨hdone, hlong⟩ := b.doc.replaceText_cases
      (b.doc.value c ++ String.ofList (convertPcdata target.options raw.text).text) r.value
      fun slot doc => doc.modifyNode c fun r => { r with value := slot }
    · rw [hdone, if_pos hshort]
    · rw [hdone, if_neg hlong]

end Tip

/-- The document refuses what the sapling refuses. -/
theorem Grows.refusal?_eq (h : b.Grows source belowDocument target z p) (e : LoadEvent) :
    refusal? target b e = z.refusal? target.options e := by
  cases e with
  | text raw closing =>
    obtain ⟨lay, hrooted⟩ := h.building.whole
    exact h.tip.refusal?_text hrooted.toLaidOut raw closing
  | _ =>
    rw [refusal?_of_markup fun _ _ => LoadEvent.noConfusion,
      Sapling.refusal?_of_markup fun _ _ => LoadEvent.noConfusion]

/-- Character data does to the document what it does to the sapling. -/
theorem Grows.stem_addText (h : b.Grows source belowDocument target z p) {raw : Span}
    {closing : Bool} (hshort : z.refusal? target.options (.text raw closing) = none)
    {ids : List NodeId} (hids : b.openNodes ++ [target.base] = b.cursor target :: ids)
    (hlaid' : ∃ lay', LaidOut (b.addText target raw closing).2.doc lay') :
    (b.addText target raw closing).2.openNodes = b.openNodes ∧
      (b.addText target raw closing).2.doc.Stem [] (b.cursor target :: ids)
        ((z.addText target.options source raw closing).tip :: z.outer) := by
  obtain ⟨lay, hrooted⟩ := id h.building.whole
  have hlaid := hrooted.toLaidOut
  have hlegible := h.legible.doc
  have htip := h.tip
  have hstem := h.stem
  rw [hids] at hstem
  obtain ⟨lay', hlaid'⟩ := hlaid'
  rw [htip.addText_eq hlaid] at hlaid' ⊢
  simp only [Sapling.refusal?] at hshort
  simp only [Sapling.addText]
  cases hfate : z.textFate target.options raw.text closing with
  | dropped => exact ⟨rfl, hstem⟩
  | embedded =>
    simp only [hfate] at hshort
    obtain ⟨slot, texts, hslot, htexts, -, hreads⟩ := exists_conversionSlot h.source hshort
    simp only [hfate, withSlot, hslot] at hlaid' ⊢
    refine ⟨trivial, hstem.relabel hlaid hlaid' ?_⟩
    rw [← hreads]
    let owned : Document := { b.doc with texts }
    have hset := relabelled_modifyNode (show owned.contains _ = true from htip.contains) slot
    exact hset.ofTexts hlaid hlegible htexts htip.contains
  | joined =>
    simp only [hfate] at hlaid' ⊢
    cases hlast : (b.doc.children (b.cursor target)).getLast? with
    | none =>
      -- nothing stands at the cursor, so there is nothing to join to on either side
      have hnone : z.tip.children = [] := by
        rw [← htip.trees, List.getLast?_eq_none_iff.1 hlast, List.map_nil]
      rw [Tree.relabelLast_of_childless hnone]
      exact ⟨rfl, hstem⟩
    | some c =>
      simp only [hlast] at hlaid' ⊢
      have hparent : b.doc.parent? c = some (b.cursor target) :=
        hlaid.mem_children.1 (List.mem_of_getLast? hlast)
      have hfits : (b.doc.value c ++
          String.ofList (convertPcdata target.options raw.text).text).utf8ByteSize < 2 ^ 32 := by
        simp only [hfate, htip.valueText_getLast hlaid hlast] at hshort
        by_contra hlong
        rw [if_neg hlong] at hshort
        cases hshort
      have hjoined :=
        hlaid.relabelled_replaceValue hlegible (contains_of_parent? hparent) hfits
      generalize hdone : b.doc.replaceValue c _ = done at hjoined hlaid' ⊢
      obtain ⟨accepted, doc⟩ := done
      have hlabel : doc.labelOf c = (b.doc.labelOf c).joined
          (String.ofList (convertPcdata target.options raw.text).text) := by
        rw [hjoined.label, TreeLabel.joined, valueText_labelOf]
      cases accepted with
      | false => exact ⟨rfl, hstem.relabelLast hlaid hlaid' hlast ⟨hjoined.contains, hlabel,
          hjoined.others, hjoined.children⟩⟩
      | true => exact ⟨rfl, hstem.relabelLast hlaid hlaid' hlast ⟨hjoined.contains, hlabel,
          hjoined.others, hjoined.children⟩⟩
  | planted =>
    simp only [hfate] at hshort hlaid' ⊢
    obtain ⟨id, doc, hpush, hplanted⟩ := planted_converted h.building.whole h.source
      (h.building.cursor_allows (show NodeKind.pcdata ∉ _ by decide)) hshort
    rw [hpush] at hlaid' ⊢
    exact ⟨rfl, hstem.plant hlaid hlaid' hlegible hplanted⟩

/-! ### Steps -/

theorem Grows.after_text (h : b.Grows source belowDocument target z p) {raw : Span}
    {closing : Bool} (hshort : z.refusal? target.options (.text raw closing) = none) :
    (b.after target (.text raw closing)).Grows source belowDocument target
      (z.addText target.options source raw closing) ⟨p.depth, false⟩ := by
  have hloading : (b.addText target raw closing).2.Loading source belowDocument target
    ⟨p.depth, false⟩ := h.toLoading.after (e := .text raw closing) trivial
  obtain ⟨ids, hids⟩ := exists_cursor_cons target b
  obtain ⟨lay', hrooted'⟩ := id hloading.building.whole
  obtain ⟨hopen, hstem⟩ := h.stem_addText hshort hids ⟨lay', hrooted'.toLaidOut⟩
  refine ⟨hloading, ?_, fun hopen => Bool.noConfusion hopen⟩
  show (b.addText target raw closing).2.doc.Stem []
    ((b.addText target raw closing).2.openNodes ++ [target.base]) _
  rw [hopen, hids]
  exact hstem

/-- A node that was added is open, or has attributes coming, or neither. -/
theorem Grows.after_markup (h : b.Grows source belowDocument target z p)
    (he : e.Fits belowDocument p) (hshort : e.refusal? target.options = none)
    (hmarkup : ∀ raw closing, e ≠ .text raw closing) {l : TreeLabel}
    (hl : e.nodeLabel? target.options source false = some l) :
    (b.after target e).Grows source belowDocument target (z.push l e) (e.place p) := by
  obtain ⟨id, doc, hadd, hnew⟩ := planted_markup h.building h.source he hshort hmarkup hl
  have hloading := h.toLoading.after he
  obtain ⟨ids, hids⟩ := exists_cursor_cons target b
  obtain ⟨lay, hrooted⟩ := h.building.whole
  have hstem := h.stem
  rw [hids] at hstem
  rw [hadd] at hloading ⊢
  obtain ⟨lay', hrooted'⟩ := hloading.building.whole
  have hentered := hstem.enter hrooted.toLaidOut hrooted'.toLaidOut h.legible.doc hnew
  have hplanted := hstem.plant hrooted.toLaidOut hrooted'.toLaidOut h.legible.doc hnew
  rw [← hids] at hentered hplanted
  cases e with
  | text raw closing => exact absurd rfl (hmarkup raw closing)
  | closeElement | «attribute» => cases hl
  | openElement name => exact ⟨hloading, hentered, fun _ => rfl⟩
  | declaration name =>
    refine ⟨hloading, hplanted, fun _ => ?_⟩
    show (doc.children (b.cursor target)).getLast? = some id
    rw [hnew.children, List.getLast?_concat]
  | _ => exact ⟨hloading, hplanted, fun hopen => Bool.noConfusion hopen⟩

theorem Grows.after_attribute (h : b.Grows source belowDocument target z p)
    (hopen : p.tagOpen = true) {name : Span} {raw : Option Span}
    (hshort : (LoadEvent.attribute name raw).refusal? target.options = none) :
    (b.after target (.attribute name raw)).Grows source belowDocument target
      (z.adorn (name.attributeIn target.options source raw)) ⟨p.depth, true⟩ := by
  have hloading := h.toLoading.after (e := .attribute name raw) hopen
  have howns := h.building.owner hopen
  obtain ⟨doc, hadd, hnew⟩ := adorned_addAttribute h.building.whole h.legible.doc h.source howns
    hshort
  obtain ⟨ids, hids⟩ := exists_cursor_cons target b
  obtain ⟨lay, hrooted⟩ := h.building.whole
  have hstem := h.stem
  rw [hids] at hstem
  rw [hadd] at hloading ⊢
  obtain ⟨lay', hrooted'⟩ := hloading.building.whole
  have hrelabelled := hnew.relabelled hrooted.toLaidOut h.legible.doc
    (contains_of_hasAttributes howns)
  have howner := h.owner hopen
  refine ⟨hloading, ?_, fun _ => ?_⟩
  · show doc.Stem [] (b.openNodes ++ [target.base]) _
    rw [hids, Sapling.adorn]
    cases hlast : z.inLast with
    | true =>
      rw [hlast, if_pos rfl] at howner
      exact hstem.relabelLast hrooted.toLaidOut hrooted'.toLaidOut howner hrelabelled
    | false =>
      rw [hlast, if_neg Bool.false_ne_true] at howner
      rw [howner] at hrelabelled
      exact hstem.relabel hrooted.toLaidOut hrooted'.toLaidOut hrelabelled
  · show if z.inLast then (doc.children (b.cursor target)).getLast? = some b.owner
      else b.owner = b.cursor target
    rwa [hrelabelled.children h.tip.contains]

theorem Grows.after_closeElement (h : b.Grows source belowDocument target z p)
    (he : LoadEvent.closeElement.Fits belowDocument p) :
    (b.after target .closeElement).Grows source belowDocument target z.leave
      (LoadEvent.closeElement.place p) := by
  refine ⟨h.toLoading.after he, ?_, fun hopen => Bool.noConfusion hopen⟩
  obtain ⟨lay, hrooted⟩ := h.building.whole
  obtain ⟨tip, outer, inLast⟩ := z
  have hstem := h.stem
  show b.doc.Stem [] (b.openNodes.tail ++ [target.base]) _
  cases hopen : b.openNodes with
  | nil =>
    rw [hopen] at hstem
    cases outer with
    | nil => exact hstem
    | cons u outer => exact absurd hstem.length_eq (by simp)
  | cons c ids =>
    rw [hopen] at hstem
    cases outer with
    | nil => exact absurd hstem.length_eq (by simp)
    | cons u outer => exact hstem.leave hrooted.toLaidOut

/-- An event that is not refused does to the document what it does to the sapling. -/
theorem Grows.after (h : b.Grows source belowDocument target z p) (he : e.Fits belowDocument p)
    (hshort : z.refusal? target.options e = none) :
    (b.after target e).Grows source belowDocument target (z.add target.options source e)
      (e.place p) := by
  cases e with
  | text raw closing => exact h.after_text hshort
  | closeElement => exact h.after_closeElement he
  | «attribute» name raw => exact h.after_attribute he hshort
  | _ => exact h.after_markup he hshort (fun _ _ => LoadEvent.noConfusion) rfl

/-- What is left of an event that is refused is left in the sapling, too. -/
theorem Grows.foldl_left (h : b.Grows source belowDocument target z p)
    (he : e.Fits belowDocument p) :
    (e.left.foldl (TreeBuilder.after target) b).Grows source belowDocument target
      (e.left.foldl (Sapling.add target.options source) z)
      (e.left.foldl LoadEvent.place p) := by
  cases e with
  | «attribute» name raw => exact h.after (e := .attribute name none) he rfl
  | _ => exact h

/-- The document and the sapling carry out the same of events, and it does the same to both. -/
theorem Grows.heeded (h : b.Grows source belowDocument target z p) {es : List LoadEvent}
    (hes : FitsAll belowDocument p es) :
    let done := LoadEvent.heeded (Sapling.add target.options source)
      (Sapling.refusal? target.options) z es
    b.heeded target es = done ∧
      (done.2.foldl (TreeBuilder.after target) b).Grows source belowDocument target
        (done.2.foldl (Sapling.add target.options source) z)
        (done.2.foldl LoadEvent.place p) := by
  induction es generalizing b z p with
  | nil => exact ⟨rfl, h⟩
  | cons e es ih =>
    obtain ⟨he, hrest⟩ := hes
    intro done
    simp only [done, TreeBuilder.heeded, LoadEvent.heeded, h.refusal?_eq]
    cases hrefusal : z.refusal? target.options e with
    | some fault => exact ⟨rfl, h.foldl_left he⟩
    | none =>
      obtain ⟨hsame, hgrown⟩ := ih (h.after he hrefusal) hrest
      exact ⟨congrArg (fun done : Option LoadFault × List LoadEvent => (done.1, e :: done.2)) hsame,
        hgrown⟩

end TreeBuilder

/-! ## Whole loads -/

/-- How the load of a text ends, and where. -/
def LoadFault.ofLoad (options : ParseOptions) (source : String) : LoadFault :=
  let last := source.utf8ByteSize - 1
  let kinds := (Tree.ofLoad options source).children.map fun t => t.label.kind
  match (Transcript.ofLoad options source).fault with
  | some fault => ⟨fault.status, min fault.offset last⟩
  | none =>
    if options.accepts source.toList kinds then ⟨.ok, 0⟩ else ⟨.noDocumentElement, last⟩

namespace Document

variable {options : ParseOptions}

/-- The document node of an emptied document is all that reads as a sapling at first. -/
theorem grows_loadStart (into : Document) (text : String) (options : ParseOptions) :
    TreeBuilder.Grows text true (into.loadTarget text options)
      (into.loadStarted text) (.seed bareRoot) ⟨0, false⟩ := by
  have hnode : (into.loadStart text).node? into.reset.root = _ := node?_root_reset into
  have hchildren : (into.loadStart text).children into.reset.root = [] := (lists_root_reset into).1
  have hnone : (into.loadStart text).attributes into.reset.root = [] := (lists_root_reset into).2
  have hthere : (into.loadStart text).contains into.reset.root = true :=
    contains_of_kind_ne (by rw [kind_loadStart]; decide)
  refine ⟨loading_loadStart into text options, ?_, fun hopen => Bool.noConfusion hopen⟩
  exact .cons [] hthere (labelOf_of_bare hnode hnone) hchildren rfl (.nil _)

/-- What is carried out of the events of a text makes the tree of the text in an emptied
document. -/
theorem carriedOut_loadStarted (into : Document) (text : String) (options : ParseOptions) :
    let target := into.loadTarget text options
    let done := (into.loadStarted text).carriedOut target
      (Transcript.ofText ⟨options, true⟩ text.toList)
    let filled := (done.events.foldl (TreeBuilder.after target) (into.loadStarted text)).doc
    done = .ofLoad options text ∧ Whole filled ∧ filled.root = into.reset.root ∧
      filled.tree filled.root = .ofLoad options text := by
  intro target done filled
  obtain ⟨hheeded, hgrown⟩ := (grows_loadStart into text options).heeded
    (Transcript.ofText_fits ⟨options, true⟩ text.toList)
  have hdone : done = .ofLoad options text := by
    show Transcript.mk _ _ = Transcript.mk _ _
    rw [show LoadEvent.heeded _ _ _ _ = _ from hheeded]
    rfl
  have hfilled : filled =
      ((Transcript.ofLoad options text).events.foldl (TreeBuilder.after target)
        (into.loadStarted text)).doc := by
    simp only [filled, hdone]
  have hbuilding := hgrown.building
  rw [hfilled]
  have hroot := (hbuilding.whole.eq_root (hbuilding.document rfl)).symm
  obtain ⟨lay, hrooted⟩ := id hbuilding.whole
  refine ⟨hdone, hbuilding.whole, hroot, ?_⟩
  exact (congrArg _ hroot).trans (hgrown.stem.tree_base hrooted.toLaidOut)

/-- What a load answers and what it leaves is told by the text and the switches: the tree is that
of the text, also if there was a fault. -/
theorem loadString_eq_ofLoad (into : Document) (text : String) (options : ParseOptions) :
    let outcome := LoadFault.ofLoad options text
    let loaded := (into.loadString text options).2
    (into.loadString text options).1 = ⟨outcome.status, outcome.offset, .utf8⟩ ∧
      loaded.tree loaded.root = .ofLoad options text := by
  intro outcome loaded
  obtain ⟨hdone, hwhole, hroot, htree⟩ := carriedOut_loadStarted into text options
  obtain ⟨lay, hrooted⟩ := id hwhole
  have hkinds := hrooted.map_kind_children hrooted.contains_root
  rw [htree, hroot] at hkinds
  have hloaded := loadBelow_reset into text.toList options
  rw [String.ofList_toList] at hloaded
  have hanswer : (into.reset.loadBelow into.reset.root text options).1 = outcome := by
    rw [hloaded]
    simp only [hdone] at hkinds ⊢
    show _ = LoadFault.ofLoad options text
    unfold LoadFault.ofLoad
    exact hkinds ▸ rfl
  refine ⟨congrArg (fun fault : LoadFault => LoadResult.mk fault.status fault.offset .utf8)
    hanswer, ?_⟩
  · have hlast : loaded = _ :=
      (show loaded = (into.reset.loadBelow _ _ _).2 from rfl).trans (congrArg Prod.snd hloaded)
    rw [hlast]
    exact htree

end Document

end XmlTree
