/-
  Proofs/Contents.lean --- the text that is set is the one that is read.

  WHAT THIS FILE IS FOR.  Which node holds the text of another one is asked anew each time, and
  the answer hangs on what was set.  Here it is shown that the text goes to one node, that no
  other one changes, and that this node still holds the text afterwards, so that it is what is
  read and what the next text replaces.

  THE EMPTY TEXT.  An element that keeps its text itself has none once the empty text is set, for
  an empty value is kept as no value.  Then the first child that is character data holds the text.
-/
import XmlTree.Proofs.Refinement
import XmlTree.Proofs.Stems

set_option autoImplicit false

namespace XmlTree

/-- A node holds its text itself. -/
def TreeLabel.holdsText (l : TreeLabel) : Bool :=
  l.kind.isText || (l.kind = .element && l.value.isSome)

theorem TreeLabel.holdsText_withValue (value : Option String) (l : TreeLabel) :
    (l.withValue value).holdsText = (l.kind.isText || (l.kind = .element && value.isSome)) := rfl

theorem isSome_copiedText (text : String) : (copiedText (some text)).isSome = (text != "") := by
  by_cases hempty : text = "" <;> simp [copiedText, hempty]

namespace Document

variable {doc after : Document} {lay : Layout} {id holder parent : NodeId} {kind : NodeKind}

/-- The first child that is character data. -/
def textChild? (doc : Document) (id : NodeId) : Option NodeId :=
  (doc.children id).find? fun c => (doc.kind c).isText

/-- The text of the first child that is character data, empty when there is none. -/
def childText (doc : Document) (id : NodeId) : String := (doc.textChild? id).elim "" doc.value

/-- A text of a node is set, in the node that holds its text or in a child that is new, and
nothing else changes. -/
inductive SetsText (doc : Document) (id : NodeId) (text : String) (holder : NodeId)
    (after : Document) : Prop where
  | replaced (hholder : doc.textHolder? id = some holder)
      (hview : after.view = doc.view.modify holder fun n => { n with value := text })
  | made (hnone : doc.textHolder? id = none) (hnew : doc.view.node holder = none)
      (hview : after.view =
        (doc.view.addNode holder (.leaf .pcdata "" text)).attach id .last holder)

/-! ## Who holds the text -/

theorem isSome_textOf? (slot : TextSlot) : (doc.textOf? slot).isSome = !slot.isNull := by
  unfold textOf?
  cases slot.isNull <;> rfl

theorem textHolder?_of_contains (hid : doc.contains id = true) :
    doc.textHolder? id = if (doc.labelOf id).holdsText then some id else doc.textChild? id := by
  obtain ⟨r, hr⟩ := contains_iff.1 hid
  have hlabel : (doc.labelOf id).holdsText =
      (r.kind.isText || (r.kind = .element && !r.value.isNull)) := by
    simp only [TreeLabel.holdsText, labelOf, hr, isSome_textOf?]
  rw [hlabel, textHolder?, hr]
  rfl

theorem LaidOut.contains_textHolder? (h : LaidOut doc lay)
    (hholder : doc.textHolder? id = some holder) : doc.contains holder = true := by
  obtain ⟨hid, rfl | hchild⟩ := of_textHolder? hholder
  · exact hid
  · exact contains_of_parent? (h.mem_children.1 hchild)

theorem isText_of_textChild? (h : doc.textChild? id = some holder) :
    (doc.kind holder).isText = true :=
  List.find?_some (p := fun c => (doc.kind c).isText) h

/-- Kinds and lists are all that the first child is found by. -/
theorem SameShape.textChild?_eq (h : SameShape doc after) (id : NodeId) :
    after.textChild? id = doc.textChild? id := by
  have hkind : after.kind = doc.kind := funext h.kind_eq
  rw [textChild?, textChild?, h.children_eq, hkind]

/-! ## Where the text goes -/

/-- The node that holds a text can always be given another one, if that is not too long. -/
theorem LaidOut.setContent_of_textHolder? (h : LaidOut doc lay) (hlegible : doc.Legible)
    (hholder : doc.textHolder? id = some holder) {text : String}
    (hshort : text.utf8ByteSize < 2 ^ 32) :
    doc.setContent id text = (true, (doc.replaceValue holder text).2) := by
  obtain ⟨hset, -⟩ := h.view_replaceValue hlegible holder hshort
  rw [setContent_eq_of_textHolder? hholder]
  exact Prod.ext (hset.trans (h.contains_textHolder? hholder)) rfl

/-- A text that was set is not too long. -/
theorem size_lt_of_setContent {text : String} (hdone : (doc.setContent id text).1 = true) :
    text.utf8ByteSize < 2 ^ 32 := by
  by_contra hlong
  cases hholder : doc.textHolder? id with
  | some holder =>
    rw [setContent_eq_of_textHolder? hholder, replaceValue_of_long hlong] at hdone
    cases hdone
  | none =>
    simp only [setContent, hholder] at hdone
    split at hdone
    · rw [setValue_of_long hlong] at hdone
      cases hdone
    · cases hdone

/-- A new node that is no declaration is put behind the others, which stay as they were. -/
theorem LaidOut.kept_insertChild (h : LaidOut doc lay) (hkind : kind ≠ .declaration)
    (haccepts : doc.accepts parent kind .last = true) :
    ∃ id made, doc.insertChild parent kind .last = (some id, made) ∧
      Kept doc made (· = parent) (fun _ => False) ∧
      made.children parent = doc.children parent ++ [id] ∧ made.kind id = kind := by
  let fresh := (doc.allocNode kind).2
  let id := (doc.allocNode kind).1
  have hmade : doc.insertChild parent kind .last = (some id, fresh.linkAt parent .last id) := by
    rw [insertChild, if_pos haccepts]
    simp only [if_neg hkind]
    rfl
  obtain ⟨hallowed, -, href⟩ := accepts_iff.1 haccepts
  have hsprout := h.sprout (.refl fresh)
  have hfresh : LaidOut fresh lay := h.allocNode kind
  have hlinked := hsprout.laidOut_link h hfresh parent .last hallowed href
  obtain ⟨hlink, hlist⟩ := hfresh.kept_link hlinked
  have hkept : Kept doc (fresh.link parent .last id) (· = parent) (fun _ => False) :=
    (h.kept_allocNode kind).trans_same hlink
  refine ⟨id, fresh.linkAt parent .last id, hmade, hkept.trans_same kept_forgetOrder, ?_,
    (kind_link parent .last id).trans hsprout.kind_eq⟩
  refine (hlinked.lists_eq hlinked.forgetOrder parent).1.trans (hlist.trans ?_)
  rw [(h.lists_eq hfresh parent).1]
  rfl

/-- A child that was made for the text of a node holds it. -/
theorem LaidOut.textHolder?_insertChild (h : LaidOut doc lay) (hlegible : doc.Legible)
    (hnone : doc.textHolder? id = none) (haccepts : doc.accepts id .pcdata .last = true) :
    ∃ child made, doc.insertChild id .pcdata .last = (some child, made) ∧
      made.kind child = .pcdata ∧ made.textHolder? id = some child := by
  obtain ⟨child, made, hmade, hkept, hchildren, hpcdata⟩ :=
    h.kept_insertChild (by decide) haccepts
  have hid : doc.contains id = true := (accepts_iff.1 haccepts).2.1
  have hkind : ∀ c ∈ doc.children id, made.kind c = doc.kind c := fun c hc => by
    rw [← kind_labelOf, ← kind_labelOf, hkept.labelOf_eq h hlegible
      (contains_of_parent? (h.mem_children.1 hc)) fun hfed => hfed]
  rw [textHolder?_of_contains hid] at hnone
  split at hnone
  · cases hnone
  · rename_i hholds
    have hold : ∀ c ∈ doc.children id, ¬ (doc.kind c).isText = true := by
      simpa [textChild?] using hnone
    have hbefore : (doc.children id).find? (fun c => (made.kind c).isText) = none := by
      rw [List.find?_eq_none]
      exact fun c hc => hkind c hc ▸ hold c hc
    refine ⟨child, made, hmade, hpcdata, ?_⟩
    rw [textHolder?_of_contains (hkept.contains hid),
      hkept.labelOf_eq h hlegible hid fun hfed => hfed, if_neg hholds, textChild?, hchildren,
      List.find?_append, hbefore, List.find?_singleton, hpcdata]
    rfl

/-- The node that held the text of another one still does, if it has a text left. -/
theorem LaidOut.textHolder?_replaceValue (h : LaidOut doc lay) (hlegible : doc.Legible)
    (hholder : doc.textHolder? id = some holder) {text : String}
    (hshort : text.utf8ByteSize < 2 ^ 32) :
    (doc.replaceValue holder text).2.textHolder? id =
      if text = "" ∧ doc.kind holder = .element then doc.textChild? id else some holder := by
  have hid : doc.contains id = true := (of_textHolder? hholder).1
  have hthere : doc.contains holder = true := contains_textHolder? h hholder
  have hnew := h.relabelled_replaceValue hlegible hthere hshort
  have hsame : SameShape doc (doc.replaceValue holder text).2 := .replaceValue holder text
  rw [textHolder?_of_contains ((hnew.contains id).trans hid), hsame.textChild?_eq]
  by_cases hself : holder = id
  · subst hself
    rw [hnew.label, TreeLabel.holdsText_withValue, kind_labelOf, isSome_copiedText]
    rcases kind_textHolder? hholder with htext | ⟨helement, -⟩
    · have hne : doc.kind holder ≠ .element := ne_element_of_isText htext
      simp [htext, hne]
    · by_cases hempty : text = "" <;> simp [helement, hempty, NodeKind.isText]
  · -- a child that is character data stays so, and its parent has no more text than before
    have htext : (doc.kind holder).isText = true :=
      (kind_textHolder? hholder).resolve_right fun ⟨_, heq⟩ => hself heq
    rw [hnew.others hid (Ne.symm hself), ← textHolder?_of_contains hid, hholder,
      if_neg fun ⟨_, helement⟩ => ne_element_of_isText htext helement]

/-- What is read as the text of a node once it was replaced. -/
theorem LaidOut.content_replaceValue (h : LaidOut doc lay) (hlegible : doc.Legible)
    (hholder : doc.textHolder? id = some holder) {text : String}
    (hshort : text.utf8ByteSize < 2 ^ 32) :
    (doc.replaceValue holder text).2.content id = text ↔
      ¬ (text = "" ∧ doc.kind holder = .element ∧ doc.childText id ≠ "") := by
  have hnew := h.relabelled_replaceValue hlegible (h.contains_textHolder? hholder) hshort
  rw [content, h.textHolder?_replaceValue hlegible hholder hshort]
  by_cases hslip : text = "" ∧ doc.kind holder = .element
  · obtain ⟨rfl, helement⟩ := hslip
    -- the first child that is character data is not the element, and so reads as it did
    have hchild : (doc.textChild? id).elim "" (doc.replaceValue holder "").2.value =
        doc.childText id := by
      rw [childText]
      cases hc : doc.textChild? id with
      | none => rfl
      | some c =>
        have hparent : doc.parent? c = some id := h.mem_children.1 (List.mem_of_find?_eq_some hc)
        have hne : c ≠ holder := by
          rintro rfl
          exact ne_element_of_isText (isText_of_textChild? hc) helement
        simp only [Option.elim_some, ← valueText_labelOf,
          hnew.others (contains_of_parent? hparent) hne]
    rw [if_pos ⟨rfl, helement⟩, hchild]
    simp [helement]
  · have hvalue : (doc.replaceValue holder text).2.value holder = text := by
      rw [← valueText_labelOf, hnew.label]
      exact copiedText_getD (some text)
    rw [if_neg hslip, Option.elim_some, hvalue]
    exact ⟨fun _ ⟨hempty, helement, _⟩ => hslip ⟨hempty, helement⟩, fun _ => rfl⟩

/-! ## What is set -/

/-- A text goes to one node, if there is one for it or may be one, and it is not too long. -/
theorem Whole.setsText (h : Whole doc) (hlegible : doc.Legible)
    (hroom : doc.textHolder? id = none → doc.accepts id .pcdata .last = true) {text : String}
    (hshort : text.utf8ByteSize < 2 ^ 32) :
    (doc.setContent id text).1 = true ∧
      ∃ holder, doc.SetsText id text holder (doc.setContent id text).2 := by
  cases hholder : doc.textHolder? id with
  | some holder =>
    obtain ⟨lay, hrooted⟩ := h
    rw [hrooted.toLaidOut.setContent_of_textHolder? hlegible hholder hshort]
    exact ⟨rfl, holder,
      .replaced hholder (hrooted.toLaidOut.view_replaceValue hlegible _ hshort).2⟩
  | none =>
    obtain ⟨child, made, -, -, -, hset, hnew, hview⟩ :=
      h.view_setNewContent hlegible hholder (hroom hholder) hshort
    rw [hset]
    exact ⟨rfl, child, .made hholder hnew hview⟩

/-- There is room for a text that was set. -/
theorem accepts_of_setContent {text : String} (hdone : (doc.setContent id text).1 = true)
    (hnone : doc.textHolder? id = none) : doc.accepts id .pcdata .last = true := by
  by_contra hrefused
  simp only [setContent, hnone, insertChild_of_not_accepts hrefused] at hdone
  cases hdone

theorem ne_element_of_node_view (hnew : doc.view.node id = none) : doc.kind id ≠ .element := by
  intro helement
  have hthere : doc.contains id = true := contains_of_kind_ne (by rw [helement]; decide)
  rw [node_view_eq_none.1 hnew] at hthere
  cases hthere

theorem accepts_of_element (h : doc.kind id = .element) :
    doc.accepts id .pcdata .last = true :=
  accepts_iff.2 ⟨by rw [h]; rfl, contains_of_kind_ne (by rw [h]; decide),
    fun r hr => by cases hr⟩

/-- The value that stands in a view is the one that is read. -/
theorem value_of_node_view {x : NodeId} {value : String}
    (h : (doc.view.node x).map NodeView.value = some value) :
    doc.contains x = true ∧ doc.value x = value := by
  obtain ⟨n, hn, rfl⟩ := Option.map_eq_some_iff.1 h
  have hx : doc.contains x = true := by
    by_contra hx
    rw [node_view_eq_none.2 (Bool.eq_false_of_not_eq_true hx)] at hn
    cases hn
  rw [show doc.view.node x = some _ from if_pos hx] at hn
  cases hn
  exact ⟨hx, rfl⟩

/-- An element that a text went to is the one whose text was set, and stays an element. -/
theorem SetsText.element_after {text : String}
    (h : doc.SetsText id text holder (doc.setContent id text).2)
    (helement : doc.kind holder = .element) : (doc.setContent id text).2.kind id = .element := by
  cases h with
  | replaced hholder _ =>
    have hself : holder = id := ((kind_textHolder? hholder).resolve_left fun htext =>
      ne_element_of_isText htext helement).2
    have hsame : SameShape doc (doc.replaceValue holder text).2 := .replaceValue holder text
    rw [setContent_eq_of_textHolder? hholder, hsame.kind_eq, ← hself, helement]
  | made _ hnew _ => exact absurd helement (ne_element_of_node_view hnew)

/-- The node that a text went to has it. -/
theorem SetsText.value_eq {text : String} (h : doc.SetsText id text holder after)
    (hlaid : LaidOut doc lay) : after.contains holder = true ∧ after.value holder = text := by
  apply value_of_node_view
  cases h with
  | replaced hholder hview =>
    obtain ⟨n, hn, -⟩ := node_view_of_contains (hlaid.contains_textHolder? hholder)
    simp [hview, TreeView.modify, hn]
  | made _ _ hview => simp [hview, TreeView.attach, TreeView.addNode, NodeView.leaf]

/-- A text that was set is held by the node that it went to, unless that is an element and the
text is empty. -/
theorem Whole.holds_setContent (h : Whole doc) (hlegible : doc.Legible) {text : String}
    (hdone : (doc.setContent id text).1 = true) :
    let after := (doc.setContent id text).2
    ∃ holder, doc.SetsText id text holder after ∧
      (after.textHolder? id =
        if text = "" ∧ doc.kind holder = .element then doc.textChild? id else some holder) ∧
      (after.content id = text ↔
        ¬ (text = "" ∧ doc.kind holder = .element ∧ doc.childText id ≠ "")) := by
  intro after
  have hshort := size_lt_of_setContent hdone
  cases hholder : doc.textHolder? id with
  | some holder =>
    obtain ⟨lay, hrooted⟩ := h
    have hlaid := hrooted.toLaidOut
    have hafter : after = (doc.replaceValue holder text).2 :=
      congrArg Prod.snd (setContent_eq_of_textHolder? hholder text)
    rw [hafter]
    exact ⟨holder, .replaced hholder (hlaid.view_replaceValue hlegible _ hshort).2,
      hlaid.textHolder?_replaceValue hlegible hholder hshort,
      hlaid.content_replaceValue hlegible hholder hshort⟩
  | none =>
    have haccepts := accepts_of_setContent hdone hholder
    obtain ⟨child, made, hmade, ⟨lay', hrooted'⟩, hlegible', hset, hnew, hview⟩ :=
      h.view_setNewContent hlegible hholder haccepts hshort
    obtain ⟨lay, hrooted⟩ := h
    obtain ⟨child', made', hmade', hpcdata, hheld⟩ :=
      hrooted.toLaidOut.textHolder?_insertChild hlegible hholder haccepts
    obtain ⟨rfl, rfl⟩ : child = child' ∧ made = made' := by
      simpa using hmade.symm.trans hmade'
    have hafter : after = (made.replaceValue child text).2 := by
      show (doc.setContent id text).2 = _
      rw [hset]
    have hold : doc.kind child ≠ .element := ne_element_of_node_view hnew
    have hmadeKind : made.kind child ≠ .element := by
      rw [hpcdata]
      decide
    have hholds := hrooted'.toLaidOut.textHolder?_replaceValue hlegible' hheld hshort
    have hreads := hrooted'.toLaidOut.content_replaceValue hlegible' hheld hshort
    rw [hafter]
    refine ⟨child, .made hholder hnew hview, ?_, ?_⟩
    · rw [hholds, if_neg fun ⟨_, h⟩ => hmadeKind h, if_neg fun ⟨_, h⟩ => hold h]
    · simpa only [hold, hmadeKind, false_and, and_false] using hreads

/-! ## What is read back -/

/-- Whatever was done to a document before, a text that is set goes to one node and nothing else
changes, up to one new child.  Unless an element that keeps its text itself gets the empty one,
that node still holds the text, so that it is read back and replaced by the next one.  Only a text
that is too long cannot follow. -/
theorem reachable_setContent (h : Reachable doc) (id : NodeId) (text : String)
    (hdone : (doc.setContent id text).1 = true) :
    let after := (doc.setContent id text).2
    ∃ holder, doc.SetsText id text holder after ∧ after.value holder = text ∧
      (after.textHolder? id = some holder ↔ ¬ (text = "" ∧ doc.kind holder = .element)) ∧
      (after.content id = text ↔
        ¬ (text = "" ∧ doc.kind holder = .element ∧ doc.childText id ≠ "")) ∧
      ∀ second, ((after.setContent id second).1 = true ↔ second.utf8ByteSize < 2 ^ 32) ∧
        ((after.setContent id second).1 = true →
          ∃ next, after.SetsText id second next (after.setContent id second).2 ∧
            (next = holder ↔ ¬ (text = "" ∧ doc.kind holder = .element))) := by
  intro after
  have hafter : Reachable after := .change (.setContent id text) h fun s hs => by cases hs
  obtain ⟨lay, hrooted⟩ := h.whole
  obtain ⟨holder, hsets, hholds, hreads⟩ := h.whole.holds_setContent h.legible hdone
  obtain ⟨hthere, hvalue⟩ := hsets.value_eq hrooted.toLaidOut
  have hstays : after.textHolder? id = some holder ↔
      ¬ (text = "" ∧ doc.kind holder = .element) := by
    rw [hholds]
    split
    · rename_i hslip
      exact iff_of_false (fun hchild => ne_element_of_isText (isText_of_textChild? hchild) hslip.2)
        (not_not.2 hslip)
    · rename_i hslip
      exact iff_of_true rfl hslip
  have hroom : after.textHolder? id = none → after.accepts id .pcdata .last = true := by
    intro hnone
    have hslip : text = "" ∧ doc.kind holder = .element := by
      by_contra hnot
      rw [hstays.2 hnot] at hnone
      cases hnone
    exact accepts_of_element (hsets.element_after hslip.2)
  refine ⟨holder, hsets, hvalue, hstays, hreads, fun second =>
    ⟨⟨size_lt_of_setContent, fun hshort => ?_⟩, fun hsecond => ?_⟩⟩
  · exact (hafter.whole.setsText hafter.legible hroom hshort).1
  obtain ⟨-, next, hnext⟩ :=
    hafter.whole.setsText hafter.legible hroom (size_lt_of_setContent hsecond)
  refine ⟨next, hnext, Iff.trans ?_ hstays⟩
  cases hnext with
  | replaced hnext _ => rw [hnext, Option.some_inj]
  | made hnone hnew _ =>
    rw [hnone]
    refine iff_of_false ?_ fun h => by cases h
    rintro rfl
    rw [node_view_eq_none.1 hnew] at hthere
    cases hthere

/-- The empty text is set in an element that keeps its text itself and has more text below it. -/
theorem setContent_embedded :
    let doc := new.applyAll [.loadString "<a>x<b/>y</a>" (ParseOptions.default.union .embedPcdata)]
    let after := (doc.setContent ⟨⟨1, 1⟩⟩ "").2
    (doc.setContent ⟨⟨1, 1⟩⟩ "").1 = true ∧ after.content ⟨⟨1, 1⟩⟩ = "y" ∧
      ∃ holder, doc.SetsText ⟨⟨1, 1⟩⟩ "" holder after ∧ after.value holder = "" ∧
        (after.textHolder? ⟨⟨1, 1⟩⟩ = some holder ↔ ¬ ("" = "" ∧ doc.kind holder = .element)) ∧
        (after.content ⟨⟨1, 1⟩⟩ = "" ↔
          ¬ ("" = "" ∧ doc.kind holder = .element ∧ doc.childText ⟨⟨1, 1⟩⟩ ≠ "")) ∧
        ∀ second, ((after.setContent ⟨⟨1, 1⟩⟩ second).1 = true ↔
            second.utf8ByteSize < 2 ^ 32) ∧
          ((after.setContent ⟨⟨1, 1⟩⟩ second).1 = true →
            ∃ next, after.SetsText ⟨⟨1, 1⟩⟩ second next (after.setContent ⟨⟨1, 1⟩⟩ second).2 ∧
              (next = holder ↔ ¬ ("" = "" ∧ doc.kind holder = .element))) := by
  intro doc after
  have hdone : (doc.setContent ⟨⟨1, 1⟩⟩ "").1 = true := by decide +kernel
  have hreachable : doc.Reachable := Reachable.new.applyAll (by decide)
  exact ⟨hdone, by decide +kernel, reachable_setContent hreachable _ _ hdone⟩

end Document

end XmlTree
