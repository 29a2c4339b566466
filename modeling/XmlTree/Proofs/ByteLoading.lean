/-
  Proofs/ByteLoading.lean --- loading a text is total and safe.

  WHAT THIS FILE IS FOR.  The pass over the bytes of a text is put into its place: the text
  becomes a buffer of the document, the pass builds below a node, and in the end the children
  that were added are searched for an element.  Those are found by going on from the child
  that was the last one before.  This is right because a load adds children of the node behind
  those it had, and takes none away.
-/
import XmlTree.Proofs.ByteReading
import XmlTree.Proofs.Order

set_option autoImplicit false

namespace XmlTree

open Document

/-! ## New children come last -/

/-- A node keeps its children, and new ones come behind them. -/
def Document.Gains (base : NodeId) (doc doc' : Document) : Prop :=
  ∃ added, doc'.children base = doc.children base ++ added

namespace Document.Gains

variable {doc doc' doc'' : Document} {base : NodeId}

theorem of_eq (h : doc'.children base = doc.children base) : Gains base doc doc' :=
  ⟨[], by rw [h, List.append_nil]⟩

theorem refl (doc : Document) : Gains base doc doc := of_eq rfl

theorem trans (h : Gains base doc doc') (h' : Gains base doc' doc'') : Gains base doc doc'' := by
  obtain ⟨added, hadded⟩ := h
  obtain ⟨added', hadded'⟩ := h'
  exact ⟨added ++ added', by rw [hadded', hadded, List.append_assoc]⟩

theorem of_sameShape (h : SameShape doc doc') : Gains base doc doc' := of_eq (h.children_eq base)

theorem of_sameOrder (h : SameOrder doc doc') : Gains base doc doc' := of_eq (h.children_eq base)

end Document.Gains

namespace TreeBuilder

variable {b : TreeBuilder} {target : LoadTarget} {belowDocument : Bool} {p : EventPlace}

theorem gains_conversionSlot {b' : TreeBuilder} {raw : Span} {conversion : Conversion}
    {slot : TextSlot} (hslot : b.conversionSlot target raw conversion = (some slot, b')) :
    Gains target.base b.doc b'.doc := by
  obtain ⟨doc, heq, hsame⟩ := conversionSlot_snd b target raw conversion
  obtain rfl : b' = { b with doc } := (congrArg Prod.snd hslot).symm.trans heq
  exact .of_sameShape hsame

/-- A node is pushed below the base, or below an open element. -/
theorem gains_push (h : Building belowDocument target b p) {kind : NodeKind}
    (name value : TextSlot) (hallowed : (b.doc.kind (b.cursor target)).allowsChild kind = true) :
    Gains target.base b.doc (b.push target kind name value).2.doc := by
  have hbase := contains_of_hasChildren h.base
  obtain ⟨lay, hrooted⟩ := h.whole
  obtain ⟨doc, openNodes, owner⟩ := b
  obtain ⟨hadded, -⟩ := hrooted.added name value hallowed
  by_cases hcursor : target.base = TreeBuilder.cursor ⟨doc, openNodes, owner⟩ target
  · refine ⟨[(doc.allocNode kind).1], ?_⟩
    rw [hcursor]
    exact hadded.children
  · exact .of_eq (hadded.kept.children hbase hcursor)

theorem gains_addText (h : Building belowDocument target b p) (raw : Span) (closing : Bool) :
    Gains target.base b.doc (b.addText target raw closing).2.doc := by
  refine addText_induction (P := fun b' => Gains target.base b.doc b'.doc) (.refl _) ?_ ?_ ?_
  · intro _ _ slot b' hslot
    exact (gains_conversionSlot hslot).trans (.of_sameShape (.modifyNode _ fun _ => rfl))
  · intro previous _ value
    exact .of_sameShape (.replaceValue _ _)
  · intro _ slot b' hslot
    have hdone := (h.conversionSlot hslot).1
    exact (gains_conversionSlot hslot).trans (gains_push hdone _ _ (hdone.cursor_allows (by decide)))

theorem gains_addSection (h : Building belowDocument target b p) {kind : NodeKind} (raw : Span)
    (hkind : kind ∉ [NodeKind.null, .document, .declaration, .doctype]) :
    Gains target.base b.doc (b.addSection target kind raw).2.doc := by
  refine withSlot_induction (P := fun b' => Gains target.base b.doc b'.doc) (.refl _)
    fun slot b' hslot => ?_
  have hdone := (h.conversionSlot hslot).1
  exact (gains_conversionSlot hslot).trans (gains_push hdone _ _ (hdone.cursor_allows hkind))

theorem gains_addAttribute (b : TreeBuilder) (target : LoadTarget) (name : Span)
    (raw : Option Span) : Gains target.base b.doc (b.addAttribute target name raw).2.doc := by
  have hnamed : Gains target.base b.doc (b.addAttributeName target name).2.doc := by
    have hlinked : Gains target.base b.doc
        (b.doc.allocAttr.2.linkAttr b.owner .last b.doc.allocAttr.1) :=
      (Gains.of_sameOrder .allocAttr).trans (.of_sameOrder (.linkAttr _ _ _))
    exact hlinked.trans (.of_sameShape (.modifyAttr _ fun _ => rfl))
  cases raw with
  | none => exact hnamed
  | some raw =>
    refine withSlot_induction (P := fun b' => Gains target.base b.doc b'.doc) hnamed
      fun slot b' hslot => ?_
    exact (hnamed.trans (gains_conversionSlot hslot)).trans
      (.of_sameShape (.modifyAttr _ fun _ => rfl))

/-- Whatever an event adds, the base keeps its children. -/
theorem gains_add (h : Building belowDocument target b p) {e : LoadEvent}
    (he : e.Fits belowDocument p) : Gains target.base b.doc (b.after target e).doc := by
  cases e with
  | text raw closing => exact gains_addText h raw closing
  | openElement name => exact gains_push h _ _ (h.cursor_allows (by decide))
  | closeElement => exact .refl _
  | «attribute» name raw => exact gains_addAttribute b target name raw
  | comment raw => exact gains_addSection h raw (by decide)
  | cdata raw => exact gains_addSection h raw (by decide)
  | pi name value => exact gains_push h _ _ (h.cursor_allows (by decide))
  | declaration name => exact gains_push h _ _ (h.cursor_allows_top he.1 he.2 (by decide))
  | doctype body => exact gains_push h _ _ (h.cursor_allows_top he.1 he.2 (by decide))

theorem gains_foldl (h : Building belowDocument target b p) {es : List LoadEvent}
    (hes : FitsAll belowDocument p es) :
    Gains target.base b.doc (es.foldl (after target) b).doc := by
  induction es generalizing b p with
  | nil => exact .refl _
  | cons e es ih =>
    obtain ⟨he, hrest⟩ := hes
    exact (gains_add h he).trans (ih (h.add he) hrest)

end TreeBuilder

/-! ## Loading under watch -/

namespace Watch

/-- Whether an element is among the siblings from a node on; none after too many rounds. -/
def elementFrom? (doc : Document) : Nat → Option NodeId → Option Bool
  | 0, _ => none
  | _ + 1, none => some false
  | rounds + 1, some c =>
    if doc.kind c == .element then some true else elementFrom? doc rounds (doc.nextSibling? c)

/-- The first child that was added behind the one that was the last. -/
def firstAdded? (doc : Document) (base : NodeId) (before : Option NodeId) : Option NodeId :=
  match before with
  | some c => doc.nextSibling? c
  | none => doc.firstChild? base

/-- How loading ends after the pass: a text needs an element at its top, unless a fragment is
allowed. -/
def settle (target : LoadTarget) (last : Nat) (before : Option NodeId) :
    Except LoadStop TreeBuilder → Except LoadAlarm (LoadFault × Document)
  | .error (.alarm a) => .error a
  | .error (.fault status offset doc) => .ok (⟨status, min offset last⟩, doc)
  | .ok b =>
    if target.options.contains .fragment then .ok (⟨.ok, 0⟩, b.doc)
    else
      match elementFrom? b.doc (b.doc.nodes.slotCount + 1)
          (firstAdded? b.doc target.base before) with
      | none => .error .tooManyRounds
      | some true => .ok (⟨.ok, 0⟩, b.doc)
      | some false => .ok (⟨.noDocumentElement, last⟩, b.doc)

/-- Adds what a text says below a node.  Answers how it ended and where. -/
def load (doc : Document) (base : NodeId) (text : String) (options : ParseOptions) :
    Except LoadAlarm (LoadFault × Document) :=
  let (buffer, texts) := doc.texts.addBuffer text
  let doc := { doc with texts }
  if text.isEmpty then .ok (⟨.ok, 0⟩, doc)
  else
    let target : LoadTarget := ⟨base, buffer, options⟩
    settle target (text.utf8ByteSize - 1) (doc.lastChild? base)
      (run target (text.utf8ByteSize + 1) (.ofText text) ⟨doc, [], base⟩)

variable {doc doc' : Document} {base : NodeId}

theorem elementFrom?_eq {rounds : Nat} {start : Option NodeId} {xs : List NodeId}
    (h : Reads doc.nextSibling? start xs) (hrounds : xs.length < rounds) :
    elementFrom? doc rounds start = some (xs.any fun c => doc.kind c == .element) := by
  induction xs generalizing start rounds with
  | nil =>
    obtain rfl : start = none := h.head?
    obtain ⟨rounds, rfl⟩ := Nat.exists_eq_add_one_of_ne_zero (Nat.ne_zero_of_lt hrounds)
    rfl
  | cons x xs ih =>
    obtain rfl : start = some x := h.head?
    obtain ⟨rounds, rfl⟩ := Nat.exists_eq_add_one_of_ne_zero (Nat.ne_zero_of_lt hrounds)
    rw [elementFrom?, List.any_cons]
    cases doc.kind x == .element with
    | true => rfl
    | false => exact ih h.2 (Nat.lt_of_succ_lt_succ hrounds)

/-- The search goes through the children that were added. -/
theorem elementFrom?_firstAdded? (hwhole : Whole doc) (hwhole' : Whole doc')
    {added : List NodeId} (hadded : doc'.children base = doc.children base ++ added) :
    elementFrom? doc' (doc'.nodes.slotCount + 1) (firstAdded? doc' base (doc.lastChild? base)) =
      some (added.any fun c => doc'.kind c == .element) := by
  obtain ⟨lay, hrooted⟩ := hwhole
  obtain ⟨lay', hrooted'⟩ := hwhole'
  have hspells := hrooted'.childLists.spells base
  rw [← hrooted'.children_eq, hadded] at hspells
  have hlast : doc.lastChild? base = (doc.children base).getLast? := by
    rw [lastChild?_eq, hrooted.children_eq]
    exact (hrooted.childLists.spells base).last
  have hreads : Reads doc'.nextSibling? (firstAdded? doc' base (doc.lastChild? base)) added := by
    rw [hlast]
    -- if there was no child before, the search begins at the first one
    obtain hnil | ⟨cs, c, hcs⟩ := List.eq_nil_or_concat' (doc.children base)
    · rw [hnil, List.nil_append] at hspells
      rw [hnil, List.getLast?_nil, firstAdded?, firstChild?_eq]
      exact hspells.reads_forwards fun x _ => nextSibling?_eq x
    · rw [hcs, List.append_assoc] at hspells
      rw [hcs, List.getLast?_concat, firstAdded?]
      exact hspells.reads_after fun x _ => nextSibling?_eq x
  -- siblings are different nodes, so there are no more of them than slots
  refine elementFrom?_eq hreads (Nat.lt_succ_of_le ?_)
  have hsub : added.Sublist (doc'.children base) := by
    rw [hadded]
    exact List.sublist_append_right _ _
  refine LaidOut.length_le_walkLimit ((hrooted'.forest.nodup base).sublist hsub) fun c hc => ?_
  exact contains_of_parent? (hrooted'.mem_children.1 (hsub.subset hc))

/-- After the pass, loading ends as it does without watch. -/
theorem settle_eq {target : LoadTarget} {b : TreeBuilder} {t : Transcript} {added : List NodeId}
    (last : Nat) :
    let done := b.carriedOut target t
    let built := (done.events.foldl (TreeBuilder.after target) b).doc
    Whole b.doc → Whole built →
      built.children target.base = b.doc.children target.base ++ added →
      settle target last (b.doc.lastChild? target.base) (t.built target b) =
        .ok (match done.fault with
          | some fault => ⟨fault.status, min fault.offset last⟩
          | none =>
            if target.options.contains .fragment ||
                ((built.children target.base).drop (b.doc.children target.base).length).any
                  fun c => built.kind c == .element
            then ⟨.ok, 0⟩ else ⟨.noDocumentElement, last⟩, built) := by
  intro done built hwhole hbuilt hadded
  have hsearch := elementFrom?_firstAdded? hwhole hbuilt hadded
  rw [Transcript.built, Transcript.comesTo]
  cases done.fault with
  | some fault => rfl
  | none =>
    rw [hadded, List.drop_left]
    dsimp only
    rw [settle, hsearch]
    cases target.options.contains .fragment with
    | true => rfl
    | false => cases added.any fun c => built.kind c == .element <;> rfl

end Watch

namespace Document

variable {doc : Document} {base : NodeId}

/-- A fault is reported inside the text, whatever the document is like. -/
theorem offset_loadBelow_lt (doc : Document) (base : NodeId) (text : String)
    (options : ParseOptions) (hfailed : (doc.loadBelow base text options).1.status ≠ .ok) :
    (doc.loadBelow base text options).1.offset < text.utf8ByteSize := by
  cases hempty : text.isEmpty with
  | true =>
    simp only [loadBelow, hempty, if_true] at hfailed
    exact absurd rfl hfailed
  | false =>
    have hlast : text.utf8ByteSize - 1 < text.utf8ByteSize := by
      refine Nat.sub_one_lt fun hzero => ?_
      rw [String.isEmpty, hzero] at hempty
      cases hempty
    rw [loadBelow_eq]
    dsimp only
    split
    · exact Nat.lt_of_le_of_lt (Nat.min_le_right _ _) hlast
    · split
      · exact Nat.zero_lt_of_lt hlast
      · exact hlast

/-- Loading comes to an end and nothing goes wrong on the way: under watch it comes to the same,
and no alarm is raised.  A fault is reported inside the text. -/
theorem loadBelow_watched (hwhole : Whole doc) (hbase : (doc.kind base).hasChildren = true)
    {text : String} (hshort : text.utf8ByteSize < 2 ^ 32) (options : ParseOptions) :
    Watch.load doc base text options = .ok (doc.loadBelow base text options) ∧
      ((doc.loadBelow base text options).1.status ≠ .ok →
        (doc.loadBelow base text options).1.offset < text.utf8ByteSize) := by
  refine ⟨?_, offset_loadBelow_lt doc base text options⟩
  let buffered : Document := { doc with texts := (doc.texts.addBuffer text).2 }
  let mode : ReaderMode := ⟨options, buffered.kind base == .document⟩
  let target : LoadTarget := ⟨base, (doc.texts.addBuffer text).1, options⟩
  let start : TreeBuilder := ⟨buffered, [], base⟩
  have hbuffered : Whole buffered := hwhole.sameShape (.ofTexts _)
  have hbuilding : Building mode.belowDocument target start ⟨0, false⟩ :=
    .start hbuffered hbase fun hdocument => beq_iff_eq.1 hdocument
  have htracks : start.Tracks mode.belowDocument target text [] false :=
    { building := hbuilding
      top := rfl
      short := hshort
      source := (doc.texts.extends_addBuffer text).2
      named := .nil }
  have hfits := Transcript.ofText_fits mode text.toList
  have hdone := (TreeBuilder.heeded_cutShort target start _).fits hfits
  obtain ⟨added, hadded⟩ := TreeBuilder.gains_foldl hbuilding hdone
  have hon : Cursor.On text.toList (.ofText text.toList) := ⟨[], rfl, rfl⟩
  have hrun : Watch.run target (text.utf8ByteSize + 1) (.ofText text) start =
      (Transcript.ofText mode text.toList).built target start :=
    Watch.run_eq (Watch.length_lt_size hon) htracks hon
  cases hempty : text.isEmpty with
  | true =>
    rw [Watch.load, loadBelow, hempty]
    rfl
  | false =>
    rw [Watch.load, hempty, loadBelow_eq, hempty]
    refine (congrArg (Watch.settle target _ _) hrun).trans ?_
    exact Watch.settle_eq _ hbuffered (hbuilding.foldl_add hdone).whole hadded

/-- The end tag of another element is found behind characters of several bytes. -/
theorem loadBelow_watched_mismatch :
    let text := "<é a='ü'>€</ö>"
    (Whole new ∧ (new.kind new.root).hasChildren = true ∧ text.utf8ByteSize < 2 ^ 32) ∧
      Watch.load new new.root text .default = .ok (new.loadBelow new.root text .default) ∧
      (new.loadBelow new.root text .default).1 = ⟨.endElementMismatch, 16⟩ ∧
      (new.loadBelow new.root text .default).1.offset < text.utf8ByteSize :=
  have hchildren : (new.kind new.root).hasChildren = true := by decide
  have hshort : "<é a='ü'>€</ö>".utf8ByteSize < 2 ^ 32 := by decide
  have houtcome : (new.loadBelow new.root "<é a='ü'>€</ö>" .default).1 =
      ⟨.endElementMismatch, 16⟩ := by decide +kernel
  have hwatched := loadBelow_watched whole_new hchildren hshort .default
  ⟨⟨whole_new, hchildren, hshort⟩, hwatched.1, houtcome, hwatched.2 (by rw [houtcome]; decide)⟩

end Document

end XmlTree
