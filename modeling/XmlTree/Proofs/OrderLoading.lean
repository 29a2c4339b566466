/-
  Proofs/OrderLoading.lean --- a loaded tree stands in the order it was made in.

  WHAT THIS FILE IS FOR.  A document that was just emptied compares nodes by serial
  numbers, and a load adds nodes to it.  Each new node goes to the end of the children of
  the innermost open element, and everything that was made before comes before it in the
  walk, because the open elements lie on the spine of the tree: each is the last child of
  the one around it.
-/
import XmlTree.Proofs.Loading
import XmlTree.Proofs.Order

set_option autoImplicit false

namespace XmlTree

open Document

namespace Document

/-! ## The open elements -/

/-- The cursor lies on the spine of the tree, with the given nodes above it, and serial
numbers grow along the walk. -/
structure InStep (doc : Document) (cursor : NodeId) (outer : List NodeId) : Prop where
  path : Reads doc.parent? (doc.parent? cursor) outer
  spine : ∃ o : Outline NodeId, o.top = doc.root ∧ o.Follows doc.children ∧ o.OnSpine cursor
  serials : Increasing doc.serial? doc.preorder
  made : ∀ x n, doc.serial? x = some n → n < doc.made

namespace InStep

variable {doc doc' : Document} {cursor c : NodeId} {outer : List NodeId}

/-- Texts and attributes do not matter. -/
theorem sameOrder (h : InStep doc cursor outer) (hsame : SameOrder doc doc') :
    InStep doc' cursor outer where
  path := by
    rw [hsame.parent?_eq]
    exact h.path.congr fun x _ => hsame.parent?_eq x
  spine := by
    obtain ⟨o, htop, ho, hspine⟩ := h.spine
    exact ⟨o, htop.trans hsame.root.symm, ho.congr fun x _ => hsame.children_eq x, hspine⟩
  serials := by
    rw [hsame.preorder_eq, funext hsame.serial?_eq]
    exact h.serials
  made x n hn := by
    rw [hsame.serial?_eq] at hn
    rw [hsame.made]
    exact h.made x n hn

/-- The innermost element is closed. -/
theorem close (h : InStep doc c (cursor :: outer)) (hwhole : Whole doc) :
    InStep doc cursor outer := by
  obtain ⟨lay, hrooted⟩ := hwhole
  have hparent : doc.parent? c = some cursor := h.path.head?
  have hpath := h.path
  rw [hparent] at hpath
  obtain ⟨o, htop, ho, hspine⟩ := h.spine
  have hne : c ≠ o.top := by
    intro heq
    rw [heq, htop, hrooted.parent?_root] at hparent
    cases hparent
  obtain ⟨y, hy, hspiney⟩ := hspine.exists_above ho hne
  have hmem := hrooted.mem_children.1 hy
  rw [hparent] at hmem
  cases hmem
  exact ⟨hpath.2, ⟨o, htop, ho, hspiney⟩, h.serials, h.made⟩

/-- A new node comes last in the walk, and the node that it stands below and the node
itself are on the spine. -/
theorem grow (h : InStep doc cursor outer) (hwhole : Whole doc) (hwhole' : Whole doc')
    (hgrown : Grown doc doc' []) {id : NodeId} (hfresh : doc.contains id = false)
    (hparent : doc'.parent? id = some cursor)
    (hchildren : ∀ x, doc'.children x =
      if x = cursor then doc.children x ++ [id] else doc.children x)
    (hserial : ∀ x, doc'.serial? x = if x = id then some doc.made else doc.serial? x)
    (hmade : doc'.made = doc.made + 1) :
    InStep doc' cursor outer ∧ InStep doc' id (cursor :: outer) := by
  obtain ⟨lay, hrooted⟩ := hwhole
  obtain ⟨lay', hrooted'⟩ := hwhole'
  obtain ⟨o, htop, ho, hspine⟩ := h.spine
  have hwalk := hrooted.preorder_eq_flatten ho htop
  have hlive : ∀ x ∈ o.flatten, doc.contains x = true := fun x hx =>
    hrooted.mem_preorder.1 (hwalk ▸ hx)
  have hcursor : doc.contains cursor = true := hlive cursor hspine.mem_flatten
  have hne : ∀ {x}, doc.contains x = true → x ≠ id := by
    rintro x hx rfl
    rw [hfresh] at hx
    cases hx
  have hleaf : doc.children id = [] := by
    refine List.eq_nil_iff_forall_not_mem.2 fun c hc => ?_
    exact hne (hrooted.contains_parent (hrooted.mem_children.1 hc)) rfl
  have hcursors : doc'.children cursor = doc.children cursor ++ [id] := by
    rw [hchildren, if_pos rfl]
  have hleaf' : doc'.children id = [] := by rw [hchildren, if_neg (hne hcursor).symm, hleaf]
  obtain ⟨o', htop', ho', hflatten, hspinec, hspinei⟩ := hspine.push ho
    (hwalk ▸ hrooted.preorder_nodup) hcursors hleaf' fun y _ hy => by rw [hchildren, if_neg hy]
  have htop'' : o'.top = doc'.root := by rw [htop', htop, hgrown.root]
  have hwalk' : doc'.preorder = doc.preorder ++ [id] := by
    rw [hrooted'.preorder_eq_flatten ho' htop'', hflatten, hwalk]
  have hold : ∀ x, doc.contains x = true → doc'.serial? x = doc.serial? x := fun x hx => by
    rw [hserial, if_neg (hne hx)]
  have hserials : Increasing doc'.serial? doc'.preorder := by
    rw [hwalk']
    refine (h.serials.congr fun x hx => hold x (hrooted.mem_preorder.1 hx)).append_singleton
      (by rw [hserial, if_pos rfl]) fun y hy n hn => ?_
    rw [hold y (hrooted.mem_preorder.1 hy)] at hn
    exact h.made y n hn
  have hmades : ∀ x n, doc'.serial? x = some n → n < doc'.made := by
    intro x n hn
    rw [hserial] at hn
    rw [hmade]
    split at hn
    · cases hn
      exact Nat.lt_succ_self _
    · exact Nat.lt_succ_of_lt (h.made x n hn)
  have hpath : Reads doc'.parent? (doc'.parent? cursor) outer := by
    rw [hgrown.parent? hcursor]
    refine h.path.congr fun x hx => hgrown.parent? ?_
    exact hrooted.contains_above hcursor (h.path.below hx)
  refine ⟨⟨hpath, ⟨o', htop'', ho', hspinec⟩, hserials, hmades⟩,
    ⟨?_, ⟨o', htop'', ho', hspinei⟩, hserials, hmades⟩⟩
  rw [hparent]
  exact ⟨rfl, hpath⟩

theorem serial?_link (parent : NodeId) (place : Place NodeId) (id x : NodeId) :
    (doc.link parent place id).serial? x = doc.serial? x := by
  rw [serial?, node?_link, Option.map_map, serial?]
  rfl

theorem serial?_allocNode (h : doc.nodes.Sound) (kind : NodeKind) (x : NodeId) :
    (doc.allocNode kind).2.serial? x =
      if x = (doc.allocNode kind).1 then some doc.made else doc.serial? x := by
  rw [serial?, node?_allocNode h]
  split
  · rfl
  · rfl

/-- A new node gets its texts and is put at the end of the children of the cursor. -/
theorem push (h : InStep doc cursor outer) (hwhole : Whole doc) {kind : NodeKind}
    (hsame : SameShape (doc.allocNode kind).2 doc')
    (hallowed : (doc.kind cursor).allowsChild kind = true) :
    InStep (doc'.link cursor .last (doc.allocNode kind).1) cursor outer ∧
      InStep (doc'.link cursor .last (doc.allocNode kind).1) (doc.allocNode kind).1
        (cursor :: outer) := by
  obtain ⟨lay, hrooted⟩ := id hwhole
  have hsprout := hrooted.toLaidOut.sprout hsame
  have hlaid' : LaidOut doc' lay := (hrooted.toLaidOut.allocNode kind).sameShape hsame
  have hlinked := hsprout.laidOut_link hrooted.toLaidOut hlaid' cursor .last hallowed
    (by simp [Place.reference?])
  have hgrown : Grown doc (doc'.link cursor .last (doc.allocNode kind).1) [] :=
    hsprout.grown.link hsprout.contains
  refine h.grow hwhole (hwhole.grown ⟨_, hlinked⟩ hgrown) hgrown
    (hsprout.grown.fresh (by simp)) ?_ (fun x => ?_) (fun x => ?_) ?_
  · rw [parent?_link _ _ hsprout.contains, if_pos rfl]
  · rw [hlinked.children_eq, hrooted.children_eq]
    by_cases hx : x = cursor
    · rw [if_pos hx, hx]
      exact Function.update_self ..
    · rw [if_neg hx]
      exact Function.update_of_ne hx ..
  · rw [serial?_link, (SameOrder.sameShape hsame).serial?_eq, serial?_allocNode hrooted.nodes]
  · rw [(SameSlots.link _ _ _).made, hsame.made]
    rfl

end InStep

end Document

/-! ## Steps of the builder -/

open Document

variable {b : TreeBuilder} {target : LoadTarget} {belowDocument : Bool} {p : EventPlace}

/-- What a build keeps: no ranks are known, and as long as serial numbers are used, the open
elements lie on the spine. -/
structure Keeping (target : LoadTarget) (b : TreeBuilder) : Prop where
  ranks : b.doc.knownRanks = none
  serials : b.doc.reordered = false → ∃ outer,
    b.openNodes ++ [target.base] = b.cursor target :: outer ∧
      InStep b.doc (b.cursor target) outer

namespace Keeping

theorem timely (h : Keeping target b) : Timely b.doc where
  serials hreordered := by
    obtain ⟨outer, -, hstep⟩ := h.serials hreordered
    exact ⟨hstep.serials, hstep.made⟩
  kept t ht := by
    rw [h.ranks] at ht
    cases ht

theorem sameOrder (h : Keeping target b) {doc : Document} (hsame : SameOrder b.doc doc) :
    Keeping target { b with doc } where
  ranks := hsame.knownRanks.trans h.ranks
  serials hreordered := by
    rw [hsame.reordered] at hreordered
    obtain ⟨outer, hopen, hstep⟩ := h.serials hreordered
    exact ⟨outer, hopen, hstep.sameOrder hsame⟩

theorem sameShape (h : Keeping target b) {doc : Document} (hsame : SameShape b.doc doc) :
    Keeping target { b with doc } := h.sameOrder (.sameShape hsame)

/-- A node is pushed, and nothing goes below it, or what comes next does. -/
theorem push (h : Keeping target b) (hwhole : Whole b.doc) {kind : NodeKind}
    (name value : TextSlot)
    (hallowed : (b.doc.kind (b.cursor target)).allowsChild kind = true) :
    Keeping target (b.push target kind name value).2 ∧ ∀ owner,
      Keeping target { (b.push target kind name value).2 with
        openNodes := (b.push target kind name value).1 :: b.openNodes, owner } := by
  obtain ⟨doc, openNodes, owner⟩ := b
  have hsame : SameShape (doc.allocNode kind).2 ((doc.allocNode kind).2.modifyNode
      (doc.allocNode kind).1 fun r => { r with name, value }) := .modifyNode _ fun _ => rfl
  have hranks : (TreeBuilder.push ⟨doc, openNodes, owner⟩ target kind name value).2.doc.knownRanks
      = none :=
    ((SameSlots.link _ _ _).knownRanks.trans hsame.knownRanks).trans h.ranks
  have hreordered : (TreeBuilder.push ⟨doc, openNodes, owner⟩ target kind name value).2.doc.reordered
      = doc.reordered :=
    (SameSlots.link _ _ _).reordered.trans hsame.reordered
  refine ⟨⟨hranks, fun hfalse => ?_⟩, fun owner' => ⟨hranks, fun hfalse => ?_⟩⟩
  · obtain ⟨outer, hopen, hstep⟩ := h.serials (hreordered ▸ hfalse)
    exact ⟨outer, hopen, (hstep.push hwhole hsame hallowed).1⟩
  · obtain ⟨outer, hopen, hstep⟩ := h.serials (hreordered ▸ hfalse)
    refine ⟨_, ?_, (hstep.push hwhole hsame hallowed).2⟩
    exact congrArg _ hopen

theorem conversionSlot (h : Keeping target b) {raw : Span} {conversion : Conversion}
    {slot : TextSlot} {b' : TreeBuilder}
    (hslot : b.conversionSlot target raw conversion = (some slot, b')) : Keeping target b' := by
  obtain ⟨doc, heq, hsame⟩ := conversionSlot_snd b target raw conversion
  rw [hslot] at heq
  obtain rfl : b' = { b with doc } := heq
  exact h.sameShape hsame

theorem addText (h : Keeping target b) (hb : Building belowDocument target b p) (raw : Span)
    (closing : Bool) : Keeping target (b.addText target raw closing).2 := by
  refine TreeBuilder.addText_induction h ?_ ?_ ?_
  · intro _ _ slot b' hslot
    exact (h.conversionSlot hslot).sameShape (.modifyNode _ fun _ => rfl)
  · intro previous _ value
    exact h.sameShape (.replaceValue previous value)
  · intro _ slot b' hslot
    have hdone := (hb.conversionSlot hslot).1
    exact ((h.conversionSlot hslot).push hdone.whole _ _ (hdone.cursor_allows (by decide))).1

theorem addSection (h : Keeping target b) (hb : Building belowDocument target b p)
    {kind : NodeKind} (raw : Span)
    (hkind : kind ∉ [NodeKind.null, .document, .declaration, .doctype]) :
    Keeping target (b.addSection target kind raw).2 := by
  refine TreeBuilder.withSlot_induction h fun slot b' hslot => ?_
  have hdone := (hb.conversionSlot hslot).1
  exact ((h.conversionSlot hslot).push hdone.whole _ _ (hdone.cursor_allows hkind)).1

theorem addAttribute (h : Keeping target b) (name : Span) (raw : Option Span) :
    Keeping target (b.addAttribute target name raw).2 := by
  have hlinked : Keeping target
      { b with doc := b.doc.allocAttr.2.linkAttr b.owner .last b.doc.allocAttr.1 } :=
    (h.sameOrder .allocAttr).sameOrder (.linkAttr _ _ _)
  have hnamed : Keeping target
      { b with
        doc := (b.doc.allocAttr.2.linkAttr b.owner .last b.doc.allocAttr.1).modifyAttr
          b.doc.allocAttr.1 (fun r => { r with name := TreeBuilder.rangeSlot target name }) } :=
    hlinked.sameShape (.modifyAttr _ fun _ => rfl)
  unfold TreeBuilder.addAttribute
  cases raw with
  | none => exact hnamed
  | some raw =>
    refine TreeBuilder.withSlot_induction hnamed fun slot b' hslot => ?_
    exact (hnamed.conversionSlot hslot).sameShape (.modifyAttr _ fun _ => rfl)

/-- An event that may stand at a place in the text is carried out. -/
theorem add (h : Keeping target b) (hb : Building belowDocument target b p) {e : LoadEvent}
    (he : e.Fits belowDocument p) : Keeping target (b.after target e) := by
  cases e with
  | text raw closing => exact h.addText hb raw closing
  | openElement name => exact (h.push hb.whole _ _ (hb.cursor_allows (by decide))).2 _
  | closeElement =>
    refine ⟨h.ranks, fun hreordered => ?_⟩
    obtain ⟨outer, hopen, hstep⟩ := h.serials hreordered
    have hdepth : 0 < b.openNodes.length := hb.depth ▸ he
    obtain ⟨doc, openNodes, owner⟩ := b
    cases openNodes with
    | nil => exact absurd hdepth (Nat.lt_irrefl _)
    | cons c rest =>
      obtain ⟨-, rfl⟩ := List.cons.inj hopen
      cases rest with
      | nil => exact ⟨[], rfl, hstep.close hb.whole⟩
      | cons d rest => exact ⟨rest ++ [target.base], rfl, hstep.close hb.whole⟩
  | «attribute» name raw => exact h.addAttribute name raw
  | comment raw => exact h.addSection hb raw (by decide)
  | cdata raw => exact h.addSection hb raw (by decide)
  | pi name value => exact (h.push hb.whole _ _ (hb.cursor_allows (by decide))).1
  | declaration name =>
    obtain ⟨hbelow, hdepth⟩ := he
    have hallowed : (b.doc.kind (b.cursor target)).allowsChild .declaration = true :=
      hb.cursor_allows_top hbelow hdepth (by decide)
    have hpushed := (h.push hb.whole (TreeBuilder.rangeSlot target name) .null hallowed).1
    exact ⟨hpushed.ranks, hpushed.serials⟩
  | doctype body =>
    obtain ⟨hbelow, hdepth⟩ := he
    exact (h.push hb.whole _ _ (hb.cursor_allows_top hbelow hdepth (by decide))).1

theorem foldl_add (h : Keeping target b) (hb : Building belowDocument target b p)
    {es : List LoadEvent} (hes : FitsAll belowDocument p es) :
    Keeping target (es.foldl (TreeBuilder.after target) b) := by
  induction es generalizing b p with
  | nil => exact h
  | cons e es ih =>
    obtain ⟨he, hrest⟩ := hes
    exact ih (h.add hb he) (hb.add he) hrest

end Keeping

/-! ## Whole loads -/

namespace Document

variable {doc : Document}

/-- A document without records gets its document node, which is the whole walk. -/
theorem inStep_withRoot (hnodes : doc.nodes.Sound) (hattrs : doc.attrs.Sound)
    (hnode : ∀ x, doc.node? x = none) (hattr : ∀ a, doc.attr? a = none) :
    InStep doc.withRoot doc.withRoot.root [] := by
  obtain ⟨lay, hrooted⟩ := whole_withRoot hnodes hattrs hnode hattr
  have honly : ∀ x, doc.withRoot.contains x = true → x = doc.withRoot.root := by
    intro x hx
    have hx' : (doc.allocNode .document).2.contains x = true := hx
    rw [contains_allocNode hnodes, contains, hnode] at hx'
    have heq : x = (doc.allocNode .document).1 := by simpa using hx'
    exact heq
  have hleaf : doc.withRoot.children doc.withRoot.root = [] := by
    refine List.eq_nil_iff_forall_not_mem.2 fun c hc => ?_
    have hp := hrooted.mem_children.1 hc
    rw [honly c (contains_of_parent? hp), hrooted.parent?_root] at hp
    cases hp
  have hfollows : (Outline.node doc.withRoot.root []).Follows doc.withRoot.children :=
    .node hleaf (by simp)
  have hserial : ∀ x n, doc.withRoot.serial? x = some n → n = doc.made := by
    intro x n hn
    have hn' : (doc.allocNode .document).2.serial? x = some n := hn
    rw [InStep.serial?_allocNode hnodes, serial?, hnode] at hn'
    split at hn'
    · exact (Option.some.inj hn').symm
    · cases hn'
  refine ⟨?_, ⟨_, rfl, hfollows, .top⟩, ?_, fun x n hn => ?_⟩
  · rw [hrooted.parent?_root]
    trivial
  · rw [hrooted.preorder_eq_flatten hfollows rfl]
    refine ⟨fun x hx => ?_, List.pairwise_singleton _ _⟩
    obtain rfl : x = doc.withRoot.root := by simpa [Outline.flatten, Outline.flattenAll] using hx
    obtain ⟨r, hr⟩ := contains_iff.1 hrooted.contains_root
    rw [serial?, hr]
    rfl
  · rw [hserial x n hn]
    exact Nat.lt_succ_self _

theorem inStep_reset (doc : Document) : InStep doc.reset doc.reset.root [] :=
  inStep_withRoot SlotStore.sound_clear SlotStore.sound_clear
    (fun _ => SlotStore.get?_clear _) fun _ => SlotStore.get?_clear _

namespace Timely

theorem new : Timely new where
  serials _ :=
    have hstep : InStep Document.new Document.new.root [] :=
      inStep_withRoot SlotStore.sound_empty SlotStore.sound_empty (fun _ => rfl) fun _ => rfl
    ⟨hstep.serials, hstep.made⟩
  kept t ht := by cases ht

theorem reset (doc : Document) : Timely doc.reset where
  serials _ := ⟨(inStep_reset doc).serials, (inStep_reset doc).made⟩
  kept t ht := by cases ht

/-- A text is added below a node: the document node of a document that was just emptied,
or any node after what was known about the order was forgotten. -/
theorem loadBelow (hwhole : Whole doc) {base : NodeId} (text : String) (options : ParseOptions)
    (hbase : (doc.kind base).hasChildren = true) (hranks : doc.knownRanks = none)
    (hstep : doc.reordered = false → InStep doc base []) :
    Timely (doc.loadBelow base text options).2 := by
  let buffered : Document := { doc with texts := (doc.texts.addBuffer text).2 }
  have hsame : SameShape doc buffered := .ofTexts _
  let mode : ReaderMode := ⟨options, buffered.kind base == .document⟩
  let target : LoadTarget := ⟨base, (doc.texts.addBuffer text).1, options⟩
  have hbuilding : Building mode.belowDocument target ⟨buffered, [], base⟩ ⟨0, false⟩ :=
    .start (hwhole.sameShape hsame) hbase fun hdocument => beq_iff_eq.1 hdocument
  have hstart : Keeping target ⟨buffered, [], base⟩ :=
    ⟨hranks, fun hreordered => ⟨[], rfl, (hstep hreordered).sameOrder (.sameShape hsame)⟩⟩
  refine loadBelow_induction fun es hes => ?_
  exact (hstart.foldl_add hbuilding (hes.fits (Transcript.ofText_fits mode text.toList))).timely

theorem loadReset (doc : Document) (text : String) (options : ParseOptions) :
    Timely (doc.reset.loadBelow doc.reset.root text options).2 :=
  loadBelow (whole_reset doc) text options (kind_root_reset doc) rfl fun _ => inStep_reset doc

theorem loadFetched (doc : Document) (fetched : Except FetchFailure Bytes)
    (options : ParseOptions) (encoding : Encoding) :
    Timely (doc.loadFetched fetched options encoding).2 := by
  cases fetched with
  | ok bytes => exact loadReset doc.reset _ _
  | error failure => exact reset doc

theorem appendBytes (h : Timely doc) (hwhole : Whole doc) (parent : NodeId) (bytes : Bytes)
    (options : ParseOptions) (encoding : Encoding) :
    Timely (doc.appendBytes parent bytes options encoding).2 := by
  unfold Document.appendBytes
  split
  · rename_i hparent
    exact loadBelow hwhole.forgetOrder _ options hparent rfl fun hfalse => by cases hfalse
  · exact h

end Timely

end Document

end XmlTree
