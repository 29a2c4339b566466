/-
  Proofs/Loading.lean --- loading keeps the document one tree.

  WHAT THIS FILE IS FOR.  The builder carries out events without checking anything.  That
  it may do so rests on the order in which a reader gives them: as many elements are open
  in the tree as the events so far leave open, so what may stand at a place in the text
  may stand at the place in the tree where it is put.
-/
import XmlTree.Proofs.Adding
import XmlTree.Proofs.Editing

set_option autoImplicit false

namespace XmlTree

open Document TreeBuilder

variable {b b' : TreeBuilder} {target : LoadTarget} {belowDocument : Bool} {p : EventPlace}

/-! ## The state of a build -/

/-- The tree that is being built is in order, and what is open in it is what the events so
far leave open. -/
structure Building (belowDocument : Bool) (target : LoadTarget) (b : TreeBuilder)
    (p : EventPlace) : Prop where
  whole : Whole b.doc
  base : (b.doc.kind target.base).hasChildren = true
  document : belowDocument = true → b.doc.kind target.base = .document
  depth : b.openNodes.length = p.depth
  elements : ∀ x ∈ b.openNodes, b.doc.kind x = .element
  owner : p.tagOpen = true → (b.doc.kind b.owner).hasAttributes = true

/-- Most kinds may stand below every node that may have children. -/
theorem NodeKind.allowsChild_of_hasChildren {parent kind : NodeKind}
    (hparent : parent.hasChildren = true)
    (hkind : kind ∉ [NodeKind.null, .document, .declaration, .doctype]) :
    parent.allowsChild kind = true := by
  cases kind <;> simp_all [NodeKind.allowsChild]

namespace Building

/-- At first nothing is open. -/
theorem start {doc : Document} (hwhole : Whole doc)
    (hbase : (doc.kind target.base).hasChildren = true)
    (hdocument : belowDocument = true → doc.kind target.base = .document) :
    Building belowDocument target ⟨doc, [], target.base⟩ ⟨0, false⟩ where
  whole := hwhole
  base := hbase
  document := hdocument
  depth := rfl
  elements := List.forall_mem_nil _
  owner := fun hopen => Bool.noConfusion hopen

/-- The cursor is the innermost open element, or else the base. -/
theorem cursor_cases (h : Building belowDocument target b p) :
    (b.openNodes = [] ∧ b.cursor target = target.base) ∨
      b.doc.kind (b.cursor target) = .element := by
  cases hopen : b.openNodes with
  | nil => exact .inl ⟨rfl, by simp [TreeBuilder.cursor, hopen]⟩
  | cons x xs =>
    refine .inr ?_
    have hx := h.elements x (by simp [hopen])
    simpa [TreeBuilder.cursor, hopen] using hx

theorem cursor_hasChildren (h : Building belowDocument target b p) :
    (b.doc.kind (b.cursor target)).hasChildren = true := by
  obtain ⟨_, hcursor⟩ | helement := h.cursor_cases
  · rw [hcursor, h.base]
  · rw [helement]
    rfl

/-- What may stand below elements and the document node may stand below the cursor. -/
theorem cursor_allows (h : Building belowDocument target b p) {kind : NodeKind}
    (hkind : kind ∉ [NodeKind.null, .document, .declaration, .doctype]) :
    (b.doc.kind (b.cursor target)).allowsChild kind = true :=
  NodeKind.allowsChild_of_hasChildren h.cursor_hasChildren hkind

/-- What may stand below the document node only may stand below the cursor when nothing
is open. -/
theorem cursor_allows_top (h : Building belowDocument target b p) (hbelow : belowDocument = true)
    (hdepth : p.depth = 0) {kind : NodeKind}
    (hkind : NodeKind.document.allowsChild kind = true) :
    (b.doc.kind (b.cursor target)).allowsChild kind = true := by
  have hopen : b.openNodes = [] := List.length_eq_zero_iff.1 (h.depth.trans hdepth)
  have hcursor : b.cursor target = target.base := by simp [TreeBuilder.cursor, hopen]
  rw [hcursor, h.document hbelow]
  exact hkind

/-- The document grows, and nothing else changes. -/
theorem grown (h : Building belowDocument target b p) {doc : Document} {q : EventPlace}
    (hwhole : Whole doc) (hgrown : Grown b.doc doc []) (hdepth : q.depth = p.depth)
    (htag : q.tagOpen = true → p.tagOpen = true) :
    Building belowDocument target { b with doc } q where
  whole := hwhole
  base := by
    rw [hgrown.kind (contains_of_hasChildren h.base)]
    exact h.base
  document hbelow := by
    rw [hgrown.kind (contains_of_hasChildren h.base)]
    exact h.document hbelow
  depth := h.depth.trans hdepth.symm
  elements x hx := by
    have helement := h.elements x hx
    rw [hgrown.kind (contains_of_kind_ne (by rw [helement]; decide)), helement]
  owner hopen := by
    have howner := h.owner (htag hopen)
    rwa [hgrown.kind (contains_of_hasAttributes howner)]

theorem sameShape (h : Building belowDocument target b p) {doc : Document} {q : EventPlace}
    (hsame : SameShape b.doc doc) (hdepth : q.depth = p.depth)
    (htag : q.tagOpen = true → p.tagOpen = true) :
    Building belowDocument target { b with doc } q :=
  h.grown (h.whole.sameShape hsame) (.sameShape hsame) hdepth htag

end Building

/-! ## Steps of the builder -/

/-- A conversion makes at most a text. -/
theorem conversionSlot_snd (b : TreeBuilder) (target : LoadTarget) (raw : Span)
    (conversion : Conversion) :
    ∃ doc, (b.conversionSlot target raw conversion).2 = { b with doc } ∧
      SameShape b.doc doc := by
  cases conversion with
  | verbatim skipped text => exact ⟨b.doc, rfl, .refl _⟩
  | fresh text => exact ⟨_, rfl, .ownText _ _⟩

/-- A node is added at the end of the children of the cursor. -/
theorem push_snd (hwhole : Whole b.doc) {kind : NodeKind} (name value : TextSlot)
    (hallowed : (b.doc.kind (b.cursor target)).allowsChild kind = true) :
    ∃ doc, (b.push target kind name value).2 = { b with doc } ∧ Whole doc ∧
      Grown b.doc doc [] ∧ doc.kind (b.push target kind name value).1 = kind := by
  obtain ⟨doc, openNodes, owner⟩ := b
  obtain ⟨lay, hrooted⟩ := id hwhole
  have hsame : SameShape (doc.allocNode kind).2 ((doc.allocNode kind).2.modifyNode
      (doc.allocNode kind).1 fun r => { r with name, value }) := .modifyNode _ fun _ => rfl
  have hsprout := hrooted.toLaidOut.sprout hsame
  obtain ⟨hlaid, hgrown⟩ := hsprout.link hrooted.toLaidOut
    (openNodes.head?.getD target.base) .last hallowed (by simp [Place.reference?])
  refine ⟨_, rfl, hwhole.grown hlaid hgrown, hgrown, ?_⟩
  exact (kind_link _ _ _).trans hsprout.kind_eq

namespace Building

theorem conversionSlot (h : Building belowDocument target b p) {raw : Span}
    {conversion : Conversion} {slot : TextSlot}
    (hslot : b.conversionSlot target raw conversion = (some slot, b')) :
    Building belowDocument target b' p ∧ b'.cursor target = b.cursor target := by
  obtain ⟨doc, heq, hsame⟩ := conversionSlot_snd b target raw conversion
  rw [hslot] at heq
  obtain rfl : b' = { b with doc } := heq
  exact ⟨h.sameShape hsame rfl id, rfl⟩

/-- A node is added that nothing goes below. -/
theorem push (h : Building belowDocument target b p) {kind : NodeKind} (name value : TextSlot)
    (hallowed : (b.doc.kind (b.cursor target)).allowsChild kind = true) :
    Building belowDocument target (b.push target kind name value).2 ⟨p.depth, false⟩ := by
  obtain ⟨doc, heq, hwhole, hgrown, _⟩ := push_snd h.whole name value hallowed
  rw [heq]
  exact h.grown hwhole hgrown rfl (by simp)

theorem addText (h : Building belowDocument target b p) (raw : Span) (closing : Bool) :
    Building belowDocument target (b.addText target raw closing).2 ⟨p.depth, false⟩ := by
  have hsame : Building belowDocument target b ⟨p.depth, false⟩ :=
    h.sameShape (.refl _) rfl (by simp)
  refine addText_induction hsame ?_ ?_ ?_
  · intro _ _ slot b' hslot
    exact (h.conversionSlot hslot).1.sameShape (.modifyNode _ fun _ => rfl) rfl (by simp)
  · intro previous _ value
    exact h.sameShape (.replaceValue previous value) rfl (by simp)
  · intro _ slot b' hslot
    have hdone := (h.conversionSlot hslot).1
    exact hdone.push _ _ (hdone.cursor_allows (by decide))

theorem addSection (h : Building belowDocument target b p) {kind : NodeKind} (raw : Span)
    (hkind : kind ∉ [NodeKind.null, .document, .declaration, .doctype]) :
    Building belowDocument target (b.addSection target kind raw).2 ⟨p.depth, false⟩ := by
  refine withSlot_induction (h.sameShape (.refl _) rfl (by simp)) fun slot b' hslot => ?_
  have hdone := (h.conversionSlot hslot).1
  exact hdone.push _ _ (hdone.cursor_allows hkind)

theorem addAttribute (h : Building belowDocument target b p) (hopen : p.tagOpen = true)
    (name : Span) (raw : Option Span) :
    Building belowDocument target (b.addAttribute target name raw).2 ⟨p.depth, true⟩ := by
  obtain ⟨lay, hrooted⟩ := id h.whole
  obtain ⟨hlaid, hgrown⟩ := hrooted.toLaidOut.addAttr b.owner .last (.refl b.doc.allocAttr.2)
    (h.owner hopen) (by simp [Place.reference?])
  have hlinked : Building belowDocument target
      { b with doc := b.doc.allocAttr.2.linkAttr b.owner .last b.doc.allocAttr.1 }
      ⟨p.depth, true⟩ :=
    h.grown (h.whole.grown hlaid hgrown) hgrown rfl fun _ => hopen
  have hnamed : Building belowDocument target
      { b with
        doc := (b.doc.allocAttr.2.linkAttr b.owner .last b.doc.allocAttr.1).modifyAttr
          b.doc.allocAttr.1 (fun r => { r with name := TreeBuilder.rangeSlot target name }) }
      ⟨p.depth, true⟩ :=
    hlinked.sameShape (.modifyAttr _ fun _ => rfl) rfl id
  unfold TreeBuilder.addAttribute
  cases raw with
  | none => exact hnamed
  | some raw =>
    refine withSlot_induction hnamed fun slot b' hslot => ?_
    exact (hnamed.conversionSlot hslot).1.sameShape (.modifyAttr _ fun _ => rfl) rfl id

/-- An event that may stand at a place in the text is carried out. -/
theorem add (h : Building belowDocument target b p) {e : LoadEvent}
    (he : e.Fits belowDocument p) :
    Building belowDocument target (b.after target e) (e.place p) := by
  cases e with
  | text raw closing => exact h.addText raw closing
  | openElement name =>
    have hallowed : (b.doc.kind (b.cursor target)).allowsChild .element = true :=
      h.cursor_allows (by decide)
    obtain ⟨doc, heq, hwhole, hgrown, hkind⟩ := push_snd h.whole
      (TreeBuilder.rangeSlot target name) .null hallowed
    have hpushed : Building belowDocument target { b with doc } ⟨p.depth, false⟩ :=
      h.grown hwhole hgrown rfl (by simp)
    simp only [after, TreeBuilder.add, heq]
    exact
    { whole := hpushed.whole
      base := hpushed.base
      document := hpushed.document
      depth := congrArg Nat.succ h.depth
      elements := List.forall_mem_cons.2 ⟨hkind, hpushed.elements⟩
      owner := fun _ => by
        rw [hkind]
        rfl }
  | closeElement =>
    exact
    { whole := h.whole
      base := h.base
      document := h.document
      depth := by
        show b.openNodes.tail.length = p.depth - 1
        rw [List.length_tail, h.depth]
      elements := fun x hx => h.elements x (List.mem_of_mem_tail hx)
      owner := fun hopen => by cases hopen }
  | «attribute» name raw => exact h.addAttribute he name raw
  | comment raw => exact h.addSection raw (by decide)
  | cdata raw => exact h.addSection raw (by decide)
  | pi name value => exact h.push _ _ (h.cursor_allows (by decide))
  | declaration name =>
    obtain ⟨hbelow, hdepth⟩ := he
    have hallowed : (b.doc.kind (b.cursor target)).allowsChild .declaration = true :=
      h.cursor_allows_top hbelow hdepth (by decide)
    obtain ⟨doc, heq, hwhole, hgrown, hkind⟩ := push_snd h.whole
      (TreeBuilder.rangeSlot target name) .null hallowed
    have hpushed : Building belowDocument target { b with doc } ⟨p.depth, false⟩ :=
      h.grown hwhole hgrown rfl (by simp)
    simp only [after, TreeBuilder.add, heq]
    exact
    { whole := hpushed.whole
      base := hpushed.base
      document := hpushed.document
      depth := h.depth
      elements := hpushed.elements
      owner := fun _ => by
        rw [hkind]
        rfl }
  | doctype body =>
    obtain ⟨hbelow, hdepth⟩ := he
    exact h.push _ _ (h.cursor_allows_top hbelow hdepth (by decide))

/-- Events that may stand one after the other are carried out one after the other. -/
theorem foldl_add (h : Building belowDocument target b p) {es : List LoadEvent}
    (hes : FitsAll belowDocument p es) :
    Building belowDocument target (es.foldl (after target) b)
      (es.foldl LoadEvent.place p) := by
  induction es generalizing b p with
  | nil => exact h
  | cons e es ih =>
    obtain ⟨he, hrest⟩ := hes
    exact ih (h.add he) hrest

end Building

/-! ## Whole loads -/

namespace Document

variable {doc : Document}

/-- A text is added below a node that may have children. -/
theorem Whole.loadBelow (h : Whole doc) {base : NodeId} (text : String) (options : ParseOptions)
    (hbase : (doc.kind base).hasChildren = true) :
    Whole (doc.loadBelow base text options).2 := by
  let buffered : Document := { doc with texts := (doc.texts.addBuffer text).2 }
  have hbuffered : Whole buffered := h.sameShape (.ofTexts _)
  let mode : ReaderMode := ⟨options, buffered.kind base == .document⟩
  let target : LoadTarget := ⟨base, (doc.texts.addBuffer text).1, options⟩
  have hstart : Building mode.belowDocument target ⟨buffered, [], base⟩ ⟨0, false⟩ :=
    .start hbuffered hbase fun hdocument => beq_iff_eq.1 hdocument
  refine loadBelow_induction fun es hes => ?_
  exact (hstart.foldl_add (hes.fits (Transcript.ofText_fits mode text.toList))).whole

theorem kind_root_reset (doc : Document) : (doc.reset.kind doc.reset.root).hasChildren = true := by
  obtain ⟨lay, hrooted⟩ := whole_reset doc
  rw [hrooted.root_kind]
  rfl

theorem whole_loadString (doc : Document) (text : String) (options : ParseOptions) :
    Whole (doc.loadString text options).2 :=
  (whole_reset doc).loadBelow text options (kind_root_reset doc)

theorem whole_loadBytes (doc : Document) (bytes : Bytes) (options : ParseOptions)
    (encoding : Encoding) : Whole (doc.loadBytes bytes options encoding).2 :=
  (whole_reset doc).loadBelow _ options (kind_root_reset doc)

theorem whole_loadFetched (doc : Document) (fetched : Except FetchFailure Bytes)
    (options : ParseOptions) (encoding : Encoding) :
    Whole (doc.loadFetched fetched options encoding).2 := by
  cases fetched with
  | ok bytes => exact whole_loadBytes doc.reset bytes options encoding
  | error failure => exact whole_reset doc

theorem Whole.appendBytes (h : Whole doc) (parent : NodeId) (bytes : Bytes)
    (options : ParseOptions) (encoding : Encoding) :
    Whole (doc.appendBytes parent bytes options encoding).2 := by
  unfold Document.appendBytes
  split
  · rename_i hparent
    exact h.forgetOrder.loadBelow _ options hparent
  · exact h

end Document

end XmlTree
