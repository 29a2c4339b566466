/-
  Proofs/Thinning.lean --- a load without some kinds of nodes.

  WHAT THIS FILE IS FOR.  Instructions, comments, CDATA sections and document types are asked
  for one by one.  Not to ask for some of them gives the tree that one would have had, without
  the nodes of these kinds: nothing that stands beside such a node is joined, trimmed or dropped
  because the node is gone, and a text that was accepted still is.

  HOW IT IS SHOWN.  The two loads are carried out side by side.  An event that is still given
  adds a node and its twin; one that is not adds a node that has none.

  WHAT IS NOT ALLOWED.  Where a text is joined to the one before it, stored in its element or
  kept only if it stands alone, what stands beside it does decide about it.  So the switches for
  that are off.
-/
import XmlTree.Proofs.Acceptance
import XmlTree.Proofs.Omitting
import XmlTree.Proofs.Twins

set_option autoImplicit false

namespace XmlTree

open Document

/-! ## Switches that texts depend on -/

namespace ParseOptions

variable {options options' cleared : ParseOptions}

/-- Two masks agree on how texts and attribute values are converted. -/
structure AgreeOnConversions (options options' : ParseOptions) : Prop where
  escapes : options'.contains .escapes = options.contains .escapes
  eol : options'.contains .eol = options.contains .eol
  wconv : options'.contains .wconvAttribute = options.contains .wconvAttribute
  wnorm : options'.contains .wnormAttribute = options.contains .wnormAttribute
  trim : options'.contains .trimPcdata = options.contains .trimPcdata

/-- Two masks agree on what becomes of texts and of attribute values. -/
structure AgreeOnTexts (options options' : ParseOptions) : Prop
    extends AgreeOnConversions options options' where
  wsPcdata : options'.contains .wsPcdata = options.contains .wsPcdata
  fragment : options'.contains .fragment = options.contains .fragment

theorem agreeOnTexts_without (hcleared : nodeKinds.contains cleared = true) :
    AgreeOnTexts options (options.without cleared) where
  wsPcdata := contains_without_other hcleared (i := 3) rfl rfl
  escapes := contains_without_other hcleared (i := 4) rfl rfl
  eol := contains_without_other hcleared (i := 5) rfl rfl
  wconv := contains_without_other hcleared (i := 6) rfl rfl
  wnorm := contains_without_other hcleared (i := 7) rfl rfl
  trim := contains_without_other hcleared (i := 11) rfl rfl
  fragment := contains_without_other hcleared (i := 12) rfl rfl

theorem MakesTextNodes.without (h : options.MakesTextNodes)
    (hcleared : nodeKinds.contains cleared = true) :
    (options.without cleared).MakesTextNodes where
  embed := (contains_without_other hcleared (i := 13) rfl rfl).trans h.embed
  merge := (contains_without_other hcleared (i := 14) rfl rfl).trans h.merge
  single := (contains_without_other hcleared (i := 10) rfl rfl).trans h.single

namespace AgreeOnConversions

theorem convertPcdata_eq (h : AgreeOnConversions options options') (raw : List Char) :
    convertPcdata options' raw = convertPcdata options raw := by
  simp only [convertPcdata, h.escapes, h.eol, h.trim]

theorem convertAttribute_eq (h : AgreeOnConversions options options') (raw : List Char) :
    convertAttribute options' raw = convertAttribute options raw := by
  have hrules : AttributeRules.ofOptions options' = .ofOptions options := by
    simp only [AttributeRules.ofOptions, h.escapes, h.eol, h.wconv, h.wnorm]
  rw [convertAttribute, convertAttribute, hrules]

theorem sectionConversion_eq (h : AgreeOnConversions options options') (raw : List Char) :
    TreeBuilder.sectionConversion options' raw = TreeBuilder.sectionConversion options raw := by
  simp only [TreeBuilder.sectionConversion, h.eol]

/-- Markup stands for the same node. -/
theorem nodeLabel?_markup_eq (h : AgreeOnConversions options options') (source : String)
    (atTop : Bool) {e : LoadEvent} (hmarkup : ∀ raw closing, e ≠ .text raw closing) :
    e.nodeLabel? options' source atTop = e.nodeLabel? options source atTop := by
  cases e with
  | text raw closing => exact absurd rfl (hmarkup raw closing)
  | comment raw | cdata raw => simp only [LoadEvent.nodeLabel?, h.sectionConversion_eq]
  | _ => rfl

theorem attributeIn_eq (h : AgreeOnConversions options options') (source : String) (name : Span)
    (raw : Option Span) :
    name.attributeIn options' source raw = name.attributeIn options source raw := by
  simp only [Span.attributeIn, h.convertAttribute_eq]

/-- The texts of an event are too long, or are not. -/
theorem refusal?_eq (h : AgreeOnConversions options options') (e : LoadEvent) :
    e.refusal? options' = e.refusal? options := by
  cases e with
  | text raw closing => simp only [LoadEvent.refusal?, h.convertPcdata_eq]
  | comment raw | cdata raw => simp only [LoadEvent.refusal?, h.sectionConversion_eq]
  | «attribute» name raw =>
    cases raw with
    | none => rfl
    | some raw => simp only [LoadEvent.refusal?, h.convertAttribute_eq]
  | _ => rfl

end AgreeOnConversions

namespace AgreeOnTexts

theorem keepsText_eq (h : AgreeOnTexts options options') (atTop : Bool) (raw : List Char) :
    options'.keepsText atTop raw = options.keepsText atTop raw := by
  simp only [keepsText, h.wsPcdata, h.trim, h.fragment]

/-- An event stands for the same node. -/
theorem nodeLabel?_eq (h : AgreeOnTexts options options') (source : String) (atTop : Bool)
    (e : LoadEvent) : e.nodeLabel? options' source atTop = e.nodeLabel? options source atTop := by
  cases e with
  | text raw closing => simp only [LoadEvent.nodeLabel?, h.keepsText_eq, h.convertPcdata_eq]
  | _ => exact h.nodeLabel?_markup_eq source atTop fun _ _ => LoadEvent.noConfusion

end AgreeOnTexts

/-- What may have children is never dropped. -/
theorem drops_of_hasChildren {kind : NodeKind} (h : kind.hasChildren = true) :
    cleared.drops kind = false := by
  cases kind <;> first | rfl | cases h

theorem drops_of_hasAttributes {kind : NodeKind} (h : kind.hasAttributes = true) :
    cleared.drops kind = false := by
  cases kind <;> first | rfl | cases h

end ParseOptions

/-! ## Events that stay and events that do not -/

namespace LoadEvent

variable {options cleared : ParseOptions} {source : String} {atTop : Bool} {e : LoadEvent}
  {l : TreeLabel}

theorem nodeKind?_of_nodeLabel? (hl : e.nodeLabel? options source atTop = some l) :
    e.nodeKind? = some l.kind := by
  cases e with
  | text raw closing =>
    rw [nodeLabel?] at hl
    split at hl
    · cases hl
      rfl
    · cases hl
  | closeElement | «attribute» => cases hl
  | _ =>
    cases hl
    rfl

/-- The node of an event that stays is not dropped. -/
theorem drops_of_stays (hl : e.nodeLabel? options source atTop = some l)
    (hstays : e.stays cleared = true) : cleared.drops l.kind = false := by
  rw [stays, nodeKind?_of_nodeLabel? hl, Option.any_some] at hstays
  simpa using hstays

/-- An event that does not stay adds a node of a dropped kind, and opens nothing. -/
theorem exists_dropped (options : ParseOptions) (source : String) (atTop : Bool)
    (h : e.stays cleared = false) :
    ∃ l, e.nodeLabel? options source atTop = some l ∧ cleared.drops l.kind = true ∧
      (∀ id opened, e.openNodes id opened = opened) ∧
      ∀ p, e.place p = ⟨p.depth, false⟩ := by
  have hdrops : ∀ {kind}, e.nodeKind? = some kind → cleared.drops kind = true := by
    intro kind hkind
    rw [stays, hkind, Option.any_some] at h
    simpa using h
  cases e with
  | text | openElement | closeElement | «attribute» | declaration => cases h
  | comment raw | cdata raw | pi name value | doctype body =>
    exact ⟨_, rfl, hdrops rfl, fun _ _ => rfl, fun _ => rfl⟩

theorem map_openNodes (f : NodeId → NodeId) (id : NodeId) (opened : List NodeId) :
    (e.openNodes id opened).map f = e.openNodes (f id) (opened.map f) := by
  cases e <;> rfl

/-- After an event that added a node, attributes go to that node if they may go anywhere. -/
theorem owner_of_tagOpen (hl : e.nodeLabel? options source atTop = some l) {p : EventPlace}
    (hopen : (e.place p).tagOpen = true) (id before : NodeId) : e.owner id before = id := by
  cases e with
  | openElement | declaration => rfl
  | closeElement | «attribute» => cases hl
  | _ => cases hopen

end LoadEvent

/-! ## Two loads side by side -/

section SideBySide

variable {cleared : ParseOptions} {source : String} {belowDocument : Bool}
  {target target' : LoadTarget} {twin : NodeId → NodeId} {b less : TreeBuilder}
  {p p' : EventPlace} {e : LoadEvent}

/-- The document of a builder is in order, and a text is being loaded into it. -/
structure TreeBuilder.Loading (source : String) (belowDocument : Bool) (target : LoadTarget)
    (b : TreeBuilder) (p : EventPlace) : Prop where
  building : Building belowDocument target b p
  legible : b.Legible target
  source : b.doc.texts.source? target.buffer = some source

/-- The loaded text is kept whatever an event says. -/
theorem TreeBuilder.Loading.after (h : b.Loading source belowDocument target p)
    (he : e.Fits belowDocument p) :
    (b.after target e).Loading source belowDocument target (e.place p) where
  building := h.building.add he
  legible := h.legible.add e
  source := (h.legible.obeys.add (TreeBuilder.Legible.admitted h.source e)).texts.source? h.source

/-- A text is loaded into two documents, into one of them without some kinds of nodes. -/
structure Thinning (cleared : ParseOptions) (source : String) (belowDocument : Bool)
    (target target' : LoadTarget) (twin : NodeId → NodeId) (b less : TreeBuilder)
    (p p' : EventPlace) : Prop where
  loading : b.Loading source belowDocument target p
  thinner : less.Loading source belowDocument target' p'
  thins : Thins cleared.drops twin b.doc less.doc
  base : target'.base = twin target.base
  openNodes : less.openNodes = b.openNodes.map twin
  owner : p.tagOpen = true → less.owner = twin b.owner

namespace Thinning

theorem cursor (h : Thinning cleared source belowDocument target target' twin b less p p') :
    less.cursor target' = twin (b.cursor target) := by
  rw [TreeBuilder.cursor, TreeBuilder.cursor, h.openNodes, h.base]
  cases b.openNodes <;> rfl

theorem stays_cursor (h : Thinning cleared source belowDocument target target' twin b less p p') :
    b.doc.Stays cleared.drops (b.cursor target) :=
  have hkind := h.loading.building.cursor_hasChildren
  ⟨contains_of_hasChildren hkind, ParseOptions.drops_of_hasChildren hkind⟩

theorem atTop_eq (h : Thinning cleared source belowDocument target target' twin b less p p') :
    (less.doc.kind (less.cursor target') == NodeKind.document) =
      (b.doc.kind (b.cursor target) == .document) := by
  rw [h.cursor, h.thins.kind h.stays_cursor]

/-- What is new has no part in what was open. -/
theorem map_openNodes (h : Thinning cleared source belowDocument target target' twin b less p p')
    {id : NodeId} (hfresh : b.doc.contains id = false) (id' : NodeId) :
    b.openNodes.map (Function.update twin id id') = less.openNodes := by
  rw [h.openNodes]
  refine List.map_congr_left fun x hx => Function.update_of_ne ?_ _ _
  rintro rfl
  have hthere : b.doc.contains x = true :=
    contains_of_kind_ne (by rw [h.loading.building.elements x hx]; decide)
  rw [hfresh] at hthere
  cases hthere

/-- An event that stays is refused on both sides, or on neither. -/
theorem refusal?_eq (h : Thinning cleared source belowDocument target target' twin b less p p')
    (hoptions : target.options.MakesTextNodes) (hoptions' : target'.options.MakesTextNodes)
    (hagree : target.options.AgreeOnTexts target'.options) (e : LoadEvent) :
    TreeBuilder.refusal? target' less e = TreeBuilder.refusal? target b e := by
  have hsame : e.nodeLabel? target'.options source
      (less.doc.kind (less.cursor target') == .document) =
        e.nodeLabel? target.options source (b.doc.kind (b.cursor target) == .document) := by
    rw [h.atTop_eq, hagree.nodeLabel?_eq]
  cases hl : e.nodeLabel? target.options source (b.doc.kind (b.cursor target) == .document) with
  | some l =>
    rw [TreeBuilder.refusal?_of_nodeLabel? hoptions hl,
      TreeBuilder.refusal?_of_nodeLabel? hoptions' (hsame.trans hl), hagree.refusal?_eq]
  | none =>
    cases e with
    | text raw closing =>
      rw [TreeBuilder.refusal?, TreeBuilder.add_text_of_dropped hoptions' (hsame.trans hl),
        TreeBuilder.refusal?, TreeBuilder.add_text_of_dropped hoptions hl]
    | _ =>
      rw [TreeBuilder.refusal?_of_markup fun _ _ => LoadEvent.noConfusion,
        TreeBuilder.refusal?_of_markup fun _ _ => LoadEvent.noConfusion, hagree.refusal?_eq]

/-- An event that adds a node adds its twin to the other document. -/
theorem after_node (h : Thinning cleared source belowDocument target target' twin b less p p')
    (hoptions : target.options.MakesTextNodes) (hoptions' : target'.options.MakesTextNodes)
    (he : e.Fits belowDocument p) (he' : e.Fits belowDocument p')
    (hheeded : TreeBuilder.refusal? target b e = none)
    (hheeded' : TreeBuilder.refusal? target' less e = none) {l : TreeLabel}
    (hl : e.nodeLabel? target.options source (b.doc.kind (b.cursor target) == .document) = some l)
    (hl' : e.nodeLabel? target'.options source
      (less.doc.kind (less.cursor target') == .document) = some l)
    (hstays : e.stays cleared = true) :
    ∃ twin', Thinning cleared source belowDocument target target' twin' (b.after target e)
      (less.after target' e) (e.place p) (e.place p') := by
  obtain ⟨lay, hrooted⟩ := id h.loading.building.whole
  obtain ⟨lay', hrooted'⟩ := id h.thinner.building.whole
  obtain ⟨id, doc, hadd, hnew⟩ :=
    TreeBuilder.planted_add h.loading.building h.loading.source hoptions he hheeded hl
  obtain ⟨id', doc', hadd', hnew'⟩ :=
    TreeBuilder.planted_add h.thinner.building h.thinner.source hoptions' he' hheeded' hl'
  rw [h.cursor] at hnew'
  refine ⟨Function.update twin id id', h.loading.after he, h.thinner.after he', ?_, ?_, ?_, ?_⟩
  · rw [hadd, hadd']
    exact h.thins.planted hrooted.toLaidOut hrooted'.toLaidOut h.loading.legible.doc
      h.thinner.legible.doc h.stays_cursor (LoadEvent.drops_of_stays hl hstays) hnew hnew'
  · have hbase := contains_of_hasChildren h.loading.building.base
    rw [Function.update_of_ne (hnew.ne_of_contains hbase), h.base]
  · rw [hadd, hadd', LoadEvent.map_openNodes, Function.update_self, h.map_openNodes hnew.fresh]
  · intro hopen
    rw [hadd, hadd', LoadEvent.owner_of_tagOpen hl hopen, LoadEvent.owner_of_tagOpen hl hopen,
      Function.update_self]

/-- An event that stays, and is not refused, does the same on both sides. -/
theorem after (h : Thinning cleared source belowDocument target target' twin b less p p')
    (hoptions : target.options.MakesTextNodes) (hoptions' : target'.options.MakesTextNodes)
    (hagree : target.options.AgreeOnTexts target'.options)
    (he : e.Fits belowDocument p) (he' : e.Fits belowDocument p')
    (hheeded : TreeBuilder.refusal? target b e = none) (hstays : e.stays cleared = true) :
    ∃ twin', Thinning cleared source belowDocument target target' twin' (b.after target e)
      (less.after target' e) (e.place p) (e.place p') := by
  have hheeded' : TreeBuilder.refusal? target' less e = none :=
    (h.refusal?_eq hoptions hoptions' hagree e).trans hheeded
  have hsame : e.nodeLabel? target'.options source
      (less.doc.kind (less.cursor target') == .document) =
        e.nodeLabel? target.options source (b.doc.kind (b.cursor target) == .document) := by
    rw [h.atTop_eq, hagree.nodeLabel?_eq]
  have hloading := h.loading.after he
  have hthinner := h.thinner.after he'
  cases hl : e.nodeLabel? target.options source (b.doc.kind (b.cursor target) == .document) with
  | some l => 
    exact h.after_node hoptions hoptions' he he' hheeded hheeded' hl (hsame.trans hl) hstays
  | none =>
    cases e with
    | text raw closing =>
      have hadd : b.after target (.text raw closing) = b :=
        congrArg Prod.snd (TreeBuilder.add_text_of_dropped hoptions hl)
      have hadd' : less.after target' (.text raw closing) = less :=
        congrArg Prod.snd (TreeBuilder.add_text_of_dropped hoptions' (hsame.trans hl))
      rw [hadd] at hloading ⊢
      rw [hadd'] at hthinner ⊢
      exact ⟨twin, hloading, hthinner, h.thins, h.base, h.openNodes,
        fun hopen => Bool.noConfusion hopen⟩
    | closeElement =>
      have hopen : less.openNodes.tail = b.openNodes.tail.map twin := by
        rw [h.openNodes, List.map_tail]
      exact ⟨twin, hloading, hthinner, h.thins, h.base, hopen,
        fun hopen => Bool.noConfusion hopen⟩
    | «attribute» name raw =>
      obtain ⟨lay, hrooted⟩ := id h.loading.building.whole
      obtain ⟨lay', hrooted'⟩ := id h.thinner.building.whole
      have howns := h.loading.building.owner he
      have hshort : TreeBuilder.refusal? target b (.attribute name raw) = _ :=
        TreeBuilder.refusal?_of_markup fun _ _ => LoadEvent.noConfusion
      have hshort' : TreeBuilder.refusal? target' less (.attribute name raw) = _ :=
        TreeBuilder.refusal?_of_markup fun _ _ => LoadEvent.noConfusion
      obtain ⟨doc, hadd, hnew⟩ := TreeBuilder.adorned_addAttribute h.loading.building.whole
        h.loading.legible.doc h.loading.source howns (hshort.symm.trans hheeded)
      obtain ⟨doc', hadd', hnew'⟩ := TreeBuilder.adorned_addAttribute h.thinner.building.whole
        h.thinner.legible.doc h.thinner.source (h.thinner.building.owner he')
        (hshort'.symm.trans hheeded')
      rw [h.owner he, hagree.attributeIn_eq] at hnew'
      have hthins := h.thins.adorned hrooted.toLaidOut hrooted'.toLaidOut h.loading.legible.doc
        h.thinner.legible.doc
        ⟨contains_of_hasAttributes howns, ParseOptions.drops_of_hasAttributes howns⟩ hnew hnew'
      rw [hadd] at hloading ⊢
      rw [hadd'] at hthinner ⊢
      exact ⟨twin, hloading, hthinner, hthins, h.base, h.openNodes, fun _ => h.owner he⟩
    | _ => cases hl

/-- An event that does not stay adds a node that has no twin. -/
theorem after_dropped (h : Thinning cleared source belowDocument target target' twin b less p p')
    (hoptions : target.options.MakesTextNodes) (he : e.Fits belowDocument p)
    (hheeded : TreeBuilder.refusal? target b e = none) (hstays : e.stays cleared = false) :
    Thinning cleared source belowDocument target target' twin (b.after target e) less (e.place p)
      p' := by
  obtain ⟨l, hl, hdrops, hopens, hplace⟩ := LoadEvent.exists_dropped target.options source
    (b.doc.kind (b.cursor target) == .document) hstays
  obtain ⟨lay, hrooted⟩ := id h.loading.building.whole
  obtain ⟨id, doc, hadd, hnew⟩ :=
    TreeBuilder.planted_add h.loading.building h.loading.source hoptions he hheeded hl
  refine ⟨h.loading.after he, h.thinner, ?_, h.base, ?_, ?_⟩
  · rw [hadd]
    exact h.thins.planted_dropped hrooted.toLaidOut h.loading.legible.doc hdrops hnew
  · rw [hadd, hopens]
    exact h.openNodes
  · rw [hplace]
    exact fun hopen => Bool.noConfusion hopen

/-- If no event is refused on one side, none of those that stay is on the other. -/
theorem foldl_after (hoptions : target.options.MakesTextNodes)
    (hoptions' : target'.options.MakesTextNodes)
    (hagree : target.options.AgreeOnTexts target'.options) {es : List LoadEvent}
    (h : Thinning cleared source belowDocument target target' twin b less p p')
    (hes : FitsAll belowDocument p es)
    (hes' : FitsAll belowDocument p' (es.filter (LoadEvent.stays cleared)))
    (hheeded : (b.heeded target es).1 = none) :
    (less.heeded target' (es.filter (LoadEvent.stays cleared))).1 = none ∧
      ∃ twin', Thinning cleared source belowDocument target target' twin'
        (es.foldl (TreeBuilder.after target) b)
        ((es.filter (LoadEvent.stays cleared)).foldl (TreeBuilder.after target') less)
        (es.foldl LoadEvent.place p)
        ((es.filter (LoadEvent.stays cleared)).foldl LoadEvent.place p') := by
  induction es generalizing twin b less p p' with
  | nil => exact ⟨rfl, twin, h⟩
  | cons e es ih =>
    obtain ⟨he, hrest⟩ := hes
    obtain ⟨hfirst, hafter⟩ := LoadEvent.heeded_cons_eq_none.1 hheeded
    cases hstays : e.stays cleared with
    | true =>
      rw [List.filter_cons_of_pos hstays] at hes' ⊢
      obtain ⟨he', hrest'⟩ := hes'
      obtain ⟨twin', hnext⟩ := h.after hoptions hoptions' hagree he he' hfirst hstays
      obtain ⟨hdone, hthinned⟩ := ih hnext hrest hrest' hafter
      refine ⟨LoadEvent.heeded_cons_eq_none.2 ⟨?_, hdone⟩, hthinned⟩
      exact (h.refusal?_eq hoptions hoptions' hagree e).trans hfirst
    | false =>
      rw [List.filter_cons_of_neg (ne_true_of_eq_false hstays)] at hes' ⊢
      exact ih (h.after_dropped hoptions he hfirst hstays) hrest hes' hafter

end Thinning

end SideBySide

/-! ## Whole loads -/

/-- What counts as loaded still does, for elements are never left out. -/
theorem ParseOptions.accepts_without {options cleared : ParseOptions}
    (hcleared : nodeKinds.contains cleared = true) (text : List Char) (kinds : List NodeKind) :
    (options.without cleared).accepts text (kinds.filter fun kind => !cleared.drops kind) =
      options.accepts text kinds := by
  have helement : (kinds.filter fun kind => !cleared.drops kind).contains .element =
      kinds.contains .element := by
    rw [Bool.eq_iff_iff, List.contains_iff_mem, List.contains_iff_mem, List.mem_filter]
    exact and_iff_left rfl
  rw [accepts, accepts, (agreeOnTexts_without hcleared).fragment, helement]

namespace Document

variable {options cleared : ParseOptions}

/-- In an emptied document there is only its document node. -/
theorem eq_root_of_contains_loadStart {into : Document} {text : String} {x : NodeId}
    (h : (into.loadStart text).contains x = true) : x = into.reset.root := by
  let cleared : Document :=
    ⟨into.nodes.clear, into.attrs.clear, into.texts.clear, into.root, 0, false, none⟩
  have hsound : cleared.nodes.Sound := SlotStore.sound_clear
  have hnone : cleared.node? x = none := SlotStore.get?_clear _
  by_contra hne
  have hnode : (into.loadStart text).node? x = none :=
    (node?_allocNode hsound .document x).trans ((if_neg hne).trans hnone)
  rw [contains, hnode] at h
  cases h

theorem loading_loadStart (into : Document) (text : String) (options : ParseOptions) :
    TreeBuilder.Loading text true (into.loadTarget text options) (into.loadStarted text)
      ⟨0, false⟩ := by
  obtain ⟨hextends, hsource⟩ := into.reset.texts.extends_addBuffer text
  exact
  { building := .start ((whole_reset into).sameShape (.ofTexts _)) (kind_root_reset into)
      fun _ => kind_loadStart into text
    legible := ⟨Obeys.drawn (Obeys.reset into) (.ofTexts hextends), text, hsource⟩
    source := hsource }

/-- The document node of an emptied document, and its twin. -/
theorem thinning_loadStart (into into' : Document) (text : String)
    (options options' cleared : ParseOptions) :
    Thinning cleared text true (into.loadTarget text options) (into'.loadTarget text options')
      (fun _ => into'.reset.root) (into.loadStarted text) (into'.loadStarted text) ⟨0, false⟩
      ⟨0, false⟩ := by
  have hlabel : ∀ into : Document,
      (into.loadStarted text).doc.labelOf into.reset.root = bareRoot := by
    intro into
    have hnode : (into.loadStart text).node? into.reset.root = _ := node?_root_reset into
    have hnone : (into.loadStart text).attributes into.reset.root = [] := (lists_root_reset into).2
    exact labelOf_of_bare hnode hnone
  refine ⟨loading_loadStart into text options, loading_loadStart into' text options', ?_, rfl, rfl,
    fun hopen => Bool.noConfusion hopen⟩
  refine ⟨fun _ => ?_, fun {x} hx => ?_, fun {x} hx => ?_, fun hx hy _ => ?_⟩
  · have hkind : (into'.loadStarted text).doc.kind into'.reset.root = .document :=
      kind_loadStart into' text
    exact contains_of_kind_ne (by rw [hkind]; decide)
  · rw [eq_root_of_contains_loadStart hx.1, hlabel, hlabel]
  · rw [eq_root_of_contains_loadStart hx.1]
    show into'.reset.children into'.reset.root =
      ((into.reset.children into.reset.root).filter _).map _
    rw [(lists_root_reset into).1, (lists_root_reset into').1]
    rfl
  · rw [eq_root_of_contains_loadStart hx.1, eq_root_of_contains_loadStart hy.1]

/-- A text is loaded into two documents, into one of them without some kinds of nodes: each
node that stays has its twin, and the document node that of the other document. -/
theorem exists_thins (into into' : Document) (hoptions : options.MakesTextNodes)
    (hcleared : ParseOptions.nodeKinds.contains cleared = true) {text : List Char}
    {es : List LoadEvent} (hread : Transcript.ofText ⟨options, true⟩ text = ⟨es, none⟩)
    (hheeded : ((into.loadStarted (String.ofList text)).heeded
      (into.loadTarget (String.ofList text) options) es).1 = none) :
    let target := into.loadTarget (String.ofList text) options
    let target' := into'.loadTarget (String.ofList text) (options.without cleared)
    let kept := es.filter (LoadEvent.stays cleared)
    let filled := (es.foldl (TreeBuilder.after target)
      (into.loadStarted (String.ofList text))).doc
    let thinner := (kept.foldl (TreeBuilder.after target')
      (into'.loadStarted (String.ofList text))).doc
    ((into'.loadStarted (String.ofList text)).heeded target' kept).1 = none ∧ Whole filled ∧
      Whole thinner ∧ filled.root = into.reset.root ∧
      thinner.root = into'.reset.root ∧ filled.Stays cleared.drops filled.root ∧
      ∃ twin, twin filled.root = thinner.root ∧ Thins cleared.drops twin filled thinner := by
  intro target target' kept filled thinner
  have hfits : FitsAll true ⟨0, false⟩ es := by
    have hfits := Transcript.ofText_fits ⟨options, true⟩ text
    rwa [hread] at hfits
  have hfits' : FitsAll true ⟨0, false⟩ (es.filter (LoadEvent.stays cleared)) := by
    have hfits := Transcript.ofText_fits (ReaderMode.without ⟨options, true⟩ cleared) text
    rwa [Transcript.ofText_without hcleared hread] at hfits
  obtain ⟨hheeded', twin, hdone⟩ := (thinning_loadStart into into' (String.ofList text) options
    (options.without cleared) cleared).foldl_after hoptions (hoptions.without hcleared)
      (ParseOptions.agreeOnTexts_without hcleared) hfits hfits' hheeded
  have hbuilding := hdone.loading.building
  have hbuilding' := hdone.thinner.building
  have hroot : filled.root = into.reset.root :=
    (hbuilding.whole.eq_root (hbuilding.document rfl)).symm
  have hroot' : thinner.root = into'.reset.root :=
    (hbuilding'.whole.eq_root (hbuilding'.document rfl)).symm
  have hkind : (filled.kind filled.root).hasChildren = true := hroot ▸ hbuilding.base
  refine ⟨hheeded', hbuilding.whole, hbuilding'.whole, hroot, hroot',
    ⟨contains_of_hasChildren hkind, ParseOptions.drops_of_hasChildren hkind⟩, twin, ?_,
    hdone.thins⟩
  rw [hroot, hroot']
  exact hdone.base.symm

/-- A text that was read to its end, and of which nothing is refused, makes what its events say,
and is loaded if the nodes at the top are accepted. -/
theorem loadString_of_read (into : Document) {text : List Char} {es : List LoadEvent}
    (hread : Transcript.ofText ⟨options, true⟩ text = ⟨es, none⟩)
    (hheeded : ((into.loadStarted (String.ofList text)).heeded
      (into.loadTarget (String.ofList text) options) es).1 = none) :
    let filled := (es.foldl (TreeBuilder.after (into.loadTarget (String.ofList text) options))
      (into.loadStarted (String.ofList text))).doc
    ((into.loadString (String.ofList text) options).1.status = .ok ↔
      options.accepts text ((filled.children into.reset.root).map filled.kind) = true) ∧
      (into.loadString (String.ofList text) options).2 = filled := by
  intro filled
  have hloaded := loadBelow_reset into text options
  simp only [hread, TreeBuilder.carriedOut,
    Transcript.heeded_eq_self (t := ⟨es, none⟩) hheeded] at hloaded
  refine ⟨?_, congrArg Prod.snd hloaded⟩
  show (into.reset.loadBelow into.reset.root (String.ofList text) options).1.status = .ok ↔ _
  rw [hloaded]
  dsimp only
  split
  · rename_i haccepts
    exact iff_of_true rfl haccepts
  · rename_i hrefuses
    exact iff_of_false LoadStatus.noConfusion hrefuses

/-- Not to ask for some of the kinds of nodes that a tree can do without gives the tree that one
would have had, without the nodes of these kinds: the text is loaded as before, and all other
nodes, their values, their order and their attributes are the same. -/
theorem loadString_without (into into' : Document) (text : String)
    {options cleared : ParseOptions} (hembed : options.contains .embedPcdata = false)
    (hmerge : options.contains .mergePcdata = false)
    (hsingle : options.contains .wsPcdataSingle = false)
    (hcleared : ParseOptions.nodeKinds.contains cleared = true)
    (hok : (into.loadString text options).1.status = .ok) :
    let full := into.loadString text options
    let thinner := into'.loadString text (options.without cleared)
    thinner.1.status = .ok ∧
      thinner.2.tree thinner.2.root = (full.2.tree full.2.root).without cleared.drops := by
  intro full thinner
  obtain ⟨cs, rfl⟩ : ∃ cs, text = String.ofList cs := ⟨text.toList, String.ofList_toList.symm⟩
  have hdone := read_of_ok into hok
  simp only [String.toList_ofList] at hdone
  obtain ⟨hfault, hheeded⟩ := hdone
  obtain ⟨es, hread⟩ : ∃ es, Transcript.ofText ⟨options, true⟩ cs = ⟨es, none⟩ :=
    ⟨_, by rw [← hfault]⟩
  have hread' := Transcript.ofText_without hcleared hread
  rw [hread] at hheeded
  obtain ⟨hheeded', ⟨lay, hrooted⟩, ⟨lay', hrooted'⟩, hroot, hroot', hstays, twin, htwin, hthins⟩ :=
    exists_thins into into' ⟨hembed, hmerge, hsingle⟩ hcleared hread hheeded
  obtain ⟨hiff, hfilled⟩ := loadString_of_read into hread hheeded
  obtain ⟨hiff', hfilled'⟩ := loadString_of_read into' hread' hheeded'
  refine ⟨hiff'.2 ?_, ?_⟩
  · have hkinds := hthins.map_kind hrooted.toLaidOut hstays
    rw [htwin, hroot, hroot'] at hkinds
    rw [hkinds, ParseOptions.accepts_without hcleared]
    exact hiff.1 hok
  · rw [show full.2 = _ from hfilled, show thinner.2 = _ from hfilled', ← htwin]
    exact hthins.tree_eq hrooted.toLaidOut hrooted'.toLaidOut hstays

/-- Texts on both sides of what is left out stay apart, and the attribute stays where it was. -/
theorem loadString_without_asides :
    let text := "<!DOCTYPE a><?p q?><a k='v'>x<!--c-->y<![CDATA[z]]><?r?></a>"
    let full := new.loadString text .full
    let thinner := new.loadString text (ParseOptions.full.without .nodeKinds)
    (full.2.children full.2.root).map full.2.kind = [.doctype, .pi, .element] ∧
      full.2.preorder.length = 9 ∧ thinner.1.status = .ok ∧
      (thinner.2.subtree thinner.2.root).map thinner.2.value = ["", "", "x", "y"] ∧
      thinner.2.tree thinner.2.root =
        (full.2.tree full.2.root).without ParseOptions.nodeKinds.drops := by
  obtain ⟨hok, htree⟩ := loadString_without new new
    "<!DOCTYPE a><?p q?><a k='v'>x<!--c-->y<![CDATA[z]]><?r?></a>"
    (show ParseOptions.full.contains .embedPcdata = false by decide) (by decide) (by decide)
    (show ParseOptions.nodeKinds.contains .nodeKinds = true by decide) (by decide +kernel)
  exact ⟨by decide +kernel, by decide +kernel, hok, by decide +kernel, htree⟩

end Document

end XmlTree
