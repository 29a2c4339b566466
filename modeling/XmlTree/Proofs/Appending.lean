/-
  Proofs/Appending.lean --- an appended load touches nothing that was there.

  WHAT THIS FILE IS FOR.  Bytes are loaded below a node of a document that is there already.
  They may be malformed, hold end tags that nothing was opened for, or break off anywhere.  All
  that they do is add children at the end of that node: every other node and every attribute
  is as it was, and every new node hangs below the node that was loaded into.

  WHY.  A new node goes below the innermost open element, or below the base if none is open.
  Open elements are new, and so is the node that attributes go to; an end tag closes an element
  that is open, and the base is not one of them.

  WHAT IS NOT ALLOWED.  Text that is joined to the text before it, or stored in the element that
  it stands in, is put where something was.  So both options are off.
-/
import XmlTree.Proofs.Viewing

set_option autoImplicit false

namespace XmlTree

/-! ## Views -/

namespace TreeView

variable {v w : TreeView} {base id parent owner : NodeId} {a : AttrId}

/-- Every node and attribute is as it was, but that there are new children at the end of one
node. -/
structure Extends (v w : TreeView) (base : NodeId) : Prop where
  node : ∀ {x n}, v.node x = some n → x ≠ base → w.node x = some n
  children : ∀ {n}, v.node base = some n → ∃ added, (∀ c ∈ added, v.node c = none) ∧
    w.node base = some { n with children := n.children ++ added }
  attr : ∀ {a r}, v.attr a = some r → w.attr a = some r

/-- What is loaded below a node leaves all others alone, and all that is new hangs below it. -/
structure Appended (v w : TreeView) (base : NodeId) : Prop extends Extends v w base where
  below : ∀ {x}, v.node x = none → w.node x ≠ none → Below w.parent? base x
  owned : ∀ {a}, v.attr a = none → w.attr a ≠ none →
    ∃ x, w.owner? a = some x ∧ v.node x = none ∧ Below w.parent? base x

namespace Extends

theorem refl (v : TreeView) (base : NodeId) : v.Extends v base where
  node h _ := h
  children {n} h := ⟨[], List.forall_mem_nil _, by rw [h, List.append_nil]⟩
  attr := id

/-- What is not there now was not there before. -/
theorem node_eq_none (h : v.Extends w base) (hid : w.node id = none) : v.node id = none := by
  cases hold : v.node id with
  | none => rfl
  | some n =>
    by_cases hbase : id = base
    · subst hbase
      obtain ⟨added, -, hnow⟩ := h.children hold
      rw [hnow] at hid
      cases hid
    · rw [h.node hold hbase] at hid
      cases hid

theorem attr_eq_none (h : v.Extends w base) (ha : w.attr a = none) : v.attr a = none := by
  cases hold : v.attr a with
  | none => rfl
  | some r =>
    rw [h.attr hold] at ha
    cases ha

/-- A new node is put at the end of the base, or below a node that is new as well. -/
theorem attach (h : v.Extends w base) (hid : w.node id = none) (n : NodeView)
    (hparent : parent = base ∨ v.node parent = none) :
    v.Extends ((w.addNode id n).attach parent .last id) base := by
  have hnew : v.node id = none := h.node_eq_none hid
  have hne : ∀ {x m}, v.node x = some m → x ≠ id := by
    rintro x m hm rfl
    rw [hnew] at hm
    cases hm
  have hnode : ∀ {x m}, w.node x = some m → x ≠ id →
      ((w.addNode id n).attach parent .last id).node x =
        some { m with children := if x = parent then m.children ++ [id] else m.children } := by
    intro x m hm hx
    simp only [TreeView.attach, TreeView.addNode, hx, if_false, hm, Option.map_some, Place.insert]
  refine ⟨fun {x m} hm hx => ?_, fun {m} hm => ?_, h.attr⟩
  · have hother : x ≠ parent := by
      rintro rfl
      obtain rfl | hfresh := hparent
      · exact hx rfl
      · rw [hfresh] at hm
        cases hm
    rw [hnode (h.node hm hx) (hne hm), if_neg hother]
  · obtain ⟨added, hadded, hnow⟩ := h.children hm
    rw [hnode hnow (hne hm)]
    by_cases hhere : base = parent
    · refine ⟨added ++ [id], List.forall_mem_append.2 ⟨hadded, ?_⟩, ?_⟩
      · exact List.forall_mem_singleton.2 hnew
      · rw [if_pos hhere, List.append_assoc]
    · exact ⟨added, hadded, by rw [if_neg hhere]⟩

/-- A new attribute is given to a node that is new as well. -/
theorem attachAttr (h : v.Extends w base) (ha : w.attr a = none) (r : AttrView)
    (howner : v.node owner = none) :
    v.Extends ((w.addAttr a r).attachAttr owner .last a) base := by
  have hne : ∀ {x m}, v.node x = some m → x ≠ owner := by
    rintro x m hm rfl
    rw [howner] at hm
    cases hm
  have hnode : ∀ {x}, x ≠ owner → ((w.addAttr a r).attachAttr owner .last a).node x = w.node x := by
    intro x hx
    simp only [TreeView.attachAttr, TreeView.addAttr, hx, if_false]
    cases w.node x <;> rfl
  refine ⟨fun {x m} hm hx => ?_, fun {m} hm => ?_, fun {y s} hs => ?_⟩
  · rw [hnode (hne hm)]
    exact h.node hm hx
  · rw [hnode (hne hm)]
    exact h.children hm
  · have hy : y ≠ a := by
      rintro rfl
      rw [h.attr_eq_none ha] at hs
      cases hs
    simp only [TreeView.attachAttr, TreeView.addAttr, hy, if_false, h.attr hs, Option.map_some]

/-- The texts of a new attribute are changed. -/
theorem modifyAttr (h : v.Extends w base) (ha : v.attr a = none) (f : AttrView → AttrView) :
    v.Extends (w.modifyAttr a f) base := by
  refine ⟨h.node, h.children, fun {y s} hs => ?_⟩
  have hy : y ≠ a := by
    rintro rfl
    rw [ha] at hs
    cases hs
  simp only [TreeView.modifyAttr, h.attr hs, Option.map_some, hy, if_false]

end Extends

end TreeView

open Document

/-! ## Steps of the builder -/

section Steps

variable {v : TreeView} {target : LoadTarget} {b b' : TreeBuilder} {belowDocument : Bool}
  {p : EventPlace} {raw : Span} {conversion : Conversion} {slot : TextSlot}

/-- A node is put below another one, with its texts. -/
theorem Document.LaidOut.view_push {doc : Document} {lay : Layout} (h : LaidOut doc lay)
    {kind : NodeKind} (name value : TextSlot) {parent : NodeId}
    (hallowed : (doc.kind parent).allowsChild kind = true) :
    (((doc.allocNode kind).2.modifyNode (doc.allocNode kind).1 fun r =>
      { r with name, value }).link parent .last (doc.allocNode kind).1).view =
        (doc.view.addNode (doc.allocNode kind).1
          (.leaf kind (doc.texts.get name) (doc.texts.get value))).attach
            parent .last (doc.allocNode kind).1 := by
  let made := (doc.allocNode kind).2
  let named := made.modifyNode (doc.allocNode kind).1 fun r => { r with name, value }
  have hsame : SameShape made named := .modifyNode _ fun _ => rfl
  have hnamed : LaidOut named lay := (h.allocNode kind).sameShape hsame
  have hview : named.view = made.view.modify (doc.allocNode kind).1 fun n =>
      { n with name := doc.texts.get name, value := doc.texts.get value } :=
    (h.allocNode kind).view_modifyNode (fun _ => rfl) fun _ _ _ => rfl
  have hlinked := (h.sprout hsame).laidOut_link h hnamed parent .last hallowed
    (by simp [Place.reference?])
  rw [hnamed.view_link hlinked, hview, h.view_allocNode, TreeView.modify_addNode]
  rfl

/-- The document of a builder has grown below the base only; what is open in it is new, and so
is what attributes go to. -/
structure Appending (v : TreeView) (belowDocument : Bool) (target : LoadTarget) (b : TreeBuilder)
    (p : EventPlace) : Prop where
  building : Building belowDocument target b p
  legible : b.Legible target
  extended : v.Extends b.doc.view target.base
  opened : ∀ x ∈ b.openNodes, v.node x = none
  owner : p.tagOpen = true → v.node b.owner = none

namespace Appending

/-- New nodes go to the base or below a node that is new. -/
theorem cursor_cases (h : Appending v belowDocument target b p) :
    b.cursor target = target.base ∨ v.node (b.cursor target) = none := by
  unfold TreeBuilder.cursor
  cases hopen : b.openNodes with
  | nil => exact .inl rfl
  | cons x xs => exact .inr (h.opened x (by simp [hopen]))

/-- A text that is kept is read by nobody yet. -/
theorem conversionSlot (h : Appending v belowDocument target b p)
    (hslot : b.conversionSlot target raw conversion = (some slot, b')) :
    Appending v belowDocument target b' p := by
  have hbuilding := (h.building.conversionSlot hslot).1
  have hlegible := (h.legible.conversionSlot hslot).1
  cases conversion with
  | verbatim skipped text =>
    obtain rfl : b = b' := congrArg Prod.snd hslot
    exact h
  | fresh text =>
    obtain rfl : { b with doc := (b.doc.ownText (String.ofList text)).2 } = b' :=
      congrArg Prod.snd hslot
    refine ⟨hbuilding, hlegible, ?_, h.opened, h.owner⟩
    have hview : (b.doc.ownText (String.ofList text)).2.view = b.doc.view :=
      h.legible.doc.view_ownText _
    rw [hview]
    exact h.extended

/-- A node is added at the cursor. -/
theorem push (h : Appending v belowDocument target b p) {kind : NodeKind} {name value : TextSlot}
    (hname : b.doc.texts.Legible name) (hvalue : b.doc.texts.Legible value)
    (hallowed : (b.doc.kind (b.cursor target)).allowsChild kind = true) :
    Appending v belowDocument target (b.push target kind name value).2 ⟨p.depth, false⟩ ∧
      v.node (b.push target kind name value).1 = none := by
  obtain ⟨lay, hrooted⟩ := id h.building.whole
  have hfresh : b.doc.view.node (b.doc.allocNode kind).1 = none :=
    node_view_allocNode hrooted.nodes kind
  refine ⟨⟨h.building.push name value hallowed, h.legible.push kind hname hvalue, ?_, h.opened,
    nofun⟩, h.extended.node_eq_none hfresh⟩
  have hview : (b.push target kind name value).2.doc.view = _ :=
    hrooted.toLaidOut.view_push name value hallowed
  rw [hview]
  exact h.extended.attach hfresh _ h.cursor_cases

theorem addText (h : Appending v belowDocument target b p)
    (hembed : target.options.contains .embedPcdata = false)
    (hmerge : target.options.contains .mergePcdata = false) (raw : Span) (closing : Bool) :
    Appending v belowDocument target (b.addText target raw closing).2 ⟨p.depth, false⟩ := by
  have hsame : Appending v belowDocument target b ⟨p.depth, false⟩ :=
    ⟨h.building.sameShape (.refl _) rfl nofun, h.legible, h.extended, h.opened, nofun⟩
  have hembeds : b.embedsNext target = false := by rw [TreeBuilder.embedsNext, hembed]; rfl
  have hjoins : b.joinsTo? target = none := by rw [TreeBuilder.joinsTo?, hmerge]; rfl
  simp only [TreeBuilder.addText, hembeds, hjoins]
  split
  · exact hsame
  · split
    · exact hsame
    · refine TreeBuilder.withSlot_induction hsame fun slot b' hslot => ?_
      have hconverted := h.conversionSlot hslot
      exact (hconverted.push TextStore.legible_null (h.legible.conversionSlot hslot).2
        (hconverted.building.cursor_allows (by decide))).1

theorem addSection (h : Appending v belowDocument target b p) {kind : NodeKind} (raw : Span)
    (hkind : kind ∉ [NodeKind.null, .document, .declaration, .doctype]) :
    Appending v belowDocument target (b.addSection target kind raw).2 ⟨p.depth, false⟩ := by
  refine TreeBuilder.withSlot_induction
    ⟨h.building.sameShape (.refl _) rfl nofun, h.legible, h.extended, h.opened, nofun⟩
    fun slot b' hslot => ?_
  have hconverted := h.conversionSlot hslot
  exact (hconverted.push TextStore.legible_null (h.legible.conversionSlot hslot).2
    (hconverted.building.cursor_allows hkind)).1

theorem addAttribute (h : Appending v belowDocument target b p) (hopen : p.tagOpen = true)
    (name : Span) (raw : Option Span) :
    Appending v belowDocument target (b.addAttribute target name raw).2 ⟨p.depth, true⟩ := by
  obtain ⟨lay, hrooted⟩ := id h.building.whole
  have howner := h.owner hopen
  have howns := h.building.owner hopen
  have hfresh : b.doc.view.attr b.doc.allocAttr.1 = none := attr_view_allocAttr hrooted.attrs
  have hnew : v.attr b.doc.allocAttr.1 = none := h.extended.attr_eq_none hfresh
  let linked := b.doc.allocAttr.2.linkAttr b.owner .last b.doc.allocAttr.1
  let named := linked.modifyAttr b.doc.allocAttr.1 fun r =>
    { r with name := TreeBuilder.rangeSlot target name }
  have hlinked : LaidOut linked _ := hrooted.toLaidOut.laidOut_addAttr b.owner .last
    (.refl b.doc.allocAttr.2) howns (by simp [Place.reference?])
  have hextended : v.Extends linked.view target.base := by
    rw [hrooted.toLaidOut.allocAttr.view_linkAttr hlinked, hrooted.toLaidOut.view_allocAttr]
    exact h.extended.attachAttr hfresh _ howner
  have hnamed : v.Extends named.view target.base := by
    have hview : named.view = linked.view.modifyAttr b.doc.allocAttr.1 fun r =>
        { r with name := linked.texts.get (TreeBuilder.rangeSlot target name) } :=
      hlinked.view_modifyAttr (fun _ => rfl) fun _ => rfl
    rw [hview]
    exact hextended.modifyAttr hnew _
  have hbare : Appending v belowDocument target (b.addAttribute target name none).2
      ⟨p.depth, true⟩ :=
    ⟨h.building.addAttribute hopen name none, h.legible.addAttribute name none, hnamed, h.opened,
      fun _ => howner⟩
  cases raw with
  | none => exact hbare
  | some raw =>
    have hadded : v.Extends (b.addAttribute target name (some raw)).2.doc.view target.base ∧
        (∀ x ∈ (b.addAttribute target name (some raw)).2.openNodes, v.node x = none) ∧
        v.node (b.addAttribute target name (some raw)).2.owner = none := by
      unfold TreeBuilder.addAttribute
      refine TreeBuilder.withSlot_induction ⟨hbare.extended, hbare.opened, howner⟩
        fun slot b' hslot => ?_
      have hconverted := hbare.conversionSlot hslot
      obtain ⟨lay', hrooted'⟩ := id hconverted.building.whole
      have hview : (b'.doc.modifyAttr b.doc.allocAttr.1 fun r => { r with value := slot }).view =
          b'.doc.view.modifyAttr b.doc.allocAttr.1 fun r =>
            { r with value := b'.doc.texts.get slot } :=
        hrooted'.toLaidOut.view_modifyAttr (fun _ => rfl) fun _ => rfl
      refine ⟨?_, hconverted.opened, hconverted.owner rfl⟩
      show v.Extends (b'.doc.modifyAttr b.doc.allocAttr.1 fun r => { r with value := slot }).view
        target.base
      rw [hview]
      exact hconverted.extended.modifyAttr hnew _
    obtain ⟨hextended, hopened, howned⟩ := hadded
    exact ⟨h.building.addAttribute hopen name (some raw), h.legible.addAttribute name (some raw),
      hextended, hopened, fun _ => howned⟩

/-- An event that may stand at a place in the text is carried out. -/
theorem add (h : Appending v belowDocument target b p)
    (hembed : target.options.contains .embedPcdata = false)
    (hmerge : target.options.contains .mergePcdata = false) {e : LoadEvent}
    (he : e.Fits belowDocument p) :
    Appending v belowDocument target (b.after target e) (e.place p) := by
  have hbuilding := h.building.add he
  have hlegible := h.legible.add e
  cases e with
  | text raw closing => exact h.addText hembed hmerge raw closing
  | openElement name =>
    obtain ⟨hpushed, hnew⟩ := h.push (h.legible.rangeSlot name) TextStore.legible_null
      (h.building.cursor_allows (show NodeKind.element ∉ _ by decide))
    exact ⟨hbuilding, hlegible, hpushed.extended, List.forall_mem_cons.2 ⟨hnew, hpushed.opened⟩,
      fun _ => hnew⟩
  | closeElement =>
    exact ⟨hbuilding, hlegible, h.extended, fun x hx => h.opened x (List.mem_of_mem_tail hx),
      nofun⟩
  | «attribute» name raw => exact h.addAttribute he name raw
  | comment raw => exact h.addSection raw (by decide)
  | cdata raw => exact h.addSection raw (by decide)
  | pi name value =>
    have hvalue : b.doc.texts.Legible (value.elim .null (TreeBuilder.rangeSlot target)) := by
      cases value with
      | none => exact TextStore.legible_null
      | some value => exact h.legible.rangeSlot value
    exact (h.push (h.legible.rangeSlot name) hvalue (h.building.cursor_allows (by decide))).1
  | declaration name =>
    obtain ⟨hbelow, hdepth⟩ := he
    obtain ⟨hpushed, hnew⟩ := h.push (h.legible.rangeSlot name) TextStore.legible_null
      (h.building.cursor_allows_top hbelow hdepth
        (show NodeKind.document.allowsChild .declaration = true from rfl))
    exact ⟨hbuilding, hlegible, hpushed.extended, hpushed.opened, fun _ => hnew⟩
  | doctype body =>
    obtain ⟨hbelow, hdepth⟩ := he
    exact (h.push TextStore.legible_null (h.legible.rangeSlot body)
      (h.building.cursor_allows_top hbelow hdepth rfl)).1

/-- Events that may stand one after the other are carried out one after the other. -/
theorem foldl_add (h : Appending v belowDocument target b p)
    (hembed : target.options.contains .embedPcdata = false)
    (hmerge : target.options.contains .mergePcdata = false) {es : List LoadEvent}
    (hes : FitsAll belowDocument p es) :
    Appending v belowDocument target (es.foldl (TreeBuilder.after target) b)
      (es.foldl LoadEvent.place p) := by
  induction es generalizing b p with
  | nil => exact h
  | cons e es ih =>
    obtain ⟨he, hrest⟩ := hes
    exact ih (h.add hembed hmerge he) hrest

end Appending

end Steps

/-! ## Whole loads -/

namespace Document

variable {doc doc' : Document} {base : NodeId} {options : ParseOptions}

/-- What stands under the handle of a node, read off its view. -/
theorem lists_of_node_view {x : NodeId} {n : NodeView} (h : doc.view.node x = some n) :
    doc.contains x = true ∧ n.parent = doc.parent? x ∧ n.children = doc.children x ∧
      n.attributes = doc.attributes x := by
  have hx : doc.contains x = true := by
    cases hc : doc.contains x with
    | true => rfl
    | false =>
      rw [node_view_eq_none.2 hc] at h
      cases h
  obtain rfl := Option.some.inj ((if_pos hx).symm.trans h)
  exact ⟨hx, rfl, rfl, rfl⟩

/-- A node that was there has the parent and the attributes that it had, and all but the base
have the children that they had. -/
theorem lists_of_extends (h : doc.view.Extends doc'.view base) {x : NodeId}
    (hx : doc.contains x = true) :
    doc'.contains x = true ∧ doc'.parent? x = doc.parent? x ∧
      doc'.attributes x = doc.attributes x ∧ (x ≠ base → doc'.children x = doc.children x) := by
  obtain ⟨n, hn, -⟩ := node_view_of_contains hx
  obtain ⟨-, hparent, hchildren, hattributes⟩ := lists_of_node_view hn
  by_cases hbase : x = base
  · subst hbase
    obtain ⟨added, -, hnow⟩ := h.children hn
    obtain ⟨hx', hparent', -, hattributes'⟩ := lists_of_node_view hnow
    exact ⟨hx', hparent'.symm.trans hparent, hattributes'.symm.trans hattributes, absurd rfl⟩
  · obtain ⟨hx', hparent', hchildren', hattributes'⟩ := lists_of_node_view (h.node hn hbase)
    exact ⟨hx', hparent'.symm.trans hparent, hattributes'.symm.trans hattributes,
      fun _ => hchildren'.symm.trans hchildren⟩

/-- A new node hangs below the base: the nodes above it are new up to there. -/
theorem Whole.below_base (h : Whole doc) (h' : Whole doc') (hview : doc.view.Extends doc'.view base)
    {x : NodeId} (hnew : doc.contains x = false) (hx : doc'.contains x = true) :
    Below doc'.parent? base x := by
  obtain ⟨lay, hrooted⟩ := h
  obtain ⟨lay', hrooted'⟩ := h'
  obtain ⟨depth, hdepth⟩ := hrooted'.acyclic
  induction hn : depth x using Nat.strongRecOn generalizing x with
  | ind n ih =>
    cases hp : doc'.parent? x with
    | none =>
      -- the document node is not new
      obtain ⟨hroot, hparent, -⟩ := lists_of_extends hview hrooted.contains_root
      rw [hrooted.parent?_root] at hparent
      rw [hrooted'.top_eq hx hp, ← hrooted'.top_eq hroot hparent, hrooted.contains_root] at hnew
      cases hnew
    | some q =>
      have hq' : doc'.contains q = true := hrooted'.contains_parent hp
      cases hq : doc.contains q with
      | false => exact .step hp (ih (depth q) (hn ▸ hdepth hp) hq hq' rfl)
      | true =>
        obtain ⟨-, -, -, hchildren⟩ := lists_of_extends hview hq
        by_cases hbase : q = base
        · rw [hbase] at hp
          exact .step hp .self
        · -- a node that was there has no new child
          have hmem := hrooted'.toLaidOut.mem_children.2 hp
          rw [hchildren hbase, hrooted.toLaidOut.mem_children] at hmem
          rw [contains_of_parent? hmem] at hnew
          cases hnew

/-- What has grown below the base only has grown there, and nowhere else. -/
theorem Whole.appended (h : Whole doc) (h' : Whole doc')
    (hview : doc.view.Extends doc'.view base) : doc.view.Appended doc'.view base := by
  have hbelow : ∀ {x}, doc.view.node x = none → doc'.view.node x ≠ none →
      Below doc'.view.parent? base x := by
    intro x hnew hx
    rw [parent?_view]
    exact h.below_base h' hview (node_view_eq_none.1 hnew) (by simpa [node_view_eq_none] using hx)
  refine ⟨hview, hbelow, fun {a} hnew ha => ?_⟩
  obtain ⟨lay, hrooted⟩ := h
  obtain ⟨lay', hrooted'⟩ := h'
  have ha' : doc'.containsAttr a = true := by simpa [attr_view_eq_none] using ha
  obtain ⟨x, hx⟩ := hrooted'.owned ha'
  have hx' : doc'.contains x = true := hrooted'.contains_owner hx
  have hfresh : doc.view.node x = none := by
    rw [node_view_eq_none]
    cases hold : doc.contains x with
    | false => rfl
    | true =>
      -- a node that was there has no new attribute
      obtain ⟨-, -, hattributes, -⟩ := lists_of_extends hview hold
      have hmem := hrooted'.toLaidOut.mem_attributes.2 hx
      rw [hattributes, hrooted.toLaidOut.mem_attributes] at hmem
      rw [attr_view_eq_none, containsAttr_of_owner? hmem] at hnew
      cases hnew
  refine ⟨x, by rw [owner?_view, hx], hfresh, hbelow hfresh ?_⟩
  rw [ne_eq, node_view_eq_none, hx']
  exact Bool.noConfusion

/-- A text is loaded below a node, however the load ends. -/
theorem Whole.extends_loadBelow (h : Whole doc) (hlegible : Legible doc)
    (hbase : (doc.kind base).hasChildren = true) (text : String)
    (hembed : options.contains .embedPcdata = false)
    (hmerge : options.contains .mergePcdata = false) :
    doc.view.Extends (doc.loadBelow base text options).2.view base := by
  let buffered : Document := { doc with texts := (doc.texts.addBuffer text).2 }
  obtain ⟨hextends, hsource⟩ := doc.texts.extends_addBuffer text
  have hview : buffered.view = doc.view :=
    view_ofTexts fun huse => (hlegible.slots huse).get_eq hextends
  have hbuffered : doc.view.Extends buffered.view base := by
    rw [hview]
    exact .refl _ _
  let mode : ReaderMode := ⟨options, buffered.kind base == .document⟩
  let target : LoadTarget := ⟨base, (doc.texts.addBuffer text).1, options⟩
  have hstart : Appending doc.view mode.belowDocument target ⟨buffered, [], base⟩ ⟨0, false⟩ :=
    { building := .start (h.sameShape (.ofTexts _)) hbase fun hdocument => beq_iff_eq.1 hdocument
      legible := ⟨hlegible.drawn (.ofTexts hextends), text, hsource⟩
      extended := hbuffered
      opened := List.forall_mem_nil _
      owner := nofun }
  refine loadBelow_induction fun es hes => ?_
  have hfits := hes.fits (Transcript.ofText_fits mode text.toList)
  exact (hstart.foldl_add hembed hmerge hfits).extended

/-- Whatever bytes are loaded below an element or below the document node, and however the load
ends: all nodes and attributes that were there are as they were, but for new children at the end
of that node, and all that is new hangs below it. -/
theorem reachable_appended (h : Reachable doc)
    (hbase : doc.kind base = .element ∨ doc.kind base = .document) (bytes : Bytes)
    (hembed : options.contains .embedPcdata = false)
    (hmerge : options.contains .mergePcdata = false) (encoding : Encoding) :
    doc.view.Appended (doc.appendBytes base bytes options encoding).2.view base := by
  have hwhole := h.whole
  have hchildren : (doc.kind base).hasChildren = true := by
    obtain hkind | hkind := hbase <;> rw [hkind] <;> rfl
  refine hwhole.appended (hwhole.appendBytes base bytes options encoding) ?_
  rw [appendBytes, if_pos hchildren]
  exact hwhole.forgetOrder.extends_loadBelow (h.legible.drawn .forgetOrder) hchildren _ hembed
    hmerge

/-- An end tag that nothing was opened for ends the load, and not the node loaded into. -/
theorem appended_stray :
    let doc := new.applyAll shuffled
    let appended := doc.appendBytes ⟨⟨1, 1⟩⟩ (Encoding.utf8.encode "<x k='v'>t</x></a><y/>") .full
      .utf8
    appended.1.status = .endElementMismatch ∧
      appended.2.children ⟨⟨1, 1⟩⟩ = doc.children ⟨⟨1, 1⟩⟩ ++ [⟨⟨4, 1⟩⟩] ∧
      doc.view.Appended appended.2.view ⟨⟨1, 1⟩⟩ :=
  ⟨by decide +kernel, by decide +kernel,
    reachable_appended (Reachable.new.applyAll (by decide)) (.inl (by decide +kernel)) _
      (by decide) (by decide) _⟩

end Document

end XmlTree
