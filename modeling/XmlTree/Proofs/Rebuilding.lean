/-
  Proofs/Rebuilding.lean --- events that say a tree build that tree.

  WHAT THIS FILE IS FOR.  The builder takes one event at a time and remembers only which
  elements are open.  Events that say a tree add exactly one node at the end of the
  innermost open element, the tree stands there, and nothing that was there before is
  touched but the end of that list of children.

  THE FRAME.  What the earlier events built has to survive the later ones.  Its nodes are
  told apart from the open elements by age: they are newer than the element that they
  stand in, and older than whatever comes after them.
-/
import XmlTree.Proofs.Adding
import XmlTree.Proofs.Constructs
import XmlTree.Proofs.Loading
import XmlTree.Proofs.Events
import XmlTree.Proofs.Keeping

set_option autoImplicit false

namespace XmlTree

open Document

variable {doc doc' : Document} {lay : Layout} {b : TreeBuilder} {target : LoadTarget}
  {text : List Char}

/-! ## Texts of the builder -/

/-- The loaded text is kept under its number, its ranges fit into words, and no character
data is joined to anything. -/
structure LoadTarget.Ready (target : LoadTarget) (text : List Char) (doc : Document) : Prop where
  source : doc.texts.source? target.buffer = some (String.ofList text)
  size : byteSize text < 2 ^ 32
  options : target.options.KeepsTextApart

theorem LoadTarget.Ready.kept {Fed Dressed : NodeId → Prop} (h : target.Ready text doc)
    (hkept : Kept doc doc' Fed Dressed) : target.Ready text doc' :=
  ⟨hkept.texts.source? h.source, h.size, h.options⟩

namespace TreeBuilder

/-- A piece of the loaded text is held by its range. -/
theorem holds_rangeSlot (hready : target.Ready text b.doc) {s : Span} {word : String}
    (h : s.Spells text word) : b.doc.texts.Holds (rangeSlot target s) word := by
  obtain ⟨⟨pre, post, htext, hstart⟩, hword⟩ := h
  have hsource := hready.source
  have hsize := hready.size
  rw [htext] at hsource hsize
  have hholds := TextStore.holds_borrowed hsource hsize
  rw [hword, String.ofList_toList] at hholds
  rwa [rangeSlot, Span.stop, hstart, hword]

/-- There is a slot for a converted piece of the loaded text, and the slot holds it. -/
theorem holds_conversionSlot (hready : target.Ready text b.doc) {raw : Span}
    {conversion : Conversion} {word : String} (h : raw.Becomes text conversion word)
    (hshrinks : byteSize conversion.text ≤ byteSize raw.text) :
    ∃ slot texts, b.conversionSlot target raw conversion =
        (some slot, { b with doc := { b.doc with texts } }) ∧
      b.doc.texts.Extends texts ∧ texts.Holds slot word := by
  obtain ⟨hwithin, hplace, hword⟩ := h
  cases hplace with
  | verbatim =>
    exact ⟨_, b.doc.texts, rfl, .refl _, holds_rangeSlot hready ⟨hwithin, hword⟩⟩
  | fresh cs =>
    have hshort : ¬ (Conversion.fresh cs).TooLong :=
      Conversion.not_tooLong_of_le hshrinks (Nat.lt_of_le_of_lt hwithin.byteSize_le hready.size)
    obtain ⟨slot, b', hslot, -⟩ | ⟨-, hlong⟩ := b.conversionSlot_cases target raw (.fresh cs)
    · have howned : (b.doc.texts.own (String.ofList cs)).1 = some slot := congrArg Prod.fst hslot
      obtain rfl : (b.conversionSlot target raw (.fresh cs)).2 = b' := congrArg Prod.snd hslot
      have hcs : String.ofList cs = word := by
        rw [show cs = word.toList from hword, String.ofList_toList]
      exact ⟨slot, _, hslot, .own _ _, hcs ▸ TextStore.holds_own _ howned⟩
    · exact absurd hlong hshort

end TreeBuilder

/-! ## Adding one node -/

/-- A node is new, it is the last child of a node, and nothing else has changed. -/
structure Added (doc doc' : Document) (parent id : NodeId) : Prop where
  whole : Whole doc'
  fresh : doc.contains id = false
  kept : Kept doc doc' (· = parent) fun _ => False
  children : doc'.children parent = doc.children parent ++ [id]

/-- A node that was there before is not the new one. -/
theorem Added.ne_of_contains {parent id x : NodeId} (h : Added doc doc' parent id)
    (hx : doc.contains x = true) : x ≠ id := by
  rintro rfl
  rw [h.fresh] at hx
  cases hx

theorem Added.ofTexts {texts : TextStore} {parent id : NodeId}
    (htexts : doc.texts.Extends texts) (h : Added { doc with texts } doc' parent id) :
    Added doc doc' parent id where
  whole := h.whole
  fresh := h.fresh
  kept :=
    { texts := htexts.trans h.kept.texts
      node := h.kept.node
      attr := h.kept.attr
      children := h.kept.children
      attributes := h.kept.attributes }
  children := h.children

namespace Document

/-- A new node with its texts is put at the end of the children of a node. -/
theorem Rooted.added (h : Rooted doc lay) {kind : NodeKind} {parent : NodeId}
    (name value : TextSlot) (hallowed : (doc.kind parent).allowsChild kind = true) :
    let made := (doc.allocNode kind).2.modifyNode (doc.allocNode kind).1 fun r =>
      { r with name, value }
    let linked := made.link parent .last (doc.allocNode kind).1
    Added doc linked parent (doc.allocNode kind).1 ∧
      (∃ r, linked.node? (doc.allocNode kind).1 = some r ∧ r.kind = kind ∧ r.name = name ∧
        r.value = value) ∧
      linked.children (doc.allocNode kind).1 = [] ∧
      linked.attributes (doc.allocNode kind).1 = [] := by
  intro made linked
  have hsame : SameShape (doc.allocNode kind).2 made := .modifyNode _ fun _ => rfl
  have hmade : LaidOut made lay := (h.toLaidOut.allocNode kind).sameShape hsame
  have hsprout := h.toLaidOut.sprout hsame
  have hlinked := hsprout.laidOut_link h.toLaidOut hmade parent .last hallowed
    (by simp [Place.reference?])
  have hfresh : doc.contains (doc.allocNode kind).1 = false := hsprout.grown.fresh (by simp)
  have hparent : doc.contains parent = true :=
    contains_of_kind_ne (kind_ne_null_of_allowsChild hallowed)
  have hnew : (doc.allocNode kind).1 ≠ parent := by
    intro heq
    rw [heq, hparent] at hfresh
    cases hfresh
  have hkept : Kept doc made (· = parent) fun _ => False :=
    (h.toLaidOut.kept_allocNode kind).modifyNode (allocNode_fresh h.nodes kind) fun _ => rfl
  obtain ⟨hlink, hlist⟩ := hmade.kept_link hlinked
  have hnode : made.node? (doc.allocNode kind).1 =
      some { NodeRecord.detached kind doc.made with name, value } := by
    rw [node?_modifyNode_map, node?_allocNode h.nodes]
    simp
  obtain ⟨hnone, hnone'⟩ := h.toLaidOut.lists_of_not_contains hfresh
  obtain ⟨hmadeNone, hmadeNone'⟩ := h.toLaidOut.lists_eq hmade (doc.allocNode kind).1
  refine ⟨⟨⟨_, h.grown (hsprout.grown.link hsprout.contains) hlinked⟩, hfresh,
    hkept.trans_same hlink, ?_⟩, ?_, ?_, ?_⟩
  · rw [hlist, (h.toLaidOut.lists_eq hmade parent).1]
    rfl
  · rw [node?_link, hnode]
    exact ⟨_, rfl, rfl, rfl, rfl⟩
  · rw [hlink.children hsprout.contains hnew, hmadeNone, hnone]
  · rw [hlink.attributes hsprout.contains id, hmadeNone', hnone']

end Document

/-- A node is pushed with its name and value, and nothing stands below it. -/
theorem TreeBuilder.added_push (hwhole : Whole b.doc) {l : TreeLabel} {name value : TextSlot}
    (hallowed : (b.doc.kind (b.cursor target)).allowsChild l.kind = true)
    (hname : b.doc.texts.Holds name l.nameText) (hvalue : b.doc.texts.Holds value l.valueText)
    (hnull : NullAsIn l name value) :
    ∃ id doc, b.push target l.kind name value = (id, { b with doc }) ∧
      Added b.doc doc (b.cursor target) id ∧ doc.NodeBears l id ∧ doc.children id = [] ∧
      doc.attributes id = [] := by
  obtain ⟨doc, openNodes, owner⟩ := b
  obtain ⟨lay, hrooted⟩ := hwhole
  obtain ⟨hadded, ⟨r, hr, hkind, hr₁, hr₂⟩, hchildren, hattributes⟩ :=
    hrooted.added name value hallowed
  refine ⟨_, _, rfl, hadded, ⟨r, hr, hkind, ?_, ?_, ?_⟩, hchildren, hattributes⟩
  · rw [hr₁]
    exact hadded.kept.texts.holds hname
  · rw [hr₂]
    exact hadded.kept.texts.holds hvalue
  · rw [hr₁, hr₂]
    exact hnull

/-! ## Adding one attribute -/

namespace Document

/-- A new attribute is put at the end of those of a node. -/
theorem Rooted.added_attr (h : Rooted doc lay) {owner : NodeId}
    (howns : (doc.kind owner).hasAttributes = true) :
    let linked := doc.allocAttr.2.linkAttr owner .last doc.allocAttr.1
    Whole linked ∧ Kept doc linked (fun _ => False) (· = owner) ∧
      linked.attributes owner = doc.attributes owner ++ [doc.allocAttr.1] ∧
      linked.containsAttr doc.allocAttr.1 = true ∧ doc.attr? doc.allocAttr.1 = none := by
  intro linked
  have hid : doc.allocAttr.2.containsAttr doc.allocAttr.1 = true := by
    rw [containsAttr_allocAttr h.attrs]
    simp
  obtain ⟨hlaid, hgrown⟩ := h.toLaidOut.addAttr owner .last (.refl _) howns
    (by simp [Place.reference?])
  obtain ⟨hkept, hlist⟩ := h.toLaidOut.kept_addAttr howns
  have hwhole : Whole doc := ⟨_, h⟩
  exact ⟨hwhole.grown hlaid hgrown, hkept, hlist, by rw [containsAttr_linkAttr, hid],
    allocAttr_fresh h.attrs⟩

end Document

namespace TreeBuilder

/-- An event that says an attribute adds it to the node that was opened last. -/
theorem after_attribute (hwhole : Whole b.doc) (hready : target.Ready text b.doc)
    (howns : (b.doc.kind b.owner).hasAttributes = true) {a : TreeAttribute} {e : LoadEvent}
    (he : e.SaysAttribute target.options text a) :
    ∃ id doc, b.after target e = { b with doc } ∧ Whole doc ∧
      Kept b.doc doc (fun _ => False) (· = b.owner) ∧
      doc.attributes b.owner = b.doc.attributes b.owner ++ [id] ∧ doc.AttrBears a id := by
  obtain ⟨name, raw, rfl, hname, hraw⟩ := he
  obtain ⟨lay, hrooted⟩ := id hwhole
  obtain ⟨hlinked, hkept, hlist, hthere, hfresh⟩ := hrooted.added_attr howns
  let id := b.doc.allocAttr.1
  let linked := b.doc.allocAttr.2.linkAttr b.owner .last id
  let named := linked.modifyAttr id fun r => { r with name := rangeSlot target name }
  have hsame : SameShape linked named := .modifyAttr _ fun _ => rfl
  have hnamed : Kept b.doc named (fun _ => False) (· = b.owner) :=
    hkept.modifyAttr hfresh fun _ => rfl
  obtain ⟨slot, texts, hslot, htexts, hholds⟩ :=
    holds_conversionSlot (b := { b with doc := named }) (hready.kept hnamed) hraw
      (byteSize_convertAttribute_le _ _)
  have hconverted : Kept b.doc { named with texts } (fun _ => False) (· = b.owner) :=
    hnamed.trans_same (kept_ofTexts htexts)
  have hsame' : SameShape { named with texts }
      (({ named with texts } : Document).modifyAttr id fun r => { r with value := slot }) :=
    .modifyAttr _ fun _ => rfl
  have hdone := hconverted.modifyAttr (f := fun r => { r with value := slot }) hfresh fun _ => rfl
  obtain ⟨r, hr⟩ := containsAttr_iff.1 hthere
  refine ⟨id, ({ named with texts } : Document).modifyAttr id fun r => { r with value := slot },
    ?_, ((hlinked.sameShape hsame).sameShape (.ofTexts texts)).sameShape hsame', hdone, ?_, ?_⟩
  · show (withSlot { b with doc := named } target raw (convertAttribute target.options raw.text)
      _).2 = _
    rw [withSlot, hslot]
    rfl
  · rw [hsame'.attributes_eq, (SameShape.ofTexts texts).attributes_eq, hsame.attributes_eq, hlist]
  · have hrecord : (({ named with texts } : Document).modifyAttr id fun r =>
        { r with value := slot }).attr? id =
          some { r with name := rangeSlot target name, value := slot } := by
      have hname? : named.attr? id = some { r with name := rangeSlot target name } := by
        rw [attr?_modifyAttr_map, hr]
        simp
      rw [attr?_modifyAttr_map]
      show (named.attr? id).map _ = _
      rw [hname?]
      simp
    exact ⟨_, hrecord, htexts.holds (holds_rangeSlot (b := { b with doc := named })
      (hready.kept hnamed) hname), hholds⟩

/-- Events that say attributes add them one by one. -/
theorem foldl_after_attributes (hwhole : Whole b.doc) (hready : target.Ready text b.doc)
    (howns : (b.doc.kind b.owner).hasAttributes = true) {as : List TreeAttribute}
    {es : List LoadEvent} (hes : List.Forall₂ (LoadEvent.SaysAttribute target.options text) as es) :
    ∃ ids doc, es.foldl (after target) b = { b with doc } ∧ Whole doc ∧
      Kept b.doc doc (fun _ => False) (· = b.owner) ∧
      doc.attributes b.owner = b.doc.attributes b.owner ++ ids ∧
      List.Forall₂ doc.AttrBears as ids := by
  induction hes generalizing b with
  | nil => exact ⟨[], b.doc, rfl, hwhole, .refl _, by simp, .nil⟩
  | cons he _ ih =>
    obtain ⟨id, doc, hadd, hwhole', hkept, hlist, hbears⟩ :=
      after_attribute hwhole hready howns he
    obtain ⟨ids, doc', hfold, hwhole'', hkept', hlist', hall⟩ := ih (b := { b with doc }) hwhole'
      (hready.kept hkept) (by
        show (doc.kind b.owner).hasAttributes = true
        rwa [hkept.kind (contains_of_hasAttributes howns)])
    refine ⟨id :: ids, doc', ?_, hwhole'', hkept.trans_same hkept', ?_,
      .cons (hkept'.attrBears hbears) hall⟩
    · rw [List.foldl_cons, hadd, hfold]
    · rw [hlist', hlist, List.append_assoc]
      rfl

/-! ## Trees -/

/-- Character data is added as a node of its own, or not at all. -/
theorem addText_eq_of_makesTextNodes (hoptions : target.options.MakesTextNodes) (raw : Span)
    (closing : Bool) :
    b.addText target raw closing =
      if target.options.keepsText (b.doc.kind (b.cursor target) == .document) raw.text then
        b.withSlot target raw (convertPcdata target.options raw.text) fun slot b =>
          (b.push target .pcdata .null slot).2
      else (none, b) := by
  have hspace : b.keepsSpace target closing =
      (target.options.contains .wsPcdata && !target.options.contains .trimPcdata) := by
    simp only [keepsSpace, ParseOptions.intersects_space, hoptions.single, Bool.or_false,
      Bool.not_false, Bool.true_or, Bool.and_true]
  have hembeds : b.embedsNext target = false := by
    simp only [embedsNext, hoptions.embed, Bool.false_and]
  have hjoins : b.joinsTo? target = none := by
    simp only [joinsTo?, hoptions.merge, Bool.false_eq_true, if_false]
  simp only [addText, hspace, hembeds, hjoins, Bool.false_eq_true, if_false]
  cases hkeeps : target.options.keepsText (b.doc.kind (b.cursor target) == .document) raw.text with
  | false =>
    obtain hwhite | htop := ParseOptions.keepsText_eq_false_iff.1 hkeeps
    · rw [if_pos hwhite, if_neg Bool.false_ne_true]
    · rw [if_pos htop, ite_self, if_neg Bool.false_ne_true]
  | true =>
    have hnot := mt ParseOptions.keepsText_eq_false_iff.2 (ne_true_of_eq_false · hkeeps)
    rw [not_or] at hnot
    rw [if_neg hnot.1, if_neg hnot.2, if_pos rfl]

theorem addText_eq (hoptions : target.options.KeepsTextApart) (raw : Span) (closing : Bool) :
    b.addText target raw closing =
      if target.options.keepsRun (b.doc.kind (b.cursor target) == .document) raw.text then
        b.withSlot target raw (convertPcdata target.options raw.text) fun slot b =>
          (b.push target .pcdata .null slot).2
      else (none, b) := by
  rw [addText_eq_of_makesTextNodes hoptions.makesTextNodes,
    ParseOptions.keepsText_eq_keepsRun hoptions]

/-- A node is pushed whose value is a converted piece of the text. -/
theorem added_converted (hwhole : Whole b.doc) (hready : target.Ready text b.doc)
    {l : TreeLabel} (hallowed : (b.doc.kind (b.cursor target)).allowsChild l.kind = true)
    (hname : l.name = none) (htells : l.kind.tellsEmpty = false) {raw : Span}
    {conversion : Conversion} (hraw : raw.Becomes text conversion l.valueText)
    (hshrinks : byteSize conversion.text ≤ byteSize raw.text) :
    ∃ id doc, b.withSlot target raw conversion (fun slot b =>
        (b.push target l.kind .null slot).2) = (none, { b with doc }) ∧
      Added b.doc doc (b.cursor target) id ∧ doc.NodeBears l id ∧ doc.children id = [] ∧
      doc.attributes id = [] := by
  obtain ⟨slot, texts, hslot, htexts, hholds⟩ := holds_conversionSlot hready hraw hshrinks
  have hnone : texts.Holds .null l.nameText := by
    rw [TreeLabel.nameText, hname]
    exact .null
  have hnull : NullAsIn l .null slot :=
    { name := fun _ => by rw [hname]; rfl
      value := fun htold => by rw [htells] at htold; cases htold }
  let converted : TreeBuilder := { b with doc := { b.doc with texts } }
  have hwhole' : Whole converted.doc := hwhole.sameShape (.ofTexts texts)
  have hallowed' : (converted.doc.kind (converted.cursor target)).allowsChild l.kind = true :=
    hallowed
  obtain ⟨id, doc, hpush, hadded, hrest⟩ := added_push hwhole' hallowed' hnone hholds hnull
  refine ⟨id, doc, ?_, hadded.ofTexts htexts, hrest⟩
  rw [withSlot, hslot]
  exact congrArg (fun pushed : NodeId × TreeBuilder => (none, pushed.2)) hpush

end TreeBuilder

theorem Tree.Lawful.attributes_eq_nil {l : TreeLabel} {children : List Tree}
    (h : (Tree.node l children).Lawful) (hkind : l.kind.hasAttributes = false) :
    l.attributes = [] := by
  cases h with
  | node howns _ _ =>
    by_contra hne
    rw [howns hne] at hkind
    cases hkind

theorem Tree.Lawful.children_eq_nil {l : TreeLabel} {children : List Tree}
    (h : (Tree.node l children).Lawful) (hkind : l.kind.hasChildren = false) :
    children = [] := by
  cases h with
  | node _ hallowed _ =>
    refine List.eq_nil_iff_forall_not_mem.2 fun t ht => ?_
    obtain ⟨hparent, -⟩ := Bool.and_eq_true_iff.1 (hallowed t ht)
    rw [hkind] at hparent
    cases hparent

/-- A node without children that is pushed stands where it is put. -/
theorem Tree.standsAt_leaf {l : TreeLabel} {children : List Tree} {Among : NodeId → Prop}
    {id : NodeId} (hlawful : (Tree.node l children).Lawful) (hkind : l.kind.hasChildren = false)
    (hid : Among id) (hbears : doc.Bears l id) (hnone : doc.children id = []) :
    (Tree.node l children).StandsAt doc Among id := by
  rw [hlawful.children_eq_nil hkind, StandsAt]
  exact ⟨hid, hbears, hnone⟩

theorem NodeKind.hasName_of_hasAttributes {k : NodeKind} (h : k.hasAttributes = true) :
    k.hasName = true := by
  cases k <;> first | rfl | cases h

namespace TreeBuilder

/-- A tree was added by events: it stands at a new last child of a node, and the builder
goes on where it was. -/
def Raised (target : LoadTarget) (b b' : TreeBuilder) (t : Tree) : Prop :=
  ∃ id doc owner, b' = ⟨doc, b.openNodes, owner⟩ ∧ Added b.doc doc (b.cursor target) id ∧
    t.StandsAt doc (fun x => b.doc.contains x = false) id

/-- A node without attributes and children that is pushed is a tree that is added. -/
theorem raised_leaf {l : TreeLabel} {children : List Tree} {b' : TreeBuilder}
    (hlawful : (Tree.node l children).Lawful) (hchildren : l.kind.hasChildren = false)
    (hattributes : l.kind.hasAttributes = false)
    (h : ∃ id doc, b' = { b with doc } ∧ Added b.doc doc (b.cursor target) id ∧
      doc.NodeBears l id ∧ doc.children id = [] ∧ doc.attributes id = []) :
    Raised target b b' (.node l children) := by
  obtain ⟨id, doc, rfl, hadded, hbears, hnone, hnone'⟩ := h
  refine ⟨id, doc, b.owner, rfl, hadded, Tree.standsAt_leaf hlawful hchildren hadded.fresh
    ⟨hbears, ?_⟩ hnone⟩
  rw [hnone', hlawful.attributes_eq_nil hattributes]
  exact .nil

/-- A node is pushed with its name and gets its attributes, and nothing stands below it. -/
theorem added_dressed (hwhole : Whole b.doc) (hready : target.Ready text b.doc) {l : TreeLabel}
    (hallowed : (b.doc.kind (b.cursor target)).allowsChild l.kind = true)
    (howns : l.kind.hasAttributes = true) (hvalue : l.value = none) {name : Span}
    (hname : name.Spells text l.nameText) {es : List LoadEvent}
    (hes : List.Forall₂ (LoadEvent.SaysAttribute target.options text) l.attributes es)
    (openNodes : NodeId → List NodeId) :
    ∃ id pushed doc, b.push target l.kind (rangeSlot target name) .null =
        (id, { b with doc := pushed }) ∧
      es.foldl (after target) ⟨pushed, openNodes id, id⟩ = ⟨doc, openNodes id, id⟩ ∧
      Added b.doc doc (b.cursor target) id ∧ doc.Bears l id ∧ doc.children id = [] := by
  have hnone : b.doc.texts.Holds .null l.valueText := by
    rw [TreeLabel.valueText, hvalue]
    exact .null
  have hnull : NullAsIn l (rangeSlot target name) .null :=
    { name := fun hkind => by rw [NodeKind.hasName_of_hasAttributes howns] at hkind; cases hkind
      value := fun _ => by rw [hvalue]; rfl }
  obtain ⟨id, pushed, hpush, hadded, hbears, hchildren, hattributes⟩ :=
    added_push hwhole hallowed (holds_rangeSlot hready hname) hnone hnull
  have hkind : pushed.kind id = l.kind := by
    obtain ⟨r, hr, hkind, -⟩ := hbears
    simp [kind, hr, hkind]
  have hready' : target.Ready text pushed := hready.kept hadded.kept
  have howns' : (pushed.kind id).hasAttributes = true := by rwa [hkind]
  obtain ⟨ids, doc, hfold, hwhole', hkept, hlist, hall⟩ :=
    foldl_after_attributes (b := ⟨pushed, openNodes id, id⟩) hadded.whole hready' howns' hes
  have hcursor : b.doc.contains (b.cursor target) = true :=
    contains_of_kind_ne (kind_ne_null_of_allowsChild hallowed)
  refine ⟨id, pushed, doc, hpush, hfold, ⟨hwhole', hadded.fresh,
    hadded.kept.trans hkept (fun _ h => h.elim) (fun hx h => hadded.ne_of_contains hx h), ?_⟩,
    ⟨hkept.nodeBears hbears, ?_⟩, ?_⟩
  · rw [hkept.children (hadded.kept.contains hcursor) (fun h => h), hadded.children]
  · rw [hlist, hattributes, List.nil_append]
    exact hall
  · rw [hkept.children hbears.contains (fun h => h), hchildren]

/-- Trees were added by events: they stand at new last children of a node, and the builder
goes on where it was. -/
def RaisedAll (target : LoadTarget) (b b' : TreeBuilder) (ts : List Tree) : Prop :=
  ∃ ids doc owner, b' = ⟨doc, b.openNodes, owner⟩ ∧ Whole doc ∧
    Kept b.doc doc (· = b.cursor target) (fun _ => False) ∧
    doc.children (b.cursor target) = b.doc.children (b.cursor target) ++ ids ∧
    Tree.AllStandAt doc (fun x => b.doc.contains x = false) ts ids

/-- A node is opened, gets its attributes and what is in it, and is closed: that is a tree
that is added. -/
theorem raised_nested {l : TreeLabel} {children : List Tree} {id : NodeId}
    {pushed doc : Document} {name : Span} {attributes inner : List LoadEvent}
    (hallowed : (b.doc.kind (b.cursor target)).allowsChild l.kind = true)
    (hopened : b.after target (.openElement name) = ⟨pushed, id :: b.openNodes, id⟩)
    (hfold : attributes.foldl (after target) ⟨pushed, id :: b.openNodes, id⟩ =
      ⟨doc, id :: b.openNodes, id⟩)
    (hadded : Added b.doc doc (b.cursor target) id) (hbears : doc.Bears l id)
    (hnone : doc.children id = [])
    (hinside : RaisedAll target ⟨doc, id :: b.openNodes, id⟩
      (inner.foldl (after target) ⟨doc, id :: b.openNodes, id⟩) children) :
    Raised target b ((LoadEvent.openElement name :: (attributes ++ (inner ++
      [.closeElement]))).foldl (after target) b) (.node l children) := by
  obtain ⟨ids, doc', owner, hfold', hwhole, hkept, hlist, hall⟩ := hinside
  have hcursor : b.doc.contains (b.cursor target) = true :=
    contains_of_kind_ne (kind_ne_null_of_allowsChild hallowed)
  refine ⟨id, doc', owner, ?_, ⟨hwhole, hadded.fresh,
    hadded.kept.trans hkept (fun hx h => absurd h (hadded.ne_of_contains hx)) (fun _ h => h), ?_⟩,
    ?_⟩
  · rw [List.foldl_cons, hopened, List.foldl_append, hfold, List.foldl_append, hfold']
    rfl
  · rw [hkept.children (hadded.kept.contains hcursor) (hadded.ne_of_contains hcursor),
      hadded.children]
  · rw [Tree.StandsAt]
    refine ⟨hadded.fresh, hkept.bears hbears (fun h => h), ?_⟩
    have hlist : doc'.children id = doc.children id ++ ids := hlist
    rw [hlist, hnone, List.nil_append]
    exact hall.mono fun x hx => hadded.kept.fresh hx

/-! ### One lemma for each kind of node -/

/-- Character data, a section or a comment is added. -/
theorem raised_converted (hwhole : Whole b.doc) (hready : target.Ready text b.doc)
    {l : TreeLabel} {children : List Tree} (hlawful : (Tree.node l children).Lawful)
    (hunadorned : (Tree.node l children).Unadorned)
    (hkind : l.kind ∈ [NodeKind.pcdata, .cdata, .comment])
    (hallowed : (b.doc.kind (b.cursor target)).allowsChild l.kind = true) {raw : Span}
    {conversion : Conversion} (hraw : raw.Becomes text conversion l.valueText)
    (hshrinks : byteSize conversion.text ≤ byteSize raw.text) :
    Raised target b (b.withSlot target raw conversion fun slot b =>
      (b.push target l.kind .null slot).2).2 (.node l children) := by
  have hplain : ∀ k ∈ [NodeKind.pcdata, .cdata, .comment], k.hasChildren = false ∧
      k.hasAttributes = false ∧ k.hasName = false ∧ k.tellsEmpty = false := by decide
  obtain ⟨hchildren, hattributes, hnameless, htells⟩ := hplain l.kind hkind
  cases hunadorned with
  | node hname _ _ =>
    obtain ⟨id, doc, hadd, hadded⟩ :=
      added_converted hwhole hready hallowed (hname hnameless) htells hraw hshrinks
    exact raised_leaf hlawful hchildren hattributes ⟨id, doc, congrArg Prod.snd hadd, hadded⟩

/-- A node is added whose texts are pieces of the loaded text, and that has no attributes and no
children. -/
theorem raised_pushed (hwhole : Whole b.doc) {l : TreeLabel} {children : List Tree}
    (hlawful : (Tree.node l children).Lawful) (hchildren : l.kind.hasChildren = false)
    (hattributes : l.kind.hasAttributes = false)
    (hallowed : (b.doc.kind (b.cursor target)).allowsChild l.kind = true) {name value : TextSlot}
    (hname : b.doc.texts.Holds name l.nameText) (hvalue : b.doc.texts.Holds value l.valueText)
    (hnull : NullAsIn l name value) :
    Raised target b (b.push target l.kind name value).2 (.node l children) := by
  obtain ⟨id, doc, hpush, hadded⟩ := added_push hwhole hallowed hname hvalue hnull
  exact raised_leaf hlawful hchildren hattributes ⟨id, doc, congrArg Prod.snd hpush, hadded⟩

/-- A processing instruction is added. -/
theorem raised_pi (hwhole : Whole b.doc) (hready : target.Ready text b.doc) {l : TreeLabel}
    {children : List Tree} (hlawful : (Tree.node l children).Lawful) (hkind : l.kind = .pi)
    (hallowed : (b.doc.kind (b.cursor target)).allowsChild l.kind = true) {name : Span}
    {value : Option Span} (hname : name.Spells text l.nameText)
    (hnone : value.isNone = l.value.isNone) (hvalue : ∀ raw ∈ value, raw.Spells text l.valueText) :
    Raised target b (b.after target (.pi name value)) (.node l children) := by
  have hslot : b.doc.texts.Holds (value.elim .null (rangeSlot target)) l.valueText ∧
      (value.elim .null (rangeSlot target)).isNull = l.value.isNone := by
    rw [← hnone]
    cases value with
    | none =>
      have hempty : l.valueText = "" := by
        rw [TreeLabel.valueText, Option.isNone_iff_eq_none.1 hnone.symm]
        rfl
      rw [hempty]
      exact ⟨.null, rfl⟩
    | some raw => exact ⟨holds_rangeSlot hready (hvalue raw rfl), rfl⟩
  have hnull : NullAsIn l (rangeSlot target name) (value.elim .null (rangeSlot target)) :=
    { name := fun hnameless => by rw [hkind] at hnameless; cases hnameless
      value := fun _ => hslot.2 }
  have hraised := raised_pushed hwhole hlawful (by rw [hkind]; rfl) (by rw [hkind]; rfl) hallowed
    (holds_rangeSlot hready hname) hslot.1 hnull
  rw [hkind] at hraised
  exact hraised

/-- A document type is added. -/
theorem raised_doctype (hwhole : Whole b.doc) (hready : target.Ready text b.doc) {l : TreeLabel}
    {children : List Tree} (hlawful : (Tree.node l children).Lawful)
    (hunadorned : (Tree.node l children).Unadorned) (hkind : l.kind = .doctype)
    (hallowed : (b.doc.kind (b.cursor target)).allowsChild l.kind = true) {body : Span}
    (hsome : l.value.isSome) (hbody : body.Spells text l.valueText) :
    Raised target b (b.after target (.doctype body)) (.node l children) := by
  have hnameless : l.name = none := by
    cases hunadorned with
    | node hname _ _ => exact hname (by rw [hkind]; rfl)
  have hnone : b.doc.texts.Holds .null l.nameText := by
    rw [TreeLabel.nameText, hnameless]
    exact .null
  have hnull : NullAsIn l .null (rangeSlot target body) :=
    { name := fun _ => by rw [hnameless]; rfl
      value := fun _ => (Option.isNone_eq_false_iff.2 hsome).symm }
  have hraised := raised_pushed hwhole hlawful (by rw [hkind]; rfl) (by rw [hkind]; rfl) hallowed
    hnone (holds_rangeSlot hready hbody) hnull
  rw [hkind] at hraised
  exact hraised

/-- A declaration is added with its attributes. -/
theorem raised_declaration (hwhole : Whole b.doc) (hready : target.Ready text b.doc)
    {l : TreeLabel} {children : List Tree} (hlawful : (Tree.node l children).Lawful)
    (hunadorned : (Tree.node l children).Unadorned) (hkind : l.kind = .declaration)
    (hallowed : (b.doc.kind (b.cursor target)).allowsChild l.kind = true) {name : Span}
    {attributes : List LoadEvent} (hname : name.Spells text l.nameText)
    (hattributes : List.Forall₂ (LoadEvent.SaysAttribute target.options text) l.attributes
      attributes) :
    Raised target b ((LoadEvent.declaration name :: attributes).foldl (after target) b)
      (.node l children) := by
  have hvalueless : l.value = none := by
    cases hunadorned with
    | node _ hvalue _ => exact hvalue (by rw [hkind]; rfl)
  obtain ⟨id, pushed, doc, hpush, hfold, hadded, hbears, hnone⟩ :=
    added_dressed hwhole hready hallowed (by rw [hkind]; rfl) hvalueless hname hattributes
      fun _ => b.openNodes
  rw [hkind] at hpush
  have hopened : b.after target (.declaration name) = ⟨pushed, b.openNodes, id⟩ := by
    rw [after, add, hpush]
  refine ⟨id, doc, id, ?_, hadded,
    Tree.standsAt_leaf hlawful (by rw [hkind]; rfl) hadded.fresh hbears hnone⟩
  rw [List.foldl_cons, hopened]
  exact hfold

/-- An element is opened with its attributes, and what is added in it goes on below it. -/
theorem opened_element (hwhole : Whole b.doc) (hready : target.Ready text b.doc) {l : TreeLabel}
    {children : List Tree} (hunadorned : (Tree.node l children).Unadorned)
    (hkind : l.kind = .element)
    (hallowed : (b.doc.kind (b.cursor target)).allowsChild l.kind = true) {name : Span}
    {attributes : List LoadEvent} (hname : name.Spells text l.nameText)
    (hattributes : List.Forall₂ (LoadEvent.SaysAttribute target.options text) l.attributes
      attributes) :
    ∃ id pushed doc, b.after target (.openElement name) = ⟨pushed, id :: b.openNodes, id⟩ ∧
      attributes.foldl (after target) ⟨pushed, id :: b.openNodes, id⟩ =
        ⟨doc, id :: b.openNodes, id⟩ ∧
      Added b.doc doc (b.cursor target) id ∧ doc.Bears l id ∧ doc.children id = [] := by
  have hvalueless : l.value = none := by
    cases hunadorned with
    | node _ hvalue _ => exact hvalue (by rw [hkind]; rfl)
  obtain ⟨id, pushed, doc, hpush, hfold, hadded, hbears, hnone⟩ :=
    added_dressed hwhole hready hallowed (by rw [hkind]; rfl) hvalueless hname hattributes
      fun id => id :: b.openNodes
  rw [hkind] at hpush
  exact ⟨id, pushed, doc, by rw [after, add, hpush], hfold, hadded, hbears, hnone⟩

mutual

/-- Events that say a tree add it at the end of the innermost open element. -/
theorem foldl_after_tree {b : TreeBuilder} (t : Tree) (es : List LoadEvent)
    (hsaid : t.SaidBy target.options text es) (hlawful : t.Lawful) (hunadorned : t.Unadorned)
    (hwhole : Whole b.doc) (hready : target.Ready text b.doc)
    (hallowed : (b.doc.kind (b.cursor target)).allowsChild t.label.kind = true)
    (hheard : ∀ raw closing, .text raw closing ∈ es →
      target.options.keepsRun false raw.text = true)
    (hplace : t.IsPcdata → target.options.contains .fragment = true ∨
      b.doc.kind (b.cursor target) ≠ .document) :
    Raised target b (es.foldl (after target) b) t := by
  match t, id hlawful, id hunadorned with
  | .node l children, .node _ hbelow hlawfulBelow, .node _ _ hunadornedBelow =>
    rw [Tree.SaidBy] at hsaid
    have hallowed : (b.doc.kind (b.cursor target)).allowsChild l.kind = true := hallowed
    cases hl : l.kind with
    | pcdata =>
      rw [hl] at hsaid
      obtain ⟨raw, closing, rfl, hraw⟩ := hsaid
      show Raised target b (b.addText target raw closing).2 _
      have hkept : target.options.keepsRun (b.doc.kind (b.cursor target) == .document) raw.text =
          true := by
        have hspace := hheard raw closing (List.mem_singleton_self _)
        obtain hfragment | hbelow := hplace hl
        · simpa [ParseOptions.keepsRun, hfragment] using hspace
        · simpa [ParseOptions.keepsRun, hbelow] using hspace
      rw [addText_eq hready.options, if_pos hkept, ← hl]
      exact raised_converted hwhole hready hlawful hunadorned (by rw [hl]; decide) hallowed hraw
        (byteSize_convertPcdata_le _ _)
    | cdata =>
      rw [hl] at hsaid
      obtain ⟨raw, rfl, hraw⟩ := hsaid
      show Raised target b (b.addSection target .cdata raw).2 _
      rw [addSection, ← hl]
      exact raised_converted hwhole hready hlawful hunadorned (by rw [hl]; decide) hallowed hraw
        (byteSize_sectionConversion_le _ _)
    | comment =>
      rw [hl] at hsaid
      obtain ⟨raw, rfl, hraw⟩ := hsaid
      show Raised target b (b.addSection target .comment raw).2 _
      rw [addSection, ← hl]
      exact raised_converted hwhole hready hlawful hunadorned (by rw [hl]; decide) hallowed hraw
        (byteSize_sectionConversion_le _ _)
    | pi =>
      rw [hl] at hsaid
      obtain ⟨name, value, rfl, hname, hnone, hvalue⟩ := hsaid
      exact raised_pi hwhole hready hlawful hl hallowed hname hnone hvalue
    | declaration =>
      rw [hl] at hsaid
      obtain ⟨name, attributes, rfl, hname, hattributes⟩ := hsaid
      exact raised_declaration hwhole hready hlawful hunadorned hl hallowed hname hattributes
    | element =>
      rw [hl] at hsaid
      obtain ⟨name, attributes, inner, rfl, hname, hattributes, hinner⟩ := hsaid
      obtain ⟨id, pushed, doc, hopened, hfold, hadded, hbears, hnone⟩ :=
        opened_element hwhole hready hunadorned hl hallowed hname hattributes
      let inside : TreeBuilder := ⟨doc, id :: b.openNodes, id⟩
      have hkind : inside.doc.kind (inside.cursor target) = .element := by
        obtain ⟨r, hr, hkind, -⟩ := hbears.node
        rw [← hl, ← hkind]
        exact congrArg (fun o : Option NodeRecord => o.elim NodeKind.null (·.kind)) hr
      refine raised_nested hallowed hopened hfold hadded hbears hnone ?_
      exact foldl_after_trees (b := inside) children inner hinner hlawfulBelow hunadornedBelow
        hadded.whole (hready.kept hadded.kept)
        (fun t ht => by rw [hkind, ← hl]; exact hbelow t ht)
        (fun raw closing hmem => hheard raw closing (by simp [hmem]))
        (fun t ht _ => .inr (by rw [hkind]; decide))
    | doctype =>
      rw [hl] at hsaid
      obtain ⟨body, rfl, hsome, hbody⟩ := hsaid
      exact raised_doctype hwhole hready hlawful hunadorned hl hallowed hsome hbody
    | _ =>
      rw [hl] at hsaid
      exact hsaid.elim

/-- Events that say trees add them one after the other. -/
theorem foldl_after_trees {b : TreeBuilder} (ts : List Tree) (es : List LoadEvent)
    (hsaid : Tree.AllSaidBy target.options text ts es) (hlawful : ∀ t ∈ ts, t.Lawful)
    (hunadorned : ∀ t ∈ ts, t.Unadorned) (hwhole : Whole b.doc)
    (hready : target.Ready text b.doc)
    (hallowed : ∀ t ∈ ts, (b.doc.kind (b.cursor target)).allowsChild t.label.kind = true)
    (hheard : ∀ raw closing, .text raw closing ∈ es →
      target.options.keepsRun false raw.text = true)
    (hplace : ∀ t ∈ ts, t.IsPcdata → target.options.contains .fragment = true ∨
      b.doc.kind (b.cursor target) ≠ .document) :
    RaisedAll target b (es.foldl (after target) b) ts := by
  match ts with
  | [] =>
    obtain rfl : es = [] := hsaid
    exact ⟨[], b.doc, b.owner, rfl, hwhole, .refl _, by simp, rfl⟩
  | t :: ts =>
    obtain ⟨first, rest, rfl, hfirst, hrest⟩ := hsaid
    obtain ⟨hlt, hlrest⟩ := List.forall_mem_cons.1 hlawful
    obtain ⟨hut, hurest⟩ := List.forall_mem_cons.1 hunadorned
    obtain ⟨hat, harest⟩ := List.forall_mem_cons.1 hallowed
    obtain ⟨hpt, hprest⟩ := List.forall_mem_cons.1 hplace
    obtain ⟨id, doc, owner, hfold, hadded, hstands⟩ :=
      foldl_after_tree t first hfirst hlt hut hwhole hready hat
        (fun raw closing hmem => hheard raw closing (List.mem_append_left _ hmem)) hpt
    have hcursor : b.doc.contains (b.cursor target) = true :=
      contains_of_kind_ne (kind_ne_null_of_allowsChild hat)
    let next : TreeBuilder := ⟨doc, b.openNodes, owner⟩
    have hkind : next.doc.kind (next.cursor target) = b.doc.kind (b.cursor target) :=
      hadded.kept.kind hcursor
    obtain ⟨ids, doc', owner', hfold', hwhole', hkept, hchildren, hall⟩ :=
      foldl_after_trees (b := next) ts rest hrest hlrest hurest hadded.whole
        (hready.kept hadded.kept) (fun t ht => by rw [hkind]; exact harest t ht)
        (fun raw closing hmem => hheard raw closing (List.mem_append_right _ hmem))
        (fun t ht htext => by rw [hkind]; exact hprest t ht htext)
    refine ⟨id :: ids, doc', owner', ?_, hwhole', hadded.kept.trans_same hkept, ?_, id, ids, rfl,
      ?_, ?_⟩
    · rw [List.foldl_append, hfold]
      exact hfold'
    · have hlist : doc'.children (b.cursor target) = doc.children (b.cursor target) ++ ids :=
        hchildren
      rw [hlist, hadded.children, List.append_assoc]
      rfl
    · -- the nodes of the first tree are newer than the node that it stands in
      refine Tree.StandsAt.kept hkept (fun _ h => h) (fun x hx => ⟨?_, fun h => h⟩) t id hstands
      rintro rfl
      rw [show b.doc.contains (next.cursor target) = true from hcursor] at hx
      cases hx
    · exact hall.mono fun x hx => hadded.kept.fresh hx

end

end TreeBuilder

end XmlTree
