/-
  Proofs/Naming.lean --- the document node has no name.

  WHAT THIS FILE IS FOR.  A name can be given only to a node of a kind that has one, and the
  document node is none of these.  So its name is empty whatever is done to the document, and
  a path, which begins there, begins with the delimiter.

  HOW IT IS SHOWN.  An edit is read off the view of the tree: what stands at the top and has no
  name by its kind is still there and is called as it was.  A load adds to the tree and renames
  nothing.
-/
import XmlTree.Proofs.OpenElements
import XmlTree.Proofs.Refinement
import XmlTree.Proofs.Duplicating

set_option autoImplicit false

namespace XmlTree

/-! ## Edits -/

namespace TreeView

variable {v w : TreeView} {x : NodeId} {n : NodeView} {c : Change} {o : Outcome}

/-- Something of the same kind and name stands under the handle. -/
def Calls (w : TreeView) (x : NodeId) (n : NodeView) : Prop :=
  ∃ m, w.node x = some m ∧ m.kind = n.kind ∧ m.name = n.name

theorem Calls.map {f : NodeView → NodeView} (h : v.Calls x n)
    (hw : w.node x = (v.node x).map f) (hf : ∀ m, (f m).kind = m.kind ∧ (f m).name = m.name) :
    w.Calls x n := by
  obtain ⟨m, hm, hkind, hname⟩ := h
  refine ⟨f m, ?_, (hf m).1.trans hkind, (hf m).2.trans hname⟩
  rw [hw, hm, Option.map_some]

theorem Calls.attach (h : v.Calls x n) (parent : NodeId) (place : Place NodeId) (id : NodeId) :
    (v.attach parent place id).Calls x n :=
  h.map rfl fun _ => ⟨rfl, rfl⟩

/-- What is put under another handle changes nothing here. -/
theorem Calls.addNode (h : v.Calls x n) {id : NodeId} (hid : v.node id = none) (m : NodeView) :
    (v.addNode id m).Calls x n := by
  obtain ⟨k, hk, hsame⟩ := h
  have hne : x ≠ id := by
    rintro rfl
    rw [hid] at hk
    cases hk
  refine ⟨k, ?_, hsame⟩
  rw [TreeView.addNode]
  simp only [if_neg hne]
  exact hk

theorem Calls.insertAttr (h : v.Calls x n) (owner : NodeId) (place : Place AttrId) (a : AttrId)
    (name value : String) : (v.insertAttr owner place a name value).Calls x n :=
  h.map (v := v.addAttr a ⟨name, value, none⟩) rfl fun _ => ⟨rfl, rfl⟩

theorem Calls.dropAttr (h : v.Calls x n) (owner : NodeId) (a : AttrId) :
    (v.dropAttr owner a).Calls x n :=
  h.map rfl fun _ => ⟨rfl, rfl⟩

theorem Calls.foldl_dropAttr (h : v.Calls x n) (owner : NodeId) (as : List AttrId) :
    (as.foldl (fun v a => v.dropAttr owner a) v).Calls x n := by
  induction as generalizing v with
  | nil => exact h
  | cons a as ih => exact ih (h.dropAttr owner a)

/-- What stands at the top is not taken away with what stands below something. -/
theorem Removal.calls {parent : NodeId} {cs : List NodeId} (h : v.Removal parent cs w)
    (hx : v.node x = some n) (htop : n.parent = none)
    (hcs : ∀ c ∈ cs, v.parent? c ≠ none) : w.Calls x n := by
  have hparent : v.parent? x = none := by
    rw [TreeView.parent?, hx]
    exact htop
  have hkept := h.node_kept (x := x) fun c hc hbelow => by
    have hcx : c = x := hbelow.eq_of_parent?_eq_none hparent
    exact hcs c hc (hcx ▸ hparent)
  have hcalls : v.Calls x n := ⟨n, hx, rfl, rfl⟩
  exact hcalls.map hkept fun _ => ⟨rfl, rfl⟩

/-- Whatever an edit does, what stands at the top and has no name by its kind is still there
and is called as it was. -/
theorem Edited.calls (h : v.Edited c o w) (hx : v.node x = some n) (htop : n.parent = none)
    (hkind : n.kind.hasName = false)
    (hbelow : ∀ {p m c}, v.node p = some m → c ∈ m.children → v.parent? c ≠ none) :
    w.Calls x n := by
  have hcalls : v.Calls x n := ⟨n, hx, rfl, rfl⟩
  cases h with
  | refused => exact hcalls
  | insertChild _ _ _ hnew | insertElement _ _ _ hnew | setNewContent _ _ hnew
  | refusedContent _ _ hnew =>
    exact (hcalls.addNode hnew _).attach _ _ _
  | insertCopy _ _ hcopy | insertCopyFrom _ _ hcopy =>
    have hcopied : TreeView.Calls _ x n := ⟨n, hcopy.within.node hx, rfl, rfl⟩
    exact hcopied.attach _ _ _
  | @insertMove parent moved old =>
    have hdetached : (v.detach old moved).Calls x n := hcalls.map rfl fun _ => ⟨rfl, rfl⟩
    exact hdetached.attach _ _ _
  | removeChild hchild hgone =>
    refine hgone.calls hx htop fun c hc => ?_
    rw [List.mem_singleton.1 hc, hchild]
    exact Option.some_ne_none _
  | removeChildNamed hparent hchild _ _ hgone =>
    refine hgone.calls hx htop fun c hc => ?_
    rw [List.mem_singleton.1 hc]
    exact hbelow hparent hchild
  | removeChildren hparent hgone => exact hgone.calls hx htop fun c hc => hbelow hparent hc
  | insertAttribute | insertAttributeCopy | setNewAttribute => exact hcalls.insertAttr _ _ _ _ _
  | setAttribute | setAttrName | setAttrValue => exact hcalls
  | removeAttribute | removeAttributeNamed => exact hcalls.dropAttr _ _
  | removeAttributes => exact hcalls.foldl_dropAttr _ _
  | @setName id name m hid hnamed =>
    have hne : x ≠ id := by
      rintro rfl
      rw [hx] at hid
      cases hid
      rw [hkind] at hnamed
      cases hnamed
    refine ⟨n, ?_, rfl, rfl⟩
    simp [TreeView.modify, hx, hne]
  | setValue | setContent =>
    refine hcalls.map rfl fun m => ?_
    split
    · exact ⟨rfl, rfl⟩
    · exact ⟨rfl, rfl⟩

end TreeView

namespace Document

variable {doc doc' : Document}

/-- The document node is called as it was if it is still there under that name. -/
theorem Whole.name_root_eq (h' : Whole doc') {x : NodeId} {n : NodeView}
    (hcalls : doc'.view.Calls x n) (hkind : n.kind = .document) :
    doc'.name doc'.root = n.name := by
  obtain ⟨m, hm, hmkind, hname⟩ := hcalls
  have hthere : doc'.contains x = true := by
    cases hx : doc'.contains x with
    | true => rfl
    | false =>
      rw [node_view_eq_none.2 hx] at hm
      cases hm
  obtain ⟨m', hm', hkind', -⟩ := node_view_of_contains hthere
  have heq : m' = m := by
    rw [hm] at hm'
    exact (Option.some.inj hm').symm
  have hroot : x = doc'.root := h'.eq_root (by rw [← hkind', heq, hmkind, hkind])
  rw [← hroot, ← name_view, TreeView.name, hm, Option.elim_some, hname]

/-- No edit names the document node. -/
theorem Whole.name_root_edit (h : Whole doc) (hlegible : Legible doc) {c : Change}
    (hedit : c.isEdit = true) (hsource : ∀ s, c.source? = some s → Whole s) :
    (doc.apply c).2.name (doc.apply c).2.root = doc.name doc.root := by
  have hdone := h.apply c hsource
  have hedited := h.edited hlegible c hedit hsource
  obtain ⟨lay, hrooted⟩ := h
  obtain ⟨n, hn, hkind, -⟩ := node_view_of_contains hrooted.contains_root
  rw [hrooted.root_kind] at hkind
  have hparent : n.parent = none := by
    have hroot := hrooted.parent?_root
    rwa [← parent?_view, TreeView.parent?, hn] at hroot
  have hname : n.name = doc.name doc.root := by
    rw [← name_view, TreeView.name, hn]
    rfl
  rw [← hname]
  refine hdone.name_root_eq (hedited.calls hn hparent (by rw [hkind]; rfl) ?_) hkind
  intro p m c hm hc
  have hlive : doc.contains p = true := by
    cases hp : doc.contains p with
    | true => rfl
    | false =>
      rw [node_view_eq_none.2 hp] at hm
      cases hm
  obtain ⟨m', hm', -, hchildren, -⟩ := node_view_of_contains hlive
  rw [hm] at hm'
  cases hm'
  rw [parent?_view, hrooted.mem_children.1 (hchildren ▸ hc)]
  exact Option.some_ne_none p

/-! ## Loads -/

/-- What is kept under its name is called as it was. -/
theorem KeepsNames.name_eq (h : KeepsNames doc doc') (hlegible : Legible doc) {x : NodeId}
    (hx : doc.contains x = true) : doc'.name x = doc.name x := by
  obtain ⟨r, hr⟩ := contains_iff.1 hx
  obtain ⟨r', hr', -, hname⟩ := h.node hr
  rw [name, name, hr, hr', Option.elim_some, Option.elim_some, textOf, textOf, hname]
  exact (hlegible.slots (.name hr)).get_eq h.texts

/-- A whole document in which all names are kept has a document node of the same name. -/
theorem KeepsNames.name_root_eq (h : KeepsNames doc doc') (hdoc : Whole doc)
    (hlegible : Legible doc) (hdoc' : Whole doc') : doc'.name doc'.root = doc.name doc.root := by
  obtain ⟨lay, hrooted⟩ := hdoc
  have hthere := hrooted.contains_root
  have hroot : doc.root = doc'.root :=
    hdoc'.eq_root ((h.kind_eq hthere).trans hrooted.root_kind)
  rw [← hroot]
  exact h.name_eq hlegible hthere

end Document

open Document

theorem Building.keepsNames_foldl {belowDocument : Bool} {target : LoadTarget} {b : TreeBuilder}
    {p : EventPlace} (h : Building belowDocument target b p) {es : List LoadEvent}
    (hes : FitsAll belowDocument p es) :
    KeepsNames b.doc (es.foldl (TreeBuilder.after target) b).doc := by
  induction es generalizing b p with
  | nil => exact .refl _
  | cons e es ih =>
    obtain ⟨he, hrest⟩ := hes
    exact (TreeBuilder.keepsNames_add h he).trans (ih (h.add he) hrest)

namespace Document

variable {doc : Document}

/-- A text that is added below a node leaves all names as they were. -/
theorem Whole.keepsNames_loadBelow (h : Whole doc) {base : NodeId} (text : String)
    (options : ParseOptions) (hbase : (doc.kind base).hasChildren = true) :
    KeepsNames doc (doc.loadBelow base text options).2 := by
  let buffered : Document := { doc with texts := (doc.texts.addBuffer text).2 }
  have hbuffered : KeepsNames doc buffered := .of_texts (doc.texts.extends_addBuffer text).1
  let mode : ReaderMode := ⟨options, buffered.kind base == .document⟩
  let target : LoadTarget := ⟨base, (doc.texts.addBuffer text).1, options⟩
  have hstart : Building mode.belowDocument target ⟨buffered, [], base⟩ ⟨0, false⟩ :=
    .start (h.sameShape (.ofTexts _)) hbase fun hdocument => beq_iff_eq.1 hdocument
  have hfits := Transcript.ofText_fits mode text.toList
  exact loadBelow_induction fun es hes => hbuffered.trans (hstart.keepsNames_foldl (hes.fits hfits))

/-- A load does not name the document node. -/
theorem Whole.name_root_loadBelow (h : Whole doc) (hlegible : Legible doc) {base : NodeId}
    (text : String) (options : ParseOptions) (hbase : (doc.kind base).hasChildren = true) :
    (doc.loadBelow base text options).2.name (doc.loadBelow base text options).2.root =
      doc.name doc.root :=
  (h.keepsNames_loadBelow text options hbase).name_root_eq h hlegible
    (h.loadBelow text options hbase)

theorem name_root_reset (doc : Document) : doc.reset.name doc.reset.root = "" := by
  rw [name, node?_root_reset]
  rfl

/-- What replaces the content of a document does not name its document node. -/
theorem name_root_loadReset (doc : Document) (text : String) (options : ParseOptions) :
    (doc.reset.loadBelow doc.reset.root text options).2.name
      (doc.reset.loadBelow doc.reset.root text options).2.root = "" :=
  ((whole_reset doc).name_root_loadBelow (Obeys.reset doc) text options
    (kind_root_reset doc)).trans (name_root_reset doc)

theorem Whole.name_root_resetFrom {source : Document} (hsource : Whole source) (doc : Document) :
    (doc.resetFrom source).name (doc.resetFrom source).root = "" := by
  obtain ⟨laySource, hrooted⟩ := id hsource
  have hkept := ((whole_reset doc).copyTops_reads (Obeys.reset doc) hrooted
    (source.children source.root) fun c hc => hrooted.mem_children.1 hc).1
  exact ((KeepsNames.of_kept hkept).name_root_eq (whole_reset doc) (Obeys.reset doc)
    (hsource.resetFrom doc)).trans (name_root_reset doc)

/-! ## Whatever is done -/

theorem Whole.name_root_apply (h : Whole doc) (hlegible : Legible doc)
    (hname : doc.name doc.root = "") (c : Change)
    (hsource : ∀ s, c.source? = some s → Whole s) :
    (doc.apply c).2.name (doc.apply c).2.root = "" := by
  cases hedit : c.isEdit with
  | true => exact (h.name_root_edit hlegible hedit hsource).trans hname
  | false =>
    cases c with
    | loadString text options => exact name_root_loadReset doc text options
    | loadBytes bytes options encoding => exact name_root_loadReset doc _ options
    | loadFetched fetched options encoding =>
      cases fetched with
      | ok bytes => exact name_root_loadReset doc.reset _ options
      | error failure => exact name_root_reset doc
    | appendBytes parent bytes options encoding =>
      show (doc.appendBytes parent bytes options encoding).2.name
        (doc.appendBytes parent bytes options encoding).2.root = ""
      unfold Document.appendBytes
      split
      · rename_i hparent
        exact (h.forgetOrder.name_root_loadBelow (hlegible.drawn .forgetOrder) _ options
          hparent).trans hname
      · exact hname
    | reset => exact name_root_reset doc
    | resetFrom source => exact (hsource source rfl).name_root_resetFrom doc
    | _ => cases hedit

/-- Whatever is done to a document, its document node has no name. -/
theorem Reachable.name_root (h : Reachable doc) : doc.name doc.root = "" := by
  induction h with
  | new => rfl
  | change c before hsource ih _ =>
    exact before.whole.name_root_apply before.legible ih c fun s hs => (hsource s hs).whole
  | @ranked doc _ ih =>
    unfold withRanks
    split
    · exact ih
    · exact ih

end Document

end XmlTree
