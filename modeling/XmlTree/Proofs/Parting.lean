/-
  Proofs/Parting.lean --- what stands between texts when texts are joined.

  WHAT THIS FILE IS FOR.  With the switch that joins character data no two nodes of character
  data are neighbours, wherever they stand in a tree that was loaded, and also if the load
  stopped at a fault.  Sections are character data as well, but the switch does not reach them:
  a section is a node of its own, whatever stands before it, and so is what comes behind it.
  So two texts that are neighbours are there because of a section that was asked for.

  ONE CHILD AT A TIME.  The builder only ever adds a child behind those that are there.  It is
  enough to look at the last of them, and to know that nothing that is open is character data.
-/
import XmlTree.Proofs.Fusing

set_option autoImplicit false

namespace XmlTree

/-! ## What is asked for -/

/-- Whether nodes of a kind are made. -/
def ParseOptions.asksFor (options : ParseOptions) : NodeKind → Bool
  | .pi => options.contains .pi
  | .comment => options.contains .comments
  | .cdata => options.contains .cdata
  | .declaration => options.contains .declaration
  | .doctype => options.contains .doctype
  | _ => true

/-- The node that an event stands for is one that was asked for. -/
theorem LoadEvent.Said.asksFor {options : ParseOptions} {source : String} {e : LoadEvent}
    (h : e.Said options) {l : TreeLabel} (hl : e.nodeLabel? options source false = some l)
    (hmarkup : ∀ raw closing, e ≠ .text raw closing) : options.asksFor l.kind = true := by
  cases e with
  | text raw closing => exact absurd rfl (hmarkup raw closing)
  | closeElement | «attribute» => cases hl
  | openElement =>
    cases hl
    rfl
  | pi | declaration =>
    cases hl
    exact h.2
  | _ =>
    cases hl
    exact h

/-! ## Trees -/

/-- No two neighbours are character data, and all nodes are of kinds that were asked for, at every
depth. -/
inductive Tree.Parted (options : ParseOptions) : Tree → Prop
  | node {l : TreeLabel} {children : List Tree} (kind : options.asksFor l.kind = true)
      (apart : children.IsChain fun t u => bothPcdata t u = false)
      (below : ∀ t ∈ children, Parted options t) : Parted options (.node l children)

namespace Tree.Parted

variable {options : ParseOptions} {t c : Tree} {l : TreeLabel} {f : TreeLabel → TreeLabel}

theorem leaf (h : options.asksFor l.kind = true) : (Tree.leaf l).Parted options :=
  .node h .nil (List.forall_mem_nil _)

/-- A child may be added unless it and the last one are character data. -/
theorem addChild (ht : t.Parted options) (hc : c.Parted options)
    (hlast : c.isPcdata = true → t.endsInPcdata = false) : (t.addChild c).Parted options := by
  obtain ⟨hkind, happart, hbelow⟩ := ht
  refine .node hkind (List.isChain_append.2 ⟨happart, List.isChain_singleton _, ?_⟩)
    (List.forall_mem_append.2 ⟨hbelow, List.forall_mem_singleton.2 hc⟩)
  intro u hu v hv
  cases hv
  cases hpcdata : c.isPcdata with
  | false => rw [bothPcdata, hpcdata, Bool.and_false]
  | true =>
    have hends : Option.any isPcdata (some u) = false := by
      rw [← show List.getLast? _ = some u from hu]
      exact hlast hpcdata
    rw [bothPcdata, show u.isPcdata = false from hends, Bool.false_and]

theorem asksFor (h : t.Parted options) : options.asksFor t.label.kind = true := by
  obtain ⟨hkind, -, -⟩ := h
  exact hkind

theorem relabel (ht : t.Parted options) (hf : ∀ l, (f l).kind = l.kind) :
    (t.relabel f).Parted options := by
  obtain ⟨hkind, happart, hbelow⟩ := ht
  exact .node ((congrArg options.asksFor (hf _)).trans hkind) happart hbelow

theorem relabelLast (ht : t.Parted options) (hf : ∀ l, (f l).kind = l.kind) :
    (t.relabelLast f).Parted options := by
  obtain ⟨hkind, happart, hbelow⟩ := ht
  rename_i l children
  obtain rfl | ⟨cs, x, rfl⟩ := List.eq_nil_or_concat' children
  · exact .node hkind happart hbelow
  · obtain ⟨hcs, hx⟩ := List.forall_mem_append.1 hbelow
    have hsame : ∀ u : Tree, bothPcdata u (x.relabel f) = bothPcdata u x := fun u =>
      congrArg (u.isPcdata && · == NodeKind.pcdata) (hf x.label)
    rw [Tree.relabelLast, Tree.children, List.modifyLast_concat]
    rw [List.isChain_append] at happart
    obtain ⟨hchain, -, hlast⟩ := happart
    refine .node hkind (List.isChain_append.2 ⟨hchain, List.isChain_singleton _, ?_⟩)
      (List.forall_mem_append.2 ⟨hcs, List.forall_mem_singleton.2
        ((List.forall_mem_singleton.1 hx).relabel hf)⟩)
    intro u hu v hv
    cases hv
    exact (hsame u).trans (hlast u hu x rfl)

end Tree.Parted

/-! ## Saplings -/

namespace Sapling

/-- So far no two neighbours are character data, and all nodes were asked for. -/
structure Parted (options : ParseOptions) (z : Sapling) : Prop extends z.Sound where
  tip_parted : z.tip.Parted options
  outer_parted : ∀ t ∈ z.outer, t.Parted options

variable {z : Sapling} {options : ParseOptions} {source : String} {e : LoadEvent}

theorem endsInPcdata_of_planted (hmerge : options.contains .mergePcdata = true) {raw : List Char}
    {closing : Bool} (h : z.textFate options raw closing = .planted) :
    z.tip.endsInPcdata = false := by
  cases hends : z.tip.endsInPcdata with
  | false => rfl
  | true =>
    unfold textFate at h
    rw [hmerge, hends] at h
    split at h
    · cases h
    · split at h
      · cases h
      · split at h <;> cases h

/-- Markup adds a node that is no character data, and that may stand behind anything. -/
theorem Parted.add_markup (h : z.Parted options) (hmarkup : ∀ raw closing, e ≠ .text raw closing)
    {l : TreeLabel} (hl : e.nodeLabel? options source false = some l) (he : e.Said options)
    (hne : l.kind ≠ .pcdata) : (z.add options source e).Parted options := by
  have hkind := he.asksFor hl hmarkup
  have hsound : (z.add options source e).Sound := h.toSound.add e
  have htip : (z.tip.addChild (.leaf l)).Parted options :=
    h.tip_parted.addChild (.leaf hkind) fun hpcdata => absurd (beq_iff_eq.1 hpcdata) hne
  rw [Sapling.add_markup hmarkup hl] at hsound ⊢
  cases e with
  | openElement name =>
    exact ⟨hsound, .leaf hkind, List.forall_mem_cons.2 ⟨h.tip_parted, h.outer_parted⟩⟩
  | _ => exact ⟨hsound, htip, h.outer_parted⟩

/-- Character data is joined to what stands before it, if that is character data. -/
theorem Parted.add (h : z.Parted options) (hmerge : options.contains .mergePcdata = true)
    (he : e.Said options) : (z.add options source e).Parted options := by
  have hsound : (z.add options source e).Sound := h.toSound.add e
  cases e with
  | text raw closing =>
    refine ⟨hsound, ?_, h.outer_parted⟩
    simp only [Sapling.add, addText]
    cases hfate : z.textFate options raw.text closing with
    | dropped => exact h.tip_parted
    | embedded => exact h.tip_parted.relabel fun _ => rfl
    | joined => exact h.tip_parted.relabelLast fun _ => rfl
    | planted =>
      exact h.tip_parted.addChild (.leaf rfl) fun _ => endsInPcdata_of_planted hmerge hfate
  | closeElement =>
    obtain ⟨tip, outer, inLast⟩ := z
    cases outer with
    | nil => exact ⟨hsound, h.tip_parted, h.outer_parted⟩
    | cons t outer =>
      obtain ⟨ht, houter⟩ := List.forall_mem_cons.1 h.outer_parted
      refine ⟨hsound, ht.addChild h.tip_parted fun hpcdata => ?_, houter⟩
      exact absurd (hpcdata.symm.trans h.tip) Bool.noConfusion
  | «attribute» name raw =>
    refine ⟨hsound, ?_, h.outer_parted⟩
    simp only [Sapling.add, adorn]
    cases z.inLast with
    | true => exact h.tip_parted.relabelLast fun _ => rfl
    | false => exact h.tip_parted.relabel fun _ => rfl
  | _ => exact h.add_markup (fun _ _ => LoadEvent.noConfusion) rfl he NodeKind.noConfusion

theorem Parted.foldl_add (h : z.Parted options) (hmerge : options.contains .mergePcdata = true)
    {es : List LoadEvent} (hes : AllSaid options es) :
    (es.foldl (Sapling.add options source) z).Parted options := by
  induction es generalizing z with
  | nil => exact h
  | cons e es ih =>
    obtain ⟨he, hrest⟩ := List.forall_mem_cons.1 hes
    exact ih (h.add hmerge he) hrest

/-- What is still open is no character data, so it may be taken to be closed. -/
theorem Parted.whole (h : z.Parted options) : z.whole.Parted options := by
  obtain ⟨tip, outer, inLast⟩ := z
  induction outer generalizing tip inLast with
  | nil => exact h.tip_parted
  | cons t outer ih =>
    obtain ⟨ht, houter⟩ := List.forall_mem_cons.1 h.outer
    obtain ⟨htparted, houterparted⟩ := List.forall_mem_cons.1 h.outer_parted
    refine ih (t.addChild tip) false ⟨⟨ht, houter, fun hlast => Bool.noConfusion hlast⟩, ?_,
      houterparted⟩
    exact htparted.addChild h.tip_parted fun hpcdata =>
      absurd (hpcdata.symm.trans h.tip) Bool.noConfusion

end Sapling

/-- The tree of a text is parted. -/
theorem Tree.parted_ofLoad {options : ParseOptions} (hmerge : options.contains .mergePcdata = true)
    (text : String) : (Tree.ofLoad options text).Parted options := by
  have hseed : Sapling.Parted options (.seed Document.bareRoot) :=
    ⟨.seed NodeKind.noConfusion, .leaf rfl, List.forall_mem_nil _⟩
  have hsaid : AllSaid options (Transcript.ofLoad options text).events :=
    (LoadEvent.heeded_cutShort _ _).forall_mem (fun _ _ hname => hname)
      (Transcript.ofText_said ⟨options, true⟩ text.toList)
  exact (hseed.foldl_add hmerge hsaid).whole

/-! ## Documents -/

namespace Document

variable {doc : Document} {lay : Layout} {options : ParseOptions} {n m top x : NodeId}

/-- A node with another one after it has a parent, whose children they are. -/
theorem LaidOut.exists_children_of_nextSibling? (h : LaidOut doc lay)
    (hnext : doc.nextSibling? n = some m) : ∃ p xs ys, doc.children p = xs ++ n :: m :: ys := by
  rw [nextSibling?_eq] at hnext
  cases hparent : doc.parent? n with
  | none =>
    rw [h.apart hparent] at hnext
    cases hnext
  | some p =>
    obtain ⟨xs, ys, hcut⟩ := List.append_of_mem (h.mem_children.2 hparent)
    have hspells := h.childLists.spells p
    rw [← h.children_eq, hcut] at hspells
    rw [hspells.near_of_append_cons] at hnext
    obtain ⟨more, rfl⟩ := List.head?_eq_some_iff.1 hnext
    exact ⟨p, xs, more, hcut⟩

/-- What stands below a node is a part of its tree. -/
theorem LaidOut.parted_of_below (h : LaidOut doc lay) (hparted : (doc.tree top).Parted options)
    (hx : Below doc.parent? top x) :
    (doc.tree x).Parted options := by
  induction hx with
  | self => exact hparted
  | @step c p hparent _ ih =>
    rw [h.tree_eq (h.contains_parent hparent)] at ih
    obtain ⟨-, -, hbelow⟩ := ih
    exact hbelow _ (List.mem_map_of_mem (h.mem_children.2 hparent))

/-- Neighbours are of kinds that were asked for, and not both character data. -/
theorem Rooted.kinds_of_parted (h : Rooted doc lay) (hparted : (doc.tree doc.root).Parted options)
    (hnext : doc.nextSibling? n = some m) :
    options.asksFor (doc.kind n) = true ∧ options.asksFor (doc.kind m) = true ∧
      ¬ (doc.kind n = .pcdata ∧ doc.kind m = .pcdata) := by
  obtain ⟨p, xs, ys, hchildren⟩ := h.exists_children_of_nextSibling? hnext
  have hn : n ∈ doc.children p := by simp [hchildren]
  have hm : m ∈ doc.children p := by simp [hchildren]
  have hp : doc.contains p = true := h.contains_parent (h.mem_children.1 hn)
  have hhere := h.parted_of_below hparted (h.below_root hp)
  rw [h.tree_eq hp] at hhere
  obtain ⟨-, happart, hbelow⟩ := hhere
  have hasks : ∀ c ∈ doc.children p, options.asksFor (doc.kind c) = true := by
    intro c hc
    rw [← h.kind_tree hc]
    exact (hbelow _ (List.mem_map_of_mem hc)).asksFor
  refine ⟨hasks n hn, hasks m hm, ?_⟩
  rintro ⟨hnkind, hmkind⟩
  rw [hchildren, List.map_append, List.map_cons, List.map_cons, List.isChain_append_cons_cons]
    at happart
  have hboth : (doc.tree n).bothPcdata (doc.tree m) = true := by
    rw [Tree.bothPcdata, Tree.isPcdata, Tree.isPcdata, h.kind_tree hn, h.kind_tree hm, hnkind,
      hmkind]
    rfl
  exact Bool.noConfusion (hboth.symm.trans happart.2.1)

theorem eq_of_isText {kind : NodeKind} (h : kind.isText = true) :
    kind = .pcdata ∨ kind = .cdata := by
  cases kind with
  | pcdata => exact .inl rfl
  | cdata => exact .inr rfl
  | _ => cases h

/-- With character data joined, two texts are neighbours only if one of them is a section. -/
theorem loadString_neighbours (into : Document) (text : String)
    (hmerge : options.contains .mergePcdata = true) :
    let loaded := (into.loadString text options).2
    ∀ n m, loaded.nextSibling? n = some m →
      (loaded.kind n).isText = true → (loaded.kind m).isText = true →
        options.contains .cdata = true ∧ (loaded.kind n = .cdata ∨ loaded.kind m = .cdata) := by
  intro loaded n m hnext hn hm
  obtain ⟨lay, hrooted⟩ := whole_loadString into text options
  have hparted := Tree.parted_ofLoad hmerge text
  rw [← (into.loadString_eq_ofLoad text options).2] at hparted
  obtain ⟨hasksn, hasksm, hapart⟩ := hrooted.kinds_of_parted hparted hnext
  obtain hnkind | hnkind := eq_of_isText hn
  · obtain hmkind | hmkind := eq_of_isText hm
    · exact absurd ⟨hnkind, hmkind⟩ hapart
    · rw [hmkind] at hasksm
      exact ⟨hasksm, .inr hmkind⟩
  · rw [hnkind] at hasksn
    exact ⟨hasksn, .inl hnkind⟩

/-- A section stays beside the character data before it, although joining is asked for. -/
theorem loadString_neighbours_section :
    let options := ParseOptions.default.union .mergePcdata
    let loaded := (new.loadString "<a>x<![CDATA[y]]>z</a>" options).2
    let x : NodeId := ⟨⟨2, 1⟩⟩
    let y : NodeId := ⟨⟨3, 1⟩⟩
    options.contains .mergePcdata = true ∧ loaded.nextSibling? x = some y ∧
      (loaded.kind x).isText = true ∧ (loaded.kind y).isText = true ∧
        options.contains .cdata = true ∧ (loaded.kind x = .cdata ∨ loaded.kind y = .cdata) := by
  have hmerge : (ParseOptions.default.union .mergePcdata).contains .mergePcdata = true := by decide
  have hsection := loadString_neighbours new "<a>x<![CDATA[y]]>z</a>" hmerge ⟨⟨2, 1⟩⟩ ⟨⟨3, 1⟩⟩
    (by decide +kernel) (by decide +kernel) (by decide +kernel)
  exact ⟨hmerge, by decide +kernel, by decide +kernel, by decide +kernel, hsection⟩

end Document

end XmlTree
