/-
  Proofs/Weeding.lean --- white space that more switches keep.

  WHAT THIS FILE IS FOR.  Character data that is white space only is dropped unless one of two
  switches asks for it.  To ask for more of it never takes a node away and never adds anything
  but white space, with one exception: the switch for white space that is alone in its element
  overrules the switch for all white space.  If the second one is there and the first one is
  added, white space is lost.

  PIECES.  With texts being joined, a piece of white space may be a part of a longer text.  So
  what is compared are the trees before anything is joined.
-/
import Mathlib.Logic.Relation
import XmlTree.Proofs.Fusing

set_option autoImplicit false

namespace XmlTree

/-! ## Taking white space out of a tree -/

namespace Tree

/-- Character data that is white space only. -/
def IsBlank (t : Tree) : Prop :=
  ∃ value : Option String, t = .leaf ⟨.pcdata, none, value, []⟩ ∧ Blank (value.getD "").toList

/-- One node that is white space only is taken out, somewhere in a tree. -/
inductive Weeding : Tree → Tree → Prop
  | here {l : TreeLabel} {ts us : List Tree} {blank : Tree} (h : blank.IsBlank) :
      Weeding (.node l (ts ++ blank :: us)) (.node l (ts ++ us))
  | inside {l : TreeLabel} {ts us : List Tree} {t u : Tree} (h : Weeding t u) :
      Weeding (.node l (ts ++ t :: us)) (.node l (ts ++ u :: us))

/-- A tree becomes another one by taking out nodes that are white space only. -/
def WeedsTo : Tree → Tree → Prop := Relation.ReflTransGen Weeding

variable {t u c d : Tree}

theorem Weeding.label_eq (h : Weeding t u) : u.label = t.label := by
  cases h <;> rfl

theorem Weeding.addChild (h : Weeding t u) (c : Tree) : Weeding (t.addChild c) (u.addChild c) := by
  cases h with
  | @here l ts us blank hblank =>
    have hstep : Weeding (.node l (ts ++ blank :: (us ++ [c]))) (.node l (ts ++ (us ++ [c]))) :=
      .here hblank
    simpa [Tree.addChild, label, children] using hstep
  | @inside l ts us t u hinside =>
    have hstep : Weeding (.node l (ts ++ t :: (us ++ [c]))) (.node l (ts ++ u :: (us ++ [c]))) :=
      .inside hinside
    simpa [Tree.addChild, label, children] using hstep

theorem Weeding.relabel (h : Weeding t u) (f : TreeLabel → TreeLabel) :
    Weeding (t.relabel f) (u.relabel f) := by
  cases h with
  | here hblank => exact .here hblank
  | inside hinside => exact .inside hinside

/-- A tree gets smaller when something is taken out. -/
theorem Weeding.length_labels (h : Weeding t u) : u.labels.length < t.labels.length := by
  induction h with
  | @here l ts us blank hblank =>
    have hpos : 0 < blank.labels.length := by simp [labels_eq blank]
    simp only [labels, allLabels_eq_flatMap, List.flatMap_append, List.flatMap_cons,
      List.length_cons, List.length_append]
    omega
  | @inside l ts us t u _ ih =>
    simp only [labels, allLabels_eq_flatMap, List.flatMap_append, List.flatMap_cons,
      List.length_cons, List.length_append]
    omega

namespace WeedsTo

theorem refl (t : Tree) : t.WeedsTo t := Relation.ReflTransGen.refl

theorem trans (h : t.WeedsTo u) (h' : u.WeedsTo c) : t.WeedsTo c := Relation.ReflTransGen.trans h h'

theorem label_eq (h : t.WeedsTo u) : u.label = t.label := by
  induction h with
  | refl => rfl
  | tail _ hstep ih => exact hstep.label_eq.trans ih

/-- What keeps single steps keeps all of them. -/
theorem lift {f : Tree → Tree} (h : t.WeedsTo u) (hf : ∀ t u, Weeding t u → Weeding (f t) (f u)) :
    (f t).WeedsTo (f u) := by
  induction h with
  | refl => exact refl _
  | tail _ hstep ih => exact ih.tail (hf _ _ hstep)

/-- What stands in front of the last child, or below it, may be weeded. -/
theorem addChild (h : t.WeedsTo u) (hc : c.WeedsTo d) : (t.addChild c).WeedsTo (u.addChild d) := by
  have hfront : (t.addChild c).WeedsTo (u.addChild c) :=
    h.lift fun _ _ hstep => hstep.addChild c
  have hlast : (u.addChild c).WeedsTo (u.addChild d) :=
    hc.lift fun _ _ hstep => .inside hstep
  exact hfront.trans hlast

theorem relabel (h : t.WeedsTo u) (f : TreeLabel → TreeLabel) :
    (t.relabel f).WeedsTo (u.relabel f) :=
  h.lift fun _ _ hstep => hstep.relabel f

/-- White space that stands last is taken out. -/
theorem addBlank (h : t.WeedsTo u) (hc : c.IsBlank) : (t.addChild c).WeedsTo u := by
  refine (h.addChild (refl c)).tail ?_
  obtain ⟨l, us⟩ := u
  have hstep : Weeding (.node l (us ++ [c])) (.node l (us ++ [])) := .here hc
  simpa [Tree.addChild, label, children] using hstep

theorem length_labels (h : t.WeedsTo u) : t = u ∨ u.labels.length < t.labels.length := by
  induction h with
  | refl => exact .inl rfl
  | tail _ hstep ih =>
    obtain rfl | hlt := ih
    · exact .inr hstep.length_labels
    · exact .inr (hstep.length_labels.trans hlt)

/-- What was taken out cannot be put back by taking out more. -/
theorem antisymm (h : t.WeedsTo u) (h' : u.WeedsTo t) : t = u := by
  obtain heq | hlt := h.length_labels
  · exact heq
  · obtain heq | hlt' := h'.length_labels
    · exact heq.symm
    · exact absurd hlt (Nat.lt_asymm hlt')

/-- Nothing but character data is taken out below the top. -/
theorem contains_kind (h : t.WeedsTo u) {kind : NodeKind} (hkind : kind ≠ .pcdata) :
    (u.children.map fun c => c.label.kind).contains kind =
      (t.children.map fun c => c.label.kind).contains kind := by
  induction h with
  | refl => rfl
  | tail _ hstep ih =>
    rw [← ih]
    cases hstep with
    | @here l ts us blank hblank =>
      obtain ⟨value, rfl, -⟩ := hblank
      simp [children, label, leaf, hkind]
    | inside hinside =>
      simp [children, hinside.label_eq]

end WeedsTo

end Tree

/-! ## White space that is kept -/

theorem blank_unifyLineEnds {cs : List Char} (h : Blank cs) : Blank (unifyLineEnds cs) := by
  have hfeed : isSpace '\n' = true := by decide
  fun_induction unifyLineEnds cs with
  | case1 => exact h
  | case2 cs ih =>
    have hrest : Blank cs := fun c hc => h c (List.mem_cons_of_mem _ (List.mem_cons_of_mem _ hc))
    exact List.forall_mem_cons.2 ⟨hfeed, ih hrest⟩
  | case3 cs _ ih => exact List.forall_mem_cons.2 ⟨hfeed, ih (List.forall_mem_cons.1 h).2⟩
  | case4 c cs _ _ ih =>
    obtain ⟨hc, hrest⟩ := List.forall_mem_cons.1 h
    exact List.forall_mem_cons.2 ⟨hc, ih hrest⟩

/-- White space stays white space if it is not trimmed. -/
theorem blank_convertPcdata {options : ParseOptions} (htrim : options.contains .trimPcdata = false)
    {raw : List Char} (h : Blank raw) : Blank (convertPcdata options raw).text := by
  have hampersand : isSpace '&' = false := by decide
  have hplain : ∀ cs : List Char, Blank cs → decodeReferences cs = cs := fun cs hcs =>
    decodeReferences_of_not_mem fun hmem => Bool.noConfusion ((hcs _ hmem).symm.trans hampersand)
  simp only [convertPcdata, htrim, Bool.false_eq_true, if_false]
  split
  · rw [Conversion.text]
    cases options.contains .eol <;> cases options.contains .escapes <;>
      simp only [if_true, Bool.false_eq_true, if_false]
    · exact h
    · rwa [hplain raw h]
    · exact blank_unifyLineEnds h
    · rw [hplain _ (blank_unifyLineEnds h)]
      exact blank_unifyLineEnds h
  · exact h

namespace Sapling

variable {z z' : Sapling} {options options' : ParseOptions} {source : String} {e : LoadEvent}

/-- The switch for white space that is alone overrules the one for all white space. -/
theorem keepsSpace_eq (htrim : options.contains .trimPcdata = false) (z : Sapling)
    (closing : Bool) :
    z.keepsSpace options closing =
      if options.contains .wsPcdataSingle then closing && z.tip.children.isEmpty
      else options.contains .wsPcdata := by
  rw [keepsSpace, ParseOptions.intersects_space, htrim]
  cases options.contains .wsPcdataSingle <;> simp

/-- Without switches for where it is stored, character data is dropped or a node of its own. -/
theorem textFate_of_apart (hembed : options.contains .embedPcdata = false)
    (hmerge : options.contains .mergePcdata = false) (z : Sapling) (raw : List Char)
    (closing : Bool) :
    z.textFate options raw closing = .dropped ∨ z.textFate options raw closing = .planted := by
  cases hfate : z.textFate options raw closing with
  | dropped => exact .inl rfl
  | planted => exact .inr rfl
  | embedded => exact absurd hfate (textFate_ne_embedded hembed z _ _)
  | joined => exact absurd hfate (textFate_ne_joined hmerge z _ _)

/-- A sapling becomes another one by taking out white space. -/
structure WeedsTo (z z' : Sapling) : Prop where
  tip : z.tip.WeedsTo z'.tip
  outer : List.Forall₂ Tree.WeedsTo z.outer z'.outer
  inLast : z'.inLast = z.inLast
  last : z.inLast = true →
    ∃ t u c : Tree, z.tip = t.addChild c ∧ z'.tip = u.addChild c ∧ t.WeedsTo u

end Sapling

/-! ## Masks that differ in what they say of white space -/

namespace ParseOptions

variable {options options' more : ParseOptions}

/-- Two masks agree on everything but white space. -/
structure AgreeButForSpace (options options' : ParseOptions) : Prop
    extends AgreeOnConversions options options' where
  nodes : options.AgreeOnNodes options'
  fragment : options'.contains .fragment = options.contains .fragment
  embed : options'.contains .embedPcdata = options.contains .embedPcdata
  merge : options'.contains .mergePcdata = options.contains .mergePcdata

theorem AgreeButForSpace.symm (h : options.AgreeButForSpace options') :
    options'.AgreeButForSpace options where
  escapes := h.escapes.symm
  eol := h.eol.symm
  wconv := h.wconv.symm
  wnorm := h.wnorm.symm
  trim := h.trim.symm
  nodes := ⟨h.nodes.pi.symm, h.nodes.comments.symm, h.nodes.cdata.symm, h.nodes.declaration.symm,
    h.nodes.doctype.symm⟩
  fragment := h.fragment.symm
  embed := h.embed.symm
  merge := h.merge.symm

/-- The switches for white space. -/
def spaceSwitches : ParseOptions := wsPcdata.union wsPcdataSingle

theorem AgreeButForSpace.union (hmore : spaceSwitches.contains more = true) :
    options.AgreeButForSpace (options.union more) :=
  have hapart : more.intersects spaceSwitches.complement = false := intersects_of_group hmore rfl
  { escapes := contains_union_apart (i := 4) rfl rfl hapart
    eol := contains_union_apart (i := 5) rfl rfl hapart
    wconv := contains_union_apart (i := 6) rfl rfl hapart
    wnorm := contains_union_apart (i := 7) rfl rfl hapart
    trim := contains_union_apart (i := 11) rfl rfl hapart
    nodes := .union (intersects_of_group hmore rfl)
    fragment := contains_union_apart (i := 12) rfl rfl hapart
    embed := contains_union_apart (i := 13) rfl rfl hapart
    merge := contains_union_apart (i := 14) rfl rfl hapart }

/-- White space was asked for, and is asked for now only where it is alone. -/
def overrules (more options : ParseOptions) : Bool :=
  more.contains .wsPcdataSingle &&
    (options.contains .wsPcdata && !options.contains .wsPcdataSingle)

/-- Of white space there is more if there was none, and less if the new switch overrules an old
one; otherwise the same is kept. -/
theorem keepsSpace_union (htrim : options.contains .trimPcdata = false)
    (hmore : spaceSwitches.contains more = true) :
    if more.overrules options then
      ∀ (z : Sapling) (closing : Bool), z.keepsSpace options closing = true
    else
      (∀ (z : Sapling) (closing : Bool), z.keepsSpace options closing = false) ∨
        ∀ (z : Sapling) (closing : Bool),
          z.keepsSpace (options.union more) closing = z.keepsSpace options closing := by
  have hagree : options.AgreeButForSpace (options.union more) := .union hmore
  have htrim' := hagree.trim.trans htrim
  simp only [Sapling.keepsSpace_eq htrim, Sapling.keepsSpace_eq htrim', overrules,
    contains_union (show wsPcdata.bits.toNat = 2 ^ 3 from rfl),
    contains_union (show wsPcdataSingle.bits.toNat = 2 ^ 10 from rfl)]
  cases options.contains .wsPcdataSingle with
  | true => simp
  | false => cases options.contains .wsPcdata <;> cases more.contains .wsPcdataSingle <;> simp

/-- Of two masks that make a node of each text that they keep, the first one keeps all white space
or the second one none. -/
structure KeepsMore (options options' : ParseOptions) : Prop
    extends AgreeButForSpace options options' where
  untrimmed : options.contains .trimPcdata = false
  unembedded : options.contains .embedPcdata = false
  unmerged : options.contains .mergePcdata = false
  space : (∀ (z : Sapling) (closing : Bool), z.keepsSpace options closing = true) ∨
    ∀ (z : Sapling) (closing : Bool), z.keepsSpace options' closing = false

end ParseOptions

namespace Sapling.WeedsTo

variable {z z' : Sapling} {options options' : ParseOptions} {source : String} {e : LoadEvent}

/-- White space is taken out or not, and other character data stays. -/
theorem addText (h : z.WeedsTo z') (hmore : options.KeepsMore options') {raw : Span}
    {closing : Bool} (hreads : (LoadEvent.text raw closing).ReadsBack options source) :
    (z.addText options source raw closing).WeedsTo (z'.addText options' source raw closing) := by
  have htop : z'.atTop = z.atTop := by rw [atTop, h.tip.label_eq, atTop]
  have hdrops : z.textFate options raw.text closing = .dropped →
      z'.textFate options' raw.text closing = .dropped := by
    rw [textFate_eq_dropped_iff, textFate_eq_dropped_iff, htop, hmore.fragment]
    rintro (hwhite | hdrop)
    · obtain ⟨hspace, hnot⟩ := Bool.and_eq_true_iff.1 hwhite
      obtain hall | hnone := hmore.space
      · rw [hall] at hnot
        cases hnot
      · rw [hspace, hnone]
        exact .inl rfl
    · exact .inr hdrop
  have hwhite : z'.textFate options' raw.text closing = .dropped →
      z.textFate options raw.text closing ≠ .dropped → Blank raw.text := by
    rw [textFate_eq_dropped_iff, Ne, textFate_eq_dropped_iff, htop, hmore.fragment]
    rintro (hspace | hdrop) hnot
    · exact List.all_eq_true.1 (Bool.and_eq_true_iff.1 hspace).1
    · exact absurd (.inr hdrop) hnot
  refine ⟨?_, h.outer, rfl, fun hlast => Bool.noConfusion hlast⟩
  simp only [Sapling.addText, hmore.convertPcdata_eq]
  obtain hfate | hfate := textFate_of_apart hmore.unembedded hmore.unmerged z raw.text closing
  · rw [hfate, hdrops hfate]
    exact h.tip
  · rw [hfate]
    obtain hfate' | hfate' := textFate_of_apart (hmore.embed.trans hmore.unembedded)
      (hmore.merge.trans hmore.unmerged) z' raw.text closing
    · rw [hfate']
      have hblank : Blank raw.text :=
        hwhite hfate' fun hdropped => TextFate.noConfusion (hfate.symm.trans hdropped)
      refine h.tip.addBlank ⟨_, rfl, ?_⟩
      rw [show _ = String.ofList _ from hreads, String.toList_ofList]
      exact blank_convertPcdata hmore.untrimmed hblank
    · rw [hfate']
      exact h.tip.addChild (.refl _)

theorem push (h : z.WeedsTo z') (l : TreeLabel) (e : LoadEvent) :
    (z.push l e).WeedsTo (z'.push l e) := by
  have hplant : (z.tip.addChild (.leaf l)).WeedsTo (z'.tip.addChild (.leaf l)) :=
    h.tip.addChild (.refl _)
  cases e with
  | openElement name =>
    exact ⟨.refl _, .cons h.tip h.outer, rfl, fun hlast => Bool.noConfusion hlast⟩
  | declaration name => exact ⟨hplant, h.outer, rfl, fun _ => ⟨_, _, _, rfl, rfl, h.tip⟩⟩
  | _ => exact ⟨hplant, h.outer, rfl, fun hlast => Bool.noConfusion hlast⟩

theorem leave (h : z.WeedsTo z') : z.leave.WeedsTo z'.leave := by
  obtain ⟨tip, outer, inLast⟩ := z
  obtain ⟨tip', outer', inLast'⟩ := z'
  have houter : List.Forall₂ Tree.WeedsTo outer outer' := h.outer
  cases houter with
  | nil => exact ⟨h.tip, .nil, rfl, fun hlast => Bool.noConfusion hlast⟩
  | cons ht houter =>
    exact ⟨ht.addChild h.tip, houter, rfl, fun hlast => Bool.noConfusion hlast⟩

theorem adorn (h : z.WeedsTo z') (a : TreeAttribute) : (z.adorn a).WeedsTo (z'.adorn a) := by
  obtain ⟨tip, outer, inLast⟩ := z
  obtain ⟨tip', outer', inLast'⟩ := z'
  obtain rfl : inLast' = inLast := h.inLast
  cases inLast' with
  | true =>
    obtain ⟨t, u, c, htip, htip', hfront⟩ := h.last rfl
    obtain rfl : tip = t.addChild c := htip
    obtain rfl : tip' = u.addChild c := htip'
    have hlast : (t.addChild c).relabelLast (.adorned a) = t.addChild (c.relabel (.adorned a)) :=
      Tree.relabelLast_addChild ..
    have hlast' : (u.addChild c).relabelLast (.adorned a) = u.addChild (c.relabel (.adorned a)) :=
      Tree.relabelLast_addChild ..
    refine ⟨?_, h.outer, rfl, fun _ => ⟨t, u, _, hlast, hlast', hfront⟩⟩
    show ((t.addChild c).relabelLast _).WeedsTo ((u.addChild c).relabelLast _)
    rw [hlast, hlast']
    exact hfront.addChild (.refl _)
  | false => exact ⟨h.tip.relabel _, h.outer, rfl, fun hlast => Bool.noConfusion hlast⟩

/-- Markup adds the same node. -/
theorem add_markup (h : z.WeedsTo z') (hmore : options.KeepsMore options')
    (hmarkup : ∀ raw closing, e ≠ .text raw closing) {l : TreeLabel}
    (hl : e.nodeLabel? options source false = some l) :
    (z.add options source e).WeedsTo (z'.add options' source e) := by
  have hl' := (hmore.nodeLabel?_markup_eq source false hmarkup).trans hl
  rw [Sapling.add_markup hmarkup hl, Sapling.add_markup hmarkup hl']
  exact h.push l e

/-- Whatever an event says, one mask only takes white space out of what the other one makes. -/
theorem add (h : z.WeedsTo z') (hmore : options.KeepsMore options')
    (hreads : e.ReadsBack options source) :
    (z.add options source e).WeedsTo (z'.add options' source e) := by
  cases e with
  | text raw closing => exact h.addText hmore hreads
  | closeElement => exact h.leave
  | «attribute» name raw =>
    rw [Sapling.add, Sapling.add, hmore.attributeIn_eq]
    exact h.adorn _
  | _ => exact h.add_markup hmore (fun _ _ => LoadEvent.noConfusion) rfl

theorem foldl_add (h : z.WeedsTo z') (hmore : options.KeepsMore options') {es : List LoadEvent}
    (hreads : ∀ e ∈ es, e.ReadsBack options source) :
    (es.foldl (Sapling.add options source) z).WeedsTo
      (es.foldl (Sapling.add options' source) z') := by
  induction es generalizing z z' with
  | nil => exact h
  | cons e es ih =>
    obtain ⟨he, hrest⟩ := List.forall_mem_cons.1 hreads
    exact ih (h.add hmore he) hrest

theorem whole (h : z.WeedsTo z') : z.whole.WeedsTo z'.whole := by
  obtain ⟨tip, outer, inLast⟩ := z
  obtain ⟨tip', outer', inLast'⟩ := z'
  induction outer generalizing tip tip' outer' inLast inLast' with
  | nil =>
    obtain rfl : outer' = [] := List.forall₂_nil_left_iff.1 h.outer
    exact h.tip
  | cons t outer ih =>
    obtain ⟨t', outer', -, -, rfl⟩ := List.forall₂_cons_left_iff.1 h.outer
    exact ih (t.addChild tip) false (t'.addChild tip') outer' false h.leave

end Sapling.WeedsTo

/-! ## Whole texts -/

variable {options options' more : ParseOptions} {text : String}

/-- The tree under one mask only lacks white space of the tree under a mask that keeps more. -/
theorem Tree.weedsTo_ofLoad (hmore : options.KeepsMore options')
    (hsize : text.utf8ByteSize < 2 ^ 32) :
    (Tree.ofLoad options text).WeedsTo (Tree.ofLoad options' text) := by
  have hreads := Transcript.ofText_readsBack ((byteSize_toList text).trans_lt hsize)
    ⟨options, true⟩ options
  rw [String.ofList_toList] at hreads
  have hseed : Sapling.WeedsTo (.seed Document.bareRoot) (.seed Document.bareRoot) :=
    ⟨.refl _, .nil, rfl, fun hlast => Bool.noConfusion hlast⟩
  rw [Tree.ofLoad, Tree.ofLoad, Transcript.ofLoad_congr hsize hmore.nodes,
    Transcript.ofLoad_eq_ofText hsize]
  exact (hseed.foldl_add hmore hreads).whole

/-- What an event adds is the same under masks that say the same of white space. -/
theorem Sapling.add_congr (h : options.AgreeButForSpace options')
    (hspace : ∀ (z : Sapling) (closing : Bool),
      z.keepsSpace options' closing = z.keepsSpace options closing) (source : String) :
    Sapling.add options' source = Sapling.add options source := by
  funext z e
  cases e with
  | text raw closing =>
    simp only [add, addText, textFate, hspace, h.fragment, h.embed, h.merge, h.convertPcdata_eq]
  | closeElement => rfl
  | «attribute» name raw => rw [add, add, h.attributeIn_eq]
  | _ =>
    simp only [add]
    rw [h.nodeLabel?_markup_eq source false fun _ _ => LoadEvent.noConfusion]

theorem Tree.ofLoad_congr (hsize : text.utf8ByteSize < 2 ^ 32)
    (h : options.AgreeButForSpace options')
    (hspace : ∀ (z : Sapling) (closing : Bool),
      z.keepsSpace options' closing = z.keepsSpace options closing) :
    Tree.ofLoad options' text = Tree.ofLoad options text := by
  rw [ofLoad, ofLoad, Transcript.ofLoad_congr hsize h.nodes, Sapling.add_congr h hspace]

/-- Without joining, the trees of a text differ in white space only, and the one under the wider
mask has more of it unless the new switch overrules an old one. -/
theorem Tree.weedsTo_ofLoad_union (hsize : text.utf8ByteSize < 2 ^ 32)
    (htrim : options.contains .trimPcdata = false) (hembed : options.contains .embedPcdata = false)
    (hmerge : options.contains .mergePcdata = false)
    (hmore : ParseOptions.spaceSwitches.contains more = true) :
    if more.overrules options then
      (Tree.ofLoad options text).WeedsTo (Tree.ofLoad (options.union more) text)
    else (Tree.ofLoad (options.union more) text).WeedsTo (Tree.ofLoad options text) := by
  have hagree : options.AgreeButForSpace (options.union more) := .union hmore
  have hspace := ParseOptions.keepsSpace_union htrim hmore
  split at hspace
  · rename_i hoverrules
    rw [if_pos hoverrules]
    exact weedsTo_ofLoad ⟨hagree, htrim, hembed, hmerge, .inl hspace⟩ hsize
  · rename_i hoverrules
    rw [if_neg hoverrules]
    obtain hnone | hsame := hspace
    · exact weedsTo_ofLoad ⟨hagree.symm, hagree.trim.trans htrim, hagree.embed.trans hembed,
        hagree.merge.trans hmerge, .inr hnone⟩ hsize
    · rw [ofLoad_congr hsize hagree hsame]
      exact .refl _

/-- The load ends in the same way. -/
theorem LoadFault.ofLoad_union (hsize : text.utf8ByteSize < 2 ^ 32)
    (htrim : options.contains .trimPcdata = false) (hembed : options.contains .embedPcdata = false)
    (hmerge : options.contains .mergePcdata = false)
    (hmore : ParseOptions.spaceSwitches.contains more = true) :
    LoadFault.ofLoad (options.union more) text = LoadFault.ofLoad options text := by
  have hagree : options.AgreeButForSpace (options.union more) := .union hmore
  have hweeds := Tree.weedsTo_ofLoad_union hsize htrim hembed hmerge hmore
  have hread := Transcript.ofLoad_congr hsize hagree.nodes
  refine ofLoad_congr (congrArg _ hread) hagree.fragment ?_
  split at hweeds
  · exact hweeds.contains_kind (by decide)
  · exact (hweeds.contains_kind (by decide)).symm

/-! ## Pieces of joined texts -/

namespace ParseOptions

/-- Switches other than the one for joining stay when that one is cleared. -/
theorem contains_without_merge {i : Nat} {flag : ParseOptions} (h : flag.bits.toNat = 2 ^ i)
    (hother : mergePcdata.contains flag = false) (options : ParseOptions) :
    (options.without .mergePcdata).contains flag = options.contains flag := by
  rw [contains_without h, hother, Bool.not_false, Bool.and_true]

theorem not_contains_merge (options : ParseOptions) :
    (options.without .mergePcdata).contains .mergePcdata = false := by
  rw [contains_without (i := 14) rfl]
  exact Bool.and_false _

theorem overrules_without_merge (more options : ParseOptions) :
    more.overrules (options.without .mergePcdata) = more.overrules options := by
  rw [overrules, contains_without_merge (i := 3) rfl rfl, contains_without_merge (i := 10) rfl rfl,
    overrules]

theorem union_without_merge (hmore : spaceSwitches.contains more = true)
    (options : ParseOptions) :
    (options.union more).without .mergePcdata = (options.without .mergePcdata).union more :=
  without_union (intersects_of_group hmore rfl)

end ParseOptions

/-- A load with joining joins what the one without makes, and ends as that one. -/
theorem Tree.ofLoad_pieces (hsize : text.utf8ByteSize < 2 ^ 32)
    (hembed : options.contains .embedPcdata = false) :
    let pieces := Tree.ofLoad (options.without .mergePcdata) text
    Tree.ofLoad options text =
        (if options.contains .mergePcdata then pieces.fused else pieces) ∧
      LoadFault.ofLoad options text = LoadFault.ofLoad (options.without .mergePcdata) text := by
  intro pieces
  cases hmerge : options.contains .mergePcdata with
  | false =>
    have hsame : options.without .mergePcdata = options :=
      ParseOptions.without_of_apart ((ParseOptions.intersects_flag (i := 14) rfl).trans hmerge)
    rw [if_neg Bool.false_ne_true]
    exact ⟨congrArg (ofLoad · text) hsame.symm, congrArg (LoadFault.ofLoad · text) hsame.symm⟩
  | true =>
    have hembed' := (ParseOptions.contains_without_merge (i := 13) rfl rfl options).trans hembed
    have htree := Tree.ofLoad_merge hsize hembed' options.not_contains_merge
    have hfault := LoadFault.ofLoad_merge hsize hembed' options.not_contains_merge
    rw [ParseOptions.union_without hmerge] at htree hfault
    exact ⟨htree, hfault⟩

/-! ## Documents -/

/-- To ask for more white space only adds white space, with one exception.  A text is loaded as it
would have been, also one with a fault.  Let the pieces be what is loaded when character data is
not joined; what is loaded are the pieces, with neighbours joined if that is asked for.  Then what
was there is what is there now but for pieces that are white space only.  But where all white
space was asked for and now also white space that is alone, it is the other way around: nothing
new is there, and unless all is as before, pieces are gone. -/
theorem Document.loadString_weeded (into : Document) (text : String) {options more : ParseOptions}
    (hsize : text.utf8ByteSize < 2 ^ 32) (htrim : options.contains .trimPcdata = false)
    (hembed : options.contains .embedPcdata = false)
    (hmore : ParseOptions.spaceSwitches.contains more = true) :
    let loaded (o : ParseOptions) := into.loadString text o
    let made (o : ParseOptions) := (loaded o).2.tree (loaded o).2.root
    let pieces (o : ParseOptions) := made (o.without .mergePcdata)
    let wider := options.union more
    (loaded wider).1 = (loaded options).1 ∧
      (∀ o ∈ [options, wider],
        made o = if o.contains .mergePcdata then (pieces o).fused else pieces o) ∧
      if more.overrules options then
        (pieces options).WeedsTo (pieces wider) ∧
          ((pieces wider).WeedsTo (pieces options) ↔ pieces wider = pieces options)
      else (pieces wider).WeedsTo (pieces options) := by
  intro loaded made pieces wider
  have houtcome (o : ParseOptions) : (loaded o).1 = ⟨_, _, .utf8⟩ :=
    (into.loadString_eq_ofLoad text o).1
  have htree (o : ParseOptions) : made o = .ofLoad o text := (into.loadString_eq_ofLoad text o).2
  have hpieces {o : ParseOptions} (ho : o.contains .embedPcdata = false) :=
    Tree.ofLoad_pieces hsize ho
  have hembed' : wider.contains .embedPcdata = false :=
    (ParseOptions.AgreeButForSpace.union hmore).embed.trans hembed
  -- what is said of masks without joining
  have hplain : (options.without .mergePcdata).contains .trimPcdata = false ∧
      (options.without .mergePcdata).contains .embedPcdata = false :=
    ⟨(ParseOptions.contains_without_merge (i := 11) rfl rfl options).trans htrim,
      (ParseOptions.contains_without_merge (i := 13) rfl rfl options).trans hembed⟩
  have hfault := LoadFault.ofLoad_union hsize hplain.1 hplain.2 options.not_contains_merge hmore
  have hweeds := Tree.weedsTo_ofLoad_union hsize hplain.1 hplain.2 options.not_contains_merge hmore
  rw [← ParseOptions.union_without_merge hmore] at hfault hweeds
  rw [ParseOptions.overrules_without_merge, ← htree, ← htree] at hweeds
  refine ⟨?_, ?_, ?_⟩
  · rw [houtcome, houtcome, (hpieces hembed').2, (hpieces hembed).2, hfault]
  · have hmade {o : ParseOptions} (ho : o.contains .embedPcdata = false) :
        made o = if o.contains .mergePcdata then (pieces o).fused else pieces o := by
      rw [show pieces o = _ from htree _, htree, (hpieces ho).1]
    exact List.forall_mem_cons.2 ⟨hmade hembed, List.forall_mem_singleton.2 (hmade hembed')⟩
  · split at hweeds
    · rename_i hoverrules
      rw [if_pos hoverrules]
      refine ⟨hweeds, fun hback => hback.antisymm hweeds, fun heq => ?_⟩
      rw [heq]
      exact .refl _
    · rename_i hoverrules
      rw [if_neg hoverrules]
      exact hweeds

/-- White space in front of a text is lost when white space that is alone is asked for too, and it
is one of the pieces that were joined; what is alone in its element stays. -/
theorem Document.loadString_weeded_overruled :
    let text := "<a> <!--c-->x<b> </b></a>"
    let plain := ParseOptions.default.union .mergePcdata
    let spaced := plain.union .wsPcdata
    let alone := spaced.union .wsPcdataSingle
    let made (o : ParseOptions) :=
      (new.loadString text o).2.tree (new.loadString text o).2.root
    let pieces (o : ParseOptions) := made (o.without .mergePcdata)
    ((made plain).labels.map TreeLabel.valueText = ["", "", "x", ""] ∧
      (made spaced).labels.map TreeLabel.valueText = ["", "", " x", "", " "] ∧
      (made alone).labels.map TreeLabel.valueText = ["", "", "x", "", " "]) ∧
      (pieces spaced).WeedsTo (pieces plain) ∧
      (pieces spaced).WeedsTo (pieces alone) ∧ ¬(pieces alone).WeedsTo (pieces spaced) := by
  intro text plain spaced alone made pieces
  obtain ⟨-, -, hmore⟩ := loadString_weeded new text (by decide +kernel)
    (show plain.contains .trimPcdata = false by decide) (by decide)
    (show ParseOptions.spaceSwitches.contains .wsPcdata = true by decide)
  obtain ⟨-, -, hfewer⟩ := loadString_weeded new text (by decide +kernel)
    (show spaced.contains .trimPcdata = false by decide) (by decide)
    (show ParseOptions.spaceSwitches.contains .wsPcdataSingle = true by decide)
  rw [if_neg (by decide)] at hmore
  rw [if_pos (by decide)] at hfewer
  refine ⟨⟨by decide +kernel, by decide +kernel, by decide +kernel⟩, hmore, hfewer.1, fun h => ?_⟩
  have hlost : (pieces alone).labels.length < (pieces spaced).labels.length := by decide +kernel
  exact hlost.ne (congrArg (fun t => t.labels.length) (hfewer.2.1 h))

end XmlTree
