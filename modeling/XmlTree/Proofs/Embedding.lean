/-
  Proofs/Embedding.lean --- text that is kept in its element.

  WHAT THIS FILE IS FOR.  With one switch, the first character data of an element is kept as the
  value of the element and not as a child.  What is said in an element is the same with and
  without that switch: all character data below it, in document order, and whatever is kept in
  the elements.  A query asks for less.  It takes what is kept in the element itself, but of
  everything below it only the nodes that are character data.

  WHERE A TEXT WENT.  A text may be kept in its element, joined to the text before it or be a
  node of its own, and an earlier choice decides about later ones.  So what is compared are trees
  in which every element has all that is said in it, and no character data is left as a node.
-/
import Mathlib.Algebra.Order.BigOperators.Group.List
import Mathlib.Algebra.Order.Group.Nat
import Mathlib.Data.List.Forall2
import XmlTree.Proofs.Fusing
import XmlTree.Proofs.Walks
import XmlTree.Query.Value

set_option autoImplicit false

namespace XmlTree

/-! ## What is said in a tree -/

/-- What a node says itself: character data and elements have a text, markup has none. -/
def TreeLabel.spoken (l : TreeLabel) : String :=
  if l.kind.isText || l.kind.hasChildren then l.valueText else ""

/-- A node with more said in it. -/
def TreeLabel.saying (more : String) (l : TreeLabel) : TreeLabel :=
  l.withValue (some (l.valueText ++ more))

theorem TreeLabel.withValue_withValue (l : TreeLabel) (first second : Option String) :
    (l.withValue first).withValue second = l.withValue second := rfl

theorem TreeLabel.withValue_none {l : TreeLabel} (h : l.value = none) : l.withValue none = l := by
  rw [← h]
  rfl

theorem TreeLabel.saying_append (l : TreeLabel) (first second : String) :
    l.saying (first ++ second) = (l.saying first).saying second :=
  congrArg (fun text => l.withValue (some text)) String.append_assoc.symm

namespace Tree

/-- All that is said in a tree, in document order. -/
def voice (t : Tree) : String := String.join (t.labels.map TreeLabel.spoken)

mutual

/-- The tree in which every node has as its value what is said in it, and character data is no
node of its own. -/
def voiced : Tree → Tree
  | .node l children =>
    .node (l.withValue (some (voice (.node l children)))) (allVoiced children)

/-- Trees side by side, each of them voiced. -/
def allVoiced : List Tree → List Tree
  | [] => []
  | t :: ts => if t.isPcdata then allVoiced ts else t.voiced :: allVoiced ts

end

variable {t c : Tree} {ts : List Tree} {f : TreeLabel → TreeLabel}

theorem allVoiced_eq (ts : List Tree) :
    allVoiced ts = (ts.filter fun t => !t.isPcdata).map voiced := by
  induction ts with
  | nil => rfl
  | cons t ts ih =>
    rw [allVoiced, ih]
    cases ht : t.isPcdata <;> simp [ht]

theorem voiced_eq (t : Tree) :
    t.voiced = .node (t.label.withValue (some t.voice))
      ((t.children.filter fun c => !c.isPcdata).map voiced) := by
  obtain ⟨l, children⟩ := t
  rw [voiced, allVoiced_eq]
  rfl

@[simp] theorem kind_voiced (t : Tree) : t.voiced.label.kind = t.label.kind := by
  rw [voiced_eq]
  rfl

@[simp] theorem isPcdata_voiced (t : Tree) : t.voiced.isPcdata = t.isPcdata := by
  rw [isPcdata, kind_voiced, isPcdata]

@[simp] theorem valueText_voiced (t : Tree) : t.voiced.label.valueText = t.voice := by
  rw [voiced_eq]
  rfl

theorem voice_addChild (t c : Tree) : (t.addChild c).voice = t.voice ++ c.voice := by
  rw [voice, labels_addChild, List.map_append, String.join_append, voice, voice]

theorem voice_eq (t : Tree) :
    t.voice = t.label.spoken ++
      String.join ((t.children.flatMap labels).map TreeLabel.spoken) := by
  rw [voice, labels_eq, List.map_cons, String.join_cons]

/-! ### What a tree hears of its children -/

/-- One more voiced tree stands below another one. -/
def hearing (t c : Tree) : Tree :=
  if c.isPcdata then t.relabel (.saying c.label.valueText)
  else (t.relabel (.saying c.label.valueText)).addChild c

theorem voiced_addChild (t c : Tree) : (t.addChild c).voiced = t.voiced.hearing c.voiced := by
  have hlabel : t.label.withValue (some (t.addChild c).voice) =
      (t.voiced.label.saying c.voice) := by
    rw [voice_addChild, TreeLabel.saying, valueText_voiced, voiced_eq]
    rfl
  rw [hearing, isPcdata_voiced, valueText_voiced, voiced_eq (t.addChild c), addChild, label,
    children, List.filter_append, List.map_append, ← addChild, hlabel]
  have hchildren : t.voiced.children = (t.children.filter fun c => !c.isPcdata).map voiced :=
    congrArg children (voiced_eq t)
  rw [← hchildren]
  cases hc : c.isPcdata <;> simp [hc, relabel, addChild, label, children]

theorem voice_leaf (l : TreeLabel) : (leaf l).voice = l.spoken := by
  rw [voice_eq]
  exact String.append_empty

theorem voiced_leaf (l : TreeLabel) : (leaf l).voiced = leaf (l.withValue (some l.spoken)) := by
  rw [voiced_eq, voice_leaf]
  rfl

/-- A text that is kept in a node is said in it. -/
theorem voiced_withValue (hkind : t.label.kind.hasChildren = true) (hchildren : t.children = [])
    (hvalue : t.label.valueText = "") (value : Option String) :
    (t.relabel (.withValue value)).voiced = t.voiced.relabel (.saying (value.getD "")) := by
  obtain ⟨l, children⟩ := t
  obtain rfl : children = [] := hchildren
  have hspoken : (l.withValue value).spoken = value.getD "" :=
    if_pos (by rw [show (l.withValue value).kind.hasChildren = true from hkind, Bool.or_true])
  have hsilent : l.spoken = "" := by
    rw [TreeLabel.spoken]
    split
    · exact hvalue
    · rfl
  show (leaf (l.withValue value)).voiced = (leaf l).voiced.relabel _
  rw [voiced_leaf, voiced_leaf, hspoken, hsilent]
  exact congrArg (fun text => leaf (l.withValue (some text))) String.empty_append.symm

/-- A text that is a node of its own is said in the node that it stands in. -/
theorem voiced_addText {k : TreeLabel} (hkind : k.kind = .pcdata) (t : Tree) :
    (t.addChild (leaf k)).voiced = t.voiced.relabel (.saying k.spoken) := by
  have hpcdata : (leaf (k.withValue (some k.spoken))).isPcdata = true := beq_iff_eq.2 hkind
  rw [voiced_addChild, voiced_leaf, hearing, if_pos hpcdata]
  rfl

/-- Character data that stands last has nothing below it. -/
def EndsBare (t : Tree) : Prop := ∀ x ∈ t.children.getLast?, x.isPcdata = true → x.children = []

theorem endsBare_addChild (hc : c.isPcdata = true → c.children = []) (t : Tree) :
    (t.addChild c).EndsBare := by
  intro x hx
  rw [addChild, children, List.getLast?_concat] at hx
  cases hx
  exact hc

theorem EndsBare.relabelLast (h : t.EndsBare) (hf : ∀ l, (f l).kind = l.kind) :
    (t.relabelLast f).EndsBare := by
  obtain ⟨l, children⟩ := t
  obtain rfl | ⟨cs, x, rfl⟩ := List.eq_nil_or_concat' children
  · exact h
  · show (((Tree.node l cs).addChild x).relabelLast f).EndsBare
    rw [relabelLast_addChild]
    refine endsBare_addChild (c := x.relabel f) (fun htext => ?_) _
    have hx : x ∈ (Tree.node l (cs ++ [x])).children.getLast? := List.getLast?_concat
    exact h x hx ((congrArg (· == NodeKind.pcdata) (hf x.label)).symm.trans htext)

/-- More is said in a text that stands last. -/
theorem voiced_joined (hlast : t.endsInPcdata = true) (hbare : t.EndsBare) (more : String) :
    (t.relabelLast (.joined more)).voiced = t.voiced.relabel (.saying more) := by
  obtain ⟨l, children⟩ := t
  obtain ⟨x, hx, htext⟩ := (Option.any_eq_true ..).1 hlast
  obtain ⟨cs, rfl⟩ := List.getLast?_eq_some_iff.1 hx
  obtain ⟨k, xs⟩ := x
  obtain rfl : xs = [] := hbare _ hx htext
  have hkind : k.kind = .pcdata := beq_iff_eq.1 htext
  have hspoken : (k.joined more).spoken = k.spoken ++ more := by
    have hjoined : (k.joined more).spoken = (k.joined more).valueText :=
      if_pos (by rw [show (k.joined more).kind = .pcdata from hkind]; rfl)
    have hbefore : k.spoken = k.valueText := if_pos (by rw [hkind]; rfl)
    rw [hjoined, hbefore]
    exact copiedText_getD _
  have hkind' : (k.joined more).kind = .pcdata := hkind
  show (((Tree.node l cs).addChild (leaf k)).relabelLast (.joined more)).voiced =
    ((Tree.node l cs).addChild (leaf k)).voiced.relabel (.saying more)
  rw [relabelLast_addChild, show (leaf k).relabel (.joined more) = leaf (k.joined more) from rfl,
    voiced_addText hkind', voiced_addText hkind, hspoken]
  exact congrArg (Tree.node · _) (TreeLabel.saying_append _ _ _)

/-- Attributes are not said. -/
theorem voiced_adorned (t : Tree) (a : TreeAttribute) :
    (t.relabel (.adorned a)).voiced = t.voiced.relabel (.adorned a) := by
  have hvoice : (t.relabel (.adorned a)).voice = t.voice := by
    rw [voice_eq, voice_eq t]
    rfl
  rw [voiced_eq, hvoice, voiced_eq t]
  rfl

theorem voiced_adornedLast (hlast : t.endsInPcdata = false) (a : TreeAttribute) :
    (t.relabelLast (.adorned a)).voiced = t.voiced.relabelLast (.adorned a) := by
  obtain ⟨l, children⟩ := t
  obtain rfl | ⟨cs, x, rfl⟩ := List.eq_nil_or_concat' children
  · rw [relabelLast_of_childless rfl, relabelLast_of_childless]
    rw [voiced_eq]
    rfl
  · have hx : x.isPcdata = false := by simpa [endsInPcdata, children] using hlast
    have hgrown : Tree.node l (cs ++ [x]) = (Tree.node l cs).addChild x := rfl
    have hsame : (x.relabel (.adorned a)).isPcdata = false := hx
    rw [hgrown, relabelLast_addChild, voiced_addChild, voiced_addChild, hearing, hearing,
      isPcdata_voiced, isPcdata_voiced, hsame, hx, voiced_adorned]
    exact (relabelLast_addChild ..).symm

end Tree

/-! ## Saplings -/

/-- Whether text is kept in elements is of no account for which nodes are wanted. -/
theorem ParseOptions.agreeOnNodes_embed (options : ParseOptions) :
    options.AgreeOnNodes (options.union .embedPcdata) := .union rfl

/-- Whether text is kept in elements is of no account for how each text is converted. -/
theorem ParseOptions.agreeOnTexts_embed (options : ParseOptions) :
    options.AgreeOnTexts (options.union .embedPcdata) := .union rfl

namespace Sapling

variable {z z' : Sapling} {options : ParseOptions} {source : String} {e : LoadEvent}

/-- The sapling in which every node has as its value what is said in it. -/
def voiced (z : Sapling) : Sapling := ⟨z.tip.voiced, z.outer.map Tree.voiced, z.inLast⟩

/-- What is open may have children, and character data has none. -/
structure Standing (z : Sapling) : Prop extends z.Sound where
  tip_kind : z.tip.label.kind.hasChildren = true
  outer_kind : ∀ t ∈ z.outer, t.label.kind.hasChildren = true
  bare : z.tip.EndsBare

theorem Standing.seed {l : TreeLabel} (h : l.kind.hasChildren = true) : (seed l).Standing where
  toSound := .seed (by rintro heq; rw [heq] at h; cases h)
  tip_kind := h
  outer_kind := List.forall_mem_nil _
  bare _ hx := by cases hx

/-- Whatever an event says, this stays so. -/
theorem Standing.add (h : z.Standing) (e : LoadEvent) : (z.add options source e).Standing := by
  have hsound : (z.add options source e).Sound := h.toSound.add e
  cases e with
  | text raw closing =>
    suffices htip : (z.addText options source raw closing).tip.label.kind = z.tip.label.kind ∧
        (z.addText options source raw closing).tip.EndsBare from
      ⟨hsound, htip.1 ▸ h.tip_kind, h.outer_kind, htip.2⟩
    simp only [addText]
    cases z.textFate options raw.text closing with
    | dropped => exact ⟨rfl, h.bare⟩
    | embedded => exact ⟨rfl, h.bare⟩
    | joined => exact ⟨rfl, h.bare.relabelLast fun _ => rfl⟩
    | planted => exact ⟨rfl, Tree.endsBare_addChild (fun _ => rfl) _⟩
  | openElement name =>
    exact ⟨hsound, rfl, List.forall_mem_cons.2 ⟨h.tip_kind, h.outer_kind⟩, fun _ hx => by cases hx⟩
  | closeElement =>
    obtain ⟨tip, outer, inLast⟩ := z
    cases outer with
    | nil => exact ⟨hsound, h.tip_kind, h.outer_kind, h.bare⟩
    | cons t outer =>
      obtain ⟨ht, houter⟩ := List.forall_mem_cons.1 h.outer_kind
      refine ⟨hsound, ht, houter, Tree.endsBare_addChild (fun htext => ?_) t⟩
      exact absurd (htext.symm.trans h.tip) Bool.noConfusion
  | «attribute» name raw =>
    obtain ⟨tip, outer, inLast⟩ := z
    cases inLast with
    | true => exact ⟨hsound, h.tip_kind, h.outer_kind, h.bare.relabelLast fun _ => rfl⟩
    | false => exact ⟨hsound, h.tip_kind, h.outer_kind, h.bare⟩
  | _ => exact ⟨hsound, h.tip_kind, h.outer_kind, Tree.endsBare_addChild (fun _ => rfl) _⟩

/-- What is dropped is told by the options and by whether anything is open, if white space is not
asked for where it stands alone. -/
theorem textFate_eq_dropped_iff_keepsText (hsingle : options.contains .wsPcdataSingle = false)
    {raw : List Char} {closing : Bool} :
    z.textFate options raw closing = .dropped ↔ options.keepsText z.atTop raw = false := by
  have hspace : z.keepsSpace options closing =
      (options.contains .wsPcdata && !options.contains .trimPcdata) := by
    simp only [keepsSpace, ParseOptions.intersects_space, hsingle, Bool.or_false, Bool.not_false,
      Bool.true_or, Bool.and_true]
  rw [textFate_eq_dropped_iff, hspace, ParseOptions.keepsText_eq_false_iff]

/-- Character data that is not dropped is said in the innermost open element, wherever it goes. -/
theorem voiced_addText (h : z.Standing) {raw : Span} {closing : Bool}
    (hreads : options.contains .mergePcdata = true →
      (LoadEvent.text raw closing).ReadsBack options source) :
    let said := ((convertPcdata options raw.text).readIn source raw).getD ""
    (z.addText options source raw closing).voiced =
      ⟨if z.textFate options raw.text closing = .dropped then z.tip.voiced
        else z.tip.voiced.relabel (.saying said), z.outer.map Tree.voiced, false⟩ := by
  intro said
  rw [addText, voiced]
  refine congrArg (Sapling.mk · _ _) ?_
  cases hfate : z.textFate options raw.text closing with
  | dropped => rfl
  | embedded =>
    obtain ⟨-, hchildren, hvalue⟩ := of_textFate_embedded hfate
    rw [if_neg TextFate.noConfusion]
    exact Tree.voiced_withValue h.tip_kind hchildren (by rw [TreeLabel.valueText, hvalue]; rfl) _
  | joined =>
    obtain ⟨hmerge, hlast⟩ := of_textFate_joined hfate
    rw [if_neg TextFate.noConfusion, show said = _ from hreads hmerge]
    exact Tree.voiced_joined hlast h.bare _
  | planted =>
    rw [if_neg TextFate.noConfusion]
    exact Tree.voiced_addText rfl z.tip

theorem voiced_adorn (h : z.Sound) (a : TreeAttribute) : (z.adorn a).voiced = z.voiced.adorn a := by
  obtain ⟨tip, outer, inLast⟩ := z
  refine congrArg (Sapling.mk · (outer.map Tree.voiced) inLast) ?_
  cases inLast with
  | true => exact Tree.voiced_adornedLast (h.last rfl) a
  | false => exact Tree.voiced_adorned tip a

theorem voiced_leave (hsame : z'.voiced = z.voiced) : z'.leave.voiced = z.leave.voiced := by
  obtain ⟨tip, outer, inLast⟩ := z
  obtain ⟨tip', outer', inLast'⟩ := z'
  obtain ⟨htip, houter, -⟩ := Sapling.mk.inj hsame
  match outer, outer', houter with
  | [], [], _ => exact congrArg (Sapling.mk · [] false) htip
  | t :: outer, t' :: outer', houter =>
    obtain ⟨ht, houter⟩ := List.cons.inj houter
    refine congrArg₂ (Sapling.mk · · false) ?_ houter
    show (t'.addChild tip').voiced = (t.addChild tip).voiced
    rw [Tree.voiced_addChild, Tree.voiced_addChild, ht, show tip'.voiced = tip.voiced from htip]

theorem voiced_push (hsame : z'.voiced = z.voiced) (l : TreeLabel) (e : LoadEvent) :
    (z'.push l e).voiced = (z.push l e).voiced := by
  obtain ⟨htip, houter, -⟩ := Sapling.mk.inj hsame
  have hplant : (z'.tip.addChild (.leaf l)).voiced = (z.tip.addChild (.leaf l)).voiced := by
    rw [Tree.voiced_addChild, Tree.voiced_addChild, htip]
  cases e with
  | openElement name => exact congrArg (Sapling.mk _ · _) (congrArg₂ List.cons htip houter)
  | _ => exact congrArg₂ (Sapling.mk · · _) hplant houter

/-- The same character data is dropped with and without keeping it in elements. -/
theorem textFate_embed_eq_dropped_iff (hsame : z'.voiced = z.voiced)
    (hsingle : options.contains .wsPcdataSingle = false) {raw : List Char} {closing : Bool} :
    z'.textFate (options.union .embedPcdata) raw closing = .dropped ↔
      z.textFate options raw closing = .dropped := by
  obtain ⟨htip, -, -⟩ := Sapling.mk.inj hsame
  have hsingle' : (options.union .embedPcdata).contains .wsPcdataSingle = false :=
    (ParseOptions.contains_union (i := 10) rfl).trans (by rw [hsingle]; rfl)
  have htop : z'.atTop = z.atTop := by
    rw [atTop, ← Tree.kind_voiced, htip, Tree.kind_voiced, atTop]
  rw [textFate_eq_dropped_iff_keepsText hsingle, textFate_eq_dropped_iff_keepsText hsingle',
    htop, options.agreeOnTexts_embed.keepsText_eq]

/-- Character data is said in the same way with and without keeping it in elements. -/
theorem voiced_addText_embed (h : z.Standing) (h' : z'.Standing) (hsame : z'.voiced = z.voiced)
    (hsingle : options.contains .wsPcdataSingle = false) {raw : Span} {closing : Bool}
    (hreads : options.contains .mergePcdata = true →
      (LoadEvent.text raw closing).ReadsBack options source) :
    (z'.addText (options.union .embedPcdata) source raw closing).voiced =
      (z.addText options source raw closing).voiced := by
  obtain ⟨htip, houter, -⟩ := Sapling.mk.inj hsame
  have htexts := options.agreeOnTexts_embed
  have hmerge : (options.union .embedPcdata).contains .mergePcdata =
      options.contains .mergePcdata :=
    (ParseOptions.contains_union (i := 14) rfl).trans (Bool.or_false _)
  have hreads' : (options.union .embedPcdata).contains .mergePcdata = true →
      (LoadEvent.text raw closing).ReadsBack (options.union .embedPcdata) source := by
    rw [hmerge, LoadEvent.ReadsBack, htexts.convertPcdata_eq]
    exact hreads
  rw [voiced_addText h hreads, voiced_addText h' hreads', htip, houter, htexts.convertPcdata_eq]
  simp only [textFate_embed_eq_dropped_iff hsame hsingle]

theorem voiced_markup_embed (hmarkup : ∀ raw closing, e ≠ .text raw closing) {l : TreeLabel}
    (hl : e.nodeLabel? options source false = some l) (hsame : z'.voiced = z.voiced) :
    (z'.add (options.union .embedPcdata) source e).voiced =
      (z.add options source e).voiced := by
  have hl' := (options.agreeOnTexts_embed.nodeLabel?_eq source false e).trans hl
  rw [add_markup hmarkup hl, add_markup hmarkup hl']
  exact voiced_push hsame l e

/-- An event says the same with and without keeping text in elements. -/
theorem voiced_add_embed (h : z.Standing) (h' : z'.Standing) (hsame : z'.voiced = z.voiced)
    (hsingle : options.contains .wsPcdataSingle = false)
    (hreads : options.contains .mergePcdata = true → e.ReadsBack options source) :
    (z'.add (options.union .embedPcdata) source e).voiced =
      (z.add options source e).voiced := by
  cases e with
  | text raw closing => exact voiced_addText_embed h h' hsame hsingle hreads
  | closeElement => exact voiced_leave hsame
  | «attribute» name raw =>
    rw [Sapling.add, Sapling.add, voiced_adorn h.toSound, voiced_adorn h'.toSound, hsame,
      options.agreeOnTexts_embed.attributeIn_eq]
  | _ => exact voiced_markup_embed (fun _ _ => LoadEvent.noConfusion) rfl hsame

/-- Events say the same with and without keeping text in elements. -/
theorem voiced_foldl_embed (h : z.Standing) (h' : z'.Standing) (hsame : z'.voiced = z.voiced)
    (hsingle : options.contains .wsPcdataSingle = false) {es : List LoadEvent}
    (hreads : options.contains .mergePcdata = true → ∀ e ∈ es, e.ReadsBack options source) :
    (es.foldl (Sapling.add (options.union .embedPcdata) source) z').voiced =
      (es.foldl (Sapling.add options source) z).voiced := by
  induction es generalizing z z' with
  | nil => exact hsame
  | cons e es ih =>
    have he := voiced_add_embed h h' hsame hsingle fun hmerge =>
      hreads hmerge e List.mem_cons_self
    exact ih (h.add e) (h'.add e) he fun hmerge e he => hreads hmerge e (List.mem_cons_of_mem _ he)

/-- Character data that is joined to nothing is refused for its own length, or is dropped. -/
theorem refusal?_text_of_unmerged (hmerge : options.contains .mergePcdata = false) (raw : Span)
    (closing : Bool) :
    z.refusal? options (.text raw closing) =
      if z.textFate options raw.text closing = .dropped then none
      else (convertPcdata options raw.text).refusal? raw := by
  rw [refusal?]
  cases hfate : z.textFate options raw.text closing with
  | joined => exact absurd hfate (textFate_ne_joined hmerge z raw.text closing)
  | dropped => rw [if_pos rfl]
  | embedded | planted => exact (if_neg TextFate.noConfusion).symm

/-- Where nothing is joined, the same is refused with and without keeping text in elements. -/
theorem refusal?_embed (hsame : z'.voiced = z.voiced)
    (hsingle : options.contains .wsPcdataSingle = false)
    (hmerge : options.contains .mergePcdata = false) (e : LoadEvent) :
    z'.refusal? (options.union .embedPcdata) e = z.refusal? options e := by
  have htexts := options.agreeOnTexts_embed
  have hmerge' : (options.union .embedPcdata).contains .mergePcdata = false :=
    (ParseOptions.contains_union (i := 14) rfl).trans ((Bool.or_false _).trans hmerge)
  cases e with
  | text raw closing =>
    rw [refusal?_text_of_unmerged hmerge, refusal?_text_of_unmerged hmerge',
      htexts.convertPcdata_eq]
    simp only [textFate_embed_eq_dropped_iff hsame hsingle]
  | _ =>
    rw [refusal?_of_markup fun _ _ => LoadEvent.noConfusion,
      refusal?_of_markup fun _ _ => LoadEvent.noConfusion, htexts.refusal?_eq]

/-- Where nothing is joined, the same is carried out with and without keeping text in elements. -/
theorem heeded_embed (h : z.Standing) (h' : z'.Standing) (hsame : z'.voiced = z.voiced)
    (hsingle : options.contains .wsPcdataSingle = false)
    (hmerge : options.contains .mergePcdata = false) (es : List LoadEvent) :
    LoadEvent.heeded (Sapling.add (options.union .embedPcdata) source)
        (Sapling.refusal? (options.union .embedPcdata)) z' es =
      LoadEvent.heeded (Sapling.add options source) (Sapling.refusal? options) z es := by
  induction es generalizing z z' with
  | nil => rfl
  | cons e es ih =>
    rw [LoadEvent.heeded, LoadEvent.heeded, refusal?_embed hsame hsingle hmerge]
    cases z.refusal? options e with
    | some fault => rfl
    | none =>
      have he : (z'.add (options.union .embedPcdata) source e).voiced =
          (z.add options source e).voiced :=
        voiced_add_embed h h' hsame hsingle fun hjoins => Bool.noConfusion (hmerge.symm.trans hjoins)
      simp only [ih (h.add e) (h'.add e) he]

/-- What is said is the same when all that is open is taken to be closed. -/
theorem voiced_whole (hsame : z'.voiced = z.voiced) : z'.whole.voiced = z.whole.voiced := by
  obtain ⟨tip, outer, inLast⟩ := z
  obtain ⟨tip', outer', inLast'⟩ := z'
  induction outer generalizing tip tip' outer' inLast inLast' with
  | nil =>
    obtain ⟨htip, houter, -⟩ := Sapling.mk.inj hsame
    obtain rfl : outer' = [] := List.map_eq_nil_iff.1 houter
    exact htip
  | cons t outer ih =>
    obtain ⟨-, houter, -⟩ := Sapling.mk.inj hsame
    match outer', houter with
    | t' :: outer', _ =>
      exact ih (t.addChild tip) false (t'.addChild tip') outer' false (voiced_leave hsame)

end Sapling

/-- The same is carried out of a text with and without keeping text in elements. -/
theorem Transcript.ofLoad_embed {options : ParseOptions} {text : String}
    (hsingle : options.contains .wsPcdataSingle = false)
    (hsize : options.contains .mergePcdata = true → text.utf8ByteSize < 2 ^ 32) :
    ofLoad (options.union .embedPcdata) text = ofLoad options text := by
  cases hmerge : options.contains .mergePcdata with
  | true => exact ofLoad_congr (hsize hmerge) options.agreeOnNodes_embed
  | false =>
    have hseed : Sapling.Standing (.seed Document.bareRoot) := .seed rfl
    rw [ofLoad, ofText_congr options.agreeOnNodes_embed, heeded,
      Sapling.heeded_embed hseed hseed rfl hsingle hmerge]
    rfl

/-- What is said in the tree of a text is the same with and without keeping text in elements. -/
theorem Tree.voiced_ofLoad_embed {options : ParseOptions} {text : String}
    (hsingle : options.contains .wsPcdataSingle = false)
    (hsize : options.contains .mergePcdata = true → text.utf8ByteSize < 2 ^ 32) :
    (Tree.ofLoad (options.union .embedPcdata) text).voiced = (Tree.ofLoad options text).voiced := by
  have hseed : Sapling.Standing (.seed Document.bareRoot) := .seed rfl
  rw [Tree.ofLoad, Transcript.ofLoad_embed hsingle hsize, Tree.ofLoad]
  refine Sapling.voiced_whole (Sapling.voiced_foldl_embed hseed hseed rfl hsingle fun hmerge => ?_)
  have hreads := Transcript.ofText_readsBack ((byteSize_toList text).trans_lt (hsize hmerge))
    ⟨options, true⟩ options
  rw [String.ofList_toList] at hreads
  rwa [Transcript.ofLoad_eq_ofText (hsize hmerge)]

/-- Nothing but character data is missing below a voiced node. -/
theorem Tree.contains_kind_voiced {kind : NodeKind} (hkind : kind ≠ .pcdata) (t : Tree) :
    (t.voiced.children.map fun c => c.label.kind).contains kind =
      (t.children.map fun c => c.label.kind).contains kind := by
  rw [voiced_eq, Bool.eq_iff_iff, List.contains_iff_mem, List.contains_iff_mem, children]
  simp only [List.mem_map, List.mem_filter]
  constructor
  · rintro ⟨_, ⟨c, ⟨hc, -⟩, rfl⟩, rfl⟩
    exact ⟨c, hc, (kind_voiced c).symm⟩
  · rintro ⟨c, hc, rfl⟩
    have hother : (!c.isPcdata) = true := by simpa [isPcdata] using hkind
    exact ⟨c.voiced, ⟨c, ⟨hc, hother⟩, rfl⟩, kind_voiced c⟩

/-- A load ends in the same way with and without keeping text in elements. -/
theorem LoadFault.ofLoad_embed {options : ParseOptions} {text : String}
    (hsingle : options.contains .wsPcdataSingle = false)
    (hsize : options.contains .mergePcdata = true → text.utf8ByteSize < 2 ^ 32) :
    LoadFault.ofLoad (options.union .embedPcdata) text = LoadFault.ofLoad options text := by
  have helement := Tree.contains_kind_voiced (show NodeKind.element ≠ .pcdata by decide)
    (Tree.ofLoad (options.union .embedPcdata) text)
  rw [Tree.voiced_ofLoad_embed hsingle hsize, Tree.contains_kind_voiced (by decide)] at helement
  have hread := Transcript.ofLoad_embed hsingle hsize
  exact ofLoad_congr (congrArg _ hread) options.agreeOnTexts_embed.fragment helement.symm

/-! ## Trees without text in elements -/

/-- No element keeps a text. -/
def Tree.Bare (t : Tree) : Prop := ∀ l ∈ t.labels, l.kind.hasChildren = true → l.value = none

namespace Tree.Bare

variable {t c : Tree} {f : TreeLabel → TreeLabel}

theorem leaf {l : TreeLabel} (h : l.kind.hasChildren = true → l.value = none) :
    (Tree.leaf l).Bare := by
  simpa [Bare, labels_eq, Tree.leaf, label, children] using h

theorem label (h : t.Bare) : t.label.kind.hasChildren = true → t.label.value = none := by
  rw [Bare, labels_eq] at h
  exact (List.forall_mem_cons.1 h).1

theorem addChild_iff : (t.addChild c).Bare ↔ t.Bare ∧ c.Bare := by
  rw [Bare, labels_addChild, List.forall_mem_append, Bare, Bare]

theorem relabel (ht : t.Bare)
    (hf : (f t.label).kind.hasChildren = true → (f t.label).value = none) :
    (t.relabel f).Bare := by
  rw [Bare, labels_eq] at ht ⊢
  exact List.forall_mem_cons.2 ⟨hf, (List.forall_mem_cons.1 ht).2⟩

theorem relabelLast (ht : t.Bare) (hf : ∀ x ∈ t.children.getLast?,
    x.Bare → (f x.label).kind.hasChildren = true → (f x.label).value = none) :
    (t.relabelLast f).Bare := by
  obtain ⟨l, children⟩ := t
  obtain rfl | ⟨cs, x, rfl⟩ := List.eq_nil_or_concat' children
  · exact ht
  · have hlast : x ∈ (Tree.node l (cs ++ [x])).children.getLast? := List.getLast?_concat
    obtain ⟨hcs, hx⟩ := addChild_iff.1 (show ((Tree.node l cs).addChild x).Bare from ht)
    show (((Tree.node l cs).addChild x).relabelLast f).Bare
    rw [relabelLast_addChild]
    exact addChild_iff.2 ⟨hcs, hx.relabel (hf x hlast hx)⟩

end Tree.Bare

namespace Sapling

variable {z : Sapling} {options : ParseOptions} {source : String} {e : LoadEvent}

/-- No element keeps a text so far. -/
structure Bare (z : Sapling) : Prop where
  tip : z.tip.Bare
  outer : ∀ t ∈ z.outer, t.Bare

theorem Bare.add (h : z.Bare) (hembed : options.contains .embedPcdata = false) (e : LoadEvent) :
    (z.add options source e).Bare := by
  cases e with
  | text raw closing =>
    refine ⟨?_, h.outer⟩
    simp only [Sapling.add, addText]
    cases hfate : z.textFate options raw.text closing with
    | dropped => exact h.tip
    | embedded => exact absurd hfate (textFate_ne_embedded hembed z _ _)
    | joined =>
      refine h.tip.relabelLast fun x hx _ hkind => ?_
      have htext : x.isPcdata = true := by
        have hlast := (of_textFate_joined hfate).2
        rw [Tree.endsInPcdata, show z.tip.children.getLast? = some x from hx] at hlast
        exact hlast
      rw [show (x.label.joined _).kind = .pcdata from beq_iff_eq.1 htext] at hkind
      cases hkind
    | planted => exact Tree.Bare.addChild_iff.2 ⟨h.tip, .leaf fun hkind => by cases hkind⟩
  | openElement name =>
    exact ⟨.leaf fun _ => rfl, List.forall_mem_cons.2 ⟨h.tip, h.outer⟩⟩
  | closeElement =>
    obtain ⟨tip, outer, inLast⟩ := z
    cases outer with
    | nil => exact ⟨h.tip, h.outer⟩
    | cons t outer =>
      obtain ⟨ht, houter⟩ := List.forall_mem_cons.1 h.outer
      exact ⟨Tree.Bare.addChild_iff.2 ⟨ht, h.tip⟩, houter⟩
  | «attribute» name raw =>
    obtain ⟨tip, outer, inLast⟩ := z
    cases inLast with
    | true => exact ⟨h.tip.relabelLast fun x _ hx => hx.label, h.outer⟩
    | false => exact ⟨h.tip.relabel h.tip.label, h.outer⟩
  | _ => exact ⟨Tree.Bare.addChild_iff.2 ⟨h.tip, .leaf fun hkind => by cases hkind⟩, h.outer⟩

theorem Bare.foldl_add (h : z.Bare) (hembed : options.contains .embedPcdata = false)
    (es : List LoadEvent) : (es.foldl (Sapling.add options source) z).Bare := by
  induction es generalizing z with
  | nil => exact h
  | cons e es ih => exact ih (h.add hembed e)

theorem Bare.whole (h : z.Bare) : z.whole.Bare := by
  obtain ⟨tip, outer, inLast⟩ := z
  induction outer generalizing tip inLast with
  | nil => exact h.tip
  | cons t outer ih =>
    obtain ⟨ht, houter⟩ := List.forall_mem_cons.1 h.outer
    exact ih (t.addChild tip) false ⟨Tree.Bare.addChild_iff.2 ⟨ht, h.tip⟩, houter⟩

end Sapling

/-- Text is kept in elements only if that is asked for. -/
theorem Tree.bare_ofLoad {options : ParseOptions} (hembed : options.contains .embedPcdata = false)
    (text : String) : (Tree.ofLoad options text).Bare := by
  have hseed : Sapling.Bare (.seed Document.bareRoot) :=
    ⟨.leaf fun _ => rfl, List.forall_mem_nil _⟩
  exact (hseed.foldl_add hembed _).whole

/-! ## Documents -/

namespace Document

variable {doc : Document} {lay : Layout} {x y : NodeId}

/-- All that is said in a node, in document order: the character data below it, and what is kept
in it and in the elements below it. -/
def wholeText (doc : Document) (id : NodeId) : String :=
  String.join (((doc.subtree id).filter fun d =>
    (doc.kind d).isText || (doc.kind d).hasChildren).map doc.value)

/-- The document node and all elements, in document order. -/
def containers (doc : Document) : List NodeId :=
  doc.preorder.filter fun x => (doc.kind x).hasChildren

/-- The nodes of a tree are those that a walk visits. -/
theorem LaidOut.map_labelOf_subtree (h : LaidOut doc lay) (hx : doc.contains x = true) :
    (doc.subtree x).map doc.labelOf = (doc.tree x).labels := by
  obtain ⟨o, rfl, ho⟩ := h.forest.exists_outline x
  induction ho with
  | @node x os hhere _ ih =>
    rw [Outline.top] at hx ⊢
    rw [h.subtree_eq hx, h.descendants_eq, h.tree_eq hx, Tree.labels_eq, List.map_cons,
      List.map_flatMap]
    show _ = doc.labelOf x :: ((doc.children x).map doc.tree).flatMap Tree.labels
    rw [List.flatMap_map]
    refine congrArg _ (List.flatMap_congr fun c hc => ?_)
    have hc' := contains_of_parent? (h.mem_children.1 hc)
    rw [hhere] at hc
    obtain ⟨o, ho, rfl⟩ := List.mem_map.1 hc
    exact ih o ho hc'

/-- What is left out says nothing. -/
theorem join_map_filter {α : Type} (p : α → Bool) (f : α → String) (xs : List α) :
    String.join ((xs.filter p).map f) = String.join (xs.map fun x => if p x then f x else "") := by
  induction xs with
  | nil => rfl
  | cons x xs ih =>
    rw [List.map_cons, String.join_cons, ← ih]
    cases hp : p x <;> simp [hp]

theorem LaidOut.wholeText_eq (h : LaidOut doc lay) (hx : doc.contains x = true) :
    doc.wholeText x = (doc.tree x).voice := by
  rw [wholeText, join_map_filter, Tree.voice, ← h.map_labelOf_subtree hx, List.map_map]
  refine congrArg String.join (List.map_congr_left fun d _ => ?_)
  rw [Function.comp, TreeLabel.spoken, kind_labelOf, valueText_labelOf]

/-- Nodes whose kind has no children are a walk of their own. -/
theorem LaidOut.subtree_of_childless (h : LaidOut doc lay) (hx : doc.contains x = true)
    (hkind : (doc.kind x).hasChildren = false) : doc.subtree x = [x] := by
  have hnone : doc.children x = [] := by
    refine List.eq_nil_iff_forall_not_mem.2 fun c hc => ?_
    have hallowed := hasChildren_of_allowsChild (h.allowed (h.mem_children.1 hc))
    rw [hkind] at hallowed
    cases hallowed
  rw [h.subtree_eq hx, h.descendants_eq, hnone, List.flatMap_nil]

/-- A node with all that is said in it. -/
def told (doc : Document) (id : NodeId) : TreeLabel :=
  (doc.labelOf id).withValue (some (doc.wholeText id))

/-- Trees side by side are told one by one; character data is in the walk and not in the voiced
trees, and it has no children. -/
theorem LaidOut.map_told_flatMap (h : LaidOut doc lay) {cs : List NodeId}
    (hcs : ∀ c ∈ cs, doc.contains c = true ∧
      ((doc.subtree c).filter fun d => (doc.kind d).hasChildren).map doc.told =
        (doc.tree c).voiced.labels.filter fun l => l.kind.hasChildren) :
    ((cs.flatMap doc.subtree).filter fun d => (doc.kind d).hasChildren).map doc.told =
      ((((cs.map doc.tree).filter fun c => !c.isPcdata).map Tree.voiced).flatMap
        Tree.labels).filter fun l => l.kind.hasChildren := by
  induction cs with
  | nil => rfl
  | cons c cs ih =>
    obtain ⟨⟨hlive, hc⟩, hrest⟩ := List.forall_mem_cons.1 hcs
    rw [List.flatMap_cons, List.filter_append, List.map_append, ih hrest, List.map_cons]
    cases htext : (doc.tree c).isPcdata with
    | true =>
      have hpcdata : doc.kind c = .pcdata := (h.lawful_tree hlive).2.symm.trans (beq_iff_eq.1 htext)
      rw [h.subtree_of_childless hlive (by rw [hpcdata]; rfl)]
      simp [hpcdata, htext, NodeKind.hasChildren]
    | false =>
      rw [hc]
      simp [htext]

/-- The nodes of a voiced tree that may have children are those of the document, each with what is
said in it. -/
theorem LaidOut.map_told (h : LaidOut doc lay) (hx : doc.contains x = true) :
    ((doc.subtree x).filter fun d => (doc.kind d).hasChildren).map doc.told =
      (doc.tree x).voiced.labels.filter fun l => l.kind.hasChildren := by
  obtain ⟨o, rfl, ho⟩ := h.forest.exists_outline x
  induction ho with
  | @node x os hhere _ ih =>
    rw [Outline.top] at hx ⊢
    have htop : doc.told x = (doc.tree x).voiced.label := by
      rw [told, h.wholeText_eq hx, Tree.voiced_eq, h.tree_eq hx]
      rfl
    have hchildren : (doc.tree x).voiced.children =
        (((doc.children x).map doc.tree).filter fun c => !c.isPcdata).map Tree.voiced := by
      rw [Tree.voiced_eq, h.tree_eq hx]
      rfl
    have hkind : (doc.tree x).voiced.label.kind = doc.kind x := by
      rw [← htop]
      exact kind_labelOf x
    have hbelow := h.map_told_flatMap fun c (hc : c ∈ doc.children x) => by
      have hlive : doc.contains c = true := contains_of_parent? (h.mem_children.1 hc)
      rw [hhere] at hc
      obtain ⟨o, ho, rfl⟩ := List.mem_map.1 hc
      exact ⟨hlive, ih o ho hlive⟩
    rw [← hchildren] at hbelow
    rw [h.subtree_eq hx, h.descendants_eq, Tree.labels_eq, List.filter_cons, List.filter_cons,
      hkind]
    cases (doc.kind x).hasChildren with
    | true =>
      simp only [if_true, List.map_cons]
      rw [htop, hbelow]
    | false => exact hbelow

/-! ### String-values -/

/-- Leaving out parts of a text changes it exactly if one of them is not empty. -/
theorem join_map_eq_iff {α : Type} {f g : α → String} {xs : List α}
    (h : ∀ x ∈ xs, g x = f x ∨ g x = "") :
    String.join (xs.map g) = String.join (xs.map f) ↔ ∀ x ∈ xs, g x = f x := by
  induction xs with
  | nil => simp
  | cons x xs ih =>
    obtain ⟨hx, hxs⟩ := List.forall_mem_cons.1 h
    rw [List.map_cons, List.map_cons, String.join_cons, String.join_cons, List.forall_mem_cons]
    obtain hsame | hempty := hx
    · rw [hsame, String.append_right_inj, ih hxs]
      simp
    · have hlength : ∀ y ∈ xs, (g y).length ≤ (f y).length := fun y hy => by
        obtain heq | heq := hxs y hy <;> simp [heq]
      have hle : (String.join (xs.map g)).length ≤ (String.join (xs.map f)).length := by
        rw [String.length_join, String.length_join, List.map_map, List.map_map]
        exact List.sum_le_sum hlength
      constructor
      · intro heq
        have hfx : f x = "" := by
          have hsum := congrArg String.length heq
          rw [hempty, String.length_append, String.length_append, String.length_empty] at hsum
          exact String.length_eq_zero_iff.1 (by omega)
        rw [hempty, hfx, String.append_right_inj] at heq
        exact ⟨hempty.trans hfx.symm, (ih hxs).1 heq⟩
      · rintro ⟨heq, hrest⟩
        rw [heq, (ih hxs).2 hrest]

/-- What a query asks for is gathered in document order. -/
theorem foldl_append_if (p : NodeId → Bool) (f : NodeId → String) (ids : List NodeId)
    (text : String) :
    ids.foldl (fun text d => if p d then text ++ f d else text) text =
      text ++ String.join (ids.map fun d => if p d then f d else "") := by
  induction ids generalizing text with
  | nil => exact String.append_empty.symm
  | cons d ids ih =>
    rw [List.foldl_cons, ih, List.map_cons, String.join_cons]
    cases p d <;> simp [String.append_assoc]

/-- What stands below a node is no document. -/
theorem LaidOut.kind_ne_document (h : LaidOut doc lay) (hy : y ∈ doc.descendants x) :
    doc.kind y ≠ .document := by
  rw [h.descendants_eq, List.mem_flatMap] at hy
  obtain ⟨c, hc, hy⟩ := hy
  have hparent : doc.parent? c = some x := h.mem_children.1 hc
  have hbelow : Below doc.parent? c y := (h.mem_subtree (contains_of_parent? hparent)).1 hy
  obtain ⟨p, hp⟩ : ∃ p, doc.parent? y = some p := by
    cases hbelow with
    | self => exact ⟨x, hparent⟩
    | step hp _ => exact ⟨_, hp⟩
  exact (child_kind_of_allowsChild (h.allowed hp)).2.1

/-- The string-value of a node lacks what is kept in the elements below it. -/
theorem LaidOut.stringValueOf_eq_wholeText_iff (h : LaidOut doc lay)
    (hkind : (doc.kind x).hasChildren = true) :
    doc.stringValueOf x = doc.wholeText x ↔
      ∀ y ∈ doc.descendants x, doc.kind y = .element → doc.value y = "" := by
  have hx : doc.contains x = true := contains_of_hasChildren hkind
  have hvalue : doc.stringValueOf x = doc.value x ++ String.join ((doc.descendants x).map fun d =>
      if (doc.kind d).isText then doc.value d else "") := by
    rw [← foldl_append_if, stringValueOf]
    obtain hdocument | helement := kind_of_hasChildren hkind
    · rw [hdocument]
    · rw [helement]
  have hwhole : doc.wholeText x = doc.value x ++ String.join ((doc.descendants x).map fun d =>
      if (doc.kind d).isText || (doc.kind d).hasChildren then doc.value d else "") := by
    rw [wholeText, join_map_filter, h.subtree_eq hx, List.map_cons, String.join_cons, hkind,
      Bool.or_true, if_pos rfl]
  rw [hvalue, hwhole, String.append_right_inj, join_map_eq_iff]
  · refine forall₂_congr fun d hd => ?_
    cases hd' : doc.kind d with
    | element =>
      simp only [NodeKind.isText, NodeKind.hasChildren, Bool.or_true, Bool.false_eq_true, if_true,
        if_false, true_implies]
      exact eq_comm
    | document => exact absurd hd' (h.kind_ne_document hd)
    | _ => simp [NodeKind.isText, NodeKind.hasChildren]
  · intro d _
    cases (doc.kind d).isText with
    | true => exact .inl rfl
    | false => exact .inr rfl

/-- No text is kept in the elements of a document whose tree keeps none. -/
theorem Rooted.value_of_bare (h : Rooted doc lay) (hbare : (doc.tree doc.root).Bare)
    (hkind : (doc.kind x).hasChildren = true) : (doc.labelOf x).value = none := by
  have hmem : doc.labelOf x ∈ (doc.tree doc.root).labels := by
    rw [← h.map_labelOf_subtree h.contains_root]
    exact List.mem_map_of_mem (h.mem_preorder.2 (contains_of_hasChildren hkind))
  exact hbare _ hmem (by rwa [kind_labelOf])

/-- Then a string-value is all that is said in a node. -/
theorem Rooted.stringValueOf_of_bare (h : Rooted doc lay) (hbare : (doc.tree doc.root).Bare)
    (hkind : (doc.kind x).hasChildren = true) : doc.stringValueOf x = doc.wholeText x := by
  rw [h.stringValueOf_eq_wholeText_iff hkind]
  intro y _ helement
  have hnone := h.value_of_bare hbare (x := y) (by rw [helement]; rfl)
  rw [← valueText_labelOf, TreeLabel.valueText, hnone]
  rfl

/-- Whether text is kept in elements changes no text.  A text is loaded as it would have been, and
the elements are the same, each with the same text in it; but a string-value lacks what is kept in
the elements below. -/
theorem loadString_embed (into into' : Document) (text : String) {options : ParseOptions}
    (hembed : options.contains .embedPcdata = false)
    (hsingle : options.contains .wsPcdataSingle = false)
    (hsize : options.contains .mergePcdata = true → text.utf8ByteSize < 2 ^ 32) :
    let plain := into.loadString text options
    let embedded := into'.loadString text (options.union .embedPcdata)
    embedded.1 = plain.1 ∧
      List.Forall₂ (fun x y =>
        plain.2.labelOf x = (embedded.2.labelOf y).withValue none ∧
        plain.2.stringValueOf x = embedded.2.wholeText y ∧
        (embedded.2.stringValueOf y = plain.2.stringValueOf x ↔
          ∀ z ∈ embedded.2.descendants y,
            embedded.2.kind z = .element → embedded.2.value z = ""))
        plain.2.containers embedded.2.containers := by
  intro plain embedded
  obtain ⟨houtcome, htree⟩ := into.loadString_eq_ofLoad text options
  obtain ⟨houtcome', htree'⟩ := into'.loadString_eq_ofLoad text (options.union .embedPcdata)
  obtain ⟨lay, hrooted⟩ := whole_loadString into text options
  obtain ⟨lay', hrooted'⟩ := whole_loadString into' text (options.union .embedPcdata)
  rw [LoadFault.ofLoad_embed hsingle hsize] at houtcome'
  refine ⟨houtcome'.trans houtcome.symm, ?_⟩
  have hsame : plain.2.containers.map plain.2.told = embedded.2.containers.map embedded.2.told := by
    rw [containers, containers, preorder, preorder, hrooted.map_told hrooted.contains_root,
      hrooted'.map_told hrooted'.contains_root, htree, htree',
      Tree.voiced_ofLoad_embed hsingle hsize]
  rw [← List.forall₂_eq_eq_eq, List.forall₂_map_left_iff, List.forall₂_map_right_iff,
    List.forall₂_iff_zip] at hsame
  rw [List.forall₂_iff_zip]
  refine ⟨hsame.1, fun {x y} hxy => ?_⟩
  have hlabels := hsame.2 hxy
  have hwhole : plain.2.wholeText x = embedded.2.wholeText y :=
    Option.some.inj (congrArg TreeLabel.value hlabels)
  obtain ⟨hx, hy⟩ := List.of_mem_zip hxy
  have hkind : (plain.2.kind x).hasChildren = true := (List.mem_filter.1 hx).2
  have hkind' : (embedded.2.kind y).hasChildren = true := (List.mem_filter.1 hy).2
  have hbare : (plain.2.tree plain.2.root).Bare := by
    rw [htree]
    exact Tree.bare_ofLoad hembed text
  have hvalue := (hrooted.stringValueOf_of_bare hbare hkind).trans hwhole
  refine ⟨?_, hvalue, ?_⟩
  · have hrest := congrArg (TreeLabel.withValue none) hlabels
    rw [told, told, TreeLabel.withValue_withValue, TreeLabel.withValue_withValue] at hrest
    rw [← hrest, TreeLabel.withValue_none (hrooted.value_of_bare hbare hkind)]
  · rw [hvalue, hrooted'.stringValueOf_eq_wholeText_iff hkind']

/-- Texts are kept in nested elements, joined and left as nodes. -/
theorem loadString_embed_nested :
    let options := ParseOptions.default.union .mergePcdata
    let text := "<a>x<b>y<!---->z<c/>&lt;<?p?>u</b>v<d> w</d></a>"
    let plain := new.loadString text options
    let embedded := new.loadString text (options.union .embedPcdata)
    options.contains .embedPcdata = false ∧ options.contains .wsPcdataSingle = false ∧
      text.utf8ByteSize < 2 ^ 32 ∧
      plain.2.containers.map plain.2.stringValueOf =
        ["xyz<uv w", "xyz<uv w", "yz<u", "", " w"] ∧
      embedded.2.containers.map embedded.2.stringValueOf = ["z<uv", "xz<uv", "yz<u", "", " w"] ∧
      embedded.1 = plain.1 ∧
      List.Forall₂ (fun x y =>
        plain.2.labelOf x = (embedded.2.labelOf y).withValue none ∧
        plain.2.stringValueOf x = embedded.2.wholeText y ∧
        (embedded.2.stringValueOf y = plain.2.stringValueOf x ↔
          ∀ z ∈ embedded.2.descendants y,
            embedded.2.kind z = .element → embedded.2.value z = ""))
        plain.2.containers embedded.2.containers := by
  have hembed : (ParseOptions.default.union .mergePcdata).contains .embedPcdata = false := by decide
  have hsingle : (ParseOptions.default.union .mergePcdata).contains .wsPcdataSingle = false := by
    decide
  have hsize : "<a>x<b>y<!---->z<c/>&lt;<?p?>u</b>v<d> w</d></a>".utf8ByteSize < 2 ^ 32 := by
    decide +kernel
  exact ⟨hembed, hsingle, hsize, by decide +kernel, by decide +kernel,
    loadString_embed new new _ hembed hsingle fun _ => hsize⟩

/-- What is kept in an element is missing in the string-value of the one around it. -/
theorem stringValueOf_kept_below :
    let text := "<a><b>x</b></a>"
    let plain := new.loadString text .default
    let embedded := new.loadString text (ParseOptions.default.union .embedPcdata)
    ParseOptions.default.contains .embedPcdata = false ∧
      ParseOptions.default.contains .wsPcdataSingle = false ∧ plain.1.status = .ok ∧
      plain.2.containers = embedded.2.containers ∧
      plain.2.containers.map plain.2.stringValueOf = ["x", "x", "x"] ∧
      embedded.2.containers.map embedded.2.stringValueOf = ["", "", "x"] := by
  refine ⟨by decide, by decide, ?_⟩
  decide +kernel

end Document

end XmlTree
