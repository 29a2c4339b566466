/-
  Proofs/Fusing.lean --- joining character data only joins neighbours.

  WHAT THIS FILE IS FOR.  With one switch, character data is joined to character data that stands
  right before it.  The tree that is built then is the one that would have been built without
  the switch, with every run of character data made into one node.  Nothing else depends on the
  switch: neither what is read, nor where reading stops, nor what is dropped.

  RUNS.  A run is as long as it can be: a list of children is cut wherever two neighbours are not
  both character data.  The builder never sees a run as a whole, it only looks at the last child;
  so what one more child does to the runs of a list is the lemma that all else rests on.

  LONG TEXTS.  Ranges of a loaded text wrap at four gigabytes, and what is joined is read through
  them, so the text is shorter than that.
-/
import Mathlib.Data.List.SplitBy
import XmlTree.Proofs.Bounding
import XmlTree.Proofs.Switches

set_option autoImplicit false

namespace XmlTree

/-! ## Runs of character data -/

namespace Tree

/-- Whether both of two trees are character data. -/
def bothPcdata (t u : Tree) : Bool := t.isPcdata && u.isPcdata

/-- A run of character data as one node: the first one with the texts of all of them.  A node
that is alone is what it was. -/
def ofRun : List Tree → Tree
  | [] => .leaf ⟨.pcdata, none, none, []⟩
  | [t] => t
  | t :: ts =>
    let texts := (t :: ts).map fun u => u.label.valueText
    t.relabel (.withValue (copiedText (some (String.join texts))))

/-- Trees side by side with every run of character data made into one node. -/
def joinRuns (ts : List Tree) : List Tree := (ts.splitBy bothPcdata).map ofRun

mutual

/-- The tree with every run of character data made into one node, at every depth. -/
def fused : Tree → Tree
  | .node l children => .node l (joinRuns (allFused children))

/-- Trees side by side, each of them fused. -/
def allFused : List Tree → List Tree
  | [] => []
  | t :: ts => t.fused :: allFused ts

end

theorem allFused_eq_map (ts : List Tree) : allFused ts = ts.map fused := by
  induction ts with
  | nil => rfl
  | cons t ts ih => rw [allFused, ih, List.map_cons]

variable {t u c : Tree} {ts : List Tree} {f : TreeLabel → TreeLabel}

theorem fused_eq (t : Tree) : t.fused = .node t.label (joinRuns (t.children.map fused)) := by
  obtain ⟨l, children⟩ := t
  rw [fused, allFused_eq_map]
  rfl

@[simp] theorem label_fused (t : Tree) : t.fused.label = t.label := by
  rw [fused_eq]
  rfl

@[simp] theorem isPcdata_fused (t : Tree) : t.fused.isPcdata = t.isPcdata := by
  rw [isPcdata, label_fused, isPcdata]

/-- One more piece at the end of a run is joined to what the run was. -/
theorem ofRun_concat (hts : ts ≠ []) (t : Tree) :
    ofRun (ts ++ [t]) = (ofRun ts).relabel (.joined t.label.valueText) := by
  match ts with
  | [u] => simp [ofRun, relabel, label, TreeLabel.joined]
  | u :: v :: ts =>
    let texts := (u :: v :: ts).map fun w => w.label.valueText
    let whole := copiedText (some (String.join texts))
    have hjoined : (u.label.withValue whole).joined t.label.valueText =
        u.label.withValue (copiedText (some (String.join (texts ++ [t.label.valueText])))) := by
      have hvalue : (u.label.withValue whole).valueText = String.join texts := copiedText_getD _
      rw [TreeLabel.joined, hvalue, String.join_append, String.join_cons, String.join_nil,
        String.append_empty]
      rfl
    have hmap : ((u :: v :: ts) ++ [t]).map (fun w => w.label.valueText) =
        texts ++ [t.label.valueText] := List.map_append
    show u.relabel (.withValue (copiedText (some (String.join
      (((u :: v :: ts) ++ [t]).map fun w => w.label.valueText))))) = _
    rw [hmap, relabel, ← hjoined]
    rfl

/-- What goes with the last member of a list goes to the last part of it. -/
theorem splitBy_concat_of_related {α : Type} {r : α → α → Bool} {xs : List α} {x y : α}
    (hlast : xs.getLast? = some x) (h : r x y = true) :
    ∃ gs g, g ≠ [] ∧ xs.splitBy r = gs ++ [g] ∧ (xs ++ [y]).splitBy r = gs ++ [g ++ [y]] := by
  have hne : xs.splitBy r ≠ [] := by
    rw [List.splitBy_ne_nil]
    rintro rfl
    cases hlast
  obtain ⟨gs, g, hcut⟩ : ∃ gs g, xs.splitBy r = gs ++ [g] :=
    ⟨_, _, (List.dropLast_append_getLast hne).symm⟩
  obtain ⟨hflat, hnil, hchain, hapart⟩ := List.splitBy_eq_iff.1 hcut
  have hg : g ≠ [] := by
    rintro rfl
    exact hnil (by simp)
  have hx : g.getLast? = some x := by
    rw [hflat, List.flatten_append, List.flatten_singleton, List.getLast?_append_of_ne_nil _ hg]
      at hlast
    exact hlast
  refine ⟨gs, g, hg, hcut, ?_⟩
  -- where a list is cut is settled by four properties; only the last part is another one now
  rw [List.splitBy_eq_iff]
  rw [List.isChain_append] at hapart ⊢
  obtain ⟨hgs, -, hbetween⟩ := hapart
  refine ⟨by simp [hflat], ?_, ?_, hgs, List.isChain_singleton _, ?_⟩
  · simp only [List.mem_append, not_or] at hnil
    simp [hnil.1]
  · rw [List.forall_mem_append] at hchain ⊢
    refine ⟨hchain.1, List.forall_mem_singleton.2 (List.isChain_append.2
      ⟨List.forall_mem_singleton.1 hchain.2, List.isChain_singleton _, ?_⟩)⟩
    intro a ha b hb
    rw [hx] at ha
    cases ha
    cases hb
    exact h
  · intro before hbefore after hafter
    cases hafter
    obtain ⟨hbefore', hg', hcutoff⟩ := hbetween before hbefore g rfl
    refine ⟨hbefore', List.append_ne_nil_of_left_ne_nil hg _, ?_⟩
    rw [List.head_append_of_ne_nil hg]
    exact hcutoff

/-- What one more tree does to the runs: it is joined to the last one, or stands for itself. -/
theorem joinRuns_concat (ts : List Tree) (t : Tree) :
    joinRuns (ts ++ [t]) =
      if t.isPcdata && ts.getLast?.any isPcdata then
        (joinRuns ts).modifyLast (relabel (.joined t.label.valueText))
      else joinRuns ts ++ [t] := by
  cases ht : t.isPcdata && ts.getLast?.any isPcdata with
  | true =>
    obtain ⟨htext, hlast⟩ := Bool.and_eq_true_iff.1 ht
    obtain ⟨u, hu, hutext⟩ := (Option.any_eq_true ..).1 hlast
    have hboth : bothPcdata u t = true := by rw [bothPcdata, hutext, htext, Bool.and_self]
    obtain ⟨gs, g, hg, hcut, hcut'⟩ := splitBy_concat_of_related hu hboth
    rw [if_pos rfl, joinRuns, joinRuns, hcut, hcut', List.map_append, List.map_append,
      List.map_singleton, List.map_singleton, ofRun_concat hg, List.modifyLast_concat]
  | false =>
    rw [if_neg Bool.false_ne_true, joinRuns, List.splitBy_append_cons [], List.map_append]
    · rfl
    · intro u hu
      rw [show ts.getLast? = some u from hu, Option.any_some, Bool.and_comm] at ht
      exact ht

/-- The last tree is character data after the runs are joined if it was before. -/
theorem getLast?_joinRuns (ts : List Tree) :
    (joinRuns ts).getLast?.any isPcdata = ts.getLast?.any isPcdata := by
  -- from the other end, as a list of children grows
  induction ts using List.reverseRecOn with
  | nil => rfl
  | append_singleton ts t ih =>
    rw [joinRuns_concat, List.getLast?_concat, Option.any_some]
    cases ht : t.isPcdata && ts.getLast?.any isPcdata with
    | true =>
      obtain ⟨htext, hlast⟩ := Bool.and_eq_true_iff.1 ht
      rw [hlast, Option.any_eq_true] at ih
      obtain ⟨u, hu, hutext⟩ := ih
      obtain ⟨us, hus⟩ := List.getLast?_eq_some_iff.1 hu
      rw [if_pos rfl, hus, List.modifyLast_concat, List.getLast?_concat, htext]
      exact hutext
    | false => rw [if_neg Bool.false_ne_true, List.getLast?_concat, Option.any_some]

theorem joinRuns_eq_nil_iff {ts : List Tree} : joinRuns ts = [] ↔ ts = [] := by
  rw [joinRuns, List.map_eq_nil_iff, List.splitBy_eq_nil]

/-- Nothing but character data is lost when runs are joined. -/
theorem contains_kind_joinRuns {kind : NodeKind} (hkind : kind ≠ .pcdata) (ts : List Tree) :
    ((joinRuns ts).map fun t => t.label.kind).contains kind =
      (ts.map fun t => t.label.kind).contains kind := by
  induction ts using List.reverseRecOn with
  | nil => rfl
  | append_singleton ts t ih =>
    rw [joinRuns_concat, List.map_append, List.contains_append, ← ih]
    cases ht : t.isPcdata && ts.getLast?.any isPcdata with
    | true =>
      obtain ⟨htext, hlast⟩ := Bool.and_eq_true_iff.1 ht
      rw [← getLast?_joinRuns, Option.any_eq_true] at hlast
      obtain ⟨u, hu, -⟩ := hlast
      obtain ⟨us, hus⟩ := List.getLast?_eq_some_iff.1 hu
      have hother : [t.label.kind].contains kind = false := by
        rw [beq_iff_eq.1 (show (t.label.kind == .pcdata) = true from htext)]
        simpa using hkind
      rw [if_pos rfl, hus, List.modifyLast_concat, List.map_singleton, hother, Bool.or_false,
        List.map_append, List.map_append]
      rfl
    | false => rw [if_neg Bool.false_ne_true, List.map_append, List.contains_append]

/-! ## Fusing and building -/

@[simp] theorem endsInPcdata_fused (t : Tree) : t.fused.endsInPcdata = t.endsInPcdata := by
  have hchildren : t.fused.children = joinRuns (t.children.map fused) :=
    congrArg children (fused_eq t)
  rw [endsInPcdata, hchildren, getLast?_joinRuns, List.getLast?_map, Option.any_map, endsInPcdata]
  exact congrArg (Option.any · t.children.getLast?) (funext isPcdata_fused)

@[simp] theorem isEmpty_children_fused (t : Tree) :
    t.fused.children.isEmpty = t.children.isEmpty := by
  have hchildren : t.fused.children = joinRuns (t.children.map fused) :=
    congrArg children (fused_eq t)
  rw [Bool.eq_iff_iff, List.isEmpty_iff, List.isEmpty_iff, hchildren, joinRuns_eq_nil_iff,
    List.map_eq_nil_iff]

theorem fused_relabel (f : TreeLabel → TreeLabel) (t : Tree) :
    (t.relabel f).fused = t.fused.relabel f := by
  rw [fused_eq, fused_eq t]
  rfl

/-- A tree that is added stands for itself, or is joined to the character data before it. -/
theorem fused_addChild (t c : Tree) :
    (t.addChild c).fused = if c.isPcdata && t.endsInPcdata then
      t.fused.relabelLast (.joined c.label.valueText) else t.fused.addChild c.fused := by
  have hends : (t.children.map fused).getLast?.any isPcdata = t.endsInPcdata := by
    rw [← endsInPcdata_fused, ← getLast?_joinRuns, endsInPcdata, fused_eq]
    rfl
  rw [fused_eq (t.addChild c), addChild, label, children, List.map_append, List.map_singleton,
    joinRuns_concat, hends, isPcdata_fused, label_fused, fused_eq t]
  split <;> rfl

theorem fused_addChild_of_not_isPcdata (hc : c.isPcdata = false) (t : Tree) :
    (t.addChild c).fused = t.fused.addChild c.fused := by
  rw [fused_addChild, hc, Bool.false_and, if_neg Bool.false_ne_true]

/-- A change to the last node is the same before and after, unless that is character data. -/
theorem fused_relabelLast (hf : ∀ l, (f l).kind = l.kind) (ht : t.endsInPcdata = false) :
    (t.relabelLast f).fused = t.fused.relabelLast f := by
  obtain ⟨l, children⟩ := t
  obtain rfl | ⟨cs, x, rfl⟩ := List.eq_nil_or_concat' children
  · rfl
  · have hx : x.isPcdata = false := by
      rw [endsInPcdata, Tree.children, List.getLast?_concat] at ht
      exact ht
    have hx' : (x.relabel f).isPcdata = false :=
      (congrArg (· == NodeKind.pcdata) (hf x.label)).trans hx
    have happart : ∀ y : Tree, y.isPcdata = false →
        joinRuns ((cs ++ [y]).map fused) = joinRuns (cs.map fused) ++ [y.fused] := by
      intro y hy
      rw [List.map_append, List.map_singleton, joinRuns_concat, isPcdata_fused, hy, Bool.false_and,
        if_neg Bool.false_ne_true]
    rw [relabelLast, label, Tree.children, List.modifyLast_concat, fused_eq, label, Tree.children,
      happart _ hx', fused_eq (.node l _), relabelLast, label, Tree.children, Tree.children,
      label, happart _ hx, List.modifyLast_concat, fused_relabel]

end Tree

/-! ## Saplings -/

/-- Whether texts are joined is of no account for which nodes are wanted. -/
theorem ParseOptions.agreeOnNodes_merge (options : ParseOptions) :
    options.AgreeOnNodes (options.union .mergePcdata) := .union rfl

/-- Whether texts are joined is of no account for how each of them is converted. -/
theorem ParseOptions.agreeOnTexts_merge (options : ParseOptions) :
    options.AgreeOnTexts (options.union .mergePcdata) := .union rfl

namespace Sapling

variable {z : Sapling} {options : ParseOptions} {source : String} {e : LoadEvent}

/-- The sapling with every run of character data made into one node. -/
def fused (z : Sapling) : Sapling := ⟨z.tip.fused, z.outer.map Tree.fused, z.inLast⟩

theorem fused_of_tip {tip tip' : Tree} (h : tip.fused = tip') (outer : List Tree)
    (inLast : Bool) : (Sapling.mk tip outer inLast).fused =
      ⟨tip', outer.map Tree.fused, inLast⟩ := by
  rw [fused, h]

/-- To fuse what is there when all is closed is to fuse each element that is open. -/
theorem Sound.fused_whole (h : z.Sound) : z.whole.fused = z.fused.whole := by
  obtain ⟨tip, outer, inLast⟩ := z
  induction outer generalizing tip inLast with
  | nil => rfl
  | cons t outer ih =>
    obtain ⟨ht, houter⟩ := List.forall_mem_cons.1 h.outer
    have hclosed : Sound ⟨t.addChild tip, outer, false⟩ :=
      ⟨ht, houter, fun hlast => Bool.noConfusion hlast⟩
    refine (ih _ _ hclosed).trans ?_
    rw [fused_of_tip (Tree.fused_addChild_of_not_isPcdata h.tip t)]
    rfl

/-! ## One event -/

theorem atTop_fused (z : Sapling) : z.fused.atTop = z.atTop := by
  rw [atTop, fused, Tree.label_fused, atTop]

theorem keepsSpace_fused (z : Sapling) (options : ParseOptions) (closing : Bool) :
    z.fused.keepsSpace (options.union .mergePcdata) closing = z.keepsSpace options closing := by
  have hspace : (options.union .mergePcdata).intersects (.union .wsPcdata .wsPcdataSingle) =
      options.intersects (.union .wsPcdata .wsPcdataSingle) :=
    ParseOptions.intersects_union_apart rfl
  have hsingle : (options.union .mergePcdata).contains .wsPcdataSingle =
      options.contains .wsPcdataSingle :=
    ParseOptions.contains_union_apart (i := 10) rfl
      (show ParseOptions.textSwitches.contains _ = true from rfl) rfl
  rw [keepsSpace, keepsSpace, fused, hspace, hsingle, options.agreeOnTexts_merge.trim,
    Tree.isEmpty_children_fused]

/-- What would be a node of its own is joined to character data before it, and nothing else
becomes of character data. -/
theorem textFate_fused (hembed : options.contains .embedPcdata = false)
    (hmerge : options.contains .mergePcdata = false) (raw : List Char) (closing : Bool) :
    z.fused.textFate (options.union .mergePcdata) raw closing =
      if z.textFate options raw closing = .planted ∧ z.tip.endsInPcdata = true then .joined
      else z.textFate options raw closing := by
  have hjoins : (options.union .mergePcdata).contains .mergePcdata = true :=
    (ParseOptions.contains_union (i := 14) rfl).trans (Bool.or_true _)
  have hembed' : (options.union .mergePcdata).contains .embedPcdata = false :=
    (ParseOptions.contains_union (i := 13) rfl).trans ((Bool.or_false _).trans hembed)
  simp only [textFate, keepsSpace_fused, atTop_fused, options.agreeOnTexts_merge.fragment,
    hembed, hembed', hmerge, hjoins, Bool.false_and, Bool.true_and, Bool.false_eq_true, if_false]
  rw [show z.fused.tip.endsInPcdata = z.tip.endsInPcdata from Tree.endsInPcdata_fused z.tip]
  split
  · rfl
  · split
    · rfl
    · cases z.tip.endsInPcdata <;> rfl

/-- Character data is added with joining to what is fused. -/
theorem addText_fused (hembed : options.contains .embedPcdata = false)
    (hmerge : options.contains .mergePcdata = false) {raw : Span} {closing : Bool}
    (hreads : (LoadEvent.text raw closing).ReadsBack options source) :
    z.fused.addText (options.union .mergePcdata) source raw closing =
      (z.addText options source raw closing).fused := by
  simp only [addText, textFate_fused hembed hmerge, options.agreeOnTexts_merge.convertPcdata_eq]
  cases hfate : z.textFate options raw.text closing with
  | joined => exact absurd hfate (textFate_ne_joined hmerge z _ _)
  | planted =>
    let piece : TreeLabel := ⟨.pcdata, none, (convertPcdata options raw.text).readIn source raw, []⟩
    have hchild := Tree.fused_addChild z.tip (.leaf piece)
    have htext : (Tree.leaf piece).isPcdata = true := rfl
    have hvalue : (Tree.leaf piece).label.valueText =
      String.ofList (convertPcdata options raw.text).text := hreads
    rw [htext, hvalue, Bool.true_and] at hchild
    cases hends : z.tip.endsInPcdata with
    | true =>
      rw [hends, if_pos rfl] at hchild
      rw [if_pos ⟨rfl, rfl⟩]
      exact (fused_of_tip hchild z.outer false).symm
    | false =>
      rw [hends, if_neg Bool.false_ne_true] at hchild
      rw [if_neg fun h => Bool.false_ne_true h.2]
      exact (fused_of_tip hchild z.outer false).symm
  | dropped => rfl
  | embedded => exact (fused_of_tip (Tree.fused_relabel _ z.tip) z.outer false).symm

/-- A node that is not character data is added to what is fused. -/
theorem push_fused (z : Sapling) {l : TreeLabel} (hl : l.kind ≠ .pcdata) (e : LoadEvent) :
    z.fused.push l e = (z.push l e).fused := by
  have hplant : z.fused.plant l = (z.plant l).fused := by
    have htext : (Tree.leaf l).isPcdata = false := beq_eq_false_iff_ne.2 hl
    exact (fused_of_tip (Tree.fused_addChild_of_not_isPcdata htext z.tip) z.outer false).symm
  cases e with
  | openElement name => rfl
  | declaration name => exact congrArg (fun z : Sapling => { z with inLast := true }) hplant
  | _ => exact hplant

/-- Markup that stands for a node adds it to what is fused. -/
theorem add_markup_fused (hmarkup : ∀ raw closing, e ≠ .text raw closing) {l : TreeLabel}
    (hl : e.nodeLabel? options source false = some l) (hkind : l.kind ≠ .pcdata) :
    z.fused.add (options.union .mergePcdata) source e = (z.add options source e).fused := by
  have hl' := (options.agreeOnTexts_merge.nodeLabel?_eq source false e).trans hl
  rw [add_markup hmarkup hl, add_markup hmarkup hl']
  exact push_fused z hkind e

/-- An event is carried out with joining on what is fused. -/
theorem add_fused (h : z.Sound) (hembed : options.contains .embedPcdata = false)
    (hmerge : options.contains .mergePcdata = false) (hreads : e.ReadsBack options source) :
    z.fused.add (options.union .mergePcdata) source e = (z.add options source e).fused := by
  cases e with
  | text raw closing => exact addText_fused hembed hmerge hreads
  | openElement name => rfl
  | closeElement =>
    obtain ⟨tip, outer, inLast⟩ := z
    cases outer with
    | nil => rfl
    | cons t outer =>
      exact (fused_of_tip (Tree.fused_addChild_of_not_isPcdata h.tip t) outer false).symm
  | «attribute» name raw =>
    obtain ⟨tip, outer, inLast⟩ := z
    let a := name.attributeIn options source raw
    have hattribute : name.attributeIn (options.union .mergePcdata) source raw = a :=
      options.agreeOnTexts_merge.attributeIn_eq source name raw
    rw [Sapling.add, hattribute]
    cases inLast with
    | true =>
      have htip := Tree.fused_relabelLast (f := .adorned a) (fun _ => rfl) (h.last rfl)
      exact (fused_of_tip htip outer true).symm
    | false => exact (fused_of_tip (Tree.fused_relabel (.adorned a) tip) outer false).symm
  | _ => exact add_markup_fused (fun _ _ => LoadEvent.noConfusion) rfl NodeKind.noConfusion

/-- Events are carried out one after the other with joining on what is fused. -/
theorem foldl_add_fused (h : z.Sound) (hembed : options.contains .embedPcdata = false)
    (hmerge : options.contains .mergePcdata = false) {es : List LoadEvent}
    (hreads : ∀ e ∈ es, e.ReadsBack options source) :
    es.foldl (Sapling.add (options.union .mergePcdata) source) z.fused =
        (es.foldl (Sapling.add options source) z).fused ∧
      (es.foldl (Sapling.add options source) z).Sound := by
  induction es generalizing z with
  | nil => exact ⟨rfl, h⟩
  | cons e es ih =>
    obtain ⟨he, hrest⟩ := List.forall_mem_cons.1 hreads
    rw [List.foldl_cons, List.foldl_cons, add_fused h hembed hmerge he]
    exact ih (h.add e) hrest

end Sapling

/-! ## Whole texts -/

variable {options : ParseOptions} {text : String}

/-- A text that is not too long is read alike if the same nodes are wanted, and then all of it
is carried out. -/
theorem Transcript.ofLoad_congr {options' : ParseOptions} (hsize : text.utf8ByteSize < 2 ^ 32)
    (hnodes : options.AgreeOnNodes options') : ofLoad options' text = ofLoad options text := by
  rw [ofLoad_eq_ofText hsize, ofLoad_eq_ofText hsize, ofText_congr hnodes]

/-- The tree of a text with joining is the one without, fused. -/
theorem Tree.ofLoad_merge (hsize : text.utf8ByteSize < 2 ^ 32)
    (hembed : options.contains .embedPcdata = false)
    (hmerge : options.contains .mergePcdata = false) :
    Tree.ofLoad (options.union .mergePcdata) text = (Tree.ofLoad options text).fused := by
  have hreads := Transcript.ofText_readsBack ((byteSize_toList text).trans_lt hsize)
    ⟨options, true⟩ options
  rw [String.ofList_toList] at hreads
  have hseed : Sapling.Sound (.seed Document.bareRoot) := .seed NodeKind.noConfusion
  obtain ⟨hfold, hsound⟩ := Sapling.foldl_add_fused hseed hembed hmerge hreads
  rw [Tree.ofLoad, Transcript.ofLoad_congr hsize options.agreeOnNodes_merge, Tree.ofLoad,
    Transcript.ofLoad_eq_ofText hsize, hsound.fused_whole, ← hfold]
  rfl

/-- Loads that stop alike end alike if they agree on whether there is an element at the top. -/
theorem LoadFault.ofLoad_congr {options' : ParseOptions}
    (hstops : (Transcript.ofLoad options' text).fault = (Transcript.ofLoad options text).fault)
    (hfragment : options'.contains .fragment = options.contains .fragment)
    (helement : ((Tree.ofLoad options' text).children.map fun t => t.label.kind).contains .element =
      ((Tree.ofLoad options text).children.map fun t => t.label.kind).contains .element) :
    LoadFault.ofLoad options' text = LoadFault.ofLoad options text := by
  rw [LoadFault.ofLoad, hstops]
  simp only [ParseOptions.accepts, hfragment, helement]
  rfl

/-- A load with joining ends as the one without. -/
theorem LoadFault.ofLoad_merge (hsize : text.utf8ByteSize < 2 ^ 32)
    (hembed : options.contains .embedPcdata = false)
    (hmerge : options.contains .mergePcdata = false) :
    LoadFault.ofLoad (options.union .mergePcdata) text = LoadFault.ofLoad options text := by
  have hchildren : (Tree.ofLoad (options.union .mergePcdata) text).children =
      Tree.joinRuns ((Tree.ofLoad options text).children.map Tree.fused) := by
    rw [Tree.ofLoad_merge hsize hembed hmerge, Tree.fused_eq]
    rfl
  have hread := Transcript.ofLoad_congr hsize options.agreeOnNodes_merge
  refine ofLoad_congr (congrArg _ hread) options.agreeOnTexts_merge.fragment ?_
  rw [hchildren, Tree.contains_kind_joinRuns (show NodeKind.element ≠ .pcdata by decide),
    List.map_map]
  refine congrArg (List.contains · NodeKind.element) (List.map_congr_left fun t _ => ?_)
  exact congrArg TreeLabel.kind t.label_fused

/-- To ask for character data to be joined only joins neighbours.  A text is loaded as it would
have been, also one with a fault, and the tree is the one that it would have been, with every run
of character data made into one node. -/
theorem Document.loadString_merge (into into' : Document) (text : String)
    {options : ParseOptions} (hsize : text.utf8ByteSize < 2 ^ 32)
    (hembed : options.contains .embedPcdata = false)
    (hmerge : options.contains .mergePcdata = false) :
    let plain := into.loadString text options
    let merged := into'.loadString text (options.union .mergePcdata)
    merged.1 = plain.1 ∧
      merged.2.tree merged.2.root = (plain.2.tree plain.2.root).fused := by
  intro plain merged
  obtain ⟨houtcome, htree⟩ := into.loadString_eq_ofLoad text options
  obtain ⟨houtcome', htree'⟩ := into'.loadString_eq_ofLoad text (options.union .mergePcdata)
  rw [LoadFault.ofLoad_merge hsize hembed hmerge] at houtcome'
  rw [Tree.ofLoad_merge hsize hembed hmerge] at htree'
  exact ⟨houtcome'.trans houtcome.symm, htree'.trans (congrArg Tree.fused htree.symm)⟩

/-- Pieces on both sides of what is passed over are joined, those on both sides of a section are
not, and an end tag that does not match comes too late to change that. -/
theorem Document.loadString_merge_pieces :
    let text := "<a>x<!--c-->y&lt;<?q?>z<![CDATA[w]]>u<b>p<!--d-->\n</b>v</c>"
    let options := ParseOptions.default
    let plain := new.loadString text options
    let merged := new.loadString text (options.union .mergePcdata)
    plain.2.preorder.length = 10 ∧ (plain.1.status, plain.1.offset) = (.endElementMismatch, 57) ∧
      merged.1 = plain.1 ∧
      (merged.2.subtree merged.2.root).map merged.2.value =
        ["", "", "xy<z", "w", "u", "", "p", "v"] ∧
      merged.2.tree merged.2.root = (plain.2.tree plain.2.root).fused := by
  obtain ⟨houtcome, htree⟩ := loadString_merge new new
    "<a>x<!--c-->y&lt;<?q?>z<![CDATA[w]]>u<b>p<!--d-->\n</b>v</c>" (by decide +kernel)
    (show ParseOptions.default.contains .embedPcdata = false by decide) (by decide)
  exact ⟨by decide +kernel, by decide +kernel, houtcome, by decide +kernel, htree⟩

end XmlTree
