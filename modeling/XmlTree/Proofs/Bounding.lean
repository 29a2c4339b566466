/-
  Proofs/Bounding.lean --- a text that is not too long is loaded without a refusal.

  WHAT THIS FILE IS FOR.  A text is refused if it is too long to be copied.  What is copied out
  of a loaded text is no longer than the piece that it was made of, but for character data that
  is joined: there one node takes up one piece after the other.  These pieces stand side by side
  in the text, so all of them together are no longer than it.

  HOW IT IS SHOWN.  What the last node has taken up is counted together with all the character
  data that is still to come.  Whatever an event says, the sum gets no larger.
-/
import XmlTree.Proofs.Asking
import XmlTree.Proofs.Composing
import XmlTree.Proofs.Tending

set_option autoImplicit false

namespace XmlTree

/-! ## The character data of a text -/

/-- How long the character data is that an event says. -/
def LoadEvent.spoken : LoadEvent → Nat
  | .text raw _ => byteSize raw.text
  | _ => 0

/-- How long all the character data is that events say. -/
def spokenBy (es : List LoadEvent) : Nat := (es.map LoadEvent.spoken).sum

theorem spokenBy_append (es es' : List LoadEvent) :
    spokenBy (es ++ es') = spokenBy es + spokenBy es' := by
  rw [spokenBy, List.map_append, List.sum_append, spokenBy, spokenBy]

theorem spokenBy_textEvents (raw : Span) (closing : Bool) :
    spokenBy (Reader.textEvents raw closing) = byteSize raw.text := by
  unfold Reader.textEvents
  split
  · rename_i hempty
    rw [List.isEmpty_iff.1 hempty]
    rfl
  · exact Nat.add_zero _

/-- Markup says no character data. -/
theorem AllMarkup.spokenBy_eq {options : ParseOptions} {es : List LoadEvent}
    (h : AllMarkup options es) : spokenBy es = 0 := by
  induction es with
  | nil => rfl
  | cons e es ih =>
    obtain ⟨he, hrest⟩ := List.forall_mem_cons.1 h
    rw [spokenBy, List.map_cons, List.sum_cons, ← spokenBy, ih hrest]
    cases e with
    | text raw closing => exact he.elim
    | _ => rfl

namespace Cursor

variable {text : List Char} {c next : Cursor}

/-- Of two places in a text the later one has less before it. -/
theorem On.byteSize_rest_le (hc : On text c) (hnext : On text next)
    (hlength : next.rest.length ≤ c.rest.length) : byteSize next.rest ≤ byteSize c.rest := by
  obtain ⟨pre, htext, -⟩ := hc
  obtain ⟨pre', htext', -⟩ := hnext
  obtain ⟨between, hbetween⟩ : next.rest <:+ c.rest :=
    List.suffix_of_suffix_length_le ⟨pre', htext'.symm⟩ ⟨pre, htext.symm⟩ hlength
  rw [← hbetween, byteSize_append]
  exact Nat.le_add_left _ _

/-- What is taken off the front and what is left are the whole. -/
theorem byteSize_takeWhile (c : Cursor) (p : Char → Bool) :
    byteSize (c.takeWhile p).1.text + byteSize (c.takeWhile p).2.rest = byteSize c.rest := by
  rw [← byteSize_append]
  exact congrArg byteSize (List.prefix_iff_eq_append.1 (List.takeWhile_prefix p))

end Cursor

namespace Reader

open Cursor

variable {text : List Char} {mode : ReaderMode} {names : List (List Char)} {c : Cursor}

/-- All the character data that is read from a place on is no longer than what stands there. -/
theorem spokenBy_readAll_le (hon : On text c) :
    spokenBy (readAll mode names c).events ≤ byteSize c.rest := by
  fun_induction readAll mode names c with
  | case1 names c raw tag events hend =>
    have hsplit : byteSize raw.text + byteSize tag.rest = _ := c.byteSize_takeWhile (· != '<')
    have hevents : spokenBy events = _ := spokenBy_textEvents raw _
    show spokenBy events ≤ _
    omega
  | case2 names c raw tag events d tail htag es names' next hread ih =>
    obtain ⟨-, hplace⟩ := hon.takeWhile (· != '<')
    have hsplit : byteSize raw.text + byteSize tag.rest = _ := c.byteSize_takeWhile (· != '<')
    have hevents : spokenBy events = _ := spokenBy_textEvents raw _
    have hmarkup := readMarkup_markup mode names (tag.skip 1)
    have hstep : (readMarkup mode names (tag.skip 1)).Resumes text [] 0 _ :=
      readMarkup_resumes beginsTag_nil (hplace.skip 1) (one_le_offset_skip htag)
    rw [hread] at hmarkup hstep
    obtain ⟨-, hnext, -⟩ := hstep
    have hshorter : byteSize next.rest ≤ byteSize tag.rest :=
      hplace.byteSize_rest_le hnext ((length_of_readMarkup hread).trans (tag.length_skip_le 1))
    have hsilent : spokenBy es = 0 := AllMarkup.spokenBy_eq hmarkup
    have hrest := ih hnext
    rw [Transcript.after, spokenBy_append, spokenBy_append, hsilent]
    omega
  | case3 names c raw tag events d tail htag es status offset hread =>
    have hsplit : byteSize raw.text + byteSize tag.rest = _ := c.byteSize_takeWhile (· != '<')
    have hevents : spokenBy events = _ := spokenBy_textEvents raw _
    have hmarkup := readMarkup_markup mode names (tag.skip 1)
    rw [hread] at hmarkup
    have hsilent : spokenBy es = 0 := AllMarkup.spokenBy_eq hmarkup
    show spokenBy (events ++ es) ≤ _
    rw [spokenBy_append, hsilent]
    omega

end Reader

theorem Transcript.spokenBy_ofText_le (mode : ReaderMode) (text : List Char) :
    spokenBy (ofText mode text).events ≤ byteSize text := by
  have hon : Cursor.On text (.ofText text) := ⟨[], rfl, rfl⟩
  exact Reader.spokenBy_readAll_le hon

/-! ## What is read of a piece -/

/-- What is read of a converted piece of character data is its converted text. -/
def LoadEvent.ReadsBack (options : ParseOptions) (source : String) : LoadEvent → Prop
  | .text raw _ => ((convertPcdata options raw.text).readIn source raw).getD "" =
      String.ofList (convertPcdata options raw.text).text
  | _ => True

/-- A piece of a text that is not too long is read as it stands there. -/
theorem Span.Within.readIn_eq {text : List Char} {s : Span} (h : s.Within text)
    (hsize : byteSize text < 2 ^ 32) : s.readIn (String.ofList text) = String.ofList s.text := by
  obtain ⟨pre, post, rfl, hstart⟩ := h
  let store : TextStore := ⟨#[String.ofList (pre ++ s.text ++ post)], #[], 0⟩
  have hholds : store.Holds (.borrowed 0 (byteSize pre) (byteSize pre + byteSize s.text))
      (String.ofList s.text) := TextStore.holds_borrowed rfl hsize
  rw [← hstart] at hholds
  exact hholds.get_eq

theorem Span.Within.readsBack {text : List Char} {raw : Span} (h : raw.Within text)
    (hsize : byteSize text < 2 ^ 32) {conversion : Conversion}
    (hpiece : conversion.PieceOf raw.text) :
    (conversion.readIn (String.ofList text) raw).getD "" = String.ofList conversion.text := by
  cases conversion with
  | verbatim skipped piece => exact (h.piece hpiece).readIn_eq hsize
  | fresh piece => exact copiedText_getD _

/-- The pieces of character data of a text that is not too long are read as they are converted. -/
theorem Transcript.ofText_readsBack {text : List Char} (hsize : byteSize text < 2 ^ 32)
    (mode : ReaderMode) (options : ParseOptions) :
    ∀ e ∈ (ofText mode text).events, e.ReadsBack options (String.ofList text) := by
  intro e he
  have hwithin := ofText_within mode text e he
  cases e with
  | text raw closing => exact Span.Within.readsBack hwithin hsize (convertPcdata_pieceOf options _)
  | _ => trivial

/-! ## Saplings without character data that is open -/

theorem Tree.endsInPcdata_relabelLast {f : TreeLabel → TreeLabel} (hf : ∀ l, (f l).kind = l.kind)
    (t : Tree) : (t.relabelLast f).endsInPcdata = t.endsInPcdata := by
  obtain ⟨l, children⟩ := t
  obtain rfl | ⟨cs, x, rfl⟩ := List.eq_nil_or_concat' children
  · rfl
  · rw [relabelLast, label, endsInPcdata, endsInPcdata, Tree.children, Tree.children,
      List.modifyLast_concat, List.getLast?_concat, List.getLast?_concat]
    exact congrArg (· == NodeKind.pcdata) (hf x.label)

namespace Sapling

variable {z : Sapling} {options : ParseOptions} {source : String} {e : LoadEvent}

/-- No character data is open, and none has attributes coming. -/
structure Sound (z : Sapling) : Prop where
  tip : z.tip.isPcdata = false
  outer : ∀ t ∈ z.outer, t.isPcdata = false
  last : z.inLast = true → z.tip.endsInPcdata = false

theorem Sound.seed {l : TreeLabel} (h : l.kind ≠ .pcdata) : (seed l).Sound where
  tip := beq_eq_false_iff_ne.2 h
  outer := List.forall_mem_nil _
  last _ := rfl

/-- Whatever an event says, this stays so. -/
theorem Sound.add (h : z.Sound) (e : LoadEvent) : (z.add options source e).Sound := by
  have hplant : ∀ l inLast, (inLast = true → l.kind ≠ .pcdata) →
      Sound { z.plant l with inLast } := fun l inLast hl =>
    { tip := h.tip
      outer := h.outer
      last := fun hlast => by
        rw [Tree.endsInPcdata, plant, Tree.addChild, Tree.children, List.getLast?_concat]
        exact beq_eq_false_iff_ne.2 (hl hlast) }
  cases e with
  | text raw closing =>
    refine ⟨?_, h.outer, fun hlast => Bool.noConfusion hlast⟩
    simp only [Sapling.add, addText]
    cases z.textFate options raw.text closing <;> exact h.tip
  | openElement name => exact ⟨rfl, List.forall_mem_cons.2 ⟨h.tip, h.outer⟩, fun _ => rfl⟩
  | closeElement =>
    obtain ⟨tip, outer, inLast⟩ := z
    cases outer with
    | nil => exact ⟨h.tip, h.outer, fun hlast => Bool.noConfusion hlast⟩
    | cons t outer =>
      obtain ⟨ht, houter⟩ := List.forall_mem_cons.1 h.outer
      exact ⟨ht, houter, fun hlast => Bool.noConfusion hlast⟩
  | «attribute» name raw =>
    obtain ⟨tip, outer, inLast⟩ := z
    cases inLast with
    | true =>
      refine ⟨h.tip, h.outer, fun _ => ?_⟩
      exact (Tree.endsInPcdata_relabelLast (f := .adorned _) (fun _ => rfl) tip).trans (h.last rfl)
    | false => exact ⟨h.tip, h.outer, fun hlast => Bool.noConfusion hlast⟩
  | declaration name => exact hplant _ true fun _ => NodeKind.noConfusion
  | _ => exact hplant _ false fun hlast => Bool.noConfusion hlast

end Sapling

/-! ## What the last node has taken up -/

namespace Tree

variable {t c : Tree} {f : TreeLabel → TreeLabel}

/-- How long the character data is that more may be joined to. -/
def takenUp (t : Tree) : Nat :=
  t.children.getLast?.elim 0 fun c => if c.isPcdata then c.label.valueText.utf8ByteSize else 0

theorem takenUp_addChild (t c : Tree) :
    (t.addChild c).takenUp = if c.isPcdata then c.label.valueText.utf8ByteSize else 0 := by
  rw [takenUp, addChild, children, List.getLast?_concat]
  rfl

/-- A change to the last node that makes its value longer by so much, if at all. -/
theorem takenUp_relabelLast_le {more : Nat} (hkind : ∀ l, (f l).kind = l.kind)
    (hvalue : ∀ l, (f l).valueText.utf8ByteSize ≤ l.valueText.utf8ByteSize + more) (t : Tree) :
    (t.relabelLast f).takenUp ≤ t.takenUp + more := by
  obtain ⟨l, children⟩ := t
  obtain rfl | ⟨cs, x, rfl⟩ := List.eq_nil_or_concat' children
  · exact Nat.zero_le _
  · have hsame : (x.relabel f).isPcdata = x.isPcdata :=
      congrArg (· == NodeKind.pcdata) (hkind x.label)
    show (((Tree.node l cs).addChild x).relabelLast f).takenUp ≤
      ((Tree.node l cs).addChild x).takenUp + more
    rw [relabelLast_addChild, takenUp_addChild, takenUp_addChild, hsame]
    split
    · exact hvalue x.label
    · exact Nat.zero_le _

end Tree

namespace Sapling

variable {z : Sapling} {options : ParseOptions} {source : String} {e : LoadEvent}

/-- Character data is taken up by the last node, or is a new one. -/
theorem takenUp_addText_le {raw : Span} {closing : Bool}
    (hreads : (LoadEvent.text raw closing).ReadsBack options source) :
    (z.addText options source raw closing).tip.takenUp ≤ z.tip.takenUp + byteSize raw.text := by
  have hshrinks : (String.ofList (convertPcdata options raw.text).text).utf8ByteSize ≤
      byteSize raw.text := by
    rw [← byteSize_eq]
    exact byteSize_convertPcdata_le options raw.text
  simp only [addText]
  cases z.textFate options raw.text closing with
  | dropped => exact Nat.le_add_right _ _
  | embedded => exact Nat.le_add_right _ _
  | joined =>
    refine Tree.takenUp_relabelLast_le (f := .joined _) (fun _ => rfl) (fun l => ?_) z.tip
    have hvalue : (l.joined (String.ofList (convertPcdata options raw.text).text)).valueText =
      l.valueText ++ String.ofList (convertPcdata options raw.text).text := copiedText_getD _
    rw [hvalue, String.utf8ByteSize_append]
    exact Nat.add_le_add_left hshrinks _
  | planted =>
    rw [Tree.takenUp_addChild]
    have hvalue : (Option.getD ((convertPcdata options raw.text).readIn source raw) "") =
      String.ofList (convertPcdata options raw.text).text := hreads
    show (Option.getD ((convertPcdata options raw.text).readIn source raw) "").utf8ByteSize ≤ _
    rw [hvalue]
    exact hshrinks.trans (Nat.le_add_left _ _)

/-- Whatever an event says, the last node has taken up no more than it had and than is said. -/
theorem takenUp_add_le (h : z.Sound) (hreads : e.ReadsBack options source) :
    (z.add options source e).tip.takenUp ≤ z.tip.takenUp + e.spoken := by
  have hplant : ∀ l, l.kind ≠ .pcdata → (z.tip.addChild (.leaf l)).takenUp ≤ z.tip.takenUp := by
    intro l hl
    have htext : (Tree.leaf l).isPcdata = false := beq_eq_false_iff_ne.2 hl
    rw [Tree.takenUp_addChild, htext]
    exact Nat.zero_le _
  cases e with
  | text raw closing => exact takenUp_addText_le hreads
  | openElement name => exact Nat.zero_le _
  | closeElement =>
    obtain ⟨tip, outer, inLast⟩ := z
    cases outer with
    | nil => exact Nat.le_add_right _ _
    | cons t outer =>
      show (t.addChild tip).takenUp ≤ _
      rw [Tree.takenUp_addChild, h.tip]
      exact Nat.zero_le _
  | «attribute» name raw =>
    obtain ⟨tip, outer, inLast⟩ := z
    cases inLast with
    | true =>
      show _ ≤ tip.takenUp + 0
      exact Tree.takenUp_relabelLast_le (f := .adorned _) (fun _ => rfl) (fun _ => Nat.le_refl _)
        tip
    | false => exact Nat.le_add_right _ _
  | _ => exact hplant _ NodeKind.noConfusion

/-- An event is not refused if its texts are not too long, and what is joined is not. -/
theorem refusal?_eq_none (hshort : e.Short) (hsize : z.tip.takenUp + e.spoken < 2 ^ 32) :
    z.refusal? options e = none := by
  cases e with
  | text raw closing =>
    have hown := hshort.refusal? options
    rw [refusal?]
    cases hfate : z.textFate options raw.text closing with
    | dropped => rfl
    | embedded => exact hown
    | planted => exact hown
    | joined =>
      have hends := (of_textFate_joined hfate).2
      rw [Tree.endsInPcdata, Option.any_eq_true] at hends
      obtain ⟨c, hlast, htext⟩ := hends
      have htaken : z.tip.takenUp = c.label.valueText.utf8ByteSize := by
        rw [Tree.takenUp, hlast, Option.elim_some, htext, if_pos rfl]
      have hshrinks := byteSize_convertPcdata_le options raw.text
      have hspoken : (LoadEvent.text raw closing).spoken = byteSize raw.text := rfl
      refine if_pos ?_
      rw [hlast, Option.elim_some, String.utf8ByteSize_append, ← byteSize_eq]
      omega
  | _ =>
    rw [refusal?_of_markup fun _ _ => LoadEvent.noConfusion]
    exact hshort.refusal? options

/-- Events are carried out if what is said in them is not too long, together with what the last
node has taken up. -/
theorem heeded_of_spokenBy (h : z.Sound) {es : List LoadEvent} (hshort : ∀ e ∈ es, e.Short)
    (hreads : ∀ e ∈ es, e.ReadsBack options source)
    (hsize : z.tip.takenUp + spokenBy es < 2 ^ 32) :
    LoadEvent.heeded (Sapling.add options source) (Sapling.refusal? options) z es =
      (none, es) := by
  induction es generalizing z with
  | nil => rfl
  | cons e es ih =>
    obtain ⟨hshort, hshorts⟩ := List.forall_mem_cons.1 hshort
    obtain ⟨he, hrest⟩ := List.forall_mem_cons.1 hreads
    have hspoken : spokenBy (e :: es) = e.spoken + spokenBy es := List.sum_cons
    have htaken := takenUp_add_le h he
    have hsound : (z.add options source e).Sound := h.add e
    have hnone : z.refusal? options e = none := refusal?_eq_none hshort (by omega)
    have hdone := ih hsound hshorts hrest (by omega)
    rw [LoadEvent.heeded, hnone, hdone]

end Sapling

/-- Nothing is refused of a text that is shorter than four gigabytes. -/
theorem Transcript.ofLoad_eq_ofText {text : String} (hsize : text.utf8ByteSize < 2 ^ 32)
    (options : ParseOptions) : ofLoad options text = ofText ⟨options, true⟩ text.toList := by
  have hbytes : byteSize text.toList < 2 ^ 32 := (byteSize_toList text).trans_lt hsize
  have hreads := ofText_readsBack hbytes ⟨options, true⟩ options
  rw [String.ofList_toList] at hreads
  have hseed : Sapling.Sound (.seed Document.bareRoot) := .seed NodeKind.noConfusion
  have hspoken := spokenBy_ofText_le ⟨options, true⟩ text.toList
  have hnone : (Sapling.seed Document.bareRoot).tip.takenUp = 0 := rfl
  have hheeded := Sapling.heeded_of_spokenBy hseed (ofText_short hbytes ⟨options, true⟩) hreads
    (by omega)
  exact heeded_eq_self (congrArg Prod.fst hheeded)

end XmlTree
