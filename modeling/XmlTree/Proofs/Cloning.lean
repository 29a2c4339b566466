/-
  Proofs/Cloning.lean --- a copy is written like its pattern, apart from single spaces.

  WHAT THIS FILE IS FOR.  A copy reads as its pattern with nothing in place of empty texts.
  Whether a text is empty or not there makes no difference to what is written in most places.
  In an instruction and in a document type it does: the space that goes before their text is
  written before an empty one too.  So a copy is written like its pattern without these spaces.

  THE SAME OUTPUT means more than the same characters.  Pieces are gathered into chunks, and a
  sink may fail at any of them.  An empty piece never ends a chunk, so a sink is given the same
  chunks with and without it.
-/
import XmlTree.Proofs.Duplicating
import XmlTree.Proofs.Output
import XmlTree.Proofs.TreeShape
import XmlTree.Proofs.Wording

set_option autoImplicit false

namespace XmlTree

/-! ## Pieces that are left out -/

/-- The first pieces are the second ones without some that are empty and without `n` that are a
space. -/
inductive Thinner : Nat → List String → List String → Prop where
  | nil : Thinner 0 [] []
  | same {n : Nat} {ps qs : List String} (s : String) (rest : Thinner n ps qs) :
      Thinner n (s :: ps) (s :: qs)
  | empty {n : Nat} {ps qs : List String} (rest : Thinner n ps qs) : Thinner n ps ("" :: qs)
  | space {n : Nat} {ps qs : List String} (rest : Thinner n ps qs) : Thinner (n + 1) ps (" " :: qs)

namespace Thinner

variable {m n : Nat} {ps qs ps' qs' : List String}

theorem append_left (xs : List String) (h : Thinner n ps qs) : Thinner n (xs ++ ps) (xs ++ qs) := by
  induction xs with
  | nil => exact h
  | cons x xs ih => exact .same x ih

theorem refl (ps : List String) : Thinner 0 ps ps := by
  simpa using Thinner.nil.append_left ps

theorem append (h : Thinner m ps qs) (h' : Thinner n ps' qs') :
    Thinner (m + n) (ps ++ ps') (qs ++ qs') := by
  induction h with
  | nil => rwa [Nat.zero_add]
  | same s _ ih => exact .same s ih
  | empty _ ih => exact .empty ih
  | space _ ih =>
    rw [Nat.add_right_comm]
    exact .space ih

/-- What the second pieces spell are the parts of what the first ones spell, with a space between
one part and the next. -/
theorem exists_parts (h : Thinner n ps qs) :
    ∃ part parts, parts.length = n ∧ spelled ps = (part :: parts).flatten ∧
      spelled qs = [' '].intercalate (part :: parts) := by
  induction h with
  | nil => exact ⟨[], [], rfl, rfl, rfl⟩
  | same s _ ih =>
    obtain ⟨part, parts, hlength, hps, hqs⟩ := ih
    refine ⟨s.toList ++ part, parts, hlength, ?_, ?_⟩
    · rw [spelled_cons, hps, List.flatten_cons, List.flatten_cons, List.append_assoc]
    · rw [spelled_cons, hqs]
      cases parts with
      | nil => simp only [List.intercalate_singleton]
      | cons next parts => exact (List.append_assoc ..).symm
  | empty _ ih => exact ih
  | space _ ih =>
    obtain ⟨part, parts, hlength, hps, hqs⟩ := ih
    refine ⟨[], part :: parts, congrArg Nat.succ hlength, hps, ?_⟩
    rw [spelled_cons, hqs]
    rfl

end Thinner

/-! ## Chunks -/

namespace OutputBuffer

variable {σ : Type} {out : Sink σ} {b : OutputBuffer σ}

/-- There is less pending than is handed on at once. -/
def Roomy (b : OutputBuffer σ) : Prop := b.pending.utf8ByteSize < b.capacity

theorem roomy_new (sink : σ) (e : Encoding) (capacity : Nat) : (new sink e capacity).Roomy := by
  show 0 < max capacity 1
  omega

theorem emit_pending (out : Sink σ) (b : OutputBuffer σ) (chunk : Bytes) :
    (b.emit out chunk).pending = b.pending ∧ (b.emit out chunk).capacity = b.capacity := by
  unfold emit
  split
  · exact ⟨rfl, rfl⟩
  · split
    · exact ⟨rfl, rfl⟩
    · exact ⟨rfl, rfl⟩

/-- Nothing is pending after all of it is handed on. -/
theorem roomy_drain (out : Sink σ) (hcapacity : 0 < b.capacity) : (b.drain out).Roomy := by
  unfold drain
  split
  · rename_i hempty
    have hnone : b.pending = "" := by simpa using hempty
    rw [Roomy, hnone]
    exact hcapacity
  · obtain ⟨hpending, hsame⟩ :=
      emit_pending out { b with pending := "" } (b.encoding.encode b.pending)
    rw [Roomy, hpending, hsame]
    exact hcapacity

theorem Roomy.write (h : b.Roomy) (out : Sink σ) (p : Piece) : (b.write out p).Roomy := by
  have hcapacity : 0 < b.capacity := Nat.lt_of_le_of_lt (Nat.zero_le _) h
  cases p with
  | text s =>
    rw [OutputBuffer.write]
    dsimp only
    split
    · exact roomy_drain out hcapacity
    · rename_i hfits
      exact Nat.lt_of_not_le hfits
  | raw bytes =>
    obtain ⟨hpending, hsame⟩ := emit_pending out (b.drain out) bytes
    rw [OutputBuffer.write, Roomy, hpending, hsame]
    exact roomy_drain out hcapacity

/-- An empty piece does not end a chunk. -/
theorem Roomy.write_empty (h : b.Roomy) (out : Sink σ) : b.write out (.text "") = b := by
  have hpending : ¬ b.capacity ≤ (b.pending ++ "").utf8ByteSize := by
    rw [String.append_empty]
    exact Nat.not_le_of_lt h
  rw [OutputBuffer.write]
  dsimp only
  rw [if_neg hpending, String.append_empty]

/-- Pieces of which only empty ones are left out are gathered into the same chunks. -/
theorem Roomy.foldl_thinner (h : b.Roomy) (out : Sink σ) {n : Nat} {ps qs : List String}
    (hthin : Thinner n ps qs) (hn : n = 0) :
    (ps.map Piece.text).foldl (OutputBuffer.write out) b =
      (qs.map Piece.text).foldl (OutputBuffer.write out) b := by
  induction hthin generalizing b with
  | nil => rfl
  | same s _ ih => exact ih (h.write out (.text s)) hn
  | empty _ ih =>
    rw [List.map_cons, List.foldl_cons, h.write_empty out]
    exact ih h hn
  | space => cases hn

/-- The same holds after other output. -/
theorem Roomy.writeAll_thinner (h : b.Roomy) (out : Sink σ) (front : List Piece)
    {ps qs : List String} (hthin : Thinner 0 ps qs) :
    b.writeAll out (front ++ ps.map Piece.text) = b.writeAll out (front ++ qs.map Piece.text) := by
  have hfront : (front.foldl (OutputBuffer.write out) b).Roomy := by
    induction front generalizing b with
    | nil => exact h
    | cons p front ih => exact ih (h.write out p)
  rw [OutputBuffer.writeAll, OutputBuffer.writeAll, List.foldl_append, List.foldl_append,
    hfront.foldl_thinner out hthin rfl]

end OutputBuffer

/-! ## Trees -/

/-- An instruction or a document type with a text that is empty: it is written with a space and
nothing after it. -/
def TreeLabel.Dangling (l : TreeLabel) : Prop :=
  (l.kind = .pi ∨ l.kind = .doctype) ∧ l.value = some ""

instance : DecidablePred TreeLabel.Dangling := fun _ => inferInstanceAs (Decidable (_ ∧ _))

theorem TreeLabel.not_dangling {l : TreeLabel} (h : ¬ (l.kind = .pi ∨ l.kind = .doctype)) :
    (if l.Dangling then 1 else 0) = 0 :=
  if_neg fun hdangling => h hdangling.1

mutual

/-- The number of nodes that have an empty text with a space before it. -/
def Tree.dangling : Tree → Nat
  | .node l children => (if l.Dangling then 1 else 0) + Tree.allDangling children

/-- The number of such nodes in trees side by side. -/
def Tree.allDangling : List Tree → Nat
  | [] => 0
  | t :: ts => t.dangling + Tree.allDangling ts

end

mutual

theorem Gap.after_copied (t : Tree) : Gap.after t.copied = Gap.after t := by
  match t with
  | .node l children =>
    rw [Tree.copied, Gap.after, Gap.after, show l.copied.kind = l.kind from rfl]
    cases l.kind with
    | document => exact Gap.lastGap_allCopied children .indented
    | _ => rfl

theorem Gap.lastGap_allCopied (ts : List Tree) (gap : Gap) :
    Gap.after.lastGap gap (Tree.allCopied ts) = Gap.after.lastGap gap ts := by
  match ts with
  | [] => rfl
  | t :: ts =>
    rw [Tree.allCopied, Gap.after.lastGap, Gap.after.lastGap, Gap.after_copied t,
      Gap.lastGap_allCopied ts]

end

variable {style : MarkupStyle}

/-- An attribute without a value is written like one with an empty value. -/
theorem TreeAttribute.thinner_pieces (style : MarkupStyle) (depth : Nat) {a : TreeAttribute}
    (hname : a.name ≠ some "") :
    Thinner 0 (attributePieces style depth a.copied) (attributePieces style depth a) := by
  have hempty : textPieces style .attribute "" = [""] := by
    unfold textPieces
    split <;> rfl
  have hvalue : Thinner 0 (a.copied.value.elim [] (textPieces style .attribute))
      (a.value.elim [] (textPieces style .attribute)) := by
    by_cases hnone : a.value = some ""
    · rw [show a.copied.value = none from if_pos hnone, hnone, Option.elim_some, hempty]
      exact .empty .nil
    · rw [show a.copied.value = a.value from if_neg hnone]
      exact .refl _
  have hname : a.copied.name = a.name := if_neg hname
  unfold attributePieces
  dsimp only
  rw [hname]
  exact .append_left _ (.same _ (.same _ (.same _ (hvalue.append (.refl _)))))

theorem TreeAttribute.thinner_allPieces (style : MarkupStyle) (depth : Nat)
    {as : List TreeAttribute} (hnames : ∀ a ∈ as, a.name ≠ some "") :
    Thinner 0 (attributesPieces style depth (as.map TreeAttribute.copied))
      (attributesPieces style depth as) := by
  induction as with
  | nil => exact .nil
  | cons a as ih =>
    obtain ⟨hname, hnames⟩ := List.forall_mem_cons.1 hnames
    exact (thinner_pieces style depth hname).append (ih hnames)

namespace TreeLabel.Worded

variable {l : TreeLabel} (h : l.Worded)
include h

theorem name_copied : l.copied.name = l.name := if_neg h.name

theorem value_copied (hkind : l.kind = .element) : l.copied.value = l.value :=
  if_neg (h.value hkind)

theorem endTag_copied : endTag l.copied = endTag l := by
  rw [endTag, h.name_copied, endTag]

theorem emptyElementEnd_copied (style : MarkupStyle) :
    emptyElementEnd style l.copied = emptyElementEnd style l := by
  rw [emptyElementEnd, h.name_copied, emptyElementEnd]

/-- What stands in front of the content of an element. -/
theorem thinner_start (style : MarkupStyle) (depth : Nat) (gap : Gap) :
    Thinner 0
      (gap.pieces style depth ++ "<" :: writtenName l.copied.name ::
        attributesPieces style depth l.copied.attributes)
      (gap.pieces style depth ++ "<" :: writtenName l.name ::
        attributesPieces style depth l.attributes) := by
  rw [h.name_copied]
  have hattributes := TreeAttribute.thinner_allPieces style depth h.attributes
  exact .append_left _ (.same _ (.same _ hattributes))

/-- What is left out of a node without children is the space before an empty text. -/
theorem thinner_leaf (style : MarkupStyle) :
    Thinner (if l.Dangling then 1 else 0) (leafPieces style l.copied) (leafPieces style l) := by
  have htext : l.copied.value.getD "" = l.value.getD "" := copiedText_getD l.value
  unfold leafPieces
  rw [show l.copied.kind = l.kind from rfl, h.name_copied, htext]
  by_cases hdangling : l.Dangling
  · obtain ⟨hkind, hempty⟩ := id hdangling
    have hnone : l.copied.value = none := if_pos hempty
    have hpi : piTextPieces "".toList = [""] := by
      rw [piTextPieces]
      rfl
    rw [if_pos hdangling, hnone, hempty]
    obtain hkind | hkind := hkind
    · rw [hkind]
      dsimp only
      rw [Option.getD_some, hpi]
      exact .same _ (.same _ (.space (.empty (.refl _))))
    · rw [hkind]
      exact .same _ (.space (.empty (.refl _)))
  · have hvalue : l.kind = .pi ∨ l.kind = .doctype → l.copied.value = l.value := fun hkind =>
      if_neg fun hempty => hdangling ⟨hkind, hempty⟩
    rw [if_neg hdangling]
    cases hkind : l.kind with
    | pi =>
      rw [hvalue (.inl hkind)]
      exact .refl _
    | doctype =>
      rw [hvalue (.inr hkind)]
      exact .refl _
    | declaration =>
      have hattributes := TreeAttribute.thinner_allPieces style.flat 0 h.attributes
      exact .same _ (.same _ (hattributes.append (.refl _)))
    | _ => exact .refl _

end TreeLabel.Worded

/-- An element is written as its start tag, its text, what is below it and its end tag; what is left
out below it is all that is left out. -/
theorem TreeLabel.Worded.thinner_element {l : TreeLabel} (h : l.Worded) (hkind : l.kind = .element)
    (depth : Nat) (gap : Gap) {children : List Tree} {m n : Nat} {ps qs : List String}
    (hbelow : ∀ gap {ps qs}, Thinner n ps qs →
      Thinner (m + n) (Tree.allPieces style (depth + 1) gap ps (Tree.allCopied children))
        (Tree.allPieces style (depth + 1) gap qs children))
    (hnone : children = [] → m = 0) (hthin : Thinner n ps qs) :
    Thinner (m + n) ((Tree.node l.copied (Tree.allCopied children)).pieces style depth gap ps)
      ((Tree.node l children).pieces style depth gap qs) := by
  have hstart := h.thinner_start style depth gap
  rw [Tree.pieces, Tree.pieces, show l.copied.kind = l.kind from rfl, hkind, h.value_copied hkind,
    ← Nat.zero_add (m + n)]
  cases children with
  | nil =>
    rw [hnone rfl, Tree.allCopied, Nat.zero_add n]
    cases l.value with
    | none =>
      rw [h.emptyElementEnd_copied]
      exact hstart.append (hthin.append_left _)
    | some value =>
      rw [h.endTag_copied]
      exact hstart.append (.same _ ((hthin.append_left _).append_left _))
  | cons t ts =>
    have hlast := Gap.lastGap_allCopied (t :: ts)
    rw [Tree.allCopied] at hlast hbelow ⊢
    dsimp only
    rw [hlast, h.endTag_copied]
    exact hstart.append (.same _ (.append_left _ (hbelow _ ((hthin.append_left _).append_left _))))

mutual

/-- What is left out of a copy are the spaces before empty texts, wherever it is written. -/
theorem Tree.thinner_pieces (t : Tree) (hlawful : t.Lawful) (hworded : t.All TreeLabel.Worded)
    (depth : Nat) (gap : Gap) {n : Nat} {ps qs : List String} (h : Thinner n ps qs) :
    Thinner (t.dangling + n) (t.copied.pieces style depth gap ps)
      (t.pieces style depth gap qs) := by
  match t, id hlawful, hworded with
  | .node l children, .node _ _ hbelow, .node hlabel hwordedBelow =>
    have hinside := fun depth gap {ps qs} (h : Thinner n ps qs) =>
      Tree.thinner_allPieces children hbelow hwordedBelow depth gap h
    have hleaf := hlabel.thinner_leaf style
    rw [Tree.copied, Tree.dangling, Nat.add_assoc]
    by_cases helement : l.kind = .element
    · rw [TreeLabel.not_dangling (by rw [helement]; decide), Nat.zero_add]
      refine hlabel.thinner_element helement depth gap (fun gap => hinside (depth + 1) gap) ?_ h
      rintro rfl
      rfl
    rw [Tree.pieces, Tree.pieces, show l.copied.kind = l.kind from rfl]
    cases hkind : l.kind with
    | element => exact absurd hkind helement
    | null =>
      obtain rfl := hlawful.children_eq_nil (by rw [hkind]; rfl)
      rw [TreeLabel.not_dangling (by rw [hkind]; decide), Tree.allDangling, Nat.zero_add,
        Nat.zero_add]
      exact h
    | pcdata | cdata =>
      obtain rfl := hlawful.children_eq_nil (by rw [hkind]; rfl)
      rw [Tree.allDangling, Nat.zero_add]
      exact hleaf.append h
    | comment | pi | declaration | doctype =>
      obtain rfl := hlawful.children_eq_nil (by rw [hkind]; rfl)
      rw [Tree.allDangling, Nat.zero_add]
      exact (hleaf.append h).append_left _
    | document =>
      rw [TreeLabel.not_dangling (by rw [hkind]; decide), Nat.zero_add]
      exact (hinside depth .indented h).append_left _

theorem Tree.thinner_allPieces (ts : List Tree) (hlawful : ∀ t ∈ ts, t.Lawful)
    (hworded : ∀ t ∈ ts, t.All TreeLabel.Worded) (depth : Nat) (gap : Gap) {n : Nat}
    {ps qs : List String} (h : Thinner n ps qs) :
    Thinner (Tree.allDangling ts + n) (Tree.allPieces style depth gap ps (Tree.allCopied ts))
      (Tree.allPieces style depth gap qs ts) := by
  match ts with
  | [] => rwa [Tree.allDangling, Nat.zero_add]
  | t :: ts =>
    obtain ⟨ht, hrest⟩ := List.forall_mem_cons.1 hlawful
    obtain ⟨hw, hwrest⟩ := List.forall_mem_cons.1 hworded
    rw [Tree.allDangling, Tree.allCopied, Tree.allPieces, Tree.allPieces, Gap.after_copied,
      Nat.add_assoc]
    exact Tree.thinner_pieces t ht hw depth gap
      (Tree.thinner_allPieces ts hrest hwrest depth (Gap.after t) h)

end

theorem Tree.thinner_markup (style : MarkupStyle) (depth : Nat) {t : Tree} (hlawful : t.Lawful)
    (hworded : t.All TreeLabel.Worded) :
    Thinner t.dangling (t.copied.markupPieces style depth) (t.markupPieces style depth) := by
  rw [Tree.markupPieces, Tree.markupPieces, Gap.after_copied]
  exact Tree.thinner_pieces t hlawful hworded depth .indented (.refl _)

/-- A document node has nothing that is written. -/
theorem Tree.markupPieces_document (l l' : TreeLabel) (hl : l.kind = .document)
    (hl' : l'.kind = .document) (depth : Nat) (children : List Tree) :
    (Tree.node l children).markupPieces style depth =
      (Tree.node l' children).markupPieces style depth := by
  rw [Tree.markupPieces, Tree.markupPieces, Tree.pieces, Tree.pieces, Gap.after, Gap.after, hl,
    hl']

/-! ## Output -/

/-- A way to write something to any sink. -/
def Writer : Type 1 :=
  (σ : Type) → Sink σ → σ → String → FormatOptions → Encoding → Except SinkFailure Unit × σ

/-- The first output is the second one without `n` spaces: behind the same mark, the parts of its
text are those that the spaces of the second one keep apart.  Without any the output is the same
for every sink, whether the sink fails or not. -/
structure Writer.Lacks (n : Nat) (w w' : Writer) : Prop where
  same : n = 0 → w = w'
  spaces : ∀ indent options e, ∃ front part parts, parts.length = n ∧
    w Bytes Sink.bytes [] indent options e =
      (.ok (), front ++ e.forOutput.encode (String.ofList (part :: parts).flatten)) ∧
    w' Bytes Sink.bytes [] indent options e =
      (.ok (), front ++ e.forOutput.encode (String.ofList ([' '].intercalate (part :: parts))))

theorem length_intercalate_space (part : List Char) (parts : List (List Char)) :
    ([' '].intercalate (part :: parts)).length = (part :: parts).flatten.length + parts.length := by
  induction parts generalizing part with
  | nil => simp [List.intercalate_singleton]
  | cons next parts ih =>
    have hsplit : [' '].intercalate (part :: next :: parts) =
        part ++ ' ' :: [' '].intercalate (next :: parts) := rfl
    simp only [hsplit, List.length_append, List.length_cons, ih, List.flatten_cons]
    omega

/-- Output that lacks a space is another one. -/
theorem Writer.Lacks.eq_iff {n : Nat} {w w' : Writer} (h : Writer.Lacks n w w') :
    w = w' ↔ n = 0 := by
  refine ⟨?_, h.same⟩
  rintro rfl
  obtain ⟨front, part, parts, rfl, hbytes, hbytes'⟩ := h.spaces "" .raw .utf8
  have hencoded := List.append_cancel_left (congrArg Prod.snd (hbytes.symm.trans hbytes'))
  have htext := congrArg Encoding.utf8.decodeStrict hencoded
  have hutf8 : Encoding.utf8.forOutput = .utf8 := rfl
  rw [hutf8, Encoding.selfDelimiting_utf8.decodeStrict_encode,
    Encoding.selfDelimiting_utf8.decodeStrict_encode, Except.ok.injEq, String.ofList_inj] at htext
  have hlength := congrArg List.length htext
  rw [length_intercalate_space] at hlength
  omega

namespace Document

variable {doc source copy : Document}

/-- What may be put somewhere is there. -/
theorem contains_of_accepts {parent proto : NodeId} {place : Place NodeId}
    (h : doc.accepts parent (source.kind proto) place = true) : source.contains proto = true := by
  refine contains_of_kind_ne fun hnull => ?_
  have hallowed := (accepts_iff.1 h).1
  simp [hnull, NodeKind.allowsChild] at hallowed

/-- Saving a document. -/
def saving (doc : Document) : Writer := fun _ => doc.save

/-- Printing a node at a depth. -/
def printing (doc : Document) (id : NodeId) (depth : Nat) : Writer :=
  fun _ out sink indent options e => doc.print out sink id indent options e depth

theorem lacks_printing {id proto : NodeId} {n depth : Nat} (hid : copy.contains id = true)
    (hproto : doc.contains proto = true)
    (hthin : ∀ style, Thinner n ((copy.tree id).markupPieces style depth)
      ((doc.tree proto).markupPieces style depth)) :
    Writer.Lacks n (copy.printing id depth) (doc.printing proto depth) where
  same := by
    rintro rfl
    funext σ out sink indent options e
    simp only [printing, print, hid, hproto, if_true]
    exact (OutputBuffer.roomy_new sink e _).writeAll_thinner out [] (hthin _)
  spaces indent options e := by
    simp only [printing, print, hid, hproto, if_true]
    obtain ⟨part, parts, hlength, hcopy, hdoc⟩ := (hthin (.ofOptions indent options)).exists_parts
    have hkeeps := Sink.keeps_bytes e.forOutput []
    obtain ⟨bytes, hbytes, rfl⟩ := OutputBuffer.writeAll_text hkeeps (List.append_nil []).symm
      OutputBuffer.defaultCapacity ((copy.tree id).markupPieces (.ofOptions indent options) depth)
    obtain ⟨bytes', hbytes', rfl⟩ := OutputBuffer.writeAll_text hkeeps (List.append_nil []).symm
      OutputBuffer.defaultCapacity ((doc.tree proto).markupPieces (.ofOptions indent options) depth)
    refine ⟨[], part, parts, hlength, hbytes.trans ?_, hbytes'.trans ?_⟩
    · rw [hcopy, Encoding.encode, String.toList_ofList]
    · rw [hdoc, Encoding.encode, String.toList_ofList]

theorem lacks_saving {n : Nat} (hdeclaration : copy.hasDeclaration = doc.hasDeclaration)
    (hthin : ∀ style, Thinner n ((copy.tree copy.root).markupPieces style 0)
      ((doc.tree doc.root).markupPieces style 0)) :
    Writer.Lacks n copy.saving doc.saving where
  same := by
    rintro rfl
    funext σ out sink indent options e
    rw [saving, saving, save, save, pieces, pieces, hdeclaration]
    exact (OutputBuffer.roomy_new sink e _).writeAll_thinner out _ ((hthin _).append_left _)
  spaces indent options e := by
    have hadded : copy.addedDeclaration options e = doc.addedDeclaration options e := by
      rw [addedDeclaration, hdeclaration, addedDeclaration]
    obtain ⟨part, parts, hlength, hcopy, hdoc⟩ := ((hthin (.ofOptions indent options)).append_left
      (doc.addedDeclaration options e)).exists_parts
    refine ⟨writtenMark options e, part, parts, hlength, ?_, ?_⟩
    · rw [saving, save_bytes_eq, ← hcopy, spelled_append, ← hadded, ← toList_writtenText,
        String.ofList_toList]
    · rw [saving, save_bytes_eq, ← hdoc, spelled_append, ← toList_writtenText,
        String.ofList_toList]

/-- A document that is replaced by another one is saved like it, without single spaces. -/
theorem Whole.lacks_resetFrom (hsource : Whole source) (doc : Document)
    (hworded : (source.tree source.root).All TreeLabel.Worded) :
    Writer.Lacks (source.tree source.root).dangling (doc.resetFrom source).saving
      source.saving := by
  refine lacks_saving (hsource.hasDeclaration_resetFrom doc) fun style => ?_
  obtain ⟨lay, hrooted⟩ := id hsource
  obtain ⟨hlawful, hkind⟩ := hrooted.lawful_tree hrooted.contains_root
  have hthin := Tree.thinner_markup style 0 hlawful hworded
  rw [hsource.tree_resetFrom doc]
  rw [hrooted.root_kind] at hkind
  generalize source.tree source.root = t at hkind hthin ⊢
  obtain ⟨l, children⟩ := t
  rwa [Tree.copied, Tree.markupPieces_document l.copied bareRoot hkind rfl] at hthin

/-- Where the kind of a node may stand, a copy of the node is made that is printed like it, without
single spaces. -/
theorem Whole.exists_lacks_insertCopyFrom (h : Whole doc) (hlegible : Legible doc)
    (hsource : Whole source) {parent proto : NodeId} {place : Place NodeId}
    (haccepts : doc.accepts parent (source.kind proto) place = true) :
    ∃ id done, doc.insertCopyFrom parent source proto place = (some id, done) ∧
      Kept doc done (· = parent) (fun _ => False) ∧
      ((source.tree proto).All TreeLabel.Worded → ∀ depth,
        Writer.Lacks (source.tree proto).dangling (done.printing id depth)
          (source.printing proto depth)) := by
  obtain ⟨lay, hrooted⟩ := h
  obtain ⟨laySource, hsourceRooted⟩ := hsource
  have hproto : source.contains proto = true := contains_of_accepts haccepts
  obtain ⟨hlawful, hkind⟩ := hsourceRooted.lawful_tree hproto
  rw [← hkind] at haccepts
  obtain ⟨id, done, hinsert, hkept, hid, -, htree⟩ :=
    hrooted.insertTree_reads hlegible hlawful (source.copyable_tree proto) haccepts
  rw [hkind] at hinsert
  refine ⟨id, done, hinsert, hkept, fun hworded depth => ?_⟩
  refine lacks_printing hid hproto fun style => ?_
  rw [htree]
  exact Tree.thinner_markup style depth hlawful hworded

/-- A node is printed as before if nothing was put below it. -/
theorem Whole.printing_eq (h : Whole doc) (hlegible : Legible doc) (hcopy : Whole copy)
    {parent proto : NodeId} (hkept : Kept doc copy (· = parent) (fun _ => False))
    (hparent : doc.contains parent = true) (hproto : doc.contains proto = true)
    (hnot : doc.isAncestorOrSelf proto parent = false) :
    copy.printing proto = doc.printing proto := by
  obtain ⟨lay, hrooted⟩ := h
  obtain ⟨layCopy, hlaid⟩ := hcopy
  have htree : copy.tree proto = doc.tree proto := by
    refine hkept.tree_eq hrooted.toLaidOut hlaid.toLaidOut hlegible hproto fun x hx =>
      ⟨?_, fun h => h⟩
    rintro rfl
    rw [(hrooted.isAncestorOrSelf_iff hparent).2 hx] at hnot
    cases hnot
  funext depth σ out sink indent options e
  rw [printing, printing, print, print, htree, hproto, hkept.contains hproto]

/-- Copies are written like their patterns, wherever they are made and whatever was done before.

Only the space before an empty text of an instruction or a document type is left out, and where
there is none the output is the same for every sink.  This holds for clones of documents and for
copies of nodes within a document and between two; a node that is copied is itself printed as
before, unless the copy went below it.  Of names this asks that none is there and empty, which
is so if no loaded text is longer than the words of a range can tell. -/
theorem reachable_copies (h : Reachable doc) (hsource : Reachable source) :
    (source.texts.Short ∨ (source.tree source.root).All TreeLabel.Worded →
      Writer.Lacks (source.tree source.root).dangling source.clone.saving source.saving) ∧
    (∀ parent proto place, doc.accepts parent (doc.kind proto) place = true →
      ∃ id done, doc.insertCopy parent proto place = (some id, done) ∧
        (doc.isAncestorOrSelf proto parent = false →
          done.printing proto = doc.printing proto) ∧
        (doc.texts.Short ∨ (doc.tree proto).All TreeLabel.Worded → ∀ depth,
          Writer.Lacks (doc.tree proto).dangling (done.printing id depth)
            (doc.printing proto depth))) ∧
    (∀ parent proto place, doc.accepts parent (source.kind proto) place = true →
      ∃ id done, doc.insertCopyFrom parent source proto place = (some id, done) ∧
        (source.texts.Short ∨ (source.tree proto).All TreeLabel.Worded → ∀ depth,
          Writer.Lacks (source.tree proto).dangling (done.printing id depth)
            (source.printing proto depth))) := by
  have hlegible := h.legible
  have hwords : ∀ {d : Document} {id : NodeId}, Reachable d →
      d.texts.Short ∨ (d.tree id).All TreeLabel.Worded → (d.tree id).All TreeLabel.Worded :=
    fun hd hor => hor.elim (fun hshort => hd.worded_tree hshort _) id
  refine ⟨fun hor => hsource.whole.lacks_resetFrom new (hwords hsource hor),
    fun parent proto place haccepts => ?_, fun parent proto place haccepts => ?_⟩
  · obtain ⟨id, done, hcopy, hkept, hlacks⟩ :=
      h.whole.exists_lacks_insertCopyFrom hlegible h.whole haccepts
    have hparent : doc.contains parent = true := (accepts_iff.1 haccepts).2.1
    have hwhole : Whole done := by
      have hdone := h.whole.insertCopy parent proto place
      rwa [show doc.insertCopy parent proto place = (some id, done) from hcopy] at hdone
    exact ⟨id, done, hcopy, h.whole.printing_eq hlegible hwhole hkept hparent
      (contains_of_accepts haccepts), fun hor => hlacks (hwords h hor)⟩
  · obtain ⟨id, done, hcopy, -, hlacks⟩ :=
      h.whole.exists_lacks_insertCopyFrom hlegible hsource.whole haccepts
    exact ⟨id, done, hcopy, fun hor => hlacks (hwords hsource hor)⟩

/-- A clone of a document with an instruction that has an empty text is saved without a space; a
copy of an element beside the instruction is printed like the element. -/
theorem copies_instructed :
    let doc := new.applyAll [.loadString "<a><?go ?><b/></a>" .full]
    doc.clone.saveString "" (.union .raw .noDeclaration) = "<a><?go?><b/></a>" ∧
      Writer.Lacks 1 doc.clone.saving doc.saving ∧ doc.clone.saving ≠ doc.saving ∧
      ∃ id done, doc.insertCopy ⟨⟨1, 1⟩⟩ ⟨⟨3, 1⟩⟩ .last = (some id, done) ∧
        done.printing id = doc.printing ⟨⟨3, 1⟩⟩ ∧
        done.printing ⟨⟨3, 1⟩⟩ = doc.printing ⟨⟨3, 1⟩⟩ := by
  intro doc
  have hreach : Reachable doc := Reachable.new.applyAll (by decide)
  have hshort : doc.texts.Short := by decide +kernel
  have hone : (doc.tree doc.root).dangling = 1 := by decide +kernel
  have hnone : (doc.tree ⟨⟨3, 1⟩⟩).dangling = 0 := by decide +kernel
  obtain ⟨hclone, hcopies, -⟩ := reachable_copies hreach hreach
  have hlacks := hclone (.inl hshort)
  obtain ⟨id, done, hcopy, hproto, hprinted⟩ :=
    hcopies ⟨⟨1, 1⟩⟩ ⟨⟨3, 1⟩⟩ .last (by decide +kernel)
  refine ⟨by decide +kernel, hone ▸ hlacks, fun heq => ?_, id, done, hcopy,
    funext fun depth => (hprinted (.inl hshort) depth).same hnone, hproto (by decide +kernel)⟩
  have hzero := hlacks.eq_iff.1 heq
  rw [hone] at hzero
  cases hzero

end Document

end XmlTree
