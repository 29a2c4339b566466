/-
  Proofs/Narrowing.lean --- markup in an encoding that does not have all characters.

  WHAT THIS FILE IS FOR.  Latin-1 has 256 characters, and each of the others is written as
  `?`.  That happens to text from which the marks have been taken out already, so it could
  make a new one.  Among the marks that end a construct only that of an instruction has a `?`
  in it.  Where no `>` of an instruction stands right after a character that is lost, the
  bytes are those of the tree with `?` for each such character, and no value breaks out of
  its construct.

  WHAT IS ASKED OF NAMES.  They are written as they are, so Latin-1 has to have their
  characters.
-/
import XmlTree.Proofs.Containment

set_option autoImplicit false

namespace XmlTree

/-! ## Characters -/

/-- The character that is read where a character was written in Latin-1. -/
def narrow (c : Char) : Char := if c.toNat < 256 then c else '?'

/-- Characters that Latin-1 has. -/
def Narrow (cs : List Char) : Prop := ∀ c ∈ cs, c.toNat < 256

instance (cs : List Char) : Decidable (Narrow cs) := List.decidableBAll _ cs

theorem narrow_of_lt {c : Char} (h : c.toNat < 256) : narrow c = c := if_pos h

theorem map_narrow {cs : List Char} (h : Narrow cs) : cs.map narrow = cs := by
  conv => rhs; rw [← List.map_id cs]
  exact List.map_congr_left fun c hc => narrow_of_lt (h c hc)

/-- No character but `?` comes about. -/
theorem narrow_eq_iff {c m : Char} (hm : m.toNat < 256) (hquestion : m ≠ '?') :
    narrow c = m ↔ c = m := by
  unfold narrow
  split
  · exact Iff.rfl
  · rename_i hlarge
    constructor
    · rintro rfl
      exact absurd rfl hquestion
    · rintro rfl
      exact absurd hm hlarge

/-- The text that is read where a text was written in Latin-1. -/
def narrowText (s : String) : String := String.ofList (s.toList.map narrow)

theorem utf8Size_narrow_le (c : Char) : (narrow c).utf8Size ≤ c.utf8Size := by
  unfold narrow
  split
  · exact Nat.le_refl _
  · exact c.utf8Size_pos

theorem byteSize_map_narrow_le (cs : List Char) : byteSize (cs.map narrow) ≤ byteSize cs := by
  induction cs with
  | nil => exact Nat.le_refl _
  | cons c cs ih => exact Nat.add_le_add (utf8Size_narrow_le c) ih

namespace Encoding

theorem latin1Char_latin1Byte (c : Char) : latin1Char (latin1Byte c) = narrow c := by
  unfold latin1Byte narrow
  split
  · rename_i hsmall
    rw [latin1Char, toNat_ofNat_of_lt hsmall, Char.ofNat_toNat]
  · rfl

/-- Every byte is a character in Latin-1, and none is a mark. -/
theorem latin1_decodeLossy (bytes : Bytes) :
    latin1.decodeLossy bytes = String.ofList (bytes.map latin1Char) := rfl

/-- A text that is written in Latin-1 is read with `?` for each character that was lost. -/
theorem decodeLossy_latin1 (text : String) :
    latin1.decodeLossy (latin1.encode text) = narrowText text := by
  have hbytes : latin1.encode text = text.toList.map latin1Byte :=
    List.map_eq_flatMap.symm
  rw [latin1_decodeLossy, hbytes, List.map_map]
  exact congrArg (fun f => String.ofList (text.toList.map f)) (funext latin1Char_latin1Byte)

end Encoding

/-! ## Marks -/

theorem dropMark?_map {f : Char → Char} {mark : List Char} (hf : ∀ m ∈ mark, ∀ c, f c = m ↔ c = m)
    (text : List Char) : dropMark? mark (text.map f) = (dropMark? mark text).map (List.map f) := by
  induction mark generalizing text with
  | nil => rfl
  | cons m ms ih =>
    obtain ⟨hm, hrest⟩ := List.forall_mem_cons.1 hf
    cases text with
    | nil => rfl
    | cons c cs =>
      have hsame : m = f c ↔ m = c := by rw [eq_comm, hm, eq_comm]
      rw [List.map_cons, dropMark?, dropMark?]
      simp only [hsame]
      split
      · exact ih hrest cs
      · rfl

/-- A mark is found at the same place if none of its characters comes about. -/
theorem cutAt?_map {f : Char → Char} {mark : List Char} (hf : ∀ m ∈ mark, ∀ c, f c = m ↔ c = m)
    (text : List Char) :
    cutAt? mark (text.map f) = (cutAt? mark text).map (Prod.map (List.map f) (List.map f)) := by
  induction text with
  | nil =>
    unfold cutAt?
    cases mark <;> rfl
  | cons c cs ih =>
    have hhere := dropMark?_map hf (c :: cs)
    rw [List.map_cons] at hhere ⊢
    unfold cutAt?
    rw [hhere]
    cases dropMark? mark (c :: cs) with
    | some rest => rfl
    | none =>
      simp only [Option.map_none, ih, Option.map_map]
      rfl

theorem sectionEnd_narrow : ∀ m ∈ "]]>".toList, ∀ c, narrow c = m ↔ c = m := by
  intro m hm c
  have hcases : m = ']' ∨ m = '>' := by simpa using hm
  obtain rfl | rfl := hcases <;> exact narrow_eq_iff (by decide) (by decide)

/-- A text is cut into sections at the same places. -/
theorem cdataSections_map_narrow (cs : List Char) :
    cdataSections (cs.map narrow) = (cdataSections cs).map (List.map narrow) := by
  have hmap := cutAt?_map sectionEnd_narrow
  induction cs using cdataSections.induct with
  | case1 cs before after hcut ih =>
    have hcut' := hmap cs
    rw [hcut] at hcut'
    rw [List.map_cons, narrow_of_lt (by decide)] at ih
    rw [cdataSections_cut hcut', cdataSections_cut hcut, List.map_cons, ← ih, List.map_append,
      map_narrow (show Narrow "]]".toList by decide)]
  | case2 cs hcut =>
    have hcut' := hmap cs
    rw [hcut] at hcut'
    rw [cdataSections_of_markless (cutAt?_eq_none_iff.1 hcut),
      cdataSections_of_markless (cutAt?_eq_none_iff.1 hcut')]
    rfl

theorem head?_map_narrow {cs : List Char} {m : Char} (hm : m.toNat < 256) (hquestion : m ≠ '?') :
    (cs.map narrow).head? = some m ↔ cs.head? = some m := by
  cases cs with
  | nil => exact Iff.rfl
  | cons c cs =>
    rw [List.map_cons, List.head?_cons, List.head?_cons, Option.some_inj, Option.some_inj,
      narrow_eq_iff hm hquestion]

/-- Spaces are put into a comment at the same places. -/
theorem spacedHyphens_map_narrow (cs : List Char) :
    spacedHyphens (cs.map narrow) = (spacedHyphens cs).map narrow := by
  induction cs with
  | nil => rfl
  | cons c cs ih =>
    have hhyphen : narrow c = '-' ↔ c = '-' := narrow_eq_iff (by decide) (by decide)
    have hnext : (cs.map narrow).head? = some '-' ↔ cs.head? = some '-' :=
      head?_map_narrow (by decide) (by decide)
    rw [List.map_cons, spacedHyphens, spacedHyphens]
    simp only [hhyphen, hnext, List.isEmpty_map, ih]
    split <;> rfl

/-- Spaces are put into an instruction at the same places, if no mark comes about. -/
theorem partedMarks_map_narrow {cs : List Char}
    (h : cs.IsChain fun c d => d = '>' → c.toNat < 256) :
    partedMarks (cs.map narrow) = (partedMarks cs).map narrow := by
  induction cs using partedMarks.induct with
  | case1 => rfl
  | case2 cs ih =>
    have hrest := ih (h.tail.tail)
    rw [List.map_cons, List.map_cons, narrow_of_lt (by decide), narrow_of_lt (by decide),
      partedMarks, partedMarks, hrest]
    rfl
  | case3 c cs hplain ih =>
    rw [partedMarks.eq_3 _ _ hplain, List.map_cons, List.map_cons, partedMarks.eq_3, ih h.tail]
    intro more hquestion hmore
    obtain ⟨d, ds, rfl, hd, rfl⟩ := List.map_eq_cons_iff.1 hmore
    rw [narrow_eq_iff (by decide) (by decide)] at hd
    rw [List.isChain_cons_cons] at h
    rw [narrow_of_lt (h.1 hd)] at hquestion
    exact hplain ds hquestion (by rw [hd])

/-- What is written for a character is written for the character that is left of it. -/
theorem map_narrow_escapedChar (single : Bool) (ctx : TextContext) (c : Char) :
    (escapedChar (exactStyle single) ctx c).map narrow =
      escapedChar (exactStyle single) ctx (narrow c) := by
  by_cases hsmall : c.toNat < 64
  · have hall : ∀ single ctx, ∀ n < 64,
        Narrow (escapedChar (exactStyle single) ctx (Char.ofNat n)) := by
      intro single ctx
      cases single <;> cases ctx <;> decide +kernel
    have hnarrow := hall single ctx c.toNat hsmall
    rw [Char.ofNat_toNat] at hnarrow
    rw [narrow_of_lt (by omega), map_narrow hnarrow]
  · -- every character that has to be escaped is among the first ones, and so is `?`
    have hplain : ∀ d : Char, 63 ≤ d.toNat → escapedChar (exactStyle single) ctx d = [d] := by
      intro d hd
      have hother : ∀ m : Char, m.toNat < 63 → d ≠ m := by
        rintro m hm rfl
        omega
      have hcontrol : ¬ d.toNat < 32 := by omega
      rw [escapedChar, if_neg]
      cases ctx <;> simp [needsEscape, hother, hcontrol]
    have hleft : 63 ≤ (narrow c).toNat := by
      unfold narrow
      split
      · omega
      · decide
    rw [hplain c (by omega), hplain _ hleft]
    rfl

theorem escaped_map_narrow (single : Bool) (ctx : TextContext) (cs : List Char) :
    escaped (exactStyle single) ctx (cs.map narrow) =
      (escaped (exactStyle single) ctx cs).map narrow := by
  rw [escaped, escaped, List.map_flatMap, List.flatMap_map]
  exact congrArg (cs.flatMap ·) (funext fun c => (map_narrow_escapedChar single ctx c).symm)

/-! ## Trees -/

/-- The attribute with `?` for each character of its value that is lost. -/
def TreeAttribute.narrowed (a : TreeAttribute) : TreeAttribute := ⟨a.name, a.value.map narrowText⟩

/-- The node with `?` for each character of its values that is lost. -/
def TreeLabel.narrowed (l : TreeLabel) : TreeLabel :=
  ⟨l.kind, l.name, l.value.map narrowText, l.attributes.map TreeAttribute.narrowed⟩

mutual

/-- The tree with `?` for each character of its values that is lost. -/
def Tree.narrowed : Tree → Tree
  | .node l children => .node l.narrowed (Tree.allNarrowed children)

/-- Trees side by side with `?` for each character of their values that is lost. -/
def Tree.allNarrowed : List Tree → List Tree
  | [] => []
  | t :: ts => t.narrowed :: Tree.allNarrowed ts

end

theorem Tree.allNarrowed_eq_map (ts : List Tree) : Tree.allNarrowed ts = ts.map Tree.narrowed := by
  induction ts with
  | nil => rfl
  | cons t ts ih => rw [Tree.allNarrowed, ih, List.map_cons]

@[simp] theorem Tree.label_narrowed (t : Tree) : t.narrowed.label = t.label.narrowed := by
  cases t
  rfl

/-- A node with names of which Latin-1 has the characters. -/
def TreeLabel.NarrowNames (l : TreeLabel) : Prop :=
  Narrow l.nameText.toList ∧ ∀ a ∈ l.attributes, Narrow a.nameText.toList

instance : DecidablePred TreeLabel.NarrowNames := fun _ => inferInstanceAs (Decidable (_ ∧ _))

/-- A node in which no mark comes about: in an instruction no `>` stands right after a
character that is lost. -/
def TreeLabel.KeepsApart (l : TreeLabel) : Prop :=
  l.kind = .pi → l.valueText.toList.IsChain fun c d => d = '>' → c.toNat < 256

instance : DecidablePred TreeLabel.KeepsApart := fun _ => inferInstanceAs (Decidable (_ → _))

theorem toList_getD_narrowText (value : Option String) :
    ((value.map narrowText).getD "").toList = (value.getD "").toList.map narrow := by
  cases value with
  | none => rfl
  | some value => exact String.toList_ofList

theorem TreeLabel.valueText_narrowed (l : TreeLabel) :
    l.narrowed.valueText.toList = l.valueText.toList.map narrow :=
  toList_getD_narrowText l.value

variable {single : Bool}

theorem TreeAttribute.spelling_narrowed {a : TreeAttribute} (h : Narrow a.nameText.toList) :
    a.narrowed.spelling single = (a.spelling single).map narrow := by
  have hvalue : a.narrowed.valueText.toList = a.valueText.toList.map narrow :=
    toList_getD_narrowText a.value
  have hquote : narrow (quoteChar single) = quoteChar single := by cases single <;> rfl
  have hname : a.narrowed.nameText = a.nameText := rfl
  rw [spelling, spelling, hvalue, escaped_map_narrow, hname]
  simp only [List.map_cons, List.map_append, map_narrow h, hquote, List.map_nil]
  rfl

theorem TreeLabel.spelling_narrowed {as : List TreeAttribute}
    (h : ∀ a ∈ as, Narrow a.nameText.toList) :
    (as.map TreeAttribute.narrowed).flatMap (TreeAttribute.spelling single) =
      (as.flatMap (TreeAttribute.spelling single)).map narrow := by
  rw [List.flatMap_map, List.map_flatMap, List.flatMap_def, List.flatMap_def]
  exact congrArg List.flatten
    (List.map_congr_left fun a ha => TreeAttribute.spelling_narrowed (h a ha))

theorem spelled_sections_map_narrow (parts : List (List Char)) :
    spelled ((parts.map (List.map narrow)).flatMap sectionPieces) =
      (spelled (parts.flatMap sectionPieces)).map narrow := by
  induction parts with
  | nil => rfl
  | cons part parts ih =>
    rw [List.map_cons, List.flatMap_cons, List.flatMap_cons, spelled_append, spelled_append, ih,
      spelled_sectionPieces, spelled_sectionPieces, List.map_append, List.map_append,
      List.map_append, map_narrow (show Narrow "<![CDATA[".toList by decide),
      map_narrow (show Narrow "]]>".toList by decide)]

/-- A node without children is written with the characters that are left of it. -/
theorem TreeLabel.written_narrowed {l : TreeLabel} (hnames : l.NarrowNames)
    (hapart : l.KeepsApart) :
    l.narrowed.written single = (l.written single).map narrow := by
  have hvalue := l.valueText_narrowed
  have hname : l.narrowed.nameText = l.nameText := rfl
  have hkind : l.narrowed.kind = l.kind := rfl
  have hsome : l.narrowed.value.isSome = l.value.isSome := Option.isSome_map
  unfold written
  rw [hkind]
  cases hl : l.kind with
  | pcdata =>
    simp only [hvalue]
    exact escaped_map_narrow _ _ _
  | cdata =>
    simp only [hvalue, cdataSections_map_narrow]
    exact spelled_sections_map_narrow _
  | comment =>
    simp only [hvalue, spacedHyphens_map_narrow, List.map_append]
    rw [map_narrow (show Narrow "<!--".toList by decide),
      map_narrow (show Narrow "-->".toList by decide)]
  | pi =>
    simp only [hvalue, partedMarks_map_narrow (hapart hl), hname, hsome, List.map_append,
      map_narrow hnames.1]
    rw [map_narrow (show Narrow "<?".toList by decide),
      map_narrow (show Narrow "?>".toList by decide)]
    split <;> rfl
  | declaration =>
    simp only [narrowed, TreeLabel.spelling_narrowed hnames.2, List.map_append]
    rw [map_narrow (show Narrow "<?".toList by decide),
      map_narrow (show Narrow "?>".toList by decide), map_narrow hnames.1]
    rfl
  | doctype =>
    simp only [hvalue, hsome, List.map_append]
    rw [map_narrow (show Narrow "<!DOCTYPE".toList by decide),
      map_narrow (show Narrow ">".toList by decide)]
    split <;> rfl
  | null | document | element => rfl

mutual

/-- A tree is written with the characters that are left of it. -/
theorem Tree.written_narrowed (t : Tree) (hnames : t.All TreeLabel.NarrowNames)
    (hapart : t.All TreeLabel.KeepsApart) :
    t.narrowed.written single = (t.written single).map narrow := by
  match t with
  | .node l children =>
    obtain ⟨hlabel, hbelow⟩ := hnames
    obtain ⟨hlabel', hbelow'⟩ := hapart
    have hleaf : l.narrowed.written single = (l.written single).map narrow :=
      TreeLabel.written_narrowed hlabel hlabel'
    have hinside := Tree.allWritten_narrowed children hbelow hbelow'
    have hempty : (Tree.allNarrowed children).isEmpty = children.isEmpty := by
      rw [Tree.allNarrowed_eq_map, List.isEmpty_map]
    have hkind : l.narrowed.kind = l.kind := rfl
    rw [Tree.narrowed, Tree.written, Tree.written, hkind]
    cases hl : l.kind with
    | element =>
      have hname : l.narrowed.nameText = l.nameText := rfl
      have hattributes : l.narrowed.attributes = l.attributes.map TreeAttribute.narrowed := rfl
      simp only [hname, hattributes, TreeLabel.spelling_narrowed hlabel.2, hinside, hempty,
        List.map_cons, List.map_append, map_narrow hlabel.1]
      rw [narrow_of_lt (by decide)]
      cases children.isEmpty with
      | true => rfl
      | false =>
        simp only [Bool.false_eq_true, if_false, List.map_cons, List.map_append,
          map_narrow hlabel.1]
        rfl
    | _ => exact hleaf

/-- Trees side by side are written with the characters that are left of them. -/
theorem Tree.allWritten_narrowed (ts : List Tree) (hnames : ∀ t ∈ ts, t.All TreeLabel.NarrowNames)
    (hapart : ∀ t ∈ ts, t.All TreeLabel.KeepsApart) :
    Tree.allWritten single (Tree.allNarrowed ts) = (Tree.allWritten single ts).map narrow := by
  match ts with
  | [] => rfl
  | t :: ts =>
    obtain ⟨ht, hrest⟩ := List.forall_mem_cons.1 hnames
    obtain ⟨ht', hrest'⟩ := List.forall_mem_cons.1 hapart
    rw [Tree.allNarrowed, Tree.allWritten, Tree.allWritten, List.map_append,
      Tree.written_narrowed t ht ht', Tree.allWritten_narrowed ts hrest hrest']

end

/-! ## What is left of a tree may stand where it stood -/

theorem TreeLabel.Spellable.narrowed {l : TreeLabel} (h : l.Spellable) : l.narrowed.Spellable := by
  have hattributes : (∀ a ∈ l.attributes, IsName a.nameText) →
      ∀ a ∈ l.narrowed.attributes, IsName a.nameText := by
    intro hall a ha
    obtain ⟨a, hmem, rfl⟩ := List.mem_map.1 ha
    exact hall a hmem
  unfold Spellable Named at h ⊢
  have hkind : l.narrowed.kind = l.kind := rfl
  rw [hkind]
  cases hl : l.kind with
  | element =>
    simp only [hl] at h
    exact ⟨h.1, hattributes h.2⟩
  | declaration =>
    simp only [hl] at h
    exact ⟨h.1, hattributes h.2⟩
  | doctype =>
    simp only [hl] at h
  | _ =>
    simp only [hl] at h
    exact h

theorem Tree.All.narrowed {p : TreeLabel → Prop} (hp : ∀ l, p l → p l.narrowed) {t : Tree}
    (h : t.All p) : t.narrowed.All p := by
  induction h with
  | @node label children htop _ ih =>
    refine .node (hp _ htop) fun u hu => ?_
    rw [Tree.allNarrowed_eq_map] at hu
    obtain ⟨t, ht, rfl⟩ := List.mem_map.1 hu
    exact ih t ht

theorem Tree.Unadorned.narrowed {t : Tree} (h : t.Unadorned) : t.narrowed.Unadorned := by
  induction h with
  | @node label children hname hvalue _ ih =>
    refine .node hname (fun hkind => ?_) fun u hu => ?_
    · rw [TreeLabel.narrowed, hvalue hkind, Option.map_none]
    · rw [Tree.allNarrowed_eq_map] at hu
      obtain ⟨t, ht, rfl⟩ := List.mem_map.1 hu
      exact ih t ht

theorem Tree.Lawful.narrowed {t : Tree} (h : t.Lawful) : t.narrowed.Lawful := by
  induction h with
  | @node label children howns hallowed _ ih =>
    refine .node (fun hattributes => ?_) (fun u hu => ?_) fun u hu => ?_
    · exact howns fun hnone => hattributes (by rw [TreeLabel.narrowed, hnone, List.map_nil])
    · rw [Tree.allNarrowed_eq_map] at hu
      obtain ⟨t, ht, rfl⟩ := List.mem_map.1 hu
      rw [Tree.label_narrowed]
      exact hallowed t ht
    · rw [Tree.allNarrowed_eq_map] at hu
      obtain ⟨t, ht, rfl⟩ := List.mem_map.1 hu
      exact ih t ht

theorem Tree.Sayable.narrowed {atTop : Bool} {t : Tree} (h : t.Sayable atTop) :
    t.narrowed.Sayable atTop where
  spellable :=
    have hlabel : ∀ l : TreeLabel, l.Spellable → l.narrowed.Spellable := fun _ hl => hl.narrowed
    h.spellable.narrowed hlabel
  unadorned := h.unadorned.narrowed
  lawful := h.lawful.narrowed
  allowed := by
    rw [Tree.label_narrowed]
    exact h.allowed

namespace Document

variable {doc : Document}

/-! ## Documents -/

/-- What is left of the text of trees is loaded as what is left of the trees. -/
theorem loadBelow_of_narrowed {ts : List Tree} (hsayable : ∀ t ∈ ts, t.Sayable true)
    (hnames : ∀ t ∈ ts, t.All TreeLabel.NarrowNames)
    (hapart : ∀ t ∈ ts, t.All TreeLabel.KeepsApart)
    (helement : ∃ t ∈ ts, t.label.kind = .element) (single : Bool)
    (hsize : byteSize (Tree.allWritten single ts) < 2 ^ 32) (into : Document) :
    ∃ loaded us, into.reset.loadBelow into.reset.root
        (String.ofList ((Tree.allWritten single ts).map narrow)) .everything =
          (⟨.ok, 0⟩, loaded) ∧ (loaded.tree loaded.root).plain = .node bareRoot.plain us ∧
      Tree.ComeBack true (Tree.allNarrowed ts) us := by
  have hleft : Tree.allWritten single (Tree.allNarrowed ts) =
      (Tree.allWritten single ts).map narrow :=
    Tree.allWritten_narrowed ts hnames hapart
  have hsayable' : ∀ u ∈ Tree.allNarrowed ts, u.Sayable true := by
    rw [Tree.allNarrowed_eq_map]
    exact List.forall_mem_map.2 fun t ht => (hsayable t ht).narrowed
  have helement' : ∃ u ∈ Tree.allNarrowed ts, u.label.kind = .element := by
    obtain ⟨t, ht, hkind⟩ := helement
    rw [Tree.allNarrowed_eq_map]
    exact ⟨t.narrowed, List.mem_map_of_mem ht, by rw [Tree.label_narrowed]; exact hkind⟩
  have hshort : byteSize (Tree.allWritten single (Tree.allNarrowed ts)) < 2 ^ 32 := by
    rw [hleft]
    exact Nat.lt_of_le_of_lt (byteSize_map_narrow_le _) hsize
  exact loadBelow_of_sayable hsayable' helement' single hshort into (.inl hleft.symm)

/-- What edits have built comes back from its bytes in Latin-1 with `?` for each character that
is lost, and no value breaks out of its construct, if no mark comes about in an instruction. -/
theorem Built.loadBytes_latin1 (h : Built doc) (hnamed : (doc.tree doc.root).All TreeLabel.Named)
    (hnames : (doc.tree doc.root).All TreeLabel.NarrowNames)
    (hapart : (doc.tree doc.root).All TreeLabel.KeepsApart)
    (helement : ∃ c ∈ doc.children doc.root, doc.kind c = .element) (single : Bool)
    (hsize : (doc.saveString "" (.exact single)).utf8ByteSize < 2 ^ 32) (into : Document) :
    let saved := doc.save Sink.bytes [] "" (.exact single) .latin1
    let loaded := into.loadBytes saved.2 .everything .latin1
    saved.1 = .ok () ∧ loaded.1.status = .ok ∧
      Tree.ComeBack true (doc.tree doc.root).narrowed.children
        (loaded.2.tree loaded.2.root).plain.children := by
  have hoptions : (FormatOptions.exact single).contains .writeBom = false ∧
      (FormatOptions.exact single).contains .noDeclaration = true := by
    cases single <;> decide
  have hunadorned := h.tidy.unadorned_tree doc.root
  have hwhole := h.reachable.whole
  obtain ⟨hsayable, hwritten⟩ := hwhole.saveString_eq_written hnamed hunadorned single
  have hsome := hwhole.exists_element_tree hunadorned helement
  have hsaved : doc.save Sink.bytes [] "" (.exact single) .latin1 =
      (.ok (), Encoding.latin1.encode (doc.saveString "" (.exact single))) :=
    save_bytes .latin1 doc "" _ hoptions.1 hoptions.2
  rw [hwritten, ← byteSize_eq] at hsize
  rw [hwhole.tree_root_eq hunadorned] at hnames hapart hsayable hwritten hsome hsize ⊢
  generalize (doc.children doc.root).map doc.tree = ts
    at hnames hapart hsayable hwritten hsome hsize
  rw [Tree.children] at hsayable hwritten hsome hsize
  obtain ⟨-, hnames⟩ := hnames
  obtain ⟨-, hapart⟩ := hapart
  obtain ⟨loaded, us, hbelow, hplain, hback⟩ :=
    loadBelow_of_narrowed hsayable hnames hapart hsome single hsize into
  have hread : Encoding.latin1.decodeLossy
      (Encoding.latin1.encode (doc.saveString "" (.exact single))) =
        String.ofList ((Tree.allWritten single ts).map narrow) := by
    rw [Encoding.decodeLossy_latin1, hwritten, narrowText, String.toList_ofList]
  have hloaded : into.loadBytes (Encoding.latin1.encode (doc.saveString "" (.exact single)))
      .everything .latin1 = (⟨.ok, 0, .latin1⟩, loaded) := by
    rw [loadBytes]
    simp only [Encoding.forInput, Encoding.concrete, hread, hbelow]
  dsimp only
  rw [hsaved]
  dsimp only
  rw [hloaded, hplain]
  exact ⟨rfl, rfl, hback⟩

/-- Values in which characters that are lost stand beside the marks of all constructs. -/
def lossy : List Change :=
  [.insertElement ⟨⟨0, 1⟩⟩ "\u00E9" .last, .insertAttribute ⟨⟨1, 1⟩⟩ "k" "\u2603\"/>" .last,
    .insertChild ⟨⟨1, 1⟩⟩ .pcdata .last, .setValue ⟨⟨2, 1⟩⟩ "\u2603</a>",
    .insertChild ⟨⟨1, 1⟩⟩ .cdata .last, .setValue ⟨⟨3, 1⟩⟩ "]\u2603]>]]>\u00E9",
    .insertChild ⟨⟨1, 1⟩⟩ .comment .last, .setValue ⟨⟨4, 1⟩⟩ "-\u2603->-",
    .insertChild ⟨⟨1, 1⟩⟩ .pi .last, .setName ⟨⟨5, 1⟩⟩ "go", .setValue ⟨⟨5, 1⟩⟩ "?>\u2603 >\u2603"]

theorem loadBytes_lossy :
    let doc := new.applyAll lossy
    let saved := doc.save Sink.bytes [] "" (.exact false) .latin1
    let loaded := new.loadBytes saved.2 .everything .latin1
    Encoding.latin1.decodeLossy saved.2 =
        "<\u00E9 k=\"?&quot;/>\">?&lt;/a&gt;<![CDATA[]?]>]]]]><![CDATA[>\u00E9]]><!---?->- -->" ++
        "<?go ? >? >??></\u00E9>" ∧
      saved.1 = .ok () ∧ loaded.1.status = .ok ∧
        Tree.ComeBack true (doc.tree doc.root).narrowed.children
          (loaded.2.tree loaded.2.root).plain.children :=
  ⟨by decide +kernel, Built.loadBytes_latin1 (Built.new.applyAll (by decide +kernel))
    (by decide +kernel) (by decide +kernel) (by decide +kernel) (by decide +kernel) false
    (by decide +kernel) new⟩

/-- An instruction is ended by a mark that comes about, and what follows is an element. -/
example :
    let doc := new.applyAll [.insertElement ⟨⟨0, 1⟩⟩ "a" .last, .insertChild ⟨⟨1, 1⟩⟩ .pi .last,
      .setName ⟨⟨2, 1⟩⟩ "go", .setValue ⟨⟨2, 1⟩⟩ "\u2603><b/>"]
    Encoding.latin1.decodeLossy (doc.save Sink.bytes [] "" (.exact false) .latin1).2 =
      "<a><?go ?><b/>?></a>" := by
  decide +kernel

end Document

end XmlTree
