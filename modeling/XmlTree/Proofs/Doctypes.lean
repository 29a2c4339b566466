/-
  Proofs/Doctypes.lean --- where document types end, and content with document types in it.

  WHAT THIS FILE IS FOR.  The end of a document type is found by a scan that passes over
  strings, comments, instructions and sections.  The scan looks at nothing behind the end it
  finds, so whether a text may stand in a document type is a property of that text alone.

  THE GRAMMAR.  Document types stand only at the top of a document.  What a document is
  written as is therefore content, or content, a document type and more of that kind.
-/
import XmlTree.Load.Doctype
import XmlTree.Proofs.Constructs
import XmlTree.Proofs.Cursors

set_option autoImplicit false

namespace XmlTree

/-! ## Marks in front -/

theorem beginsWith_iff {mark text : List Char} : beginsWith mark text = true ↔ mark <+: text := by
  rw [beginsWith, Option.isSome_iff_ne_none, ne_eq, dropMark?_eq_none_iff, not_not]

theorem beginsWith_eq_false {mark text : List Char} (h : ¬ mark <+: text) :
    beginsWith mark text = false := by
  rw [← Bool.not_eq_true, beginsWith_iff]
  exact h

/-- Whether a text begins with a mark is told by so many of its characters. -/
theorem prefix_append_iff {mark a : List Char} (hlength : mark.length ≤ a.length)
    (rest : List Char) : mark <+: a ++ rest ↔ mark <+: a :=
  ⟨fun h => List.prefix_of_prefix_length_le h (List.prefix_append _ _) hlength,
    fun h => h.trans (List.prefix_append _ _)⟩

/-- A mark does not go across a character that it does not hold. -/
theorem prefix_append_cons_iff {mark : List Char} {d : Char} (hd : d ∉ mark) (a rest : List Char) :
    mark <+: a ++ d :: rest ↔ mark <+: a := by
  refine ⟨fun h => ?_, fun h => h.trans (List.prefix_append _ _)⟩
  by_cases hlength : mark.length ≤ a.length
  · exact (prefix_append_iff hlength _).1 h
  · obtain ⟨more, hmore⟩ := h
    have hmem : d ∈ mark := by
      have hget := congrArg (fun cs => cs[a.length]?) hmore
      simp only [List.getElem?_append_right (Nat.le_refl a.length), Nat.sub_self,
        List.getElem?_cons_zero] at hget
      rw [List.getElem?_append_left (by omega)] at hget
      exact List.mem_of_getElem? hget
    exact absurd hmem hd

/-! ## Sections in document types -/

/-- The end of open sections is found without looking behind it. -/
theorem exists_afterSections {depth : Nat} {cs rest : List Char}
    (h : afterSections? depth cs = some rest) :
    ∃ before, cs = before ++ rest ∧ 3 * depth ≤ before.length ∧
      ∀ rest', afterSections? depth (before ++ rest') = some rest' := by
  fun_induction afterSections? depth cs with
  | case1 cs =>
    cases h
    refine ⟨[], rfl, Nat.le_refl _, fun rest' => ?_⟩
    rw [List.nil_append, afterSections?]
  | case2 => cases h
  | case3 depth cs ih =>
    obtain ⟨before, rfl, hlength, hall⟩ := ih h
    refine ⟨'<' :: '!' :: '[' :: before, rfl, by simp; omega, fun rest' => ?_⟩
    exact (afterSections?.eq_3 _ _).trans (hall rest')
  | case4 depth cs ih =>
    obtain ⟨before, rfl, hlength, hall⟩ := ih h
    refine ⟨']' :: ']' :: '>' :: before, rfl, by simp; omega, fun rest' => ?_⟩
    exact (afterSections?.eq_4 _ _).trans (hall rest')
  | case5 depth c cs hopens hcloses ih =>
    obtain ⟨before, rfl, hlength, hall⟩ := ih h
    refine ⟨c :: before, rfl, by simp; omega, fun rest' => ?_⟩
    obtain ⟨d, e, more, rfl⟩ : ∃ d e more, before = d :: e :: more := by
      match before with
      | [] => simp at hlength
      | [_] => exact absurd hlength (by simp; omega)
      | d :: e :: more => exact ⟨d, e, more, rfl⟩
    refine (afterSections?.eq_5 _ _ _ ?_ ?_).trans (hall rest')
    · rintro others hc hothers
      obtain ⟨hd, he, -⟩ : d = '!' ∧ e = '[' ∧ more ++ rest' = others := by simpa using hothers
      exact hopens (more ++ rest) hc (by rw [hd, he]; rfl)
    · rintro others hc hothers
      obtain ⟨hd, he, -⟩ : d = ']' ∧ e = '>' ∧ more ++ rest' = others := by simpa using hothers
      exact hcloses (more ++ rest) hc (by rw [hd, he]; rfl)

/-! ## What the scan passes over -/

section Scan

variable {depth : Nat}

theorem doctypeEnd?_quoted {c : Char} (hc : c = '"' ∨ c = '\'') {raw : List Char} (hraw : c ∉ raw)
    (after : List Char) :
    doctypeEnd? depth (c :: (raw ++ c :: after)) = doctypeEnd? depth after := by
  have hcut : cutAt? [c] (raw ++ c :: after) = some (raw, after) := by
    have hmark : ¬ [c] <:+: raw := by rwa [List.singleton_infix_iff]
    refine cutAt?_append after ?_ hmark
    intro k hk hpos
    simp only [List.length_singleton] at hk
    omega
  rw [doctypeEnd?]
  simp only [hc, Bool.or_eq_true, decide_eq_true_eq, if_true]
  split
  · rename_i hcut'
    rw [hcut] at hcut'
    cases hcut'
    rfl
  · rename_i hcut'
    rw [hcut] at hcut'
    cases hcut'

/-- A comment or an instruction is passed over up to its mark. -/
theorem doctypeEnd?_comment {raw : List Char} (hbegins : "<!--".toList <+: raw ++ "-->".toList)
    (hraw : ¬ "-->".toList <:+: raw) (after : List Char) :
    doctypeEnd? depth (raw ++ ("-->".toList ++ after)) = doctypeEnd? depth after := by
  have hcut := cutAt?_append after (by decide : Unbordered "-->".toList) hraw
  obtain ⟨more, hmore⟩ : ∃ more, raw ++ ("-->".toList ++ after) = '<' :: more := by
    obtain ⟨more, hmore⟩ := hbegins
    exact ⟨_, by rw [← List.append_assoc, ← hmore]; rfl⟩
  have hcomment : beginsWith "<!--".toList (raw ++ ("-->".toList ++ after)) = true := by
    rw [beginsWith_iff, ← List.append_assoc]
    exact hbegins.trans (List.prefix_append _ _)
  rw [hmore] at hcut hcomment ⊢
  rw [doctypeEnd?]
  simp only [hcomment, if_true]
  split
  · rename_i hquote
    exact absurd hquote (by decide)
  · split
    · rename_i hcut'
      rw [hcut] at hcut'
      cases hcut'
      rfl
    · rename_i hcut'
      rw [hcut] at hcut'
      cases hcut'

theorem doctypeEnd?_instruction {raw : List Char} (hbegins : "<?".toList <+: raw ++ "?>".toList)
    (hraw : ¬ "?>".toList <:+: raw) (after : List Char) :
    doctypeEnd? depth (raw ++ ("?>".toList ++ after)) = doctypeEnd? depth after := by
  have hcut := cutAt?_append after (by decide : Unbordered "?>".toList) hraw
  obtain ⟨more, hmore⟩ : ∃ more, raw ++ ("?>".toList ++ after) = '<' :: '?' :: more := by
    obtain ⟨more, hmore⟩ := hbegins
    exact ⟨_, by rw [← List.append_assoc, ← hmore]; rfl⟩
  have hcomment : beginsWith "<!--".toList ('<' :: '?' :: more) = false := rfl
  have hinstruction : beginsWith "<?".toList ('<' :: '?' :: more) = true := rfl
  rw [hmore] at hcut ⊢
  rw [doctypeEnd?]
  simp only [hcomment, hinstruction, Bool.false_eq_true, if_false, if_true]
  split
  · rename_i hquote
    exact absurd hquote (by decide)
  · split
    · rename_i hcut'
      rw [hcut] at hcut'
      cases hcut'
      rfl
    · rename_i hcut'
      rw [hcut] at hcut'
      cases hcut'

/-- A section is passed over with the sections inside it. -/
theorem doctypeEnd?_section {raw : List Char} {after : List Char}
    (hraw : afterSections? 1 (raw ++ after) = some after) :
    doctypeEnd? depth ("<![".toList ++ (raw ++ after)) = doctypeEnd? depth after := by
  have hsplit : "<![".toList ++ (raw ++ after) = '<' :: '!' :: '[' :: (raw ++ after) := by simp
  have hcomment : beginsWith "<!--".toList ('<' :: '!' :: '[' :: (raw ++ after)) = false := rfl
  have hinstruction : beginsWith "<?".toList ('<' :: '!' :: '[' :: (raw ++ after)) = false := rfl
  have hsection : beginsWith "<![".toList ('<' :: '!' :: '[' :: (raw ++ after)) = true := rfl
  have hafter : afterSections? 1 (('!' :: '[' :: (raw ++ after)).drop 2) = some after := hraw
  rw [hsplit, doctypeEnd?]
  simp only [hcomment, hinstruction, hsection, Bool.false_eq_true, if_false, if_true]
  split
  · rename_i hquote
    exact absurd hquote (by decide)
  · split
    · rename_i hafter'
      rw [hafter] at hafter'
      cases hafter'
      rfl
    · rename_i hafter'
      rw [hafter] at hafter'
      cases hafter'

/-- Any other tag opens a declaration that has an end of its own. -/
theorem doctypeEnd?_open {rest : List Char} (hcomment : ¬ "<!--".toList <+: '<' :: rest)
    (hinstruction : ¬ "<?".toList <+: '<' :: rest) (hsection : ¬ "<![".toList <+: '<' :: rest) :
    doctypeEnd? depth ('<' :: rest) = doctypeEnd? (depth + 1) rest := by
  rw [doctypeEnd?]
  simp only [beginsWith_eq_false hcomment, beginsWith_eq_false hinstruction,
    beginsWith_eq_false hsection]
  simp

theorem not_prefix_of_ne {c : Char} (hc : c ≠ '<') (mark rest : List Char) :
    ¬ '<' :: mark <+: c :: rest := fun h => hc (List.cons_prefix_cons.1 h).1.symm

theorem doctypeEnd?_close (depth : Nat) (rest : List Char) :
    doctypeEnd? (depth + 1) ('>' :: rest) = doctypeEnd? depth rest := by
  have hmark : ∀ mark, beginsWith ('<' :: mark) ('>' :: rest) = false := fun mark =>
    beginsWith_eq_false (not_prefix_of_ne (by decide) mark rest)
  rw [doctypeEnd?]
  simp [hmark]

theorem doctypeEnd?_end (rest : List Char) : doctypeEnd? 0 ('>' :: rest) = some ('>' :: rest) := by
  have hmark : ∀ mark, beginsWith ('<' :: mark) ('>' :: rest) = false := fun mark =>
    beginsWith_eq_false (not_prefix_of_ne (by decide) mark rest)
  rw [doctypeEnd?]
  simp [hmark]

theorem doctypeEnd?_plain {c : Char} (hc : c ∉ ['"', '\'', '<', '>']) (rest : List Char) :
    doctypeEnd? depth (c :: rest) = doctypeEnd? depth rest := by
  simp only [List.mem_cons, List.not_mem_nil, or_false, not_or] at hc
  have hmark : ∀ mark, beginsWith ('<' :: mark) (c :: rest) = false := fun mark =>
    beginsWith_eq_false (not_prefix_of_ne hc.2.2.1 mark rest)
  rw [doctypeEnd?]
  simp [hmark, hc]

/-- White space in front makes no difference. -/
theorem doctypeEnd?_blank {space : List Char} (h : Blank space) (rest : List Char) :
    doctypeEnd? depth (space ++ rest) = doctypeEnd? depth rest := by
  induction space with
  | nil => rfl
  | cons c cs ih =>
    obtain ⟨hc, hcs⟩ := List.forall_mem_cons.1 h
    refine (doctypeEnd?_plain ?_ _).trans (ih hcs)
    simp only [List.mem_cons, List.not_mem_nil, or_false]
    rintro (rfl | rfl | rfl | rfl) <;> cases hc

end Scan

/-- The scan of a text ends at a `>`, and comes to it whatever stands behind it. -/
def ScansTo (depth : Nat) (cs tail : List Char) : Prop :=
  ∃ before rest, tail = '>' :: rest ∧ cs = before ++ '>' :: rest ∧
    ∀ rest', doctypeEnd? depth (before ++ '>' :: rest') = some ('>' :: rest')

namespace ScansTo

variable {depth depth' : Nat} {c : Char} {cs raw after tail : List Char}

/-- What is passed over goes in front. -/
theorem prepend (h : ScansTo depth' after tail) (passed : List Char)
    (hpass : ∀ after', doctypeEnd? depth (passed ++ after') = doctypeEnd? depth' after') :
    ScansTo depth (passed ++ after) tail := by
  obtain ⟨before, rest, rfl, rfl, hall⟩ := h
  refine ⟨passed ++ before, rest, rfl, (List.append_assoc _ _ _).symm, fun rest' => ?_⟩
  rw [List.append_assoc, hpass, hall]

theorem quoted (h : ScansTo depth after tail) (hquote : c = '"' ∨ c = '\'')
    (hcut : cutAt? [c] cs = some (raw, after)) : ScansTo depth (c :: cs) tail := by
  have hraw : c ∉ raw := by
    have hnone := not_infix_of_cutAt? (List.cons_ne_nil c []) hcut
    rwa [List.singleton_infix_iff] at hnone
  have hsplit : c :: cs = (c :: (raw ++ [c])) ++ after := by
    rw [eq_append_of_cutAt? hcut, List.cons_append]
  rw [hsplit]
  refine h.prepend _ fun after' => ?_
  have hpass : doctypeEnd? depth _ = _ := doctypeEnd?_quoted hquote hraw after'
  simpa using hpass

theorem comment (h : ScansTo depth after tail) (hbegins : beginsWith "<!--".toList cs = true)
    (hcut : cutAt? "-->".toList cs = some (raw, after)) : ScansTo depth cs tail := by
  have hmark := not_infix_of_cutAt? (by decide) hcut
  have hsplit : cs = (raw ++ "-->".toList) ++ after := eq_append_of_cutAt? hcut
  have hbegins' : "<!--".toList <+: raw ++ "-->".toList := by
    rw [beginsWith_iff, hsplit] at hbegins
    refine (prefix_append_iff ?_ _).1 hbegins
    cases raw with
    | nil => exact absurd hbegins (by simp)
    | cons d raw => simp
  rw [hsplit]
  refine h.prepend _ fun after' => ?_
  rw [List.append_assoc]
  exact doctypeEnd?_comment hbegins' hmark after'

theorem instruction (h : ScansTo depth after tail) (hbegins : beginsWith "<?".toList cs = true)
    (hcut : cutAt? "?>".toList cs = some (raw, after)) : ScansTo depth cs tail := by
  have hmark := not_infix_of_cutAt? (by decide) hcut
  have hsplit : cs = (raw ++ "?>".toList) ++ after := eq_append_of_cutAt? hcut
  have hbegins' : "<?".toList <+: raw ++ "?>".toList := by
    rw [beginsWith_iff, hsplit] at hbegins
    exact (prefix_append_iff (by simp) _).1 hbegins
  rw [hsplit]
  refine h.prepend _ fun after' => ?_
  rw [List.append_assoc]
  exact doctypeEnd?_instruction hbegins' hmark after'

theorem sections (h : ScansTo depth after tail) (hbegins : beginsWith "<![".toList cs = true)
    (hafter : afterSections? 1 (cs.drop 3) = some after) : ScansTo depth cs tail := by
  obtain ⟨inner, rfl⟩ := beginsWith_iff.1 hbegins
  obtain ⟨raw, hraw, -, hpass⟩ := exists_afterSections hafter
  have hsplit : "<![".toList ++ inner = ("<![".toList ++ raw) ++ after := by
    rw [List.append_assoc, ← hraw]
    rfl
  rw [hsplit]
  refine h.prepend _ fun after' => ?_
  rw [List.append_assoc]
  exact doctypeEnd?_section (hpass after')

/-- Whether a tag opens anything else does not depend on what stands behind the end. -/
theorem opened (h : ScansTo (depth + 1) cs tail)
    (hcomment : ¬ beginsWith "<!--".toList ('<' :: cs) = true)
    (hinstruction : ¬ beginsWith "<?".toList ('<' :: cs) = true)
    (hsection : ¬ beginsWith "<![".toList ('<' :: cs) = true) :
    ScansTo depth ('<' :: cs) tail := by
  obtain ⟨before, rest, rfl, rfl, hall⟩ := h
  refine ⟨'<' :: before, rest, rfl, rfl, fun rest' => ?_⟩
  have hsame : ∀ mark : List Char, '>' ∉ mark →
      ¬ beginsWith mark ('<' :: (before ++ '>' :: rest)) = true →
        ¬ mark <+: '<' :: (before ++ '>' :: rest') := by
    intro mark hmark hnone hprefix
    rw [beginsWith_iff] at hnone
    have hbefore := (prefix_append_cons_iff hmark ('<' :: before) rest').1 hprefix
    exact hnone ((prefix_append_cons_iff hmark ('<' :: before) rest).2 hbefore)
  exact (doctypeEnd?_open (hsame _ (by decide) hcomment) (hsame _ (by decide) hinstruction)
    (hsame _ (by decide) hsection)).trans (hall rest')

end ScansTo

/-- The end of a document type is found without looking behind it. -/
theorem scansTo_of_doctypeEnd? {depth : Nat} {cs tail : List Char}
    (h : doctypeEnd? depth cs = some tail) : ScansTo depth cs tail := by
  fun_induction doctypeEnd? depth cs with
  | case1 | case3 | case5 | case7 | case9 => cases h
  | case2 depth c cs hquote raw after hcut ih =>
    exact (ih h).quoted (by simpa using hquote) hcut
  | case4 depth c cs _ hcomment raw after hcut ih => exact (ih h).comment hcomment hcut
  | case6 depth c cs _ _ hinstruction raw after hcut ih => exact (ih h).instruction hinstruction hcut
  | case8 depth c cs _ _ _ hsection after hafter ih => exact (ih h).sections hsection hafter
  | case10 depth cs _ hcomment hinstruction hsection ih =>
    exact (ih h).opened hcomment hinstruction hsection
  | case11 cs =>
    cases h
    exact ⟨[], cs, rfl, rfl, doctypeEnd?_end⟩
  | case12 depth cs hdepth _ _ _ _ _ ih =>
    obtain ⟨depth, rfl⟩ := Nat.exists_eq_succ_of_ne_zero hdepth
    exact (ih h).prepend ['>'] (doctypeEnd?_close depth)
  | case13 depth c cs hquote _ _ _ hopen hclose ih =>
    have hplain : c ∉ ['"', '\'', '<', '>'] := by
      simp only [Bool.or_eq_true, decide_eq_true_eq, not_or] at hquote
      simp [hquote, hopen, hclose]
    exact (ih h).prepend [c] (doctypeEnd?_plain hplain)

/-! ## Content with document types in it -/

/-- A text that may stand in a document type: the first end that is found is the one after
it. -/
def StandsInDoctype (body : List Char) : Prop :=
  ∀ rest, doctypeEnd? 0 (body ++ '>' :: rest) = some ('>' :: rest)

/-- White space in front is no part of what stands in a document type. -/
theorem standsInDoctype_blank {space body : List Char} (h : Blank space) :
    StandsInDoctype (space ++ body) ↔ StandsInDoctype body := by
  unfold StandsInDoctype
  simp only [List.append_assoc, doctypeEnd?_blank h]

/-- What a document is made of: content, with document types between it. -/
inductive Manuscript where
  | last (items : List Construct)
  | typed (items : List Construct) (body : List Char) (more : Manuscript)

namespace Manuscript

/-- A text that is content with document types between it.  They stand only at the top. -/
inductive SpelledBy (atTop : Bool) : Manuscript → List Char → Prop where
  | last {items : List Construct} {text : List Char} (content : Content atTop items text) :
      SpelledBy atTop (.last items) text
  | typed {items : List Construct} {more : Manuscript} {text space body rest : List Char}
      (top : atTop = true) (content : Content atTop items text) (blank : Blank space)
      (trimmed : body.head?.all (fun c => !isSpace c) = true) (stands : StandsInDoctype body)
      (spelled : SpelledBy atTop more rest) :
      SpelledBy atTop (.typed items body more)
        (text ++ ("<!DOCTYPE".toList ++ (space ++ (body ++ '>' :: rest))))

/-- A document type as a node. -/
def doctypeTree (body : List Char) : Tree :=
  .node ⟨.doctype, none, some (String.ofList body), []⟩ []

/-- The nodes that a manuscript becomes at the top of a document, in their order. -/
def trees (options : ParseOptions) : Manuscript → List Tree
  | last items => Construct.allTrees options true (Construct.allJoined items)
  | typed items body more =>
    Construct.allTrees options true (Construct.allJoined items) ++
      ((if options.contains .doctype then [doctypeTree body] else []) ++ more.trees options)

variable {atTop : Bool} {m : Manuscript} {text : List Char}

/-- Content goes in front of a manuscript. -/
theorem SpelledBy.prepend (h : m.SpelledBy atTop text) {spelling : List Char}
    (hmore : ∀ {items text}, Content atTop items text →
      ∃ items', Content atTop items' (spelling ++ text)) :
    ∃ m' : Manuscript, m'.SpelledBy atTop (spelling ++ text) := by
  cases h with
  | last hcontent =>
    obtain ⟨items', hcontent'⟩ := hmore hcontent
    exact ⟨_, .last hcontent'⟩
  | typed htop hcontent hblank htrimmed hstands hspelled =>
    obtain ⟨items', hcontent'⟩ := hmore hcontent
    rw [← List.append_assoc]
    exact ⟨_, .typed htop hcontent' hblank htrimmed hstands hspelled⟩

/-- A manuscript without a document type is content. -/
theorem SpelledBy.exists_content (h : m.SpelledBy atTop text)
    (hdoctype : ¬ "<!DOCTYPE".toList <:+: text) : ∃ items, Content atTop items text := by
  cases h with
  | last hcontent => exact ⟨_, hcontent⟩
  | typed =>
    refine absurd ?_ hdoctype
    exact (List.prefix_append _ _).isInfix.trans (List.suffix_append _ _).isInfix

/-- The trees of a manuscript may stand at the top of a document, and nothing but names, values
and attributes is in their nodes. -/
theorem SpelledBy.lawful_trees (h : m.SpelledBy true text) (options : ParseOptions) :
    ∀ t ∈ m.trees options, t.Lawful ∧ t.Unadorned ∧
      NodeKind.document.allowsChild t.label.kind = true := by
  induction h with
  | last hcontent => exact hcontent.joined.1.lawful_trees options
  | typed _ hcontent _ _ _ _ ih =>
    refine List.forall_mem_append.2 ⟨hcontent.joined.1.lawful_trees options,
      List.forall_mem_append.2 ⟨?_, ih⟩⟩
    split
    · exact List.forall_mem_singleton.2 (Tree.lawful_leaf (fun h => absurd rfl h) (fun _ => rfl)
        (fun h => by cases h) rfl)
    · exact List.forall_mem_nil _

/-- Character data at the top becomes a node only in a fragment. -/
theorem SpelledBy.fragment_of_isPcdata (h : m.SpelledBy true text) {options : ParseOptions}
    {t : Tree} (ht : t ∈ m.trees options) (htext : t.IsPcdata) :
    options.contains .fragment = true := by
  induction h with
  | last => exact Construct.fragment_of_isPcdata ht htext
  | typed _ _ _ _ _ _ ih =>
    obtain hcontent | hmore := List.mem_append.1 ht
    · exact Construct.fragment_of_isPcdata hcontent htext
    · obtain hdoctype | hmore := List.mem_append.1 hmore
      · split at hdoctype
        · obtain rfl := List.mem_singleton.1 hdoctype
          cases htext
        · cases hdoctype
      · exact ih hmore

end Manuscript

end XmlTree
