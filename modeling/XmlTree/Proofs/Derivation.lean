/-
  Proofs/Derivation.lean --- content is read as the trees of its constructs.

  WHAT THIS FILE IS FOR.  Each construct of the grammar is read as events that say its tree,
  and the reader goes on exactly after it.  By induction on the derivation, content is read
  to its end without a fault, and what is built from the events is what the constructs say.

  WHAT IS NOT HEARD.  Some character data makes an event and no node: white space that is
  not asked for, and text at the top of a document.  A build is the same when such events
  are left out, and the events that remain say trees one for one.
-/
import XmlTree.Proofs.Doctypes
import XmlTree.Proofs.Events
import XmlTree.Proofs.Filling

set_option autoImplicit false

namespace XmlTree

variable {options : ParseOptions} {text rest : List Char} {o : Nat} {atTop : Bool}

/-! ## Conversions of what stands in a text -/

theorem convertLineEnds_inPlace (cs : List Char) : (convertLineEnds cs).InPlace cs := by
  unfold convertLineEnds
  split
  · exact .fresh _
  · exact .verbatim

theorem sectionConversion_inPlace (options : ParseOptions) (cs : List Char) :
    (TreeBuilder.sectionConversion options cs).InPlace cs := by
  unfold TreeBuilder.sectionConversion
  split
  · exact convertLineEnds_inPlace cs
  · exact .verbatim

theorem convertPcdata_inPlace (htrim : options.contains .trimPcdata = false) (cs : List Char) :
    (convertPcdata options cs).InPlace cs := by
  simp only [convertPcdata, htrim, Bool.false_eq_true, if_false]
  split
  · exact .fresh _
  · rw [Nat.sub_self]
    exact .verbatim

theorem convertAttribute_inPlace (options : ParseOptions) (cs : List Char) :
    (convertAttribute options cs).InPlace cs := by
  unfold convertAttribute
  simp only
  split
  · exact .verbatim
  · exact .fresh _

/-- A piece of the text becomes what its conversion answers. -/
theorem Span.Within.becomes {s : Span} (h : s.Within text) {conversion : Conversion}
    (hplace : conversion.InPlace s.text) :
    s.Becomes text conversion (String.ofList conversion.text) :=
  ⟨h, hplace, String.toList_ofList.symm⟩

/-! ## Events that are heard -/

/-- Whether an event makes anything, with so many elements open. -/
def LoadEvent.isHeard (options : ParseOptions) (depth : Nat) : LoadEvent → Bool
  | .text raw _ => options.keepsRun (depth == 0) raw.text
  | _ => true

/-- The events that make something. -/
def ParseOptions.heard (options : ParseOptions) : EventPlace → List LoadEvent → List LoadEvent
  | _, [] => []
  | p, e :: es =>
    (if e.isHeard options p.depth then [e] else []) ++ options.heard (e.place p) es

theorem heard_append (p : EventPlace) (es es' : List LoadEvent) :
    options.heard p (es ++ es') =
      options.heard p es ++ options.heard (es.foldl LoadEvent.place p) es' := by
  induction es generalizing p with
  | nil => rfl
  | cons e es ih => simp [ParseOptions.heard, ih]

/-- Attributes are heard, and leave the elements open that are open. -/
theorem heard_attributes {as : List TreeAttribute} {es : List LoadEvent}
    (h : List.Forall₂ (LoadEvent.SaysAttribute options text) as es) (p : EventPlace) :
    options.heard p es = es ∧ (es.foldl LoadEvent.place p).depth = p.depth := by
  induction h generalizing p with
  | nil => exact ⟨rfl, rfl⟩
  | cons he _ ih =>
    obtain ⟨name, raw, rfl, -⟩ := he
    obtain ⟨hheard, hdepth⟩ := ih ((LoadEvent.attribute name (some raw)).place p)
    refine ⟨?_, hdepth⟩
    rw [ParseOptions.heard, hheard]
    rfl

/-- Character data that is heard would be kept in an element too. -/
theorem keepsRun_of_mem_heard {p : EventPlace} {es : List LoadEvent} {raw : Span} {closing : Bool}
    (h : .text raw closing ∈ options.heard p es) : options.keepsRun false raw.text = true := by
  induction es generalizing p with
  | nil => cases h
  | cons e es ih =>
    rw [ParseOptions.heard, List.mem_append] at h
    obtain h | h := h
    · split at h
      · rename_i hheard
        obtain rfl := List.mem_singleton.1 h
        rw [LoadEvent.isHeard, ParseOptions.keepsRun, Bool.and_eq_true] at hheard
        simp [ParseOptions.keepsRun, hheard.1]
      · cases h
    · exact ih h

/-- A build is the same without the events that are not heard. -/
theorem Building.foldl_heard {target : LoadTarget} {b : TreeBuilder} {p : EventPlace}
    (h : Building true target b p) (hoptions : target.options.KeepsTextApart)
    {es : List LoadEvent} (hes : FitsAll true p es) :
    (target.options.heard p es).foldl (TreeBuilder.after target) b =
      es.foldl (TreeBuilder.after target) b := by
  induction es generalizing b p with
  | nil => rfl
  | cons e es ih =>
    obtain ⟨he, hrest⟩ := hes
    rw [ParseOptions.heard, List.foldl_append, List.foldl_cons, ← ih (h.add he) hrest]
    refine congrArg (fun b => List.foldl (TreeBuilder.after target) b _) ?_
    split
    · rfl
    · rename_i hsilent
      cases e with
      | text raw closing =>
        have htop : (b.doc.kind (b.cursor target) == .document) = (p.depth == 0) := by
          obtain ⟨hopen, hcursor⟩ | helement := h.cursor_cases
          · have hdepth : p.depth = 0 := by rw [← h.depth, hopen]; rfl
            rw [hcursor, h.document rfl, hdepth]
            rfl
          · have hdepth : p.depth ≠ 0 := by
              intro hzero
              have hopen : b.openNodes = [] := List.length_eq_zero_iff.1 (h.depth.trans hzero)
              have hcursor : b.cursor target = target.base := by simp [TreeBuilder.cursor, hopen]
              rw [hcursor, h.document rfl] at helement
              cases helement
            rw [helement, beq_false_of_ne hdepth]
            rfl
        show b = (b.addText target raw closing).2
        have hdropped : ¬ target.options.keepsRun (p.depth == 0) raw.text = true := hsilent
        rw [TreeBuilder.addText_eq hoptions, htop, if_neg hdropped]
      | _ => exact absurd rfl hsilent

/-! ## Events that say constructs -/

theorem Tree.allSaidBy_singleton {t : Tree} {es : List LoadEvent} (h : t.SaidBy options text es) :
    Tree.AllSaidBy options text [t] es := ⟨es, [], by simp, h, rfl⟩

theorem Tree.AllSaidBy.append {ts ts' : List Tree} {es es' : List LoadEvent}
    (h : Tree.AllSaidBy options text ts es) (h' : Tree.AllSaidBy options text ts' es') :
    Tree.AllSaidBy options text (ts ++ ts') (es ++ es') := by
  induction ts generalizing es with
  | nil =>
    obtain rfl : es = [] := h
    exact h'
  | cons t ts ih =>
    obtain ⟨first, more, rfl, hfirst, hmore⟩ := h
    exact ⟨first, more ++ es', by simp, hfirst, ih hmore⟩

/-- Events of which those that are heard say trees, and that leave open what is open. -/
def Tree.AllTold (options : ParseOptions) (text : List Char) (atTop : Bool) (ts : List Tree)
    (es : List LoadEvent) : Prop :=
  ∀ p : EventPlace, (p.depth == 0) = atTop → (es.foldl LoadEvent.place p).depth = p.depth ∧
    Tree.AllSaidBy options text ts (options.heard p es)

theorem Tree.AllTold.append {ts ts' : List Tree} {es es' : List LoadEvent}
    (h : Tree.AllTold options text atTop ts es) (h' : Tree.AllTold options text atTop ts' es') :
    Tree.AllTold options text atTop (ts ++ ts') (es ++ es') := by
  intro p hp
  obtain ⟨hdepth, hsaid⟩ := h p hp
  obtain ⟨hdepth', hsaid'⟩ := h' (es.foldl LoadEvent.place p) (by rw [hdepth, hp])
  refine ⟨?_, ?_⟩
  · rw [List.foldl_append, hdepth', hdepth]
  · rw [heard_append]
    exact hsaid.append hsaid'

/-- One event that is always heard and leaves open what is open. -/
theorem Tree.allTold_singleton {t : Tree} {e : LoadEvent}
    (hheard : ∀ depth, e.isHeard options depth = true)
    (hdepth : ∀ p, (e.place p).depth = p.depth) (hsaid : t.SaidBy options text [e]) :
    Tree.AllTold options text atTop [t] [e] := by
  intro p _
  refine ⟨hdepth p, ?_⟩
  rw [ParseOptions.heard, ParseOptions.heard, hheard]
  exact Tree.allSaidBy_singleton hsaid

/-- Events of which those that are heard say the trees of constructs. -/
def Construct.AllSay (options : ParseOptions) (text : List Char) (atTop : Bool)
    (items : List Construct) (es : List LoadEvent) : Prop :=
  Tree.AllTold options text atTop (allTrees options atTop items) es

namespace Construct

theorem AllSay.cons {item : Construct} {items : List Construct} {es es' : List LoadEvent}
    (h : AllSay options text atTop [item] es) (h' : AllSay options text atTop items es') :
    AllSay options text atTop (item :: items) (es ++ es') := by
  have htold := Tree.AllTold.append h h'
  rwa [allTrees, allTrees, List.append_nil] at htold

/-- One event that is always heard and leaves open what is open. -/
theorem allSay_singleton {item : Construct} {t : Tree} {e : LoadEvent}
    (htrees : item.trees options atTop = [t]) (hheard : ∀ depth, e.isHeard options depth = true)
    (hdepth : ∀ p, (e.place p).depth = p.depth) (hsaid : t.SaidBy options text [e]) :
    AllSay options text atTop [item] [e] := by
  rw [AllSay, allTrees, allTrees, htrees]
  exact Tree.allTold_singleton hheard hdepth hsaid

/-- The start of an element, what is in it, and its end. -/
theorem allSay_element {name : String} {as : List RawAttribute} {inner : List Construct}
    {opened : Span} {attributes es : List LoadEvent} (hname : opened.Spells text name)
    (has : List.Forall₂ (LoadEvent.SaysAttribute options text) (as.map (RawAttribute.tree options))
      attributes)
    (hinner : AllSay options text false inner es) :
    AllSay options text atTop [.element name as inner]
      (.openElement opened :: (attributes ++ (es ++ [.closeElement]))) := by
  intro p _
  let q : EventPlace := ⟨p.depth + 1, true⟩
  obtain ⟨hheard, hdepth⟩ := heard_attributes has q
  obtain ⟨hdepth', hsaid⟩ := hinner (attributes.foldl LoadEvent.place q) (by rw [hdepth]; rfl)
  have hclosed : (es.foldl LoadEvent.place (attributes.foldl LoadEvent.place q)).depth =
      p.depth + 1 := hdepth'.trans hdepth
  refine ⟨?_, ?_⟩
  · show ((attributes ++ (es ++ [LoadEvent.closeElement])).foldl LoadEvent.place q).depth = _
    rw [List.foldl_append, List.foldl_append]
    show (es.foldl LoadEvent.place (attributes.foldl LoadEvent.place q)).depth - 1 = _
    rw [hclosed, Nat.add_sub_cancel]
  · have hall : options.heard p (.openElement opened :: (attributes ++ (es ++ [.closeElement]))) =
        .openElement opened :: (attributes ++ (options.heard (attributes.foldl LoadEvent.place q)
          es ++ [.closeElement])) := by
      rw [ParseOptions.heard, heard_append, heard_append]
      show _ :: (options.heard q attributes ++ _) = _
      rw [hheard]
      rfl
    rw [hall, allTrees, allTrees, List.append_nil, trees]
    exact Tree.allSaidBy_singleton ⟨opened, attributes, _, rfl, hname, has, hsaid⟩

theorem allSay_nil : AllSay options text atTop [] [] := fun _ _ => ⟨rfl, rfl⟩

/-- A declaration with its attributes. -/
theorem allSay_declaration {target : String} {as : List RawAttribute} {found : Span}
    {attributes : List LoadEvent} (hname : found.Spells text target)
    (has : List.Forall₂ (LoadEvent.SaysAttribute options text) (as.map (RawAttribute.tree options))
      attributes) :
    AllSay options text atTop [.declaration target as] (.declaration found :: attributes) := by
  intro p _
  obtain ⟨hheard, hdepth⟩ := heard_attributes has ⟨p.depth, true⟩
  refine ⟨hdepth, ?_⟩
  have hall : options.heard p (.declaration found :: attributes) =
      .declaration found :: attributes := by
    rw [ParseOptions.heard]
    exact congrArg (LoadEvent.declaration found :: ·) hheard
  rw [hall, allTrees, allTrees, List.append_nil, trees]
  exact Tree.allSaidBy_singleton ⟨found, attributes, rfl, hname, has⟩

end Construct

/-! ## What is read of attributes -/

namespace Reader

open Cursor

theorem isNameChar_of_isSpace {c : Char} (h : isSpace c = true) : isNameChar c = false := by
  simp only [isSpace, Bool.or_eq_true, beq_iff_eq] at h
  obtain ((rfl | rfl) | rfl) | rfl := h <;> decide

theorem skipSpace_append {space : List Char} (h : Blank space)
    (hrest : rest.head?.all (fun c => !isSpace c) = true) :
    skipSpace ⟨o, space ++ rest⟩ = ⟨o + byteSize space, rest⟩ :=
  congrArg Prod.snd (takeWhile_append h hrest)

theorem unbordered_singleton (c : Char) : Unbordered [c] := by
  intro k hk hpos
  simp only [List.length_singleton] at hk
  omega

/-- An attribute is read up to its second quote, if no name follows at once. -/
theorem readAttribute_spelled (options : ParseOptions) {a : RawAttribute}
    {spelling : List Char} (h : a.SpelledBy spelling)
    (hrest : rest.head?.any isNameStart = false) (hon : On text ⟨o, spelling ++ rest⟩) :
    ∃ e o', e.SaysAttribute options text (a.tree options) ∧ On text ⟨o', rest⟩ ∧
      readAttribute ⟨o, spelling ++ rest⟩ = .next e ⟨o', rest⟩ := by
  cases h with
  | @mk name raw before after quote hname hbefore hafter hquotes hraw =>
    have hsplit : name.toList ++ (before ++ '=' :: (after ++ quote :: (raw ++ [quote]))) ++ rest =
        name.toList ++ (before ++ '=' :: (after ++ quote :: (raw ++ ([quote] ++ rest)))) := by
      simp
    rw [hsplit] at hon ⊢
    obtain ⟨hnameWithin, hon⟩ := hon.append
    obtain ⟨hrawWithin, hon⟩ := hon.append.2.cons.append.2.cons.append
    have hspace : isSpace quote = false := by
      obtain rfl | rfl := hquotes <;> rfl
    have hquote : (decide (quote = '"') || decide (quote = '\'')) = true := by
      simpa using hquotes
    have hmark : ¬ [quote] <:+: raw := by rwa [List.singleton_infix_iff]
    have hhead : (before ++ '=' :: (after ++ quote :: (raw ++ ([quote] ++ rest)))).head?.all
        (fun c => !isNameChar c) = true := by
      cases before with
      | nil => rfl
      | cons c cs => simp [isNameChar_of_isSpace (hbefore c List.mem_cons_self)]
    refine ⟨_, _, ⟨_, _, rfl, ⟨hnameWithin, rfl⟩, hrawWithin.becomes
      (convertAttribute_inPlace options raw)⟩, hon.append.2, ?_⟩
    rw [readAttribute, name?_append hname hhead]
    simp only
    rw [skipSpace_append hbefore (by rfl)]
    simp only [List.head?_cons, if_true, skip_one]
    rw [skipSpace_append hafter (by simp [hspace])]
    simp only [hquote, if_true, skip_one,
      upTo?_append (unbordered_singleton quote) hmark, hrest,
      Bool.false_eq_true, if_false]

/-- A tag has an end, or white space, or the name of an attribute where its attributes are. -/
theorem attributes_head {as : List RawAttribute} {spelling : List Char}
    (h : AttributesSpelledBy as spelling) :
    (as = [] ∧ spelling = []) ∨ ∃ c cs, spelling = c :: cs ∧ isSpace c = true := by
  cases h with
  | nil hblank =>
    cases spelling with
    | nil => exact .inl ⟨rfl, rfl⟩
    | cons c cs => exact .inr ⟨c, cs, rfl, hblank c List.mem_cons_self⟩
  | @cons _ _ space _ _ hblank hapart _ _ =>
    cases space with
    | nil => exact absurd rfl hapart
    | cons c cs => exact .inr ⟨c, _, rfl, hblank c List.mem_cons_self⟩

/-- No name begins or goes on where the attributes of a tag begin. -/
theorem not_name_of_attributes {as : List RawAttribute} {spelling : List Char}
    (h : AttributesSpelledBy as spelling) (hrest : rest.head?.all (fun c => !isNameChar c) = true) :
    (spelling ++ rest).head?.all (fun c => !isNameChar c) = true := by
  obtain ⟨-, rfl⟩ | ⟨c, cs, rfl, hspace⟩ := attributes_head h
  · exact hrest
  · simp [isNameChar_of_isSpace hspace]

theorem not_nameStart_of_not_nameChar {cs : List Char}
    (h : cs.head?.all (fun c => !isNameChar c) = true) : cs.head?.any isNameStart = false := by
  cases cs with
  | nil => rfl
  | cons c cs =>
    cases hstart : isNameStart c with
    | false => simpa using hstart
    | true => simp [isNameChar_of_isNameStart hstart] at h

theorem TagEnd.not_name {inDeclaration empty : Bool} {close : List Char}
    (h : TagEnd inDeclaration close empty) :
    (close ++ rest).head?.all (fun c => !isNameChar c) = true := by
  cases h <;> rfl

/-- Attributes are read up to the end of their tag. -/
theorem readAttributes_spelled (options : ParseOptions) {inDeclaration empty : Bool}
    {close : List Char} (hclose : TagEnd inDeclaration close empty) {as : List RawAttribute}
    {spelling : List Char} (h : AttributesSpelledBy as spelling)
    (hon : On text ⟨o, spelling ++ (close ++ rest)⟩) :
    ∃ es o', List.Forall₂ (LoadEvent.SaysAttribute options text)
        (as.map (RawAttribute.tree options)) es ∧ On text ⟨o', rest⟩ ∧
      readAttributes inDeclaration ⟨o, spelling ++ (close ++ rest)⟩ =
        .closed es empty ⟨o', rest⟩ := by
  induction h generalizing o with
  | nil hblank =>
    have hon := hon.append.2
    cases hclose with
    | opening =>
      refine ⟨[], _, .nil, hon.cons, ?_⟩
      rw [readAttributes, List.cons_append, skipSpace_append hblank (by rfl)]
      simp [isNameStart]
    | empty =>
      refine ⟨[], _, .nil, hon.cons.cons, ?_⟩
      rw [readAttributes, List.cons_append, skipSpace_append hblank (by rfl)]
      simp [isNameStart, closeTag]
    | declaration =>
      refine ⟨[], _, .nil, hon.cons.cons, ?_⟩
      rw [readAttributes, List.cons_append, skipSpace_append hblank (by rfl)]
      simp [isNameStart, closeTag]
  | @cons a as space body more hblank hapart ha hmore ih =>
    have hsplit : space ++ (body ++ more) ++ (close ++ rest) =
        space ++ (body ++ (more ++ (close ++ rest))) := by
      simp
    rw [hsplit] at hon ⊢
    have hnext : (more ++ (close ++ rest)).head?.any isNameStart = false :=
      not_nameStart_of_not_nameChar (not_name_of_attributes hmore hclose.not_name)
    obtain ⟨e, o₁, hsay, hon₁, hread⟩ :=
      readAttribute_spelled options ha hnext hon.append.2
    obtain ⟨es, o₂, hsayAll, hon₂, hreadAll⟩ := ih hon₁
    refine ⟨e :: es, o₂, .cons hsay hsayAll, hon₂, ?_⟩
    obtain ⟨c, cs, hbody, hstart⟩ : ∃ c cs, body = c :: cs ∧ isNameStart c = true := by
      cases ha with
      | mk hname =>
        obtain ⟨c, cs, htext, hstart, -⟩ := isName_iff.1 hname
        exact ⟨c, _, by rw [htext]; rfl, hstart⟩
    rw [hbody, List.cons_append] at hread ⊢
    have hskip : skipSpace ⟨o, space ++ c :: (cs ++ (more ++ (close ++ rest)))⟩ =
        ⟨o + byteSize space, c :: (cs ++ (more ++ (close ++ rest)))⟩ :=
      skipSpace_append hblank (by simp [isSpace_of_isNameStart hstart])
    rw [readAttributes]
    simp only [hskip, hstart, if_true]
    split
    · rename_i e' next hread'
      rw [hskip, hread] at hread'
      obtain ⟨rfl, rfl⟩ := hread'
      rw [hreadAll]
      rfl
    · rename_i hread'
      rw [hskip, hread] at hread'
      cases hread'

/-! ## What is read of tags -/

/-- The start of an element is read up to the end of its tag. -/
theorem readStartTag_spelled (options : ParseOptions) (names : List (List Char))
    {name : String} (hname : IsName name) {empty : Bool} {close : List Char}
    (hclose : TagEnd false close empty) {as : List RawAttribute} {spelling : List Char}
    (h : AttributesSpelledBy as spelling)
    (hon : On text ⟨o, name.toList ++ (spelling ++ (close ++ rest))⟩) :
    ∃ opened es o', opened.Spells text name ∧
      List.Forall₂ (LoadEvent.SaysAttribute options text) (as.map (RawAttribute.tree options)) es ∧
      On text ⟨o', rest⟩ ∧
      readStartTag names ⟨o, name.toList ++ (spelling ++ (close ++ rest))⟩ =
        .next (.openElement opened :: (es ++ if empty then [.closeElement] else []))
          (if empty then names else name.toList :: names) ⟨o', rest⟩ := by
  have hhead : (spelling ++ (close ++ rest)).head?.all (fun c => !isNameChar c) = true :=
    not_name_of_attributes h hclose.not_name
  obtain ⟨hwithin, hon'⟩ := hon.append
  obtain ⟨rfl, rfl⟩ | ⟨c, cs, rfl, hspace⟩ := attributes_head h
  · rw [List.nil_append] at hon' hhead ⊢
    cases hclose with
    | opening =>
      refine ⟨_, [], _, ⟨hwithin, rfl⟩, .nil, hon'.cons, ?_⟩
      rw [readStartTag, name?_append hname hhead]
      simp
    | empty =>
      refine ⟨_, [], _, ⟨hwithin, rfl⟩, .nil, hon'.cons.cons, ?_⟩
      rw [readStartTag, name?_append hname hhead]
      simp
  · obtain ⟨es, o', hsay, hon', hread⟩ := readAttributes_spelled options hclose h hon'
    refine ⟨_, es, o', ⟨hwithin, rfl⟩, hsay, hon', ?_⟩
    have hgreater : c ≠ '>' := by
      rintro rfl
      exact absurd hspace (by decide)
    have hslash : c ≠ '/' := by
      rintro rfl
      exact absurd hspace (by decide)
    rw [List.cons_append] at hread hhead ⊢
    rw [readStartTag, name?_append hname hhead]
    simp only [hread, hspace, hgreater, hslash, if_true, if_false]
    cases empty
    · simp
    · simp

/-- The end of an element is read if it is the innermost one. -/
theorem readEndTag_spelled (names : List (List Char)) {name : String} (hname : IsName name)
    {space : List Char} (hspace : Blank space)
    (hon : On text ⟨o, name.toList ++ (space ++ '>' :: rest)⟩) :
    ∃ o', On text ⟨o', rest⟩ ∧
      readEndTag (name.toList :: names) ⟨o, name.toList ++ (space ++ '>' :: rest)⟩ =
        .next [.closeElement] names ⟨o', rest⟩ := by
  have hhead : (space ++ '>' :: rest).head?.all (fun c => !isNameChar c) = true :=
    not_name_of_attributes (.nil hspace) rfl
  refine ⟨_, hon.append.2.append.2.cons, ?_⟩
  simp only [readEndTag, name?_append hname hhead, Option.getD_some, if_true]
  rw [skipSpace_append hspace (by rfl)]
  simp

/-- A declaration is read up to its end. -/
theorem readDeclaration_spelled (options : ParseOptions) (names : List (List Char)) (target : Span)
    {as : List RawAttribute} {spelling : List Char} (h : AttributesSpelledBy as spelling)
    (hon : On text ⟨o, spelling ++ ("?>".toList ++ rest)⟩) :
    ∃ es o', List.Forall₂ (LoadEvent.SaysAttribute options text)
        (as.map (RawAttribute.tree options)) es ∧ On text ⟨o', rest⟩ ∧
      readDeclaration names target ⟨o, spelling ++ ("?>".toList ++ rest)⟩ =
        .next (.declaration target :: es) names ⟨o', rest⟩ := by
  have hmark : "?>".toList = ['?', '>'] := rfl
  rw [hmark] at hon ⊢
  obtain ⟨rfl, rfl⟩ | ⟨c, cs, rfl, hspace⟩ := attributes_head h
  · have hon : On text ⟨o, '?' :: '>' :: rest⟩ := hon
    refine ⟨[], _, .nil, hon.cons.cons, ?_⟩
    simp [readDeclaration]
  · obtain ⟨es, o', hsay, hon', hread⟩ :=
      readAttributes_spelled options .declaration h hon
    refine ⟨es, o', hsay, hon', ?_⟩
    have hquestion : c ≠ '?' := by
      rintro rfl
      exact absurd hspace (by decide)
    rw [List.cons_append] at hread ⊢
    simp only [readDeclaration, hspace, hread, hquestion, if_true, if_false]

/-- An instruction is read up to its mark; the space before its text is not part of it. -/
theorem readInstruction_spelled (names : List (List Char)) (target : Span)
    {space value : List Char} (hspace : Blank space) (hapart : space ≠ [])
    (hhead : value.head?.all (fun c => !isSpace c) = true) (hmark : ¬ "?>".toList <:+: value)
    (hon : On text ⟨o, space ++ (value ++ ("?>".toList ++ rest))⟩) :
    ∃ raw o', raw.Within text ∧ raw.text = value ∧ On text ⟨o', rest⟩ ∧
      readInstruction names target ⟨o, space ++ (value ++ ("?>".toList ++ rest))⟩ =
        .next [.pi target (some raw)] names ⟨o', rest⟩ := by
  obtain ⟨hwithin, hon⟩ := hon.append.2.append
  refine ⟨_, _, hwithin, rfl, hon.append.2, ?_⟩
  obtain ⟨c, cs, rfl⟩ := List.exists_cons_of_ne_nil hapart
  have hc : isSpace c = true := hspace c List.mem_cons_self
  have hquestion : c ≠ '?' := by
    rintro rfl
    exact absurd hc (by decide)
  have hnext : (value ++ ("?>".toList ++ rest)).head?.all (fun c => !isSpace c) = true := by
    cases value with
    | nil => rfl
    | cons d ds => simpa using hhead
  have hskip := skipSpace_append (o := o) hspace hnext
  rw [List.cons_append] at hskip ⊢
  simp only [readInstruction, hc, hquestion, if_true, if_false, hskip]
  rw [upTo?_append (by decide) hmark]

/-! ## What is read of constructs -/

section Constructs

variable {mode : ReaderMode} {names : List (List Char)}

/-- Characters before a tag, or before the end of the text, are read. -/
theorem readAll_run (mode : ReaderMode) (names : List (List Char)) (o : Nat) {raw : List Char}
    (hraw : '<' ∉ raw) (hne : raw ≠ []) (hrest : rest = [] ∨ rest.head? = some '<') :
    ∃ closing, readAll mode names ⟨o, raw ++ rest⟩ =
      (readAll mode names ⟨o + byteSize raw, rest⟩).after [.text ⟨o, raw⟩ closing] := by
  obtain rfl | hhead := hrest
  · have htake : ∀ {o' : Nat} {cs : List Char}, '<' ∉ cs →
        takeWhile ⟨o', cs ++ []⟩ (· != '<') = (⟨o', cs⟩, ⟨o' + byteSize cs, []⟩) := by
      intro o' cs hcs
      refine takeWhile_append (fun c hc => ?_) rfl
      simpa using fun heq : c = '<' => hcs (heq ▸ hc)
    have hend : ∀ {o' : Nat} {cs : List Char}, '<' ∉ cs → readAll mode names ⟨o', cs ++ []⟩ =
        ⟨textEvents ⟨o', cs⟩ false, if names.isEmpty then none
          else some ⟨.endElementMismatch, o' + byteSize cs⟩⟩ := by
      intro o' cs hcs
      rw [readAll]
      simp only [htake hcs]
      split
      · rfl
      · rename_i hcons
        rw [htake hcs] at hcons
        cases hcons
    refine ⟨false, ?_⟩
    have hnone : readAll mode names ⟨o + byteSize raw, [] ++ []⟩ = _ := hend (by simp)
    rw [hend hraw]
    rw [List.append_nil, byteSize_nil, Nat.add_zero] at hnone
    rw [hnone]
    simp [Transcript.after, textEvents, hne]
  · obtain ⟨cs, rfl⟩ := List.head?_eq_some_iff.1 hhead
    exact readAll_text mode names o cs hraw hne

/-- A declaration that is wanted is one whatever the case of its target is. -/
theorem readQuestion_declares {cs : List Char} {target : String} (hname : IsName target)
    (htarget : eqIgnoringCase target.toList "xml".toList = true)
    (hwanted : mode.options.contains .declaration = true) (hbelow : mode.belowDocument = true)
    (hcs : cs.head?.all (fun c => !isNameChar c) = true) :
    readQuestion mode [] ⟨o, target.toList ++ cs⟩ =
      readDeclaration [] ⟨o, target.toList⟩ ⟨o + byteSize target.toList, cs⟩ := by
  rw [readQuestion, name?_append hname hcs]
  simp only [htarget, hwanted, hbelow, if_true, Bool.not_true, Bool.false_eq_true, if_false,
    List.isEmpty_nil, Bool.and_self]

open Construct

/-- Character data is read up to a tag, or up to the end of the text. -/
theorem readsBack_run (htrim : mode.options.contains .trimPcdata = false) {raw : List Char}
    (hne : raw ≠ []) (htagless : '<' ∉ raw) (hnext : rest = [] ∨ rest.head? = some '<')
    (hon : On text ⟨o, raw ++ rest⟩) :
    ReadsBack mode text names o raw rest (AllSay mode.options text atTop [.run raw]) := by
  obtain ⟨hwithin, hon⟩ := hon.append
  obtain ⟨closing, hread⟩ := readAll_run mode names o htagless hne hnext
  refine ⟨_, _, fun p hp => ⟨rfl, ?_⟩, hon, hread⟩
  rw [allTrees, allTrees, trees, ParseOptions.heard, ParseOptions.heard, LoadEvent.isHeard, hp]
  split
  · exact Tree.allSaidBy_singleton
      ⟨_, closing, rfl, hwithin.becomes (convertPcdata_inPlace htrim _)⟩
  · exact rfl

/-- An element without content is read up to the end of its tag. -/
theorem readsBack_empty {name : String} {as : List RawAttribute} {attributes : List Char}
    (hname : IsName name) (has : AttributesSpelledBy as attributes)
    (hon : On text ⟨o, '<' :: (name.toList ++ (attributes ++ "/>".toList)) ++ rest⟩) :
    ReadsBack mode text names o ('<' :: (name.toList ++ (attributes ++ "/>".toList))) rest
      (AllSay mode.options text atTop [.element name as []]) := by
  have hsplit : '<' :: (name.toList ++ (attributes ++ "/>".toList)) ++ rest =
      '<' :: (name.toList ++ (attributes ++ (['/', '>'] ++ rest))) := by
    simp
  rw [hsplit] at hon
  obtain ⟨opened, es, o', hopened, hsay, hon', hread⟩ :=
    readStartTag_spelled mode.options names hname .empty has hon.cons
  refine .of_markup hsplit (allSay_element hopened hsay allSay_nil) hon' ?_
  rw [readMarkup_name hname]
  exact hread

/-- What begins with a given word is read up to the mark that ends it. -/
theorem readsBack_delimited {item : Construct} (word : List Char) (event : Span → LoadEvent)
    (status : LoadStatus) {mark raw : List Char} (hmark : Unbordered mark)
    (hraw : ¬ mark <:+: raw)
    (hsay : ∀ found : Span, found.Within text → found.text = raw →
      AllSay mode.options text atTop [item] [event found])
    (hword : ∀ {o : Nat} {cs : List Char}, readExclamation mode names ⟨o, word ++ cs⟩ =
      readDelimited names ⟨o + byteSize word, cs⟩ mark true event status)
    (hon : On text ⟨o, '<' :: '!' :: word ++ (raw ++ mark) ++ rest⟩) :
    ReadsBack mode text names o ('<' :: '!' :: word ++ (raw ++ mark)) rest
      (AllSay mode.options text atTop [item]) := by
  have hsplit : '<' :: '!' :: word ++ (raw ++ mark) ++ rest =
      '<' :: '!' :: (word ++ (raw ++ (mark ++ rest))) := by
    simp
  rw [hsplit] at hon
  obtain ⟨found, o', hwithin, hfound, hon', hread⟩ := readDelimited_spelling hmark hraw names
    event status hon.cons.cons.append.2
  refine .of_markup hsplit (hsay found hwithin hfound) hon' ?_
  rw [readMarkup_exclamation, hword]
  exact hread

/-- An instruction that is a target only is read up to its mark. -/
theorem readsBack_bare (hmarkup : mode.options.KeepsMarkup) {target : String}
    (hname : IsName target) (htarget : eqIgnoringCase target.toList "xml".toList = false)
    (hon : On text ⟨o, "<?".toList ++ (target.toList ++ "?>".toList) ++ rest⟩) :
    ReadsBack mode text names o ("<?".toList ++ (target.toList ++ "?>".toList)) rest
      (AllSay mode.options text atTop [.pi target none]) := by
  have hsplit : "<?".toList ++ (target.toList ++ "?>".toList) ++ rest =
      '<' :: '?' :: (target.toList ++ '?' :: '>' :: rest) := by
    simp
  rw [hsplit] at hon
  obtain ⟨hwithin, hon⟩ := hon.cons.cons.append
  have hsay : AllSay mode.options text atTop [.pi target none]
      [.pi ⟨o + '<'.utf8Size + '?'.utf8Size, target.toList⟩ none] :=
    allSay_singleton rfl (fun _ => rfl) (fun _ => rfl) ⟨_, none, rfl, ⟨hwithin, rfl⟩, rfl, nofun⟩
  refine .of_markup hsplit hsay hon.cons.cons ?_
  rw [readMarkup_question, readQuestion_instruction hname htarget hmarkup.pi rfl]
  simp [readInstruction]

/-- An instruction with a text is read up to its mark. -/
theorem readsBack_pi (hmarkup : mode.options.KeepsMarkup) {target : String}
    {space value : List Char} (hname : IsName target)
    (htarget : eqIgnoringCase target.toList "xml".toList = false) (hblank : Blank space)
    (hapart : space ≠ []) (hhead : value.head?.all (fun c => !isSpace c) = true)
    (hmark : ¬ "?>".toList <:+: value)
    (hon : On text
      ⟨o, "<?".toList ++ (target.toList ++ (space ++ (value ++ "?>".toList))) ++ rest⟩) :
    ReadsBack mode text names o
      ("<?".toList ++ (target.toList ++ (space ++ (value ++ "?>".toList)))) rest
      (AllSay mode.options text atTop [.pi target (some value)]) := by
  have hsplit : "<?".toList ++ (target.toList ++ (space ++ (value ++ "?>".toList))) ++ rest =
      '<' :: '?' :: (target.toList ++ (space ++ (value ++ ("?>".toList ++ rest)))) := by
    simp
  rw [hsplit] at hon
  obtain ⟨hwithin, hon⟩ := hon.cons.cons.append
  obtain ⟨raw, o', hraw, rfl, hon', hread⟩ :=
    readInstruction_spelled names ⟨_, target.toList⟩ hblank hapart hhead hmark hon
  refine .of_markup hsplit (allSay_singleton rfl (fun _ => rfl) (fun _ => rfl)
    ⟨_, some raw, rfl, ⟨hwithin, rfl⟩, rfl, ?_⟩) hon' ?_
  · rintro found ⟨⟩
    exact ⟨hraw, String.toList_ofList.symm⟩
  have hnext : (space ++ (raw.text ++ ("?>".toList ++ rest))).head?.all
      (fun c => !isNameChar c) = true := by
    obtain ⟨c, cs, rfl⟩ := List.exists_cons_of_ne_nil hapart
    simp [isNameChar_of_isSpace (hblank c List.mem_cons_self)]
  rw [readMarkup_question, readQuestion_instruction hname htarget hmarkup.pi hnext]
  exact hread

/-- A declaration at the top of a document is read up to its mark. -/
theorem readsBack_declaration (hbelow : mode.belowDocument = true)
    (hmarkup : mode.options.KeepsMarkup) {target : String} {as : List RawAttribute}
    {attributes : List Char} (hname : IsName target)
    (htarget : eqIgnoringCase target.toList "xml".toList = true)
    (has : AttributesSpelledBy as attributes)
    (hon : On text ⟨o, "<?".toList ++ (target.toList ++ (attributes ++ "?>".toList)) ++ rest⟩) :
    ReadsBack mode text [] o ("<?".toList ++ (target.toList ++ (attributes ++ "?>".toList))) rest
      (AllSay mode.options text atTop [.declaration target as]) := by
  have hsplit : "<?".toList ++ (target.toList ++ (attributes ++ "?>".toList)) ++ rest =
      '<' :: '?' :: (target.toList ++ (attributes ++ ("?>".toList ++ rest))) := by
    simp
  rw [hsplit] at hon
  obtain ⟨hwithin, hon⟩ := hon.cons.cons.append
  obtain ⟨es, o', hsay, hon', hread⟩ :=
    readDeclaration_spelled mode.options [] ⟨_, target.toList⟩ has hon
  refine .of_markup hsplit (allSay_declaration ⟨hwithin, rfl⟩ hsay) hon' ?_
  have hhead : (attributes ++ ("?>".toList ++ rest)).head?.all (fun c => !isNameChar c) = true :=
    not_name_of_attributes has rfl
  rw [readMarkup_question, readQuestion_declares hname htarget hmarkup.declaration hbelow hhead]
  exact hread

theorem readExclamation_doctype {cs : List Char} :
    readExclamation mode names ⟨o, "DOCTYPE".toList ++ cs⟩ =
      readDoctype mode names ⟨o, "DOCTYPE".toList ++ cs⟩ := by
  have hcomment : beginsWith "--".toList ("DOCTYPE".toList ++ cs) = false := rfl
  have hcdata : beginsWith "[CDATA[".toList ("DOCTYPE".toList ++ cs) = false := rfl
  rw [readExclamation]
  simp only [hcomment, hcdata, beginsWith_append, Bool.false_eq_true, if_false, if_true]

/-- What stands in a document type is read up to its end. -/
theorem readDoctype_spelled (hbelow : mode.belowDocument = true) {space body : List Char}
    (hblank : Blank space) (hhead : body.head?.all (fun c => !isSpace c) = true)
    (hstands : StandsInDoctype body)
    (hon : On text ⟨o, "DOCTYPE".toList ++ (space ++ (body ++ '>' :: rest))⟩) :
    ∃ raw o', raw.Within text ∧ raw.text = body ∧ On text ⟨o', rest⟩ ∧
      readDoctype mode [] ⟨o, "DOCTYPE".toList ++ (space ++ (body ++ '>' :: rest))⟩ =
        .next (if mode.options.contains .doctype then [.doctype raw] else []) [] ⟨o', rest⟩ := by
  let start := o + byteSize "DOCTYPE".toList
  obtain ⟨hwithin, hon⟩ := hon.append.2.append.2.append
  have hkeyword : skip ⟨o, "DOCTYPE".toList ++ (space ++ (body ++ '>' :: rest))⟩ "DOCTYPE".length =
      ⟨start, space ++ (body ++ '>' :: rest)⟩ := skip_append o "DOCTYPE".toList _
  have hend : doctypeEnd? 0 (space ++ (body ++ '>' :: rest)) = some ('>' :: rest) :=
    (doctypeEnd?_blank hblank _).trans (hstands rest)
  have hraw : (space ++ (body ++ '>' :: rest)).take
      ((space ++ (body ++ '>' :: rest)).length - ('>' :: rest).length) = space ++ body := by
    have hlength : (space ++ body ++ '>' :: rest).length =
        (space ++ body).length + ('>' :: rest).length := List.length_append
    rw [← List.append_assoc, hlength, Nat.add_sub_cancel, List.take_left]
  have hspace : (space ++ body).takeWhile isSpace = space := takeWhile_append_of_head hblank hhead
  have hnext : skip ⟨start, space ++ (body ++ '>' :: rest)⟩ ((space ++ body).length + 1) =
      ⟨start + byteSize space + byteSize body + '>'.utf8Size, rest⟩ := by
    have hall := skip_append start (space ++ (body ++ ['>'])) rest
    simpa [Nat.add_assoc] using hall
  refine ⟨⟨start + byteSize space, body⟩, _, hwithin, rfl, hon.cons, ?_⟩
  rw [readDoctype]
  simp only [hbelow, hkeyword, hend, hraw, hspace, hnext, skip_append, List.drop_left,
    List.isEmpty_nil, Bool.and_self, if_true]
  rfl

/-- A document type at the top of a document is read up to its end. -/
theorem readsBack_doctype (hbelow : mode.belowDocument = true) {space body : List Char}
    (hblank : Blank space) (hhead : body.head?.all (fun c => !isSpace c) = true)
    (hstands : StandsInDoctype body)
    (hon : On text ⟨o, "<!DOCTYPE".toList ++ (space ++ (body ++ ['>'])) ++ rest⟩) :
    ReadsBack mode text [] o ("<!DOCTYPE".toList ++ (space ++ (body ++ ['>']))) rest
      (Tree.AllTold mode.options text true
        (if mode.options.contains .doctype then [Manuscript.doctypeTree body] else [])) := by
  have hsplit : "<!DOCTYPE".toList ++ (space ++ (body ++ ['>'])) ++ rest =
      '<' :: '!' :: ("DOCTYPE".toList ++ (space ++ (body ++ '>' :: rest))) := by
    simp
  rw [hsplit] at hon
  obtain ⟨raw, o', hwithin, rfl, hon', hread⟩ :=
    readDoctype_spelled hbelow hblank hhead hstands hon.cons.cons
  refine .of_markup hsplit ?_ hon'
    ((readMarkup_exclamation.trans readExclamation_doctype).trans hread)
  split
  · exact Tree.allTold_singleton (fun _ => rfl) (fun _ => rfl)
      ⟨raw, rfl, rfl, hwithin, String.toList_ofList.symm⟩
  · exact allSay_nil

variable (hbelow : mode.belowDocument = true) (hmarkup : mode.options.KeepsMarkup)
  (htrim : mode.options.contains .trimPcdata = false)

include hbelow hmarkup htrim

/-- A construct without content of its own is read as events that say its tree. -/
theorem readsBack_leaf {item : Construct} {spelling : List Char}
    (h : item.LeafSpelledBy atTop spelling) (hnames : atTop = true → names = [])
    (hnext : item.isRun = true → rest = [] ∨ rest.head? = some '<')
    (hon : On text ⟨o, spelling ++ rest⟩) :
    ReadsBack mode text names o spelling rest (AllSay mode.options text atTop [item]) := by
  cases h with
  | run hne htagless => exact readsBack_run htrim hne htagless (hnext rfl) hon
  | empty hname has => exact readsBack_empty hname has hon
  | comment hmark =>
    refine readsBack_delimited "--".toList .comment .badComment (by decide) hmark ?_ ?_ hon
    · rintro found hwithin rfl
      exact allSay_singleton rfl (fun _ => rfl) (fun _ => rfl)
        ⟨found, rfl, hwithin.becomes (sectionConversion_inPlace _ _)⟩
    · intro o cs
      rw [readExclamation_comment, hmarkup.comments]
  | cdata hmark =>
    refine readsBack_delimited "[CDATA[".toList .cdata .badCdata (by decide) hmark ?_ ?_ hon
    · rintro found hwithin rfl
      exact allSay_singleton rfl (fun _ => rfl) (fun _ => rfl)
        ⟨found, rfl, hwithin.becomes (sectionConversion_inPlace _ _)⟩
    · intro o cs
      rw [readExclamation_cdata, hmarkup.cdata]
  | bare hname htarget => exact readsBack_bare hmarkup hname htarget hon
  | pi hname htarget hblank hapart hhead hmark =>
    exact readsBack_pi hmarkup hname htarget hblank hapart hhead hmark hon
  | declaration htop hname htarget has =>
    obtain rfl := hnames htop
    exact readsBack_declaration hbelow hmarkup hname htarget has hon

omit hbelow hmarkup htrim in
/-- An element is read with its content, up to its end. -/
theorem readsBack_nested {name : String} {as : List RawAttribute} {inner : List Construct}
    {attributes content space : List Char} (hname : IsName name)
    (has : AttributesSpelledBy as attributes) (hblank : Blank space)
    (hinner : ∀ {o'}, On text ⟨o', content ++ ("</".toList ++ (name.toList ++
        (space ++ '>' :: rest)))⟩ →
      ReadsBack mode text (name.toList :: names) o' content
        ("</".toList ++ (name.toList ++ (space ++ '>' :: rest)))
        (AllSay mode.options text false inner))
    (hon : On text ⟨o, '<' :: (name.toList ++ (attributes ++ '>' :: (content ++ ("</".toList ++
      (name.toList ++ (space ++ ['>'])))))) ++ rest⟩) :
    ReadsBack mode text names o ('<' :: (name.toList ++ (attributes ++ '>' :: (content ++
      ("</".toList ++ (name.toList ++ (space ++ ['>']))))))) rest
      (AllSay mode.options text atTop [.element name as inner]) := by
  let tail := "</".toList ++ (name.toList ++ (space ++ '>' :: rest))
  have hsplit : '<' :: (name.toList ++ (attributes ++ '>' :: (content ++ ("</".toList ++
      (name.toList ++ (space ++ ['>'])))))) ++ rest =
        '<' :: (name.toList ++ (attributes ++ (['>'] ++ (content ++ tail)))) := by
    simp [tail]
  rw [hsplit] at hon
  obtain ⟨opened, es, o₁, hopened, hsay, hon₁, hread⟩ :=
    readStartTag_spelled mode.options names hname .opening has hon.cons
  obtain ⟨within, o₂, hwithin, hon₂, hreadInner⟩ := hinner hon₁
  have hon₂ : On text ⟨o₂, '<' :: '/' :: (name.toList ++ (space ++ '>' :: rest))⟩ := hon₂
  obtain ⟨o₃, hon₃, hreadEnd⟩ := readEndTag_spelled names hname hblank hon₂.cons.cons
  have hclose : readAll mode (name.toList :: names)
      ⟨o₂, '<' :: '/' :: (name.toList ++ (space ++ '>' :: rest))⟩ =
        (readAll mode names ⟨o₃, rest⟩).after [.closeElement] := by
    refine readAll_markup ?_
    rw [readMarkup_slash]
    exact hreadEnd
  have htail : readAll mode (name.toList :: names) ⟨o₂, tail⟩ =
      (readAll mode names ⟨o₃, rest⟩).after [.closeElement] := hclose
  have hopen : readAll mode names ⟨o, '<' :: (name.toList ++
      (attributes ++ (['>'] ++ (content ++ tail))))⟩ =
        (readAll mode (name.toList :: names) ⟨o₁, content ++ tail⟩).after
          (.openElement opened :: es) := by
    refine readAll_markup ?_
    rw [readMarkup_name hname]
    simpa using hread
  refine ⟨_, o₃, allSay_element hopened hsay hwithin, hon₃, ?_⟩
  rw [hsplit, hopen, hreadInner, htail, after_after, after_after]
  simp

/-- Content is read as events that say the trees of its constructs, if no character data
stands beside other character data. -/
theorem readsBack_content {items : List Construct} {spelling : List Char}
    (h : Content atTop items spelling) (hapart : allApart items = true)
    (hnames : atTop = true → names = []) (hnext : rest = [] ∨ rest.head? = some '<')
    (hon : On text ⟨o, spelling ++ rest⟩) :
    ReadsBack mode text names o spelling rest (AllSay mode.options text atTop items) := by
  induction h generalizing o names rest with
  | nil => exact ⟨[], o, allSay_nil, hon, rfl⟩
  | @leaf atTop item items spelling more hitem hmore ih =>
    obtain ⟨hbeside, -, hrest⟩ := allApart_cons.1 hapart
    rw [List.append_assoc] at hon
    have htag : item.isRun = true → more ++ rest = [] ∨ (more ++ rest).head? = some '<' := by
      intro hrun
      obtain rfl | hhead := hmore.head (hbeside hrun)
      · exact hnext
      · exact .inr (by rw [List.head?_append, hhead]; rfl)
    refine ((readsBack_leaf hbelow hmarkup htrim hitem hnames htag hon).append fun hon' =>
      ih hrest hnames hnext hon').mono fun es hes => ?_
    obtain ⟨first, last, rfl, hfirst, hlast⟩ := hes
    exact hfirst.cons hlast
  | @element atTop name as inner items spelling content space more hname has hcontent hblank
      hmore ihInner ihMore =>
    obtain ⟨-, hinner, hrest⟩ := allApart_cons.1 hapart
    have hsplit : '<' :: (name.toList ++ (spelling ++ '>' :: (content ++ ("</".toList ++
        (name.toList ++ (space ++ '>' :: more)))))) = '<' :: (name.toList ++ (spelling ++ '>' ::
          (content ++ ("</".toList ++ (name.toList ++ (space ++ ['>'])))))) ++ more := by
      simp
    rw [hsplit, List.append_assoc] at hon
    rw [hsplit]
    have hnested : ReadsBack mode text names o ('<' :: (name.toList ++ (spelling ++ '>' ::
        (content ++ ("</".toList ++ (name.toList ++ (space ++ ['>']))))))) (more ++ rest)
        (AllSay mode.options text atTop [.element name as inner]) :=
      readsBack_nested hname has hblank
        (fun hon' => ihInner hinner (fun h => by cases h) (.inr rfl) hon') hon
    refine (hnested.append fun hon' => ihMore hrest hnames hnext hon').mono fun es hes => ?_
    obtain ⟨first, last, rfl, hfirst, hlast⟩ := hes
    exact hfirst.cons hlast

end Constructs

/-- What is told as trees goes before what is told as more trees. -/
theorem ReadsBack.append_told {mode : ReaderMode} {names : List (List Char)}
    {written written' : List Char} {ts ts' : List Tree}
    (h : ReadsBack mode text names o written (written' ++ rest)
      (Tree.AllTold mode.options text atTop ts))
    (h' : ∀ {o'}, On text ⟨o', written' ++ rest⟩ →
      ReadsBack mode text names o' written' rest (Tree.AllTold mode.options text atTop ts')) :
    ReadsBack mode text names o (written ++ written') rest
      (Tree.AllTold mode.options text atTop (ts ++ ts')) := by
  refine (h.append h').mono fun es hes => ?_
  obtain ⟨first, last, rfl, hfirst, hlast⟩ := hes
  exact hfirst.append hlast

/-- A manuscript is read as events that say its trees. -/
theorem readsBack_manuscript {mode : ReaderMode} (hbelow : mode.belowDocument = true)
    (hmarkup : mode.options.KeepsMarkup) (htrim : mode.options.contains .trimPcdata = false)
    {m : Manuscript} {spelling : List Char} (h : m.SpelledBy true spelling)
    (hon : On text ⟨o, spelling ++ []⟩) :
    ReadsBack mode text [] o spelling [] (Tree.AllTold mode.options text true
      (m.trees mode.options)) := by
  induction h generalizing o with
  | last hcontent =>
    obtain ⟨hjoined, hapart⟩ := hcontent.joined
    exact readsBack_content hbelow hmarkup htrim hjoined hapart (fun _ => rfl) (.inl rfl) hon
  | @typed items more content space body rest _ hcontent hblank hhead hstands _ ih =>
    obtain ⟨hjoined, hapart⟩ := hcontent.joined
    have hsplit : content ++ ("<!DOCTYPE".toList ++ (space ++ (body ++ '>' :: rest))) =
        content ++ ("<!DOCTYPE".toList ++ (space ++ (body ++ ['>'])) ++ rest) := by
      simp
    rw [hsplit, List.append_assoc] at hon
    rw [hsplit]
    have hcontentRead := readsBack_content hbelow hmarkup htrim hjoined hapart (fun _ => rfl)
      (.inr rfl) hon
    refine hcontentRead.append_told fun hon' => ?_
    rw [List.append_assoc] at hon'
    exact (readsBack_doctype hbelow hblank hhead hstands hon').append_told ih

/-- The events of a manuscript say its trees. -/
theorem ofText_manuscript (hmarkup : options.KeepsMarkup)
    (htrim : options.contains .trimPcdata = false) {m : Manuscript} (h : m.SpelledBy true text) :
    ∃ es, Transcript.ofText ⟨options, true⟩ text = ⟨es, none⟩ ∧
      Tree.AllTold options text true (m.trees options) es := by
  have hon : On text ⟨0, text ++ []⟩ := ⟨[], by simp, rfl⟩
  let mode : ReaderMode := ⟨options, true⟩
  have htop : mode.belowDocument = true := rfl
  obtain ⟨es, o, htold, -, hread⟩ := readsBack_manuscript htop hmarkup htrim h hon
  refine ⟨es, ?_, htold⟩
  rw [List.append_nil, readAll_end] at hread
  rw [Transcript.ofText, Cursor.ofText, hread, Transcript.after, List.append_nil]

end Reader

/-! ## What is loaded -/

namespace Document

/-- A text that is told as trees is loaded as them, and counts as loaded if something has to
be there and is there. -/
theorem loadBelow_of_told (into : Document) (htexts : options.KeepsTextApart)
    (hsize : byteSize text < 2 ^ 32) {ts : List Tree} {es : List LoadEvent}
    (hread : Transcript.ofText ⟨options, true⟩ text = ⟨es, none⟩)
    (htold : Tree.AllTold options text true ts es)
    (htrees : ∀ t ∈ ts, t.Lawful ∧ t.Unadorned ∧
      NodeKind.document.allowsChild t.label.kind = true)
    (htop : ∀ t ∈ ts, t.IsPcdata → options.contains .fragment = true) :
    ∃ loaded, into.reset.loadBelow into.reset.root (String.ofList text) options =
        (if options.accepts text (ts.map fun t => t.label.kind) then ⟨.ok, 0⟩
          else ⟨.noDocumentElement, (String.ofList text).utf8ByteSize - 1⟩, loaded) ∧
      Whole loaded ∧ (loaded.tree loaded.root).exact = (Tree.node bareRoot ts).exact := by
  obtain ⟨-, hsaid⟩ := htold ⟨0, false⟩ rfl
  have hlawful : (Tree.node bareRoot ts).Lawful :=
    .node (fun hne => absurd rfl hne) (fun t ht => (htrees t ht).2.2) fun t ht => (htrees t ht).1
  obtain ⟨hwhole, hroot, hstands⟩ := foldl_after_loadStarted into hsize htexts hsaid
    (fun _ _ => keepsRun_of_mem_heard) hlawful (fun t ht => (htrees t ht).2.1) htop
  -- what is not heard makes nothing, and nothing is refused
  have hstart : Building true (into.loadTarget (String.ofList text) options)
      (into.loadStarted (String.ofList text)) ⟨0, false⟩ :=
    .start ((whole_reset into).sameShape (.ofTexts _)) (kind_root_reset into)
      fun _ => kind_loadStart into _
  have hfits := Transcript.ofText_fits ⟨options, true⟩ text
  have hshort := Transcript.ofText_short hsize ⟨options, true⟩
  rw [hread] at hfits hshort
  have hdone : (into.loadStarted (String.ofList text)).carriedOut
      (into.loadTarget (String.ofList text) options) ⟨es, none⟩ = ⟨es, none⟩ :=
    Transcript.heeded_eq_self (congrArg Prod.fst (TreeBuilder.heeded_of_short htexts.merge hshort))
  have hheard : (options.heard ⟨0, false⟩ es).foldl _ _ = es.foldl _ _ :=
    hstart.foldl_heard htexts hfits
  rw [hheard] at hwhole hroot hstands
  have hloaded := loadBelow_reset into text options
  have hkinds := hstands
  rw [Tree.StandsAt, hroot] at hkinds
  simp only [hread, hdone] at hloaded
  have haccepts := kinds_of_allStandAt hkinds.2.2
  refine ⟨_, hloaded.trans ?_, hwhole, ?_⟩
  · exact congrArg (fun kinds => (if options.accepts text kinds then _ else _, _)) haccepts
  obtain ⟨lay, hrooted⟩ := hwhole
  exact Tree.StandsAt.exact_eq hrooted.toLaidOut _ _ hstands

/-- A manuscript is loaded as its trees. -/
theorem loadBelow_of_manuscript (into : Document) (hmarkup : options.KeepsMarkup)
    (htexts : options.KeepsTextApart) {m : Manuscript} (h : m.SpelledBy true text)
    (hsize : byteSize text < 2 ^ 32) :
    ∃ loaded, into.reset.loadBelow into.reset.root (String.ofList text) options =
        (if options.accepts text ((m.trees options).map fun t => t.label.kind) then ⟨.ok, 0⟩
          else ⟨.noDocumentElement, (String.ofList text).utf8ByteSize - 1⟩, loaded) ∧
      Whole loaded ∧
        (loaded.tree loaded.root).exact = (Tree.node bareRoot (m.trees options)).exact := by
  obtain ⟨es, hread, htold⟩ := Reader.ofText_manuscript hmarkup htexts.trim h
  exact loadBelow_of_told into htexts hsize hread htold (h.lawful_trees options)
    fun _ => h.fragment_of_isPcdata

/-- Content is loaded as the trees of its constructs, if something has to be there for a text
to count as loaded and is there. -/
theorem loadBelow_of_content (into : Document) (hmarkup : options.KeepsMarkup)
    (htexts : options.KeepsTextApart) {items : List Construct} (h : Content true items text)
    (hsize : byteSize text < 2 ^ 32)
    (haccepts : options.accepts text ((Construct.allTrees options true
      (Construct.allJoined items)).map fun t => t.label.kind) = true) :
    ∃ loaded, into.reset.loadBelow into.reset.root (String.ofList text) options =
        (⟨.ok, 0⟩, loaded) ∧ Whole loaded ∧ (loaded.tree loaded.root).exact =
          (Tree.node bareRoot
            (Construct.allTrees options true (Construct.allJoined items))).exact := by
  obtain ⟨loaded, hbelow, hwhole, htree⟩ :=
    loadBelow_of_manuscript into hmarkup htexts (.last h) hsize
  rw [Manuscript.trees, haccepts] at hbelow
  exact ⟨loaded, hbelow, hwhole, htree⟩

end Document

end XmlTree
