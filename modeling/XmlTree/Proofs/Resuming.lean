/-
  Proofs/Resuming.lean --- reading a text and then what is written after it.

  WHAT THIS FILE IS FOR.  A reader goes over a text once, and what it has taken it does not
  look at again.  So a text that is read to its end without a fault is read in the same way
  when a tag is written after it, and the reader then stands at that tag as if it were at a
  beginning: no element is open, and only the number of bytes before it differs.

  ONE PASS.  Later places and text behind are dealt with together, function by function: the
  cursor is moved `k` bytes on and `more` is written behind its text.  What was read is read
  again; a fault is the same one if nothing is written behind the text.
-/
import XmlTree.Proofs.Reading
import XmlTree.Proofs.Recognition
import XmlTree.Proofs.Shifting

set_option autoImplicit false

namespace XmlTree

variable {text more : List Char} {k : Nat}

/-! ## Attributes -/

/-- The pieces of all events stand in the text where they say. -/
def AllWithin (text : List Char) (es : List LoadEvent) : Prop := ∀ e ∈ es, e.Within text

theorem allWithin_nil : AllWithin text [] := List.forall_mem_nil _

theorem AllWithin.cons {e : LoadEvent} {es : List LoadEvent} (he : e.Within text)
    (hes : AllWithin text es) : AllWithin text (e :: es) := List.forall_mem_cons.2 ⟨he, hes⟩

theorem allWithin_close : AllWithin text [.closeElement] := .cons trivial allWithin_nil

theorem AllWithin.append {es es' : List LoadEvent} (hes : AllWithin text es)
    (hes' : AllWithin text es') : AllWithin text (es ++ es') :=
  List.forall_mem_append.2 ⟨hes, hes'⟩

namespace Reader

open Cursor

variable {c : Cursor} {mode : ReaderMode} {names : List (List Char)}

/-- What reading an attribute of a text comes to when the text is moved and goes on. -/
def AttributeOutcome.Resumes (text more : List Char) (k : Nat) :
    AttributeOutcome → AttributeOutcome → Prop
  | .next e c, o => e.Within text ∧ On text c ∧ o = .next (e.later k) (c.later k more)
  | .fault es offset, o => AllWithin text es ∧
      (more = [] → o = .fault (es.map (·.later k)) (offset + k))

theorem readAttribute_resumes (hmore : BeginsTag more) (hon : On text c) :
    (readAttribute c).Resumes text more k (readAttribute (c.later k more)) := by
  unfold readAttribute
  rw [later_name? hmore]
  cases hname : c.name? with
  | none => exact ⟨allWithin_nil, fun _ => rfl⟩
  | some found =>
    obtain ⟨name, after⟩ := found
    obtain ⟨hwithin, hafter⟩ := hon.name? hname
    -- a fault after the name leaves the attribute without a value
    have hbare : AllWithin text [.attribute name none] :=
      .cons ⟨hwithin, nofun⟩ allWithin_nil
    simp only [Option.map_some, later_skipSpace hmore, rest_later]
    have hequals := hmore.head?_append (d := '=') (by decide) after.skipSpace.rest
    by_cases heq : after.skipSpace.rest.head? = some '='
    · simp only [if_pos heq, if_pos (hequals.2 heq), later_skip_one heq, later_skipSpace hmore,
        rest_later]
      have hvalue := (hafter.skipSpace.skip 1).skipSpace
      generalize (after.skipSpace.skip 1).skipSpace = value at hvalue ⊢
      cases hrest : value.rest with
      | nil =>
        refine ⟨hbare, ?_⟩
        rintro rfl
        rfl
      | cons quote tail =>
        have hquote : value.rest.head? = some quote := by rw [hrest]; rfl
        simp only [List.cons_append, later_skip_one hquote]
        split
        · cases hup : (value.skip 1).upTo? [quote] with
          | some found =>
            obtain ⟨raw, last⟩ := found
            obtain ⟨hraw, hlast⟩ := (hvalue.skip 1).upTo? hup
            have hevent : (LoadEvent.attribute name (some raw)).Within text :=
              ⟨hwithin, by simpa using hraw⟩
            simp only [later_upTo? hup, rest_later, hmore.any_append (p := isNameStart) rfl]
            split
            · exact ⟨.cons hevent allWithin_nil, fun _ => rfl⟩
            · exact ⟨hevent, hlast, rfl⟩
          | none =>
            refine ⟨hbare, ?_⟩
            rintro rfl
            rw [later_upTo?_none hup]
            rfl
        · exact ⟨hbare, fun _ => rfl⟩
    · simp only [if_neg heq, if_neg (mt hequals.1 heq)]
      exact ⟨hbare, fun _ => rfl⟩

/-- What reading attributes of a text comes to when the text is moved and goes on. -/
def AttributesOutcome.Resumes (text more : List Char) (k : Nat) :
    AttributesOutcome → AttributesOutcome → Prop
  | .closed es empty c, o => AllWithin text es ∧ On text c ∧
      o = .closed (es.map (·.later k)) empty (c.later k more)
  | .fault es status offset, o => AllWithin text es ∧
      (more = [] → o = .fault (es.map (·.later k)) status (offset + k))

theorem AttributesOutcome.Resumes.after {o o' : AttributesOutcome} (h : o.Resumes text more k o')
    {e : LoadEvent} (he : e.Within text) :
    (o.after e).Resumes text more k (o'.after (e.later k)) := by
  cases o with
  | closed es empty c =>
    obtain ⟨hes, hon, rfl⟩ := h
    exact ⟨.cons he hes, hon, rfl⟩
  | fault es status offset =>
    obtain ⟨hes, hfault⟩ := h
    refine ⟨.cons he hes, fun hnil => ?_⟩
    rw [hfault hnil]
    rfl

theorem closeTag_resumes (hmore : BeginsTag more) (hon : On text c) {d : Char}
    (hd : c.rest.head? = some d) (empty : Bool) (status : LoadStatus) :
    (closeTag c empty status).Resumes text more k (closeTag (c.later k more) empty status) := by
  have hclose := hmore.head?_append (d := '>') (by decide) (c.skip 1).rest
  simp only [closeTag, later_skip_one hd, rest_later]
  by_cases heq : (c.skip 1).rest.head? = some '>'
  · rw [if_pos heq, if_pos (hclose.2 heq), later_skip_one heq]
    exact ⟨allWithin_nil, (hon.skip 1).skip 1, rfl⟩
  · rw [if_neg heq, if_neg (mt hclose.1 heq)]
    exact ⟨allWithin_nil, fun _ => rfl⟩

/-- Reading attributes looks at the character behind white space. -/
theorem readAttributes_eq (inDeclaration : Bool) (c : Cursor) :
    readAttributes inDeclaration c =
      let here := c.skipSpace
      let status := if inDeclaration then LoadStatus.badPi else .badStartElement
      match here.rest with
      | [] => .fault [] status here.offset
      | ch :: _ =>
        if isNameStart ch then
          match readAttribute here with
          | .next e next => (readAttributes inDeclaration next).after e
          | .fault events offset => .fault events .badAttribute offset
        else if ch = '/' && !inDeclaration then closeTag here true status
        else if ch = '>' && !inDeclaration then .closed [] false (here.skip 1)
        else if ch = '?' && inDeclaration then closeTag here false status
        else .fault [] status here.offset := by
  rw [readAttributes]
  cases hrest : c.skipSpace.rest with
  | nil => simp only [hrest]
  | cons ch tail =>
    simp only [hrest]
    split
    · split
      · rename_i hread
        simp only [hread]
      · rename_i hread
        simp only [hread]
    · rfl

theorem readAttributes_resumes (hmore : BeginsTag more) (inDeclaration : Bool) (hon : On text c) :
    (readAttributes inDeclaration c).Resumes text more k
      (readAttributes inDeclaration (c.later k more)) := by
  fun_induction readAttributes inDeclaration c with
  | case1 c here status hrest =>
    refine ⟨allWithin_nil, ?_⟩
    rintro rfl
    have hrest' : c.skipSpace.rest = [] := hrest
    rw [readAttributes_eq, later_skipSpace hmore]
    simp only [rest_later, hrest', List.append_nil]
    rfl
  | case2 c here ch tail hrest hname e next hread ih =>
    have hstep := readAttribute_resumes (k := k) hmore hon.skipSpace
    rw [show readAttribute c.skipSpace = .next e next from hread] at hstep
    obtain ⟨he, hnext, heq⟩ := hstep
    have hrest' : c.skipSpace.rest = ch :: tail := hrest
    rw [readAttributes_eq _ (c.later k more), later_skipSpace hmore]
    simp only [rest_later, hrest', List.cons_append, if_pos hname, heq]
    exact (ih hnext).after he
  | case3 c here ch tail hrest hname es offset hread =>
    have hstep := readAttribute_resumes (k := k) hmore hon.skipSpace
    rw [show readAttribute c.skipSpace = .fault es offset from hread] at hstep
    obtain ⟨hes, hfault⟩ := hstep
    have hrest' : c.skipSpace.rest = ch :: tail := hrest
    refine ⟨hes, fun hnil => ?_⟩
    rw [readAttributes_eq, later_skipSpace hmore]
    simp only [rest_later, hrest', List.cons_append, if_pos hname, hfault hnil]
  | case4 c here status ch tail hrest hname hempty =>
    have hrest' : c.skipSpace.rest = ch :: tail := hrest
    rw [readAttributes_eq, later_skipSpace hmore]
    simp only [rest_later, hrest', List.cons_append, if_neg hname, if_pos hempty]
    exact closeTag_resumes hmore hon.skipSpace (congrArg List.head? hrest') _ _
  | case5 c here ch tail hrest hname hempty hclose =>
    have hrest' : c.skipSpace.rest = ch :: tail := hrest
    rw [readAttributes_eq, later_skipSpace hmore]
    simp only [rest_later, hrest', List.cons_append, if_neg hname, if_neg hempty, if_pos hclose,
      later_skip_one (congrArg List.head? hrest')]
    exact ⟨allWithin_nil, hon.skipSpace.skip 1, rfl⟩
  | case6 c here status ch tail hrest hname hempty hclose hdeclaration =>
    have hrest' : c.skipSpace.rest = ch :: tail := hrest
    rw [readAttributes_eq, later_skipSpace hmore]
    simp only [rest_later, hrest', List.cons_append, if_neg hname, if_neg hempty, if_neg hclose,
      if_pos hdeclaration]
    exact closeTag_resumes hmore hon.skipSpace (congrArg List.head? hrest') _ _
  | case7 c here status ch tail hrest hname hempty hclose hdeclaration =>
    have hrest' : c.skipSpace.rest = ch :: tail := hrest
    rw [readAttributes_eq, later_skipSpace hmore]
    simp only [rest_later, hrest', List.cons_append, if_neg hname, if_neg hempty, if_neg hclose,
      if_neg hdeclaration]
    exact ⟨allWithin_nil, fun _ => rfl⟩

end Reader

/-! ## Elements -/

/-- What reading a construct of a text comes to when the text is moved and goes on. -/
def ReadOutcome.Resumes (text more : List Char) (k : Nat) : ReadOutcome → ReadOutcome → Prop
  | .next es names c, o => AllWithin text es ∧ c.On text ∧
      o = .next (es.map (·.later k)) names (c.later k more)
  | .fault es status offset, o => AllWithin text es ∧
      (more = [] → o = .fault (es.map (·.later k)) status (offset + k))

namespace Reader

open Cursor

variable {c : Cursor} {mode : ReaderMode} {names : List (List Char)}

/-- The last character of a tag is `>`, or it is missing. -/
theorem close_resumes (hmore : BeginsTag more) (hon : On text c) {es es' : List LoadEvent}
    (hes : AllWithin text es) (hes' : AllWithin text es') (status : LoadStatus) :
    (if c.rest.head? = some '>' then ReadOutcome.next es names (c.skip 1)
      else .fault es' status c.offset).Resumes text more k
      (if (c.rest ++ more).head? = some '>' then
        .next (es.map (·.later k)) names ((c.later k more).skip 1)
      else .fault (es'.map (·.later k)) status (c.offset + k)) := by
  have hclose := hmore.head?_append (d := '>') (by decide) c.rest
  by_cases heq : c.rest.head? = some '>'
  · rw [if_pos heq, if_pos (hclose.2 heq), later_skip_one heq]
    exact ⟨hes, hon.skip 1, rfl⟩
  · rw [if_neg heq, if_neg (mt hclose.1 heq)]
    exact ⟨hes', fun _ => rfl⟩

theorem readStartTag_resumes (hmore : BeginsTag more) (hon : On text c) :
    (readStartTag names c).Resumes text more k (readStartTag names (c.later k more)) := by
  unfold readStartTag
  rw [later_name? hmore]
  cases hname : c.name? with
  | none => exact ⟨allWithin_nil, fun _ => rfl⟩
  | some found =>
    obtain ⟨name, after⟩ := found
    obtain ⟨hwithin, hafter⟩ := hon.name? hname
    have hopened : AllWithin text [.openElement name] := .cons hwithin allWithin_nil
    simp only [Option.map_some, rest_later]
    cases hrest : after.rest with
    | nil =>
      refine ⟨hopened, ?_⟩
      rintro rfl
      rfl
    | cons ch tail =>
      have hskip : (after.later k more).skip 1 = (after.skip 1).later k more :=
        later_skip_one (congrArg List.head? hrest)
      simp only [List.cons_append, hskip, rest_later]
      split
      · exact ⟨hopened, hafter.skip 1, rfl⟩
      · split
        · exact close_resumes hmore (hafter.skip 1)
            (hopened.append allWithin_close) hopened _
        · split
          · have hattributes := readAttributes_resumes (k := k) hmore false hafter
            split
            · rename_i es last hread
              rw [hread] at hattributes
              obtain ⟨hes, hlast, heq⟩ := hattributes
              rw [heq]
              refine ⟨hopened.append (hes.append allWithin_close), hlast, ?_⟩
              simp [LoadEvent.later]
            · rename_i es last hread
              rw [hread] at hattributes
              obtain ⟨hes, hlast, heq⟩ := hattributes
              rw [heq]
              exact ⟨hopened.append hes, hlast, rfl⟩
            · rename_i es status offset hread
              rw [hread] at hattributes
              obtain ⟨hes, hfault⟩ := hattributes
              refine ⟨hopened.append hes, fun hnil => ?_⟩
              rw [hfault hnil]
              rfl
          · exact ⟨hopened, fun _ => rfl⟩

theorem readEndTag_resumes (hmore : BeginsTag more) (hon : On text c) :
    (readEndTag names c).Resumes text more k (readEndTag names (c.later k more)) := by
  unfold readEndTag
  cases names with
  | nil => exact ⟨allWithin_nil, fun _ => rfl⟩
  | cons expected outer =>
    have hname : ∃ name after, c.name?.getD (⟨c.offset, []⟩, c) = (name, after) ∧
        (c.later k more).name?.getD (⟨c.offset + k, []⟩, c.later k more) =
          (name.later k, after.later k more) ∧ On text after := by
      rw [later_name? hmore]
      cases hname : c.name? with
      | none => exact ⟨_, _, rfl, rfl, hon⟩
      | some found => exact ⟨_, _, rfl, rfl, (hon.name? hname).2⟩
    obtain ⟨name, after, hfound, hfound', hafter⟩ := hname
    simp only [hfound, offset_later, hfound', Span.text_later, later_skipSpace hmore, rest_later]
    split
    · exact close_resumes hmore hafter.skipSpace allWithin_close allWithin_nil _
    · -- whether the text ends in the name can be told only if nothing is written behind it
      split
      · rename_i hcut
        refine ⟨allWithin_nil, ?_⟩
        rintro rfl
        rw [List.append_nil, if_pos hcut]
        rfl
      · rename_i hcut
        refine ⟨allWithin_nil, ?_⟩
        rintro rfl
        rw [List.append_nil, if_neg hcut]
        rfl

/-! ## Instructions and declarations -/

theorem readInstruction_resumes (hmore : BeginsTag more) (hon : On text c) {target : Span}
    (htarget : target.Within text) :
    (readInstruction names target c).Resumes text more k
      (readInstruction names (target.later k) (c.later k more)) := by
  have hbare : AllWithin text [.pi target none] := .cons ⟨htarget, nofun⟩ allWithin_nil
  simp only [readInstruction, rest_later]
  cases hrest : c.rest with
  | nil =>
    refine ⟨hbare, ?_⟩
    rintro rfl
    rfl
  | cons ch tail =>
    simp only [List.cons_append, later_skip_one (congrArg List.head? hrest), rest_later,
      later_skipSpace hmore]
    split
    · exact close_resumes hmore (hon.skip 1) hbare hbare _
    · split
      · cases hup : c.skipSpace.upTo? "?>".toList with
        | some found =>
          obtain ⟨value, last⟩ := found
          obtain ⟨hvalue, hlast⟩ := hon.skipSpace.upTo? hup
          rw [later_upTo? hup]
          exact ⟨.cons ⟨htarget, by simpa using hvalue⟩ allWithin_nil, hlast, rfl⟩
        | none =>
          refine ⟨hbare, ?_⟩
          rintro rfl
          rw [later_upTo?_none hup]
          exact congrArg _ (total_later c)
      · exact ⟨hbare, fun _ => rfl⟩

theorem readDeclaration_resumes (hmore : BeginsTag more) (hon : On text c) {target : Span}
    (htarget : target.Within text) :
    (readDeclaration names target c).Resumes text more k
      (readDeclaration names (target.later k) (c.later k more)) := by
  have hbare : AllWithin text [.declaration target] := .cons htarget allWithin_nil
  simp only [readDeclaration, rest_later]
  cases hrest : c.rest with
  | nil =>
    refine ⟨hbare, ?_⟩
    rintro rfl
    rfl
  | cons ch tail =>
    simp only [List.cons_append, later_skip_one (congrArg List.head? hrest), rest_later]
    split
    · exact close_resumes hmore (hon.skip 1) hbare hbare _
    · split
      · have hattributes := readAttributes_resumes (k := k) hmore true hon
        split
        · rename_i es empty last hread
          rw [hread] at hattributes
          obtain ⟨hes, hlast, heq⟩ := hattributes
          rw [heq]
          exact ⟨hbare.append hes, hlast, rfl⟩
        · rename_i es status offset hread
          rw [hread] at hattributes
          obtain ⟨hes, hfault⟩ := hattributes
          refine ⟨hbare.append hes, fun hnil => ?_⟩
          rw [hfault hnil]
          rfl
      · exact ⟨hbare, fun _ => rfl⟩

theorem readQuestion_resumes (hmore : BeginsTag more) (hon : On text c) :
    (readQuestion mode names c).Resumes text more k
      (readQuestion mode names (c.later k more)) := by
  unfold readQuestion
  rw [later_name? hmore]
  cases hname : c.name? with
  | none => exact ⟨allWithin_nil, fun _ => rfl⟩
  | some found =>
    obtain ⟨target, after⟩ := found
    obtain ⟨hwithin, hafter⟩ := hon.name? hname
    simp only [Option.map_some]
    rw [Span.text_later]
    generalize mode.options.contains _ = wanted
    split
    · -- the instruction is passed over
      cases hup : after.upTo? "?>".toList with
      | some found =>
        rw [later_upTo? hup]
        exact ⟨allWithin_nil, (hafter.upTo? hup).2, rfl⟩
      | none =>
        refine ⟨allWithin_nil, ?_⟩
        rintro rfl
        rw [later_upTo?_none hup]
        exact congrArg _ (total_later after)
    · split
      · split
        · exact readDeclaration_resumes hmore hafter hwithin
        · exact ⟨allWithin_nil, fun _ => rfl⟩
      · exact readInstruction_resumes hmore hafter hwithin

/-! ## Comments, CDATA sections, document types -/

theorem readDelimited_resumes (hon : On text c) {mark : List Char} {wanted : Bool}
    {event : Span → LoadEvent} {status : LoadStatus}
    (hevent : ∀ s, s.Within text → (event s).Within text)
    (hlater : ∀ s, event (s.later k) = (event s).later k) :
    (readDelimited names c mark wanted event status).Resumes text more k
      (readDelimited names (c.later k more) mark wanted event status) := by
  unfold readDelimited
  cases hup : c.upTo? mark with
  | some found =>
    obtain ⟨raw, last⟩ := found
    obtain ⟨hraw, hlast⟩ := hon.upTo? hup
    simp only [later_upTo? hup]
    refine ⟨?_, hlast, ?_⟩
    · cases wanted with
      | true => exact .cons (hevent raw hraw) allWithin_nil
      | false => exact allWithin_nil
    · cases wanted <;> simp [hlater]
  | none =>
    refine ⟨allWithin_nil, ?_⟩
    rintro rfl
    rw [later_upTo?_none hup]
    rfl

/-- The keyword is there, and two characters stand before it. -/
theorem readDoctype_resumes (hon : On text c) (hkeyword : "DOCTYPE".length ≤ c.rest.length)
    (hoffset : 2 ≤ c.offset) :
    (readDoctype mode names c).Resumes text more k
      (readDoctype mode names (c.later k more)) := by
  simp only [readDoctype, c.later_skip hkeyword, rest_later]
  have hbody := hon.skip "DOCTYPE".length
  generalize c.skip "DOCTYPE".length = body at hbody ⊢
  split
  · cases hend : doctypeEnd? 0 body.rest with
    | some tail =>
      obtain ⟨before, rest, rfl, hrest, hall⟩ := scansTo_of_doctypeEnd? hend
      have hend' : doctypeEnd? 0 (body.rest ++ more) = some ('>' :: (rest ++ more)) := by
        rw [hrest, List.append_assoc]
        exact hall (rest ++ more)
      have hraw : body.rest.take (body.rest.length - ('>' :: rest).length) = before := by
        simp [hrest]
      have hraw' : (body.rest ++ more).take
          ((body.rest ++ more).length - ('>' :: (rest ++ more)).length) = before := by
        rw [hrest, List.append_assoc]
        simp
      have hspace : (before.takeWhile isSpace).length ≤ before.length :=
        (List.takeWhile_prefix isSpace).length_le
      have hle : before.length + 1 ≤ body.rest.length := by
        simp [hrest]
      simp only [hend', hraw, hraw', body.later_skip hle]
      -- the body begins behind white space
      generalize (before.takeWhile isSpace).length = space at hspace
      rw [body.later_skip (by omega : space ≤ body.rest.length)]
      have hskip : On text ⟨(body.skip space).offset, before.drop space ++ '>' :: rest⟩ := by
        rw [← List.drop_append_of_le_length hspace, ← hrest]
        exact hbody.skip space
      refine ⟨?_, hbody.skip _, ?_⟩
      · split
        · exact .cons hskip.append.1 allWithin_nil
        · exact allWithin_nil
      · split <;> rfl
    | none =>
      refine ⟨allWithin_nil, ?_⟩
      rintro rfl
      rw [List.append_nil, hend]
      exact congrArg _ (total_later body)
  · refine ⟨allWithin_nil, fun _ => ?_⟩
    rw [offset_later, Nat.sub_add_comm hoffset]
    rfl

theorem readExclamation_resumes (hmore : BeginsTag more) (hon : On text c)
    (hoffset : 2 ≤ c.offset) :
    (readExclamation mode names c).Resumes text more k
      (readExclamation mode names (c.later k more)) := by
  have hcomment := hmore.beginsWith_append (by decide : '<' ∉ "--".toList) c.rest
  have hcdata := hmore.beginsWith_append (by decide : '<' ∉ "[CDATA[".toList) c.rest
  have hdoctype := hmore.beginsWith_append (by decide : '<' ∉ "DOCTYPE".toList) c.rest
  have hlength : ∀ {mark : List Char}, beginsWith mark c.rest = true →
      mark.length ≤ c.rest.length := fun h => (beginsWith_iff.1 h).length_le
  unfold readExclamation
  simp only [rest_later, hcomment, hcdata, hdoctype, hmore.head?_append (d := '-') (by decide),
    hmore.head?_append (d := '[') (by decide)]
  split
  · rename_i hbegins
    rw [c.later_skip (n := 2) (hlength hbegins)]
    exact readDelimited_resumes (hon.skip 2) (fun _ h => h) fun _ => rfl
  · split
    · rename_i hbegins
      rw [c.later_skip (n := 7) (hlength hbegins)]
      exact readDelimited_resumes (hon.skip 7) (fun _ h => h) fun _ => rfl
    · split
      · rename_i hbegins
        exact readDoctype_resumes hon (hlength hbegins) hoffset
      · split
        · exact ⟨allWithin_nil, fun _ => rfl⟩
        · split
          · exact ⟨allWithin_nil, fun _ => rfl⟩
          · exact ⟨allWithin_nil, fun _ => rfl⟩

/-! ## Whole texts -/

/-- Whatever construct it is. -/
theorem readMarkup_resumes (hmore : BeginsTag more) (hon : On text c) (hoffset : 1 ≤ c.offset) :
    (readMarkup mode names c).Resumes text more k (readMarkup mode names (c.later k more)) := by
  unfold readMarkup
  cases hrest : c.rest with
  | nil =>
    refine ⟨allWithin_nil, ?_⟩
    rintro rfl
    simp only [rest_later, hrest]
    rfl
  | cons ch tail =>
    simp only [rest_later, hrest, List.cons_append,
      later_skip_one (congrArg List.head? hrest)]
    split
    · exact readStartTag_resumes hmore hon
    · split
      · exact readEndTag_resumes hmore (hon.skip 1)
      · split
        · exact readQuestion_resumes hmore (hon.skip 1)
        · split
          · refine readExclamation_resumes hmore (hon.skip 1) ?_
            have hsize : (c.skip 1).offset = c.offset + ch.utf8Size := by
              simp [skip, hrest]
            have := ch.utf8Size_pos
            omega
          · exact ⟨allWithin_nil, fun _ => rfl⟩

/-- Reading goes on to the next tag. -/
theorem readAll_step (mode : ReaderMode) (names : List (List Char)) (c : Cursor) :
    readAll mode names c =
      let raw := (c.takeWhile (· != '<')).1
      let tag := (c.takeWhile (· != '<')).2
      let events := textEvents raw (beginsWith "</".toList tag.rest)
      match tag.rest with
      | [] => ⟨events, if names.isEmpty then none else some ⟨.endElementMismatch, tag.offset⟩⟩
      | _ :: _ =>
        match readMarkup mode names (tag.skip 1) with
        | .next es names next => (readAll mode names next).after (events ++ es)
        | .fault es status offset => ⟨events ++ es, some ⟨status, offset⟩⟩ := by
  rw [readAll]
  simp only
  split
  · rename_i hrest
    simp only [hrest]
    rfl
  · rename_i hrest
    simp only [hrest]
    split
    · rename_i hread
      simp only [hread]
      rfl
    · rename_i hread
      simp only [hread]
      rfl

/-- At a tag or at the end no characters come first. -/
theorem readAll_tag {tag : Cursor} (hhead : tag.rest.head?.all (fun d => !(d != '<')) = true)
    (mode : ReaderMode) (names : List (List Char)) :
    readAll mode names tag =
      match tag.rest with
      | [] => ⟨[], if names.isEmpty then none else some ⟨.endElementMismatch, tag.offset⟩⟩
      | _ :: _ =>
        match readMarkup mode names (tag.skip 1) with
        | .next es names next => (readAll mode names next).after es
        | .fault es status offset => ⟨es, some ⟨status, offset⟩⟩ := by
  have htake : tag.takeWhile (· != '<') = (⟨tag.offset, []⟩, tag) := by
    have hnone : takeWhile ⟨tag.offset, [] ++ tag.rest⟩ (· != '<') = _ :=
      takeWhile_append (List.forall_mem_nil _) hhead
    simpa using hnone
  rw [readAll_step, htake]
  rfl


/-- The characters up to the next tag become an event, and the reader stands at the tag. -/
theorem readAll_front (mode : ReaderMode) (names : List (List Char)) (c : Cursor) :
    readAll mode names c = (readAll mode names (c.takeWhile (· != '<')).2).after
      (textEvents (c.takeWhile (· != '<')).1
        (beginsWith "</".toList (c.takeWhile (· != '<')).2.rest)) := by
  obtain ⟨-, -, hhead⟩ := c.split_takeWhile (· != '<')
  rw [readAll_step mode names c, readAll_tag hhead]
  generalize (c.takeWhile (· != '<')).2 = tag
  generalize (c.takeWhile (· != '<')).1 = raw
  cases hrest : tag.rest with
  | nil => simp [hrest, Transcript.after]
  | cons d tail =>
    simp only [hrest]
    cases readMarkup mode names (tag.skip 1) with
    | next es names' next => simp [Transcript.after]
    | fault es status offset => simp [Transcript.after]

end Reader

namespace Transcript

variable {mode : ReaderMode}

/-- What reading a text comes to when the text is moved and goes on: if it is read to its end,
reading goes on behind it with nothing open. -/
def Resumes (mode : ReaderMode) (text more : List Char) (k : Nat)
    (t t' : Transcript) : Prop :=
  AllWithin text t.events ∧
    match t.fault with
    | none =>
      t' = (Reader.readAll mode [] ⟨byteSize text + k, more⟩).after (t.events.map (·.later k))
    | some fault =>
      more = [] → t' = ⟨t.events.map (·.later k), some ⟨fault.status, fault.offset + k⟩⟩

theorem Resumes.after {t t' : Transcript}
    (h : Resumes mode text more k t t') {es : List LoadEvent}
    (hes : AllWithin text es) :
    Resumes mode text more k (t.after es) (t'.after (es.map (·.later k))) := by
  obtain ⟨hevents, hfault⟩ := h
  refine ⟨hes.append hevents, ?_⟩
  obtain ⟨events, fault⟩ := t
  cases fault with
  | none =>
    have hdone : t' = _ := hfault
    rw [hdone, Reader.after_after]
    simp [Transcript.after]
  | some fault =>
    intro hnil
    have hdone : t' = _ := hfault hnil
    rw [hdone]
    simp [Transcript.after]

end Transcript

namespace Reader

open Cursor

variable {c : Cursor} {mode : ReaderMode} {names : List (List Char)}

theorem allWithin_textEvents {raw : Span} (h : raw.Within text) (closing : Bool) :
    AllWithin text (textEvents raw closing) := by
  unfold textEvents
  split
  · exact allWithin_nil
  · exact .cons h allWithin_nil

theorem map_textEvents (raw : Span) (closing : Bool) :
    (textEvents raw closing).map (·.later k) = textEvents (raw.later k) closing := by
  unfold textEvents
  cases hempty : raw.text.isEmpty with
  | true => simp [hempty]
  | false => simp [hempty, LoadEvent.later]

/-- Whether an end tag comes next is not changed by what is written behind the text. -/
theorem closing_append (hmore : BeginsTag more) (hclosing : beginsWith "</".toList more = false)
    (cs : List Char) : beginsWith "</".toList (cs ++ more) = beginsWith "</".toList cs := by
  match cs with
  | [] => exact hclosing
  | [d] =>
    cases more with
    | nil => rfl
    | cons e es =>
      obtain rfl := hmore e rfl
      simp [beginsWith, dropMark?]
  | d :: e :: cs =>
    rw [Bool.eq_iff_iff, beginsWith_iff, beginsWith_iff, prefix_append_iff (by simp)]

/-- The text moved on, where a tag comes. -/
theorem readAll_later (hmore : BeginsTag more) (hclosing : beginsWith "</".toList more = false)
    {raw : Span} {tag : Cursor} (htake : c.takeWhile (· != '<') = (raw, tag)) {d : Char}
    (hd : tag.rest.head? = some d) :
    readAll mode names (c.later k more) =
      match readMarkup mode names ((tag.skip 1).later k more) with
      | .next es names next => (readAll mode names next).after
          ((textEvents raw (beginsWith "</".toList tag.rest)).map (·.later k) ++ es)
      | .fault es status offset =>
        ⟨(textEvents raw (beginsWith "</".toList tag.rest)).map (·.later k) ++ es,
          some ⟨status, offset⟩⟩ := by
  have hlater : (c.later k more).takeWhile (· != '<') = _ := c.later_takeWhile hmore rfl
  obtain ⟨tail, hrest⟩ := List.head?_eq_some_iff.1 hd
  rw [readAll_step, hlater, htake]
  simp only [rest_later, closing_append hmore hclosing, later_skip_one hd, map_textEvents]
  simp only [hrest, List.cons_append]

/-- Behind a tag's first character a text does not begin. -/
theorem one_le_offset_skip {tag : Cursor} {ch : Char} {tail : List Char}
    (hrest : tag.rest = ch :: tail) : 1 ≤ (tag.skip 1).offset := by
  have := ch.utf8Size_pos
  simp [skip, hrest]
  omega

theorem readAll_resumes (hmore : BeginsTag more) (hclosing : beginsWith "</".toList more = false)
    (hon : On text c) :
    Transcript.Resumes mode text more k (readAll mode names c)
      (readAll mode names (c.later k more)) := by
  have hlater : ∀ c : Cursor, (c.later k more).takeWhile (· != '<') =
      ((c.takeWhile (· != '<')).1.later k, (c.takeWhile (· != '<')).2.later k more) :=
    later_takeWhile hmore rfl
  fun_induction readAll mode names c with
  | case1 names c raw tag events hrest =>
    obtain ⟨hraw, htag⟩ := hon.takeWhile (· != '<')
    have hevents : AllWithin text events := allWithin_textEvents hraw _
    have hdone : (c.takeWhile (· != '<')).2.later k more = ⟨byteSize text + k, more⟩ := by
      obtain ⟨pre, htext, hoffset⟩ := htag
      rw [show (c.takeWhile (· != '<')).2.rest = [] from hrest, List.append_nil] at htext
      rw [htext, ← hoffset, later, show (c.takeWhile (· != '<')).2.rest = [] from hrest]
      rfl
    rw [readAll_front, hlater, rest_later, closing_append hmore hclosing, hdone, ← map_textEvents]
    cases names with
    | nil => exact ⟨hevents, rfl⟩
    | cons name outer =>
      refine ⟨hevents, ?_⟩
      rintro rfl
      have hfault : readAll mode (name :: outer) ⟨byteSize text + k, []⟩ =
          ⟨[], some ⟨.endElementMismatch, byteSize text + k⟩⟩ := by
        rw [readAll_step]
        rfl
      have hoffset : tag.offset + k = byteSize text + k := congrArg offset hdone
      rw [hfault, hoffset]
      simp [Transcript.after, events, textEvents, raw, tag]
  | case2 names c raw tag events ch tail hrest es names' next hmarkup ih =>
    obtain ⟨hraw, htag⟩ := hon.takeWhile (· != '<')
    have hevents : AllWithin text events := allWithin_textEvents hraw _
    have hstep : (readMarkup mode names (tag.skip 1)).Resumes text more k
        (readMarkup mode names ((tag.skip 1).later k more)) :=
      readMarkup_resumes hmore (htag.skip 1) (one_le_offset_skip hrest)
    rw [hmarkup] at hstep
    obtain ⟨hes, hnext, heq⟩ := hstep
    rw [readAll_later hmore hclosing (show _ = (raw, tag) from rfl) (congrArg List.head? hrest),
      heq]
    have hdone := (ih hnext).after (hevents.append hes)
    rwa [List.map_append] at hdone
  | case3 names c raw tag events ch tail hrest es status offset hmarkup =>
    obtain ⟨hraw, htag⟩ := hon.takeWhile (· != '<')
    have hevents : AllWithin text events := allWithin_textEvents hraw _
    have hstep : (readMarkup mode names (tag.skip 1)).Resumes text more k
        (readMarkup mode names ((tag.skip 1).later k more)) :=
      readMarkup_resumes hmore (htag.skip 1) (one_le_offset_skip hrest)
    rw [hmarkup] at hstep
    obtain ⟨hes, hfault⟩ := hstep
    refine ⟨hevents.append hes, fun hnil => ?_⟩
    rw [readAll_later hmore hclosing (show _ = (raw, tag) from rfl) (congrArg List.head? hrest),
      hfault hnil, List.map_append]
    rfl

end Reader

/-! ## A text and what is written after it -/

namespace Transcript

/-- What is read with `k` more bytes before the text. -/
def later (k : Nat) (t : Transcript) : Transcript :=
  ⟨t.events.map (·.later k), t.fault.map fun fault => ⟨fault.status, fault.offset + k⟩⟩

/-- Every piece of an event stands in the text that it was read from. -/
theorem ofText_within (mode : ReaderMode) (text : List Char) :
    AllWithin text (ofText mode text).events := by
  have hon : Cursor.On text (.ofText text) := ⟨[], rfl, rfl⟩
  exact (Reader.readAll_resumes (k := 0) beginsTag_nil rfl hon).1

/-- The reader may start at any number of bytes. -/
theorem readAll_eq_later (mode : ReaderMode) (text : List Char) (k : Nat) :
    Reader.readAll mode [] ⟨k, text⟩ = (ofText mode text).later k := by
  have hon : Cursor.On text (.ofText text) := ⟨[], rfl, rfl⟩
  have hcursor : (Cursor.ofText text).later k [] = ⟨k, text⟩ := by
    simp [Cursor.later, Cursor.ofText]
  have hmoved : Resumes mode text [] k (ofText mode text) _ :=
    Reader.readAll_resumes beginsTag_nil rfl hon
  rw [hcursor] at hmoved
  obtain ⟨-, hfault⟩ := hmoved
  unfold later
  cases hstop : (ofText mode text).fault with
  | none =>
    rw [hstop] at hfault
    simp only [Reader.readAll_end] at hfault
    rw [hfault]
    simp [Transcript.after]
  | some fault =>
    rw [hstop] at hfault
    exact hfault rfl

/-- A text that is read without a fault is read in the same way when a tag is written after it,
and then the reader starts again at that tag. -/
theorem ofText_append {mode : ReaderMode} {text more : List Char} (hmore : BeginsTag more)
    (hclosing : beginsWith "</".toList more = false)
    (hread : (ofText mode text).fault = none) :
    ofText mode (text ++ more) =
      ((ofText mode more).later (byteSize text)).after (ofText mode text).events := by
  have hon : Cursor.On text (.ofText text) := ⟨[], rfl, rfl⟩
  have hmoved : Resumes mode text more 0 (ofText mode text) (ofText mode (text ++ more)) :=
    Reader.readAll_resumes hmore hclosing hon
  obtain ⟨-, hresumed⟩ := hmoved
  rw [hread] at hresumed
  simp only [readAll_eq_later, Nat.add_zero] at hresumed
  rw [hresumed]
  have hzero : (ofText mode text).events.map (·.later 0) = (ofText mode text).events := by
    simp
  rw [hzero]

end Transcript

end XmlTree
