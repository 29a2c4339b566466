/-
  Proofs/ByteTexts.lean --- converting texts byte by byte.

  WHAT THIS FILE IS FOR.  References are decoded and attribute values are converted by looking
  at one byte after the other; what need not be converted is copied in slices from one place of
  the scanner to the next.  Here the conversions are carried out that way, with every slice
  checked, and they come to what the conversions of characters come to: no slice ever reaches
  beyond the text or cuts a character.

  ROUNDS.  The loops go round at most once for each byte, and once more at the end.
-/
import XmlTree.Proofs.Bytes
import XmlTree.Proofs.Cursors
import XmlTree.Proofs.Escaping
import XmlTree.Proofs.References

set_option autoImplicit false

namespace XmlTree

/-! ## References -/

/-- The body of a reference is ASCII. -/
theorem IsReference.isAscii {body : List Char} {c : Char} (h : IsReference body c) :
    ∀ d ∈ body, IsAscii d := by
  have hdigits : ∀ {base n : Nat} {digits : List Char}, base ≤ 16 → Denotes base digits n →
      ∀ d ∈ digits, IsAscii d := by
    intro base n digits hbase hdenotes d hd
    obtain ⟨k, hk⟩ := hdenotes.exists_isDigit hd
    exact lt_of_digitValue? ((digitValue?_eq_some_iff hbase).2 hk)
  cases h with
  | lt | gt | amp | quot | apos => exact isAscii_of_all rfl
  | decimal hd => exact List.forall_mem_cons.2 ⟨by decide, hdigits (by decide) hd⟩
  | hexadecimal hd =>
    exact List.forall_mem_cons.2 ⟨by decide,
      List.forall_mem_cons.2 ⟨by decide, hdigits (by decide) hd⟩⟩

/-- Characters before the first ampersand are copied. -/
theorem decodeReferences_append_of_not_mem {cs : List Char} (h : '&' ∉ cs) (rest : List Char) :
    decodeReferences (cs ++ rest) = cs ++ decodeReferences rest := by
  induction cs with
  | nil => rfl
  | cons c cs ih =>
    rw [List.mem_cons, not_or] at h
    rw [List.cons_append, decodeReferences_cons (Ne.symm h.1), ih h.2, List.cons_append]

/-- All bytes but those of a mark. -/
theorem byteClass_unmarked {m : Char} (hm : IsAscii m) :
    ByteClass (· != m.toUInt8) (· != m) where
  ascii c hc := congrArg not ((byteClass_mark hm).ascii c hc)
  beyond b c hb hc := congrArg not ((byteClass_mark hm).beyond b c hb hc)

/-- A mark is among the bytes if it is among the characters. -/
theorem contains_utf8 {m : Char} (hm : IsAscii m) (cs : List Char) :
    (utf8 cs).contains m.toUInt8 = cs.contains m := by
  induction cs with
  | nil => rfl
  | cons c cs ih =>
    rw [utf8_cons, List.contains_append, ih, List.contains_cons]
    congr 1
    obtain ⟨b, bs, hbytes, -⟩ := exists_utf8EncodeChar c
    have hclass := byteClass_mark hm
    rw [Bool.eq_iff_iff, List.contains_iff_mem, beq_iff_eq]
    constructor
    · intro hmem
      have h := hclass.eq_of_mem hmem
      rw [beq_self_eq_true, eq_comm, beq_iff_eq] at h
      exact h.symm
    · rintro rfl
      rw [utf8EncodeChar_of_isAscii hm]
      exact List.mem_singleton_self _

namespace Scanner

variable {s : Scanner} {before mid after cs : List Char}

/-- The character that a reference at the ampersand here stands for, and the number of its
bytes, if it is one; none if a slice cuts a character.  No more bytes are looked at than the
longest reference may have. -/
def reference? (s : Scanner) : Option (Option (Char × Nat)) :=
  let window := (s.rest.take 12).drop 1
  let size := (window.takeWhile (· != ';'.toUInt8)).length
  if size < window.length then
    ((s.advance 1).sliceTo? (s.position + 1 + size)).map fun body =>
      (referencedChar? body).map fun c => (c, size + 2)
  else some none

/-- Copies a text from here on with its references decoded; none if a slice cuts a character or
after too many rounds. -/
def decode? : Nat → Scanner → Option (List Char)
  | 0, _ => none
  | rounds + 1, s =>
    match s.findByte? '&'.toUInt8 with
    | none => s.sliceTo? s.size
    | some ampersand => do
      let copied ← s.sliceTo? ampersand
      let here := s.moveTo ampersand
      match ← here.reference? with
      | some (c, size) => return copied ++ c :: (← (here.advance size).decode? rounds)
      | none => return copied ++ '&' :: (← (here.advance 1).decode? rounds)

/-- A reference ends at the first semicolon. -/
theorem takeWhile_of_isReference {body : List Char} {c : Char} (h : IsReference body c)
    (rest : List Char) : (body ++ ';' :: rest).takeWhile (· != ';') = body := by
  have hall : ∀ d ∈ body, (d != ';') = true := by
    intro d hd
    rw [bne_iff_ne]
    rintro rfl
    exact h.semicolon_not_mem hd
  rw [List.takeWhile_append_of_pos hall]
  simp

/-- If not all characters come before the first semicolon, there is one. -/
theorem exists_semicolon (h : byteSize (cs.takeWhile (· != ';')) < byteSize cs) :
    ∃ rest, cs = cs.takeWhile (· != ';') ++ ';' :: rest := by
  have hsplit : cs.takeWhile (· != ';') ++ cs.dropWhile (· != ';') = cs :=
    List.takeWhile_append_dropWhile
  cases hdrop : cs.dropWhile (· != ';') with
  | nil =>
    rw [hdrop, List.append_nil] at hsplit
    rw [hsplit] at h
    exact absurd h (Nat.lt_irrefl _)
  | cons d rest =>
    have hhead := List.head_dropWhile_not (· != ';')
      (by rw [hdrop]; exact List.cons_ne_nil d rest)
    simp only [hdrop, List.head_cons, bne_eq_false_iff_eq] at hhead
    rw [hdrop, hhead] at hsplit
    exact ⟨rest, hsplit.symm⟩

/-- A reference is found in the bytes where it is found in the characters, and the scanner is
taken behind it. -/
theorem Stands.reference? (h : s.Stands before ('&' :: cs)) :
    (∃ body c rest, XmlTree.reference? cs = some (c, rest) ∧ cs = body ++ ';' :: rest ∧
        s.reference? = some (some (c, byteSize body + 2)) ∧
        (s.advance (byteSize body + 2)).Stands (before ++ ('&' :: body ++ [';'])) rest) ∨
      XmlTree.reference? cs = none ∧ s.reference? = some none := by
  have hmark : IsAscii ';' := by decide
  have hone := h.advance_one (show IsAscii '&' by decide)
  have hwindow : (s.rest.take 12).drop 1 = (utf8 cs).take 11 := by
    rw [h.rest, utf8_cons, utf8EncodeChar_of_isAscii (by decide)]
    rfl
  have hsize : (((utf8 cs).take 11).takeWhile (· != ';'.toUInt8)).length =
      min 11 (byteSize (cs.takeWhile (· != ';'))) := by
    rw [← List.take_takeWhile, (byteClass_unmarked hmark).takeWhile_utf8, List.length_take,
      length_utf8]
  rw [Scanner.reference?]
  simp only [hwindow, hsize, List.length_take, length_utf8]
  cases hread : XmlTree.reference? cs with
  | some found =>
    obtain ⟨c, rest⟩ := found
    obtain ⟨body, ⟨hbody, hlength⟩, rfl⟩ := reference?_eq_some_iff.1 hread
    have hbytes := byteSize_of_isAscii hbody.isAscii
    have hmin : min 11 (byteSize body) = byteSize body := by omega
    have hslice : (s.advance 1).sliceTo? (s.position + 1 + byteSize body) = some body :=
      hone.sliceTo? rfl
    have hlt : byteSize body < min 11 (byteSize (body ++ ';' :: rest)) := by
      rw [byteSize_append, byteSize_cons, utf8Size_of_isAscii hmark]
      omega
    refine .inl ⟨body, c, rest, rfl, rfl, ?_, ?_⟩
    · rw [takeWhile_of_isReference hbody, hmin, if_pos hlt, hslice, Option.map_some,
        referencedChar?_eq_some_iff.2 hbody]
      rfl
    · have hsplit : s.Stands before (('&' :: body ++ [';']) ++ rest) := by simpa using h
      refine hsplit.advance ?_
      simp only [byteSize_append, byteSize_cons, byteSize_nil, List.cons_append,
        utf8Size_of_isAscii hmark, utf8Size_of_isAscii (show IsAscii '&' by decide)]
      omega
  | none =>
    refine .inr ⟨rfl, ?_⟩
    split
    · rename_i hlt
      have hbefore : byteSize (cs.takeWhile (· != ';')) < byteSize cs := by omega
      obtain ⟨rest, hcs⟩ := exists_semicolon hbefore
      generalize cs.takeWhile (· != ';') = body at *
      subst hcs
      have hmin : min 11 (byteSize body) = byteSize body := by omega
      have hslice : (s.advance 1).sliceTo? (s.position + 1 + byteSize body) = some body :=
        hone.sliceTo? rfl
      rw [hmin, hslice, Option.map_some]
      cases hchar : referencedChar? body with
      | none => rfl
      | some c =>
        -- the body would be a short one, and a reference would have been read
        have hbody := referencedChar?_eq_some_iff.1 hchar
        have hbytes := byteSize_of_isAscii hbody.isAscii
        rw [reference?_eq_some_iff.2 ⟨body, ⟨hbody, by omega⟩, rfl⟩] at hread
        cases hread
    · rfl

theorem Stands.decode? (h : s.Stands before cs) {rounds : Nat} (hrounds : cs.length < rounds) :
    s.decode? rounds = some (decodeReferences cs) := by
  induction rounds generalizing s before cs with
  | zero => exact absurd hrounds (Nat.not_lt_zero _)
  | succ rounds ih =>
    have hampersand : IsAscii '&' := by decide
    rw [Scanner.decode?, h.findByte? hampersand]
    cases hcut : cutAt? ['&'] cs with
    | none =>
      have hall : s.Stands before (cs ++ []) := by rwa [List.append_nil]
      have hnone : '&' ∉ cs := by
        rw [← List.singleton_infix_iff]
        exact cutAt?_eq_none_iff.1 hcut
      rw [decodeReferences_of_not_mem hnone]
      exact hall.sliceTo? (by rw [h.size, h.position])
    | some found =>
      obtain ⟨copied, rest⟩ := found
      have hcs := eq_append_of_cutAt? hcut
      have hnone : '&' ∉ copied := by
        rw [← List.singleton_infix_iff]
        exact not_infix_of_cutAt? (List.cons_ne_nil _ _) hcut
      rw [List.append_assoc, List.singleton_append] at hcs
      subst hcs
      have hhere := h.moveTo (n := s.position + byteSize copied) rfl
      rw [List.length_append, List.length_cons] at hrounds
      simp only [Option.map_some, h.sliceTo? rfl, Option.bind_eq_bind, Option.bind_some]
      rw [decodeReferences_append_of_not_mem hnone, decodeReferences_ampersand]
      obtain ⟨body, c, rest', hread, rfl, hbytes, hnext⟩ | ⟨hread, hbytes⟩ := hhere.reference?
      · rw [List.length_append, List.length_cons] at hrounds
        simp only [hbytes, hread, Option.bind_some, ih hnext (by omega)]
        rfl
      · simp only [hbytes, hread, Option.bind_some, ih (hhere.advance_one hampersand) (by omega)]
        rfl

/-! ## Attribute values -/

/-- Whether a byte is never looked at on its own. -/
def isOrdinaryByte (b : UInt8) : Bool := !(b == '&'.toUInt8 || isSpaceByte b)

/-- Copies an attribute value from here on, converted by the rules; none if a slice cuts a
character or after too many rounds. -/
def applyRules? (r : AttributeRules) :
    Nat → (started pending : Bool) → Scanner → Option (List Char)
  | 0, _, _, _ => none
  | rounds + 1, started, pending, s =>
    match s.peek? with
    | none => some []
    | some b =>
      if r.collapse && isSpaceByte b then applyRules? r rounds started true (s.advance 1)
      else do
        let gap := if pending && started then [' '] else []
        let next := s.advance 1
        let behindLineFeed := if next.peek? = some '\n'.toUInt8 then next.advance 1 else next
        if b = '&'.toUInt8 && r.escapes then
          match ← s.reference? with
          | some (c, size) =>
            return gap ++ c :: (← applyRules? r rounds true false (s.advance size))
          | none => return gap ++ '&' :: (← applyRules? r rounds true false next)
        else if b = '\r'.toUInt8 && r.toSpaces then
          let next := if r.eol then behindLineFeed else next
          return gap ++ ' ' :: (← applyRules? r rounds true false next)
        else if (b = '\t'.toUInt8 || b = '\n'.toUInt8) && r.toSpaces then
          return gap ++ ' ' :: (← applyRules? r rounds true false next)
        else if b = '\r'.toUInt8 && r.eol then
          return gap ++ '\n' :: (← applyRules? r rounds true false behindLineFeed)
        else
          -- one byte at least, which is a character of its own if it is not ordinary
          let stop := s.position + max (s.rest.takeWhile isOrdinaryByte).length 1
          let copied ← s.sliceTo? stop
          return gap ++ (copied ++ (← applyRules? r rounds true false (s.moveTo stop)))

theorem isAscii_of_isSpace {c : Char} (h : isSpace c = true) : IsAscii c := by
  simp only [isSpace, Bool.or_eq_true, beq_iff_eq] at h
  rcases h with ((rfl | rfl) | rfl) | rfl <;> decide

theorem byteClass_ordinary : ByteClass isOrdinaryByte AttributeRules.isOrdinary where
  ascii c hc := congrArg not (congrArg₂ or ((byteClass_mark (by decide)).ascii c hc)
    (byteClass_space.ascii c hc))
  beyond b c hb hc := congrArg not (congrArg₂ or ((byteClass_mark (by decide)).beyond b c hb hc)
    (byteClass_space.beyond b c hb hc))

/-- Behind a line feed, if one comes next. -/
theorem Stands.lineFeed (h : s.Stands before cs) :
    ∃ before', (if s.peek? = some '\n'.toUInt8 then s.advance 1 else s).Stands before'
      (AttributeRules.dropLineFeed cs) := by
  have hpeek := h.peek?_eq_some_iff (show IsAscii '\n' by decide)
  split
  · rename_i hnext
    obtain ⟨rest, rfl⟩ := List.head?_eq_some_iff.1 (hpeek.1 hnext)
    exact ⟨_, h.advance_one (by decide)⟩
  · rename_i hnext
    have hother : ∀ rest, cs ≠ '\n' :: rest := by
      rintro rest rfl
      exact hnext (hpeek.2 rfl)
    refine ⟨before, ?_⟩
    rw [AttributeRules.dropLineFeed]
    · exact h
    · exact hother

/-- A character, and those after it that are ordinary if it is. -/
theorem Stands.run {c : Char} (h : s.Stands before (c :: cs)) (r : AttributeRules) :
    ∃ copied rest, c :: cs = copied ++ rest ∧ rest.length ≤ cs.length ∧
      max (s.rest.takeWhile isOrdinaryByte).length 1 = byteSize copied ∧
      c :: r.apply true false cs = copied ++ r.apply true false rest := by
  rw [h.rest, byteClass_ordinary.takeWhile_utf8, length_utf8]
  cases hc : AttributeRules.isOrdinary c with
  | true =>
    have hpos := c.utf8Size_pos
    refine ⟨c :: cs.takeWhile AttributeRules.isOrdinary, cs.dropWhile AttributeRules.isOrdinary,
      ?_, ?_, ?_, ?_⟩
    · rw [List.cons_append, List.takeWhile_append_dropWhile]
    · exact (List.dropWhile_suffix _).length_le
    · rw [List.takeWhile_cons_of_pos hc, byteSize_cons]
      omega
    · rw [List.cons_append, AttributeRules.takeWhile_append_apply]
  | false =>
    have hascii : IsAscii c := by
      rw [AttributeRules.isOrdinary, Bool.not_eq_false', Bool.or_eq_true, beq_iff_eq] at hc
      rcases hc with rfl | hspace
      · decide
      · exact isAscii_of_isSpace hspace
    refine ⟨[c], cs, rfl, Nat.le_refl _, ?_, rfl⟩
    rw [List.takeWhile_cons_of_neg (by rw [hc]; exact Bool.false_ne_true), byteSize_cons,
      byteSize_nil, utf8Size_of_isAscii hascii]
    rfl

theorem Stands.applyRules? {r : AttributeRules} (h : s.Stands before cs) {rounds : Nat}
    (hrounds : cs.length < rounds) (started pending : Bool) :
    s.applyRules? r rounds started pending = some (r.apply started pending cs) := by
  induction rounds generalizing s before cs started pending with
  | zero => exact absurd hrounds (Nat.not_lt_zero _)
  | succ rounds ih =>
    cases cs with
    | nil =>
      rw [Scanner.applyRules?, h.peek?_nil, AttributeRules.apply]
    | cons c cs =>
      rw [List.length_cons] at hrounds
      obtain ⟨b, hb, hclass, hmark⟩ := h.peek?_cons
      have hbefore : ∀ m, IsAscii m → c = m →
          (s.advance 1).Stands (before ++ [m]) cs := by
        rintro m hm rfl
        exact h.advance_one hm
      rw [Scanner.applyRules?, AttributeRules.apply_cons]
      simp only [hb, hclass byteClass_space, hmark (show IsAscii '&' by decide),
        hmark (show IsAscii '\r' by decide), hmark (show IsAscii '\t' by decide),
        hmark (show IsAscii '\n' by decide)]
      split
      · rename_i hspace
        rw [Bool.and_eq_true] at hspace
        exact ih (hbefore c (isAscii_of_isSpace hspace.2) rfl) (by omega) _ _
      · split
        · rename_i hreference
          rw [Bool.and_eq_true, decide_eq_true_eq] at hreference
          obtain ⟨rfl, -⟩ := hreference
          obtain ⟨body, c, rest, hread, rfl, hbytes, hnext⟩ | ⟨hread, hbytes⟩ := h.reference?
          · rw [List.length_append, List.length_cons] at hrounds
            simp only [hbytes, hread, Option.bind_eq_bind, Option.bind_some, ih hnext (by omega)]
            rfl
          · simp only [hbytes, hread, Option.bind_eq_bind, Option.bind_some,
              ih (h.advance_one (by decide)) (by omega)]
            rfl
        · split
          · rename_i hreturn
            rw [Bool.and_eq_true, decide_eq_true_eq] at hreturn
            have hnext := hbefore '\r' (by decide) hreturn.1
            obtain ⟨before', hbehind⟩ := hnext.lineFeed
            have hlength := AttributeRules.length_dropLineFeed_le cs
            cases r.eol with
            | true => simp only [if_true, Option.bind_eq_bind, ih hbehind (by omega)]; rfl
            | false =>
              simp only [Bool.false_eq_true, if_false, Option.bind_eq_bind, ih hnext (by omega)]
              rfl
          · split
            · rename_i hspace
              rw [Bool.and_eq_true, Bool.or_eq_true, decide_eq_true_eq, decide_eq_true_eq] at hspace
              have hc : IsAscii c := by
                rcases hspace.1 with rfl | rfl <;> decide
              simp only [Option.bind_eq_bind, ih (h.advance_one hc) (by omega)]
              rfl
            · split
              · rename_i hreturn
                rw [Bool.and_eq_true, decide_eq_true_eq] at hreturn
                obtain ⟨before', hbehind⟩ := (hbefore '\r' (by decide) hreturn.1).lineFeed
                have hlength := AttributeRules.length_dropLineFeed_le cs
                simp only [Option.bind_eq_bind, ih hbehind (by omega)]
                rfl
              · obtain ⟨copied, rest, hcs, hlength, hstop, hcopied⟩ := h.run r
                rw [hcs] at h
                have hnext := h.moveTo (n := s.position + byteSize copied) rfl
                simp only [hstop, h.sliceTo? rfl, hcopied, Option.bind_eq_bind, Option.bind_some,
                  ih hnext (by omega)]
                rfl

end Scanner

namespace AttributeRules

/-- Whether the rules leave a byte of a value alone, given what follows it and whether it is the
first. -/
def keepsByte (r : AttributeRules) (first : Bool) (b : UInt8) (rest : List UInt8) : Bool :=
  if b = '&'.toUInt8 then !r.escapes
  else if b = '\r'.toUInt8 then !(r.eol || r.toSpaces || r.collapse)
  else if b = '\t'.toUInt8 || b = '\n'.toUInt8 then !(r.toSpaces || r.collapse)
  else if b = ' '.toUInt8 && r.collapse then !first && rest.head?.any (· != ' '.toUInt8)
  else true

/-- Whether the rules leave every byte of a value alone. -/
def keepsBytes (r : AttributeRules) (first : Bool) : List UInt8 → Bool
  | [] => true
  | b :: bs => r.keepsByte first b bs && keepsBytes r false bs

/-- No rule is about a byte beyond ASCII. -/
theorem keepsBytes_append (r : AttributeRules) {bs : List UInt8} (h : ∀ b ∈ bs, 128 ≤ b.toNat)
    (first : Bool) (rest : List UInt8) :
    r.keepsBytes first (bs ++ rest) = r.keepsBytes (first && bs.isEmpty) rest := by
  induction bs generalizing first with
  | nil => rw [List.nil_append, List.isEmpty_nil, Bool.and_true]
  | cons b bs ih =>
    obtain ⟨hb, hbs⟩ := List.forall_mem_cons.1 h
    have hne : ∀ m, IsAscii m → b ≠ m.toUInt8 := fun m hm => ne_toUInt8_of_le hm hb
    have hkeeps : r.keepsByte first b (bs ++ rest) = true := by
      simp [keepsByte, hne '&' (by decide), hne '\r' (by decide), hne '\t' (by decide),
        hne '\n' (by decide), hne ' ' (by decide)]
    rw [List.cons_append, keepsBytes, hkeeps, ih hbs, List.isEmpty_cons, Bool.and_false,
      Bool.false_and, Bool.true_and]

/-- The bytes of a value are left alone if its characters are. -/
theorem keepsBytes_utf8 (r : AttributeRules) (first : Bool) (cs : List Char) :
    r.keepsBytes first (utf8 cs) = r.keeps first cs := by
  induction cs generalizing first with
  | nil => rfl
  | cons c cs ih =>
    rw [utf8_cons, keeps, ← ih]
    by_cases hc : IsAscii c
    · have hmark : ∀ m, IsAscii m → (c.toUInt8 = m.toUInt8 ↔ c = m) := by
        intro m hm
        have h := (byteClass_mark hm).ascii c hc
        rwa [Bool.eq_iff_iff, beq_iff_eq, beq_iff_eq] at h
      have hnext := (byteClass_unmarked (show IsAscii ' ' by decide)).any_head? cs
      have hkeeps : r.keepsByte first c.toUInt8 (utf8 cs) = r.keepsChar first c cs := by
        simp only [keepsByte, keepsChar, hmark '&' (by decide), hmark '\r' (by decide),
          hmark '\t' (by decide), hmark '\n' (by decide), hmark ' ' (by decide), hnext]
        cases cs <;> rfl
      rw [utf8EncodeChar_of_isAscii hc, List.singleton_append, keepsBytes, hkeeps]
    · have hkeeps : r.keepsChar first c cs = true := by
        have hne : ∀ m, IsAscii m → c ≠ m := by
          rintro m hm rfl
          exact hc hm
        simp [keepsChar, hne '&' (by decide), hne '\r' (by decide), hne '\t' (by decide),
          hne '\n' (by decide), hne ' ' (by decide)]
      obtain ⟨b, bs, hbytes, -⟩ := exists_utf8EncodeChar c
      rw [r.keepsBytes_append fun b hb => le_of_mem_utf8EncodeChar hc hb, hkeeps, hbytes,
        List.isEmpty_cons, Bool.and_false, Bool.true_and]

end AttributeRules

/-! ## Whole conversions -/

/-- The conversion of an attribute value; none if a slice cuts a character. -/
def convertAttribute? (options : ParseOptions) (raw : String) : Option Conversion :=
  let rules := AttributeRules.ofOptions options
  let s := Scanner.ofText raw
  if rules.keepsBytes true s.rest then some (.verbatim 0 raw.toList)
  else (s.applyRules? rules (s.size + 1) false false).map .fresh

/-- The conversion of character data; none if a slice cuts a character. -/
def convertPcdata? (options : ParseOptions) (raw : String) : Option Conversion :=
  let escapes := options.contains .escapes
  let eol := options.contains .eol
  let trim := options.contains .trimPcdata
  let kept := if trim then dropSpace raw.toList else raw.toList
  let bytes := (Scanner.ofText (String.ofList kept)).rest
  if (escapes && bytes.contains '&'.toUInt8) || (eol && bytes.contains '\r'.toUInt8) then do
    let lines := if eol then unifyLineEnds kept else kept
    let s := Scanner.ofText (String.ofList lines)
    let decoded ← if escapes then s.decode? (s.size + 1) else some lines
    if trim then
      let s := Scanner.ofText (String.ofList decoded)
      return .fresh (← s.sliceTo? (byteSize (dropTrailingSpace decoded)))
    else return .fresh decoded
  else
    some (.verbatim (byteSize raw.toList - byteSize kept)
      (if trim then dropTrailingSpace kept else kept))

theorem Scanner.Stands.ofList (cs : List Char) :
    (Scanner.ofText (String.ofList cs)).Stands [] cs := by
  have h := Stands.ofText (String.ofList cs)
  rwa [String.toList_ofList] at h

/-- A scanner of a text goes round often enough. -/
theorem Scanner.length_lt_size (cs : List Char) :
    cs.length < (Scanner.ofText (String.ofList cs)).size + 1 := by
  rw [(Stands.ofList cs).size, byteSize_nil, Nat.zero_add]
  exact Nat.lt_succ_of_le (length_le_byteSize cs)

theorem dropTrailingSpace_append (cs : List Char) :
    dropTrailingSpace cs ++ (cs.reverse.takeWhile isSpace).reverse = cs := by
  rw [dropTrailingSpace, ← List.reverse_append, List.takeWhile_append_dropWhile,
    List.reverse_reverse]

theorem convertAttribute?_eq (options : ParseOptions) (cs : List Char) :
    convertAttribute? options (String.ofList cs) = some (convertAttribute options cs) := by
  have h := Scanner.Stands.ofList cs
  simp only [convertAttribute?, convertAttribute, h.rest, AttributeRules.keepsBytes_utf8,
    h.applyRules? (Scanner.length_lt_size cs), String.toList_ofList]
  split <;> rfl

theorem convertPcdata?_eq (options : ParseOptions) (cs : List Char) :
    convertPcdata? options (String.ofList cs) = some (convertPcdata options cs) := by
  have hdecode : ∀ lines : List Char, (Scanner.ofText (String.ofList lines)).decode?
      ((Scanner.ofText (String.ofList lines)).size + 1) = some (decodeReferences lines) :=
    fun lines => (Scanner.Stands.ofList lines).decode? (Scanner.length_lt_size lines)
  have htrim : ∀ decoded : List Char, (Scanner.ofText (String.ofList decoded)).sliceTo?
      (byteSize (dropTrailingSpace decoded)) = some (dropTrailingSpace decoded) := by
    intro decoded
    have h := Scanner.Stands.ofList decoded
    conv at h => arg 3; rw [← dropTrailingSpace_append decoded]
    exact h.sliceTo? (Nat.zero_add _).symm
  simp only [convertPcdata?, convertPcdata, String.toList_ofList, (Scanner.Stands.ofList _).rest,
    contains_utf8 (show IsAscii '&' by decide), contains_utf8 (show IsAscii '\r' by decide),
    hdecode]
  cases options.contains .escapes <;> cases options.contains .trimPcdata <;>
    simp only [htrim, if_true, Bool.false_eq_true, if_false, Option.bind_eq_bind, Option.bind_some]
  all_goals split <;> rfl

end XmlTree
