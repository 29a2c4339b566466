/-
  Proofs/Declaring.lean --- what a text says about the encoding of its bytes.

  WHAT THIS FILE IS FOR.  The detector looks for a name in bytes whose encoding nobody knows
  yet.  It takes each byte for a character of Latin-1.  Here it is said of texts what the
  detector looks for in bytes: a text says that it is in Latin-1 if it begins with `<?xml`, and
  before the first `?>` the first `encoding` has a name of Latin-1 in quotes behind it.

  WHY THE TEXT DECIDES.  All marks that are looked for are ASCII.  In UTF-8 a character of ASCII
  is one byte, and a byte below 128 is a character of ASCII.  So each mark that is found in the
  bytes stands at a place of the text, and what is found between two marks is what stands
  between them there.  In Latin-1 the bytes are the characters.
-/
import XmlTree.Proofs.Detection
import XmlTree.Proofs.Narrowing
import XmlTree.Proofs.Shifting

set_option autoImplicit false

namespace XmlTree

/-- Characters of ASCII. -/
def Ascii (cs : List Char) : Prop := ∀ c ∈ cs, c.toNat < 128

instance (cs : List Char) : Decidable (Ascii cs) := List.decidableBAll _ cs

/-! ## Texts that name an encoding -/

/-- The first `encoding` of a text has a name in quotes behind it, with nothing between but white
space and equals signs. -/
def NamesEncoding (inside name : List Char) : Prop :=
  ∃ before gap quote after,
    inside = before ++ ("encoding".toList ++ (gap ++ quote :: (name ++ quote :: after))) ∧
      ¬ "encoding".toList <:+: before ∧ (∀ c ∈ gap, isSpace c = true ∨ c = '=') ∧
      (quote = '"' ∨ quote = '\'') ∧ quote ∉ name

/-- The two names of Latin-1, in any case. -/
def IsLatin1Name (name : List Char) : Prop :=
  eqIgnoringCase name "latin1".toList = true ∨ eqIgnoringCase name "iso-8859-1".toList = true

/-- A text begins as a declaration does, and before the first `?>` names Latin-1. -/
def SaysLatin1 (cs : List Char) : Prop :=
  "<?xml".toList <+: cs ∧ ∃ inside after name, cs = inside ++ ("?>".toList ++ after) ∧
    ¬ "?>".toList <:+: inside ∧ NamesEncoding inside name ∧ IsLatin1Name name

/-- What stands behind the end of an instruction says nothing. -/
theorem saysLatin1_append {cs : List Char} (h : "?>".toList <:+: cs) (more : List Char) :
    SaysLatin1 (cs ++ more) ↔ SaysLatin1 cs := by
  obtain ⟨⟨inside, after⟩, hcut⟩ : ∃ parts, cutAt? "?>".toList cs = some parts :=
    Option.ne_none_iff_exists'.1 fun hnone => cutAt?_eq_none_iff.1 hnone h
  have hcs : cs = inside ++ ("?>".toList ++ after) := by
    rw [eq_append_of_cutAt? hcut, List.append_assoc]
  constructor
  · rintro ⟨hbegins, inside', after', name, htext, hfirst, hname⟩
    -- the first mark is that of `cs`, so the same text stands before it
    have hmore := cutAt?_more hcut more
    rw [htext, cutAt?_append after' (by decide) hfirst] at hmore
    obtain ⟨rfl, -⟩ := Prod.mk.inj (Option.some.inj hmore)
    refine ⟨?_, inside', after, name, hcs, hfirst, hname⟩
    by_cases hlength : "<?xml".toList.length ≤ cs.length
    · exact (prefix_append_iff hlength more).1 hbegins
    · have hshort : cs <+: "<?xml".toList :=
        List.prefix_of_prefix_length_le (List.prefix_append cs more) hbegins (by omega)
      exact absurd (h.trans hshort.isInfix) (by decide)
  · rintro ⟨hbegins, inside', after', name, htext, hrest⟩
    refine ⟨hbegins.trans (List.prefix_append cs more), inside', after' ++ more, name, ?_, hrest⟩
    rw [htext, List.append_assoc, List.append_assoc]

namespace Encoding

/-! ## The name that the bytes give -/

/-- What stands between the word and the name. -/
def isGap (c : Char) : Bool := isSpace c || c == '='

theorem isGap_iff {c : Char} : isGap c = true ↔ isSpace c = true ∨ c = '=' := by
  rw [isGap, Bool.or_eq_true, beq_iff_eq]

theorem namesEncoding_of_cutAt? {inside before behind rest name after : List Char} {quote : Char}
    (hbefore : cutAt? "encoding".toList inside = some (before, behind))
    (hquote : behind.dropWhile isGap = quote :: rest) (hkind : quote = '"' ∨ quote = '\'')
    (hname : cutAt? [quote] rest = some (name, after)) : NamesEncoding inside name := by
  have hbehind : behind = behind.takeWhile isGap ++ quote :: rest := by
    rw [← hquote, List.takeWhile_append_dropWhile]
  have hrest : rest = name ++ quote :: after := by
    rw [eq_append_of_cutAt? hname, List.append_assoc, List.singleton_append]
  refine ⟨before, behind.takeWhile isGap, quote, after, ?_,
    not_infix_of_cutAt? (by decide) hbefore, ?_, hkind, ?_⟩
  · rw [← hrest, ← hbehind, eq_append_of_cutAt? hbefore, List.append_assoc]
  · intro c hc
    exact isGap_iff.1 (List.mem_takeWhile_imp hc)
  · intro hmem
    exact not_infix_of_cutAt? (List.cons_ne_nil _ _) hname ((List.singleton_infix_iff _ _).2 hmem)

theorem cutAt?_of_namesEncoding {inside name : List Char} (h : NamesEncoding inside name) :
    ∃ before behind quote rest after,
      cutAt? "encoding".toList inside = some (before, behind) ∧
        behind.dropWhile isGap = quote :: rest ∧ (quote = '"' ∨ quote = '\'') ∧
        cutAt? [quote] rest = some (name, after) := by
  obtain ⟨before, gap, quote, after, hinside, hbefore, hgap, hkind, hname⟩ := h
  refine ⟨before, gap ++ quote :: (name ++ quote :: after), quote, name ++ quote :: after, after,
    ?_, ?_, hkind, ?_⟩
  · rw [hinside, cutAt?_append _ (by decide) hbefore]
  · have hstop : isGap quote = false := by
      obtain rfl | rfl := hkind <;> decide
    rw [List.dropWhile_append_of_pos fun c hc => isGap_iff.2 (hgap c hc), List.dropWhile_cons,
      hstop]
    rfl
  · have hunbordered : Unbordered [quote] := by
      intro k hk hpos
      rw [List.length_singleton] at hk
      omega
    exact cutAt?_append after hunbordered fun hmem => hname ((List.singleton_infix_iff _ _).1 hmem)

/-- A text names one encoding at most. -/
theorem namesEncoding_unique {inside first second : List Char} (hfirst : NamesEncoding inside first)
    (hsecond : NamesEncoding inside second) : first = second := by
  obtain ⟨before, behind, quote, rest, after, hbefore, hquote, -, hname⟩ :=
    cutAt?_of_namesEncoding hfirst
  obtain ⟨before', behind', quote', rest', after', hbefore', hquote', -, hname'⟩ :=
    cutAt?_of_namesEncoding hsecond
  rw [hbefore] at hbefore'
  obtain ⟨-, rfl⟩ := Prod.mk.inj (Option.some.inj hbefore')
  rw [hquote] at hquote'
  obtain ⟨rfl, rfl⟩ := List.cons.inj hquote'
  rw [hname] at hname'
  exact (Prod.mk.inj (Option.some.inj hname')).1

/-- The name that the detector finds in quotes. -/
theorem declaredName?_eq_some_iff (bytes : Bytes) (name : List Char) :
    declaredName? bytes = some name ↔
      "<?xml".toList <+: bytes.map latin1Char ∧ ∃ inside after,
        bytes.map latin1Char = inside ++ ("?>".toList ++ after) ∧ ¬ "?>".toList <:+: inside ∧
          NamesEncoding inside name := by
  generalize htext : bytes.map latin1Char = text
  unfold declaredName?
  simp only [htext, Option.bind_eq_bind, Option.bind_eq_some_iff]
  constructor
  · rintro ⟨rest, hrest, ⟨inside, after⟩, hinside, ⟨before, behind⟩, hbefore, hname⟩
    refine ⟨⟨rest, (dropMark?_eq_some_iff.1 hrest).symm⟩, inside, after, ?_,
      not_infix_of_cutAt? (by decide) hinside, ?_⟩
    · rw [eq_append_of_cutAt? hinside, List.append_assoc]
    · split at hname
      · rename_i quote rest' hquote
        split at hname
        · rename_i hkind
          obtain ⟨⟨found, after'⟩, hcut, rfl⟩ := Option.map_eq_some_iff.1 hname
          exact namesEncoding_of_cutAt? hbefore hquote (by simpa using hkind) hcut
        · cases hname
      · cases hname
  · rintro ⟨⟨rest, hrest⟩, inside, after, htext', hfirst, hnames⟩
    obtain ⟨before, behind, quote, rest', after', hbefore, hquote, hkind, hcut⟩ :=
      cutAt?_of_namesEncoding hnames
    refine ⟨rest, dropMark?_eq_some_iff.2 hrest.symm, (inside, after), ?_, (before, behind),
      hbefore, ?_⟩
    · rw [htext', cutAt?_append after (by decide) hfirst]
    · have hgap : behind.dropWhile (fun c => isSpace c || c == '=') = quote :: rest' := hquote
      have hquoted : (quote == '"' || quote == '\'') = true := by
        simpa using hkind
      simp only [hgap, hquoted, if_true, hcut, Option.map_some]

/-- The detector finds what the characters say that the bytes are in Latin-1. -/
theorem declaresLatin1_iff (bytes : Bytes) :
    declaresLatin1 bytes = true ↔ SaysLatin1 (bytes.map latin1Char) := by
  have hname : ∀ name, (eqIgnoringCase name "latin1".toList ||
      eqIgnoringCase name "iso-8859-1".toList) = true ↔ IsLatin1Name name :=
    fun name => Bool.or_eq_true_iff
  unfold declaresLatin1 SaysLatin1
  cases hfound : declaredName? bytes with
  | none =>
    refine iff_of_false Bool.false_ne_true ?_
    rintro ⟨hbegins, inside, after, name, htext, hfirst, hnames, -⟩
    have hsome := (declaredName?_eq_some_iff bytes name).2
      ⟨hbegins, inside, after, htext, hfirst, hnames⟩
    rw [hfound] at hsome
    cases hsome
  | some name =>
    simp only [hname]
    constructor
    · intro hlatin
      obtain ⟨hbegins, inside, after, htext, hfirst, hnames⟩ :=
        (declaredName?_eq_some_iff bytes name).1 hfound
      exact ⟨hbegins, inside, after, name, htext, hfirst, hnames, hlatin⟩
    · rintro ⟨hbegins, inside, after, name', htext, hfirst, hnames, hlatin⟩
      have hsome := (declaredName?_eq_some_iff bytes name').2
        ⟨hbegins, inside, after, htext, hfirst, hnames⟩
      rw [hfound] at hsome
      obtain rfl := Option.some.inj hsome
      exact hlatin

/-! ## UTF-8 that is taken for Latin-1 -/

/-- The characters that are read where a text was written in UTF-8. -/
def misread (cs : List Char) : List Char := (cs.flatMap utf8.encodeChar).map latin1Char

theorem misread_nil : misread [] = [] := rfl

theorem misread_append (as bs : List Char) : misread (as ++ bs) = misread as ++ misread bs := by
  rw [misread, misread, misread, List.flatMap_append, List.map_append]

theorem misread_cons (c : Char) (cs : List Char) : misread (c :: cs) = misread [c] ++ misread cs :=
  misread_append [c] cs

theorem misread_eq_nil {cs : List Char} (h : misread cs = []) : cs = [] := by
  cases cs with
  | nil => rfl
  | cons c cs =>
    rw [misread_cons, List.append_eq_nil_iff] at h
    have hbytes : utf8.encodeChar c = [] := by
      simpa [misread] using h.1
    exact absurd hbytes (utf8.encodeChar_ne_nil c)

theorem utf8Bytes_of_ascii {c : Char} (h : c.toNat < 128) : utf8Bytes c = [UInt8.ofNat c.toNat] :=
  if_pos h

theorem toNat_latin1Char (b : UInt8) : (latin1Char b).toNat = b.toNat := by
  have hb := b.toNat_lt
  rw [latin1Char, toNat_ofScalar (.inl (by omega))]

/-- Each byte of a character beyond ASCII is beyond ASCII. -/
theorem le_of_mem_utf8Bytes {c : Char} (h : ¬ c.toNat < 128) {b : UInt8} (hb : b ∈ utf8Bytes c) :
    128 ≤ b.toNat := by
  have hbyte : ∀ n k, 128 ≤ k → k + n < 256 → 128 ≤ (UInt8.ofNat (k + n)).toNat := by
    intro n k hk hlt
    rw [toNat_ofNat_of_lt hlt]
    omega
  have hscalar : c.toNat < 0xD800 ∨ 0xDFFF < c.toNat ∧ c.toNat < 0x110000 := c.valid
  unfold utf8Bytes at hb
  simp only [if_neg h] at hb
  split at hb
  · simp only [List.mem_cons, List.not_mem_nil, or_false] at hb
    rcases hb with rfl | rfl <;> exact hbyte _ _ (by omega) (by omega)
  · split at hb
    · simp only [List.mem_cons, List.not_mem_nil, or_false] at hb
      rcases hb with rfl | rfl | rfl <;> exact hbyte _ _ (by omega) (by omega)
    · simp only [List.mem_cons, List.not_mem_nil, or_false] at hb
      rcases hb with rfl | rfl | rfl | rfl <;> exact hbyte _ _ (by omega) (by omega)

theorem misread_singleton {c : Char} (h : c.toNat < 128) : misread [c] = [c] := by
  have hbytes : utf8.encodeChar c = [UInt8.ofNat c.toNat] := utf8Bytes_of_ascii h
  have hchar : latin1Char (UInt8.ofNat c.toNat) = c := by
    rw [latin1Char, toNat_ofNat_of_lt (Nat.lt_trans h (by decide)), Char.ofNat_toNat]
  rw [misread, List.flatMap_singleton, hbytes, List.map_singleton, hchar]

/-- A character of ASCII is read only where it was written. -/
theorem eq_of_mem_misread_singleton {c d : Char} (hc : c.toNat < 128) (h : c ∈ misread [d]) :
    d = c := by
  by_cases hd : d.toNat < 128
  · rw [misread_singleton hd, List.mem_singleton] at h
    exact h.symm
  · rw [misread, List.flatMap_singleton, List.mem_map] at h
    obtain ⟨b, hb, rfl⟩ := h
    have hlarge : 128 ≤ b.toNat := le_of_mem_utf8Bytes hd hb
    rw [toNat_latin1Char] at hc
    omega

/-- Where a character is found that a text does not have, the text stands before it. -/
theorem append_eq_append_cons {α : Type} {c : α} {as bs xs ys : List α} (hc : c ∉ xs)
    (h : xs ++ ys = as ++ c :: bs) : ∃ more, as = xs ++ more ∧ ys = more ++ c :: bs := by
  obtain ⟨more, hmore, hrest⟩ | ⟨more, hxs, hrest⟩ := List.append_eq_append_iff.1 h
  · exact ⟨more, hmore, hrest⟩
  · cases more with
    | nil =>
      rw [List.append_nil] at hxs
      exact ⟨[], by rw [hxs, List.append_nil], hrest.symm⟩
    | cons e more =>
      obtain ⟨rfl, -⟩ := List.cons.inj hrest
      exact absurd (hxs ▸ List.mem_append_right as List.mem_cons_self) hc

/-- A text is parted at a character of ASCII where its bytes are. -/
theorem misread_eq_append_cons {cs as bs : List Char} {c : Char} (hc : c.toNat < 128)
    (h : misread cs = as ++ c :: bs) :
    ∃ as' bs', cs = as' ++ c :: bs' ∧ misread as' = as ∧ misread bs' = bs := by
  induction cs generalizing as with
  | nil => simp [misread_nil] at h
  | cons d ds ih =>
    rw [misread_cons] at h
    by_cases hd : c ∈ misread [d]
    · obtain rfl := eq_of_mem_misread_singleton hc hd
      rw [misread_singleton hc, List.singleton_append] at h
      cases as with
      | nil => exact ⟨[], ds, rfl, rfl, (List.cons.inj h).2⟩
      | cons a as =>
        obtain ⟨rfl, hrest⟩ := List.cons.inj h
        obtain ⟨as', bs', rfl, rfl, rfl⟩ := ih hrest
        exact ⟨d :: as', bs', rfl, by rw [misread_cons, misread_singleton hc]; rfl, rfl⟩
    · -- the bytes of another character all stand before it
      obtain ⟨more, rfl, hrest⟩ := append_eq_append_cons hd h
      obtain ⟨as', bs', rfl, rfl, rfl⟩ := ih hrest
      exact ⟨d :: as', bs', rfl, misread_cons d as', rfl⟩

/-- A mark of ASCII begins a text if it begins what is read. -/
theorem misread_eq_append {cs mark bs : List Char} (hmark : Ascii mark)
    (h : misread cs = mark ++ bs) : ∃ bs', cs = mark ++ bs' ∧ misread bs' = bs := by
  induction mark generalizing cs with
  | nil => exact ⟨cs, rfl, h⟩
  | cons m mark ih =>
    obtain ⟨hm, hmark⟩ := List.forall_mem_cons.1 hmark
    have hbegins : misread cs = [] ++ m :: (mark ++ bs) := h
    obtain ⟨as', bs', rfl, hnil, hrest⟩ := misread_eq_append_cons hm hbegins
    obtain rfl := misread_eq_nil hnil
    obtain ⟨bs'', rfl, hbs⟩ := ih hmark hrest
    exact ⟨bs'', rfl, hbs⟩

theorem misread_ascii {cs : List Char} (h : Ascii cs) : misread cs = cs := by
  induction cs with
  | nil => rfl
  | cons c cs ih =>
    obtain ⟨hc, hcs⟩ := List.forall_mem_cons.1 h
    rw [misread_cons, misread_singleton hc, ih hcs, List.singleton_append]

/-- What is read as ASCII was written so. -/
theorem eq_of_misread_ascii {cs as : List Char} (has : Ascii as) (h : misread cs = as) :
    cs = as := by
  rw [← List.append_nil as] at h
  obtain ⟨bs, rfl, hbs⟩ := misread_eq_append has h
  rw [misread_eq_nil hbs, List.append_nil]

/-- A text is parted at a mark of ASCII where its bytes are. -/
theorem misread_eq_append_mark {cs mark as bs : List Char} (hmark : Ascii mark) (hne : mark ≠ [])
    (h : misread cs = as ++ (mark ++ bs)) :
    ∃ as' bs', cs = as' ++ (mark ++ bs') ∧ misread as' = as ∧ misread bs' = bs := by
  cases mark with
  | nil => exact absurd rfl hne
  | cons m mark =>
    obtain ⟨hm, hmark⟩ := List.forall_mem_cons.1 hmark
    obtain ⟨as', rest, rfl, has, hrest⟩ := misread_eq_append_cons hm h
    obtain ⟨bs', rfl, hbs⟩ := misread_eq_append hmark hrest
    exact ⟨as', bs', rfl, has, hbs⟩

/-- A mark of ASCII is found in what is read if the text has it. -/
theorem infix_misread_iff {cs mark : List Char} (hmark : Ascii mark) (hne : mark ≠ []) :
    mark <:+: misread cs ↔ mark <:+: cs := by
  constructor
  · rintro ⟨as, bs, h⟩
    rw [List.append_assoc] at h
    obtain ⟨as', bs', rfl, -, -⟩ := misread_eq_append_mark hmark hne h.symm
    exact ⟨as', bs', List.append_assoc _ _ _⟩
  · rintro ⟨as, bs, rfl⟩
    refine ⟨misread as, misread bs, ?_⟩
    rw [misread_append, misread_append, misread_ascii hmark]

/-! ## What the bytes say is what the text says -/

/-- The other case of a letter of ASCII is one of ASCII, and no other character has one. -/
theorem toLower_lt_iff (c : Char) : c.toLower.toNat < 128 ↔ c.toNat < 128 := by
  unfold Char.toLower
  split
  · rename_i hupper
    obtain ⟨hlow, hhigh⟩ := hupper
    have hlow' : 65 ≤ c.toNat := UInt32.le_iff_toNat_le.1 hlow
    have hhigh' : c.toNat ≤ 90 := UInt32.le_iff_toNat_le.1 hhigh
    have hvalue : (c.val + ('a'.val - 'A'.val)).toNat = c.toNat + 32 := by
      rw [UInt32.toNat_add]
      exact Nat.mod_eq_of_lt (by show c.toNat + 32 < _; omega)
    constructor
    · intro _
      omega
    · intro _
      show (c.val + ('a'.val - 'A'.val)).toNat < 128
      omega
  · exact Iff.rfl

theorem ascii_of_eqIgnoringCase {cs ds : List Char} (h : eqIgnoringCase cs ds = true)
    (hds : Ascii ds) : Ascii cs := by
  intro c hc
  have hsame : cs.map Char.toLower = ds.map Char.toLower := beq_iff_eq.1 h
  have hmem : c.toLower ∈ ds.map Char.toLower := hsame ▸ List.mem_map_of_mem hc
  obtain ⟨d, hd, heq⟩ := List.mem_map.1 hmem
  rw [← toLower_lt_iff, ← heq, toLower_lt_iff]
  exact hds d hd

theorem ascii_of_isLatin1Name {name : List Char} (h : IsLatin1Name name) : Ascii name := by
  obtain h | h := h
  · exact ascii_of_eqIgnoringCase h (by decide)
  · exact ascii_of_eqIgnoringCase h (by decide)

/-- A name of ASCII is read in quotes behind the word if it was written there. -/
theorem namesEncoding_misread {inside name : List Char} (hascii : Ascii name) :
    NamesEncoding (misread inside) name ↔ NamesEncoding inside name := by
  have hword : Ascii "encoding".toList := by decide
  have hgapAscii : ∀ gap : List Char, (∀ c ∈ gap, isSpace c = true ∨ c = '=') → Ascii gap := by
    intro gap hgap c hc
    obtain hspace | rfl := hgap c hc
    · simp only [isSpace, Bool.or_eq_true, beq_iff_eq] at hspace
      obtain ((rfl | rfl) | rfl) | rfl := hspace <;> decide
    · decide
  constructor
  · rintro ⟨before, gap, quote, after, hinside, hbefore, hgap, hkind, hname⟩
    have hquote : quote.toNat < 128 := by
      obtain rfl | rfl := hkind <;> decide
    -- the word, and the quotes on both sides of the name, stand in the text
    obtain ⟨before', behind, rfl, rfl, hbehind⟩ :=
      misread_eq_append_mark hword (by decide) hinside
    obtain ⟨gap', quoted, rfl, hgap', hquoted⟩ := misread_eq_append_cons hquote hbehind
    obtain ⟨name', after', rfl, hname', -⟩ := misread_eq_append_cons hquote hquoted
    obtain rfl := eq_of_misread_ascii (hgapAscii gap hgap) hgap'
    obtain rfl := eq_of_misread_ascii hascii hname'
    rw [infix_misread_iff hword (by decide)] at hbefore
    exact ⟨before', gap', quote, after', rfl, hbefore, hgap, hkind, hname⟩
  · rintro ⟨before, gap, quote, after, rfl, hbefore, hgap, hkind, hname⟩
    have hquote : quote.toNat < 128 := by
      obtain rfl | rfl := hkind <;> decide
    refine ⟨misread before, gap, quote, misread after, ?_, ?_, hgap, hkind, hname⟩
    · have hcons : ∀ cs, misread (quote :: cs) = quote :: misread cs := by
        intro cs
        rw [misread_cons, misread_singleton hquote, List.singleton_append]
      rw [misread_append, misread_append, misread_append, hcons, misread_append, hcons,
        misread_ascii hword, misread_ascii (hgapAscii gap hgap), misread_ascii hascii]
    · rwa [infix_misread_iff hword (by decide)]

/-- The detector finds in UTF-8 what the text says. -/
theorem saysLatin1_misread (cs : List Char) : SaysLatin1 (misread cs) ↔ SaysLatin1 cs := by
  have hword : Ascii "<?xml".toList := by decide
  have hend : Ascii "?>".toList := by decide
  constructor
  · rintro ⟨⟨rest, hbegins⟩, inside, after, name, htext, hfirst, hnames, hlatin⟩
    obtain ⟨rest', rfl, -⟩ := misread_eq_append hword hbegins.symm
    obtain ⟨inside', after', hcs, rfl, -⟩ := misread_eq_append_mark hend (by decide) htext
    rw [infix_misread_iff hend (by decide)] at hfirst
    rw [namesEncoding_misread (ascii_of_isLatin1Name hlatin)] at hnames
    exact ⟨List.prefix_append _ _, inside', after', name, hcs, hfirst, hnames, hlatin⟩
  · rintro ⟨⟨rest, rfl⟩, inside, after, name, htext, hfirst, hnames, hlatin⟩
    refine ⟨⟨misread rest, ?_⟩, misread inside, misread after, name, ?_, ?_, ?_, hlatin⟩
    · rw [misread_append, misread_ascii hword]
    · rw [htext, misread_append, misread_append, misread_ascii hend]
    · rwa [infix_misread_iff hend (by decide)]
    · rwa [namesEncoding_misread (ascii_of_isLatin1Name hlatin)]

/-- In the encodings without wide units, the bytes of a text declare that they are in Latin-1 if
the text says so. -/
theorem declaresLatin1_encode {e : Encoding} {text : String} (he : e = utf8 ∨ e = latin1)
    (hnarrow : e = latin1 → Narrow text.toList) :
    declaresLatin1 (e.encode text) = true ↔ SaysLatin1 text.toList := by
  rw [declaresLatin1_iff]
  obtain rfl | rfl := he
  · exact saysLatin1_misread text.toList
  · have hchars : (latin1.encode text).map latin1Char = text.toList.map narrow := by
      have hbytes : latin1.encode text = text.toList.map latin1Byte := List.map_eq_flatMap.symm
      rw [hbytes, List.map_map]
      exact List.map_congr_left fun c _ => latin1Char_latin1Byte c
    rw [hchars, map_narrow (hnarrow rfl)]

end Encoding
end XmlTree
