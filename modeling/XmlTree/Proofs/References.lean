/-
  Proofs/References.lean --- which texts are references, and that exactly those are decoded.

  WHAT THIS FILE IS FOR.  A reference is defined here by what it spells, without a reader: one
  of five names, or the number of a character in digits (`IsReference`).  What a text is
  decoded to is a relation between texts (`Decodes`): from left to right, a reference that
  begins is one character, and a character where none begins is itself.  The reader computes
  that relation, for the references that it can see.

  WHAT THE READER CANNOT SEE.  It looks at so many characters behind an ampersand as the
  longest reference without needless zeros has, and two more.  A number with more zeros in
  front is still a reference to the same character; it is copied.
-/
import Mathlib.Data.Nat.Digits.Defs
import Mathlib.Data.List.Forall2
import Mathlib.Data.List.Infix
import XmlTree.Proofs.Escaping

set_option autoImplicit false

namespace XmlTree

/-! ## Numbers and their digits -/

/-- A digit of the base, in either case. -/
def IsDigit (base : Nat) (c : Char) (d : Nat) : Prop :=
  d < base ∧ (c = d.digitChar ∨ c = d.digitChar.toUpper)

/-- At least one digit and nothing else, which are a number with the greatest digit first. -/
def Denotes (base : Nat) (digits : List Char) (n : Nat) : Prop :=
  digits ≠ [] ∧ ∃ ds, List.Forall₂ (IsDigit base) digits ds ∧ Nat.ofDigits base ds.reverse = n

theorem digitValue?_eq_some_iff_of_lt {c : Char} {d base : Nat} (hbase : base ≤ 16) :
    digitValue? base c = some d ↔ digitValue? 16 c = some d ∧ d < base := by
  unfold digitValue?
  simp only [Option.filter_eq_some_iff, decide_eq_true_eq]
  constructor
  · rintro ⟨hvalue, hd⟩
    exact ⟨⟨hvalue, by omega⟩, hd⟩
  · rintro ⟨⟨hvalue, -⟩, hd⟩
    exact ⟨hvalue, hd⟩

/-- No character beyond ASCII is a digit. -/
theorem lt_of_digitValue? {c : Char} {d base : Nat} (h : digitValue? base c = some d) :
    c.toNat < 128 := by
  have hle : ∀ last : Char, last.toNat < 128 → c ≤ last → c.toNat < 128 := fun last hlast hc =>
    Nat.lt_of_le_of_lt (UInt32.le_iff_toNat_le.1 hc) hlast
  unfold digitValue? at h
  obtain ⟨hvalue, -⟩ := Option.filter_eq_some_iff.1 h
  split at hvalue
  · rename_i hdigit
    rw [Char.isDigit, Bool.and_eq_true, decide_eq_true_eq, decide_eq_true_eq] at hdigit
    exact hle '9' (by decide) hdigit.2
  · split at hvalue
    · rename_i hlower
      rw [Bool.and_eq_true, decide_eq_true_eq, decide_eq_true_eq] at hlower
      exact hle 'z' (by decide) hlower.2
    · split at hvalue
      · rename_i hupper
        rw [Bool.and_eq_true, decide_eq_true_eq, decide_eq_true_eq] at hupper
        exact hle 'Z' (by decide) hupper.2
      · cases hvalue

theorem digitValue?_ascii : ∀ n < 128, ∀ d < 16,
    (digitValue? 16 (Char.ofNat n) = some d ↔
      Char.ofNat n = d.digitChar ∨ Char.ofNat n = d.digitChar.toUpper) := by
  decide +kernel

theorem toNat_digitChar_lt : ∀ d < 16, d.digitChar.toNat < 128 ∧ d.digitChar.toUpper.toNat < 128 := by
  decide

theorem digitValue?_eq_some_iff {c : Char} {d base : Nat} (hbase : base ≤ 16) :
    digitValue? base c = some d ↔ IsDigit base c d := by
  rw [digitValue?_eq_some_iff_of_lt hbase, IsDigit, and_comm]
  refine and_congr_right fun hd => ?_
  constructor
  · intro hvalue
    have hascii := digitValue?_ascii c.toNat (lt_of_digitValue? hvalue) d (by omega)
    rw [Char.ofNat_toNat] at hascii
    exact hascii.1 hvalue
  · intro hc
    have hsmall : c.toNat < 128 := by
      obtain ⟨hlower, hupper⟩ := toNat_digitChar_lt d (by omega)
      obtain rfl | rfl := hc
      · exact hlower
      · exact hupper
    have hascii := digitValue?_ascii c.toNat hsmall d (by omega)
    rw [Char.ofNat_toNat] at hascii
    exact hascii.2 hc

theorem ofDigits_reverse_cons (base d : Nat) (ds : List Nat) :
    Nat.ofDigits base (d :: ds).reverse = d * base ^ ds.length + Nat.ofDigits base ds.reverse := by
  rw [List.reverse_cons, Nat.ofDigits_append, List.length_reverse, Nat.ofDigits_singleton,
    Nat.add_comm, Nat.mul_comm]

/-- Reading on goes on with the number that has been read, one place to the left for each digit. -/
theorem numeralFrom?_eq_some_iff {base : Nat} (hbase : base ≤ 16) {value n : Nat}
    {cs : List Char} :
    numeralFrom? base value cs = some n ↔
      ∃ ds, List.Forall₂ (IsDigit base) cs ds ∧
        value * base ^ ds.length + Nat.ofDigits base ds.reverse = n := by
  induction cs generalizing value with
  | nil => simp [numeralFrom?]
  | cons c cs ih =>
    rw [numeralFrom?]
    constructor
    · intro h
      cases hdigit : digitValue? base c with
      | none => rw [hdigit] at h; cases h
      | some d =>
        rw [hdigit] at h
        obtain ⟨ds, hds, rfl⟩ := ih.1 h
        refine ⟨d :: ds, .cons ((digitValue?_eq_some_iff hbase).1 hdigit) hds, ?_⟩
        rw [ofDigits_reverse_cons, List.length_cons]
        ring
    · rintro ⟨_, _ | ⟨hdigit, hds⟩, rfl⟩
      rename_i d ds
      rw [(digitValue?_eq_some_iff hbase).2 hdigit]
      refine ih.2 ⟨ds, hds, ?_⟩
      rw [ofDigits_reverse_cons, List.length_cons]
      ring

theorem numeral?_eq_some_iff {base : Nat} (hbase : base ≤ 16) {n : Nat} {cs : List Char} :
    numeral? base cs = some n ↔ Denotes base cs n := by
  cases cs with
  | nil => simp [numeral?, Denotes]
  | cons c cs => simp [numeral?, Denotes, numeralFrom?_eq_some_iff hbase]

theorem Denotes.exists_isDigit {base n : Nat} {digits : List Char} (h : Denotes base digits n)
    {c : Char} (hc : c ∈ digits) : ∃ d, IsDigit base c d := by
  obtain ⟨-, ds, hds, -⟩ := h
  induction hds with
  | nil => cases hc
  | cons hd _ ih =>
    obtain rfl | hc := List.mem_cons.1 hc
    · exact ⟨_, hd⟩
    · exact ih hc

/-- A character that is no digit stands in no numeral. -/
theorem Denotes.not_mem {base n : Nat} {digits : List Char} (h : Denotes base digits n)
    (hbase : base ≤ 16) {c : Char} (hc : digitValue? 16 c = none) : c ∉ digits := by
  intro hmem
  obtain ⟨d, hd⟩ := h.exists_isDigit hmem
  have hvalue := (digitValue?_eq_some_iff hbase).2 hd
  rw [digitValue?_eq_some_iff_of_lt hbase, hc] at hvalue
  cases hvalue.1

/-! ## References -/

/-- What stands between the ampersand and the semicolon of a reference, and the character that
it refers to. -/
inductive IsReference : List Char → Char → Prop
  | lt : IsReference "lt".toList '<'
  | gt : IsReference "gt".toList '>'
  | amp : IsReference "amp".toList '&'
  | quot : IsReference "quot".toList '"'
  | apos : IsReference "apos".toList '\''
  | decimal {digits : List Char} {c : Char} (h : Denotes 10 digits c.toNat) :
      IsReference ('#' :: digits) c
  | hexadecimal {digits : List Char} {c : Char} (h : Denotes 16 digits c.toNat) :
      IsReference ('#' :: 'x' :: digits) c

theorem charOfNumber?_eq_some_iff {n : Nat} {c : Char} :
    charOfNumber? n = some c ↔ n = c.toNat := by
  unfold charOfNumber?
  constructor
  · intro h
    obtain ⟨hvalid, hc⟩ := Option.ite_none_right_eq_some.1 h
    obtain rfl := Option.some.inj hc
    rw [Char.ofNat, dif_pos hvalid]
    rfl
  · rintro rfl
    rw [if_pos (show c.toNat.isValidChar from c.valid), Char.ofNat_toNat]

/-- Without a sign the number is the one that is spelled. -/
theorem bind_word?_eq_some_iff {base : Nat} (hbase : base ≤ 16) {digits : List Char} {c : Char}
    (hsign : '+' ∉ digits) :
    (word? base digits).bind charOfNumber? = some c ↔ Denotes base digits c.toNat := by
  have hword : word? base digits = (numeral? base digits).filter (· < wordLimit) := by
    unfold word?
    split
    · exact absurd (List.mem_cons_self ..) hsign
    · rfl
  rw [hword, ← numeral?_eq_some_iff hbase]
  constructor
  · intro h
    obtain ⟨n, hn, hc⟩ := Option.bind_eq_some_iff.1 h
    rw [charOfNumber?_eq_some_iff] at hc
    exact hc ▸ (Option.filter_eq_some_iff.1 hn).1
  · intro h
    have hsmall : c.toNat < wordLimit := by
      have hscalar : c.toNat < 0xD800 ∨ 0xDFFF < c.toNat ∧ c.toNat < 0x110000 := c.valid
      unfold wordLimit
      omega
    refine Option.bind_eq_some_iff.2 ⟨c.toNat, ?_, charOfNumber?_eq_some_iff.2 rfl⟩
    exact Option.filter_eq_some_iff.2 ⟨h, by simpa using hsmall⟩

/-- A number is read as the character that it refers to, and with a sign as none. -/
theorem numberedChar?_eq_some_iff {number : List Char} {c : Char} :
    numberedChar? number = some c ↔ IsReference ('#' :: number) c := by
  unfold numberedChar?
  by_cases hsign : '+' ∈ number
  · rw [List.contains_iff_mem.2 hsign]
    refine iff_of_false (by simp) ?_
    rintro (_ | _ | _ | _ | _ | h | h)
    · exact h.not_mem (by decide) (by decide) hsign
    · obtain hx | hsign := List.mem_cons.1 hsign
      · cases hx
      · exact h.not_mem (by decide) (by decide) hsign
  · have hcontains : number.contains '+' = false := by simpa using hsign
    simp only [hcontains, Bool.false_eq_true, if_false]
    split
    · rename_i digits
      rw [bind_word?_eq_some_iff (by decide) (List.not_mem_of_not_mem_cons hsign)]
      refine ⟨.hexadecimal, ?_⟩
      rintro (_ | _ | _ | _ | _ | h | h)
      · exact absurd (List.mem_cons_self ..) (h.not_mem (by decide) (by decide))
      · exact h
    · rename_i hhex
      rw [bind_word?_eq_some_iff (by decide) hsign]
      refine ⟨.decimal, ?_⟩
      rintro (_ | _ | _ | _ | _ | h | h)
      · exact h
      · exact absurd rfl (hhex _)

/-- What is read of a body is what it refers to. -/
theorem referencedChar?_eq_some_iff {body : List Char} {c : Char} :
    referencedChar? body = some c ↔ IsReference body c := by
  have hnumber : ∀ number, referencedChar? ('#' :: number) = numberedChar? number := by
    intro number
    simp [referencedChar?]
  constructor
  · intro h
    unfold referencedChar? at h
    split at h
    · rename_i hbody
      cases h
      exact hbody ▸ .lt
    split at h
    · rename_i hbody
      cases h
      exact hbody ▸ .gt
    split at h
    · rename_i hbody
      cases h
      exact hbody ▸ .amp
    split at h
    · rename_i hbody
      cases h
      exact hbody ▸ .quot
    split at h
    · rename_i hbody
      cases h
      exact hbody ▸ .apos
    split at h
    · exact numberedChar?_eq_some_iff.1 h
    · cases h
  · intro h
    cases h with
    | lt | gt | amp | quot | apos => decide
    | decimal h => exact (hnumber _).trans (numberedChar?_eq_some_iff.2 (.decimal h))
    | hexadecimal h => exact (hnumber _).trans (numberedChar?_eq_some_iff.2 (.hexadecimal h))

namespace IsReference

variable {body : List Char} {c d : Char}

theorem unique (h : IsReference body c) (h' : IsReference body d) : c = d :=
  Option.some.inj ((referencedChar?_eq_some_iff.2 h).symm.trans (referencedChar?_eq_some_iff.2 h'))

theorem semicolon_not_mem (h : IsReference body c) : ';' ∉ body := by
  cases h with
  | lt | gt | amp | quot | apos => decide
  | decimal h => simpa using h.not_mem (by decide) (by decide)
  | hexadecimal h => simpa using h.not_mem (by decide) (by decide)

end IsReference

/-- A reference that is no longer than the reader looks. -/
def IsShortReference (body : List Char) (c : Char) : Prop :=
  IsReference body c ∧ body.length ≤ 10

/-- A reference is found at the start of a text if one is there that is short. -/
theorem reference?_eq_some_iff {cs rest : List Char} {c : Char} :
    reference? cs = some (c, rest) ↔
      ∃ body, IsShortReference body c ∧ cs = body ++ ';' :: rest := by
  constructor
  · intro h
    simp only [reference?] at h
    split at h
    · rename_i after hdrop
      obtain ⟨c', hc', heq⟩ := Option.map_eq_some_iff.1 h
      obtain ⟨rfl, rfl⟩ := Prod.mk.inj heq
      have hprefix := (List.takeWhile_prefix (· != ';')).trans
        (List.take_prefix referenceBodyLimit cs)
      refine ⟨_, ⟨referencedChar?_eq_some_iff.1 hc', ?_⟩, ?_⟩
      · exact (List.takeWhile_prefix _).length_le.trans (List.length_take_le ..)
      · rw [← hdrop]
        exact List.prefix_append_drop hprefix
    · cases h
  · rintro ⟨body, ⟨hbody, hlength⟩, rfl⟩
    exact reference?_append rest hlength hbody.semicolon_not_mem (referencedChar?_eq_some_iff.2 hbody)

/-! ## Decoding -/

/-- The second text is the first one with every reference replaced, from left to right.  What
counts as a reference is a parameter. -/
inductive Decodes (Refers : List Char → Char → Prop) : List Char → List Char → Prop
  | nil : Decodes Refers [] []
  | reference {body rest out : List Char} {c : Char} (hbody : Refers body c)
      (hrest : Decodes Refers rest out) : Decodes Refers ('&' :: (body ++ ';' :: rest)) (c :: out)
  | verbatim {rest out : List Char} {c : Char}
      (hnone : ∀ body d after, Refers body d → c :: rest ≠ '&' :: (body ++ ';' :: after))
      (hrest : Decodes Refers rest out) : Decodes Refers (c :: rest) (c :: out)

/-- Two bodies before a semicolon are the same if the texts are. -/
theorem eq_of_append_semicolon {body body' rest rest' : List Char} (h : ';' ∉ body)
    (h' : ';' ∉ body') (heq : body ++ ';' :: rest = body' ++ ';' :: rest') :
    body = body' ∧ rest = rest' := by
  obtain ⟨more, rfl, hmore⟩ | ⟨more, rfl, hmore⟩ := List.append_eq_append_iff.1 heq
  · cases more with
    | nil => simpa using hmore
    | cons c more =>
      obtain rfl : ';' = c := (List.cons.inj hmore).1
      simp at h'
  · cases more with
    | nil => simpa [eq_comm] using hmore
    | cons c more =>
      obtain rfl : ';' = c := (List.cons.inj hmore).1
      simp at h

/-- There is only one way to decode a text if references end at their first semicolon. -/
theorem Decodes.unique {Refers : List Char → Char → Prop}
    (hrefers : ∀ {body c}, Refers body c → IsReference body c) {cs out out' : List Char}
    (h : Decodes Refers cs out) (h' : Decodes Refers cs out') : out = out' := by
  induction h generalizing out' with
  | nil =>
    cases h'
    rfl
  | @reference body rest out c hbody _ ih =>
    generalize hcs : '&' :: (body ++ ';' :: rest) = cs at h'
    cases h' with
    | nil => cases hcs
    | @reference body' rest' out' c' hbody' hrest' =>
      obtain ⟨rfl, rfl⟩ := eq_of_append_semicolon (hrefers hbody).semicolon_not_mem
        (hrefers hbody').semicolon_not_mem (List.cons.inj hcs).2
      rw [(hrefers hbody).unique (hrefers hbody'), ih hrest']
    | verbatim hnone _ => exact absurd hcs.symm (hnone _ _ _ hbody)
  | verbatim hnone _ ih =>
    generalize hcs : _ :: _ = cs at h'
    cases h' with
    | nil => cases hcs
    | reference hbody' _ => exact absurd hcs (hnone _ _ _ hbody')
    | verbatim _ hrest' =>
      cases hcs
      rw [ih hrest']

/-- The reader decodes the references that it can see. -/
theorem decodes_decodeReferences (cs : List Char) :
    Decodes IsShortReference cs (decodeReferences cs) := by
  fun_induction decodeReferences cs with
  | case1 => exact .nil
  | case2 cs d rest hread ih =>
    obtain ⟨body, hbody, rfl⟩ := reference?_eq_some_iff.1 hread
    exact .reference hbody ih
  | case3 cs hread ih =>
    refine .verbatim ?_ ih
    rintro body d after hbody heq
    rw [reference?_eq_some_iff.2 ⟨body, hbody, (List.cons.inj heq).2⟩] at hread
    cases hread
  | case4 c cs hc ih =>
    refine .verbatim ?_ ih
    rintro body d after - heq
    exact hc (List.cons.inj heq).1

theorem text_convertReferences (cs : List Char) :
    (convertReferences cs).text = decodeReferences cs := by
  unfold convertReferences
  split
  · rfl
  · rename_i hnone
    exact (decodeReferences_of_not_mem fun h => hnone (List.contains_iff_mem.2 h)).symm

/-- Exactly the short references are decoded: the text that is answered is the input with each of
them replaced by its character, in one pass from left to right, and all else copied. -/
theorem decodes_iff_eq_convertReferences (cs out : List Char) :
    Decodes IsShortReference cs out ↔ out = (convertReferences cs).text := by
  have hdecodes := decodes_decodeReferences cs
  rw [← text_convertReferences] at hdecodes
  constructor
  · intro h
    exact h.unique And.left hdecodes
  · rintro rfl
    exact hdecodes

/-- A number with so many zeros in front that the reader does not see its end is a reference, and
it is copied. -/
theorem not_decodes_leading_zeros :
    let text := "&#x000000041;".toList
    Decodes IsReference text "A".toList ∧ (convertReferences text).text = text ∧
      ¬ ∀ cs, Decodes IsReference cs (convertReferences cs).text := by
  have hspells : Denotes 16 "000000041".toList 'A'.toNat :=
    (numeral?_eq_some_iff (by decide)).1 (by decide)
  have hdecodes : Decodes IsReference "&#x000000041;".toList "A".toList :=
    .reference (IsReference.hexadecimal hspells) .nil
  have hcopied : (convertReferences "&#x000000041;".toList).text = "&#x000000041;".toList := by
    have hnone : reference? "#x000000041;".toList = none := by decide
    rw [text_convertReferences, show "&#x000000041;".toList = '&' :: "#x000000041;".toList from rfl,
      decodeReferences_ampersand, hnone, decodeReferences_of_not_mem (by decide)]
  refine ⟨hdecodes, hcopied, fun hall => ?_⟩
  have hsame := hdecodes.unique id (hall _)
  rw [hcopied] at hsame
  exact absurd hsame (by decide)

end XmlTree
