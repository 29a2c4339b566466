/-
  Proofs/Integers.lean --- integers stored as text are read exactly, however long they are.

  WHAT THIS FILE IS FOR.  What a text may begin with to be read as an integer is said here
  without a reader: white space, a sign, and digits, of which there may be none
  (`SpellsInteger`).  The longest such beginning of a text denotes one integer
  (`BeginsWith`), and what the reader answers is the value of the range that is nearest to it.

  TWO CEILINGS.  While digits are read, the magnitude stops at a ceiling, so that it fits a
  word.  Any ceiling that no value of the range exceeds gives the same answer.  The
  accumulator of a machine is one of 128 bits, and its negative branch goes through the
  negative of a word; reading with such words (`readInWords`) is the same function.
-/
import Mathlib.Data.List.Infix
import Mathlib.Data.List.TakeWhile
import Mathlib.Tactic.Ring
import XmlTree.Number.Scalar
import XmlTree.Proofs.References

set_option autoImplicit false

namespace XmlTree

/-! ## What spells an integer -/

/-- Digits of the base, of which there may be none, and the number that they are. -/
def Counts (base : Nat) (digits : List Char) (n : Nat) : Prop :=
  ∃ ds, List.Forall₂ (IsDigit base) digits ds ∧ Nat.ofDigits base ds.reverse = n

/-- A sign, which may be left out, and the factor that it stands for. -/
inductive IsSign : List Char → Int → Prop
  | none : IsSign [] 1
  | plus : IsSign ['+'] 1
  | minus : IsSign ['-'] (-1)

/-- What stands before the digits of a base. -/
inductive IsBaseMark : List Char → Nat → Prop
  | decimal : IsBaseMark [] 10
  | lower : IsBaseMark ['0', 'x'] 16
  | upper : IsBaseMark ['0', 'X'] 16

/-- White space, a sign and digits, each of which may be left out, and the integer that they
are. -/
inductive SpellsInteger : List Char → Int → Prop
  | intro {space sign mark digits : List Char} {factor : Int} {base magnitude : Nat}
      (hspace : ∀ c ∈ space, isSpace c = true) (hsign : IsSign sign factor)
      (hmark : IsBaseMark mark base) (hdigits : Counts base digits magnitude) :
      SpellsInteger (space ++ (sign ++ (mark ++ digits))) (factor * magnitude)

/-- The longest beginning of the text that spells an integer spells this one. -/
def BeginsWith (text : List Char) (n : Int) : Prop :=
  ∃ spelled, spelled <+: text ∧ SpellsInteger spelled n ∧
    ∀ other m, other <+: text → SpellsInteger other m → other.length ≤ spelled.length

/-! ## Digits -/

theorem IsBaseMark.base_le {mark : List Char} {base : Nat} (h : IsBaseMark mark base) :
    10 ≤ base ∧ base ≤ 16 := by
  cases h <;> decide

/-- The digits that begin a text. -/
def leadingDigits (base : Nat) (cs : List Char) : List Char :=
  cs.takeWhile fun c => (digitValue? base c).isSome

theorem counts_iff {base : Nat} (hbase : base ≤ 16) {digits : List Char} {n : Nat} :
    Counts base digits n ↔ numeralFrom? base 0 digits = some n := by
  rw [numeralFrom?_eq_some_iff hbase]
  simp [Counts]

theorem Counts.digit {base n : Nat} (hbase : base ≤ 16) {digits : List Char}
    (h : Counts base digits n) : ∀ c ∈ digits, (digitValue? base c).isSome = true := by
  obtain ⟨ds, hds, -⟩ := h
  intro c hc
  induction hds with
  | nil => cases hc
  | cons hd _ ih =>
    obtain rfl | hc := List.mem_cons.1 hc
    · rw [(digitValue?_eq_some_iff hbase).2 hd]
      rfl
    · exact ih hc

/-- The digits that begin a text count something, and the reader answers it unless it exceeds the
ceiling. -/
theorem exists_numeralFrom? {base : Nat} (hbase : 0 < base) (value : Nat) (cs : List Char) :
    ∃ n, numeralFrom? base value (leadingDigits base cs) = some n ∧
      ∀ ceiling, leadingNumeral base ceiling (min value ceiling) cs = min n ceiling := by
  induction cs generalizing value with
  | nil => exact ⟨value, rfl, fun _ => rfl⟩
  | cons c cs ih =>
    unfold leadingDigits at ih ⊢
    rw [List.takeWhile_cons]
    cases hdigit : digitValue? base c with
    | none => exact ⟨value, rfl, fun ceiling => by simp [leadingNumeral, hdigit]⟩
    | some d =>
      obtain ⟨n, hn, hread⟩ := ih (value * base + d)
      refine ⟨n, ?_, fun ceiling => ?_⟩
      · simpa [numeralFrom?, hdigit] using hn
      have hstop : min (min value ceiling * base + d) ceiling =
          min (value * base + d) ceiling := by
        obtain hle | hle := Nat.le_total value ceiling
        · rw [Nat.min_eq_left hle]
        · have hceiling : ceiling ≤ ceiling * base := Nat.le_mul_of_pos_right _ hbase
          have hvalue : ceiling * base ≤ value * base := Nat.mul_le_mul_right base hle
          rw [Nat.min_eq_right hle, Nat.min_eq_right (by omega), Nat.min_eq_right (by omega)]
      simp only [leadingNumeral, hdigit, hstop, hread]

/-- What the reader makes of digits that stand alone. -/
theorem Counts.leadingNumeral_eq {base n : Nat} {mark digits : List Char}
    (hmark : IsBaseMark mark base) (h : Counts base digits n) (ceiling : Nat) :
    leadingNumeral base ceiling 0 digits = min n ceiling := by
  obtain ⟨hpos, hbase⟩ := hmark.base_le
  obtain ⟨m, hm, hread⟩ := exists_numeralFrom? (show 0 < base by omega) 0 digits
  rw [leadingDigits, List.takeWhile_eq_self_iff.2 (h.digit hbase), (counts_iff hbase).1 h,
    Option.some.injEq] at hm
  rw [hm]
  simpa using hread ceiling

/-! ## The parts that begin a text -/

/-- The sign that begins a text. -/
def leadingSign : List Char → List Char
  | '-' :: _ => ['-']
  | '+' :: _ => ['+']
  | _ => []

/-- What stands before the digits that begin a text. -/
def leadingMark : List Char → List Char
  | '0' :: 'x' :: _ => ['0', 'x']
  | '0' :: 'X' :: _ => ['0', 'X']
  | _ => []

/-- The base of the digits that begin a text. -/
def leadingBase : List Char → Nat
  | '0' :: 'x' :: _ => 16
  | '0' :: 'X' :: _ => 16
  | _ => 10

theorem isBaseMark_leading (cs : List Char) : IsBaseMark (leadingMark cs) (leadingBase cs) := by
  unfold leadingMark leadingBase
  split
  · exact .lower
  · exact .upper
  · exact .decimal

theorem leadingMark_append (cs : List Char) :
    leadingMark cs ++ cs.drop (leadingMark cs).length = cs := by
  unfold leadingMark
  split <;> simp

theorem takeSign_cases (cs : List Char) :
    (∃ rest, cs = '-' :: rest ∧ takeSign cs = (true, rest)) ∨
      (∃ rest, cs = '+' :: rest ∧ takeSign cs = (false, rest)) ∨
      leadingSign cs = [] ∧ takeSign cs = (false, cs) := by
  cases cs with
  | nil => exact .inr (.inr ⟨rfl, rfl⟩)
  | cons c rest =>
    by_cases hminus : c = '-'
    · subst hminus
      exact .inl ⟨rest, rfl, rfl⟩
    · by_cases hplus : c = '+'
      · subst hplus
        exact .inr (.inl ⟨rest, rfl, rfl⟩)
      · exact .inr (.inr (by simp [leadingSign, takeSign, hminus, hplus]))

theorem leadingSign_append (cs : List Char) : leadingSign cs ++ (takeSign cs).2 = cs := by
  obtain ⟨rest, rfl, hsign⟩ | ⟨rest, rfl, hsign⟩ | ⟨hnone, hsign⟩ := takeSign_cases cs
  · rw [hsign]
    rfl
  · rw [hsign]
    rfl
  · rw [hsign, hnone]
    rfl

theorem isSign_leading (cs : List Char) :
    IsSign (leadingSign cs) (if (takeSign cs).1 then -1 else 1) := by
  obtain ⟨rest, rfl, hsign⟩ | ⟨rest, rfl, hsign⟩ | ⟨hnone, hsign⟩ := takeSign_cases cs
  · rw [hsign]
    exact .minus
  · rw [hsign]
    exact .plus
  · rw [hsign, hnone]
    exact .none

/-- The reader goes from part to part. -/
theorem leadingInteger_eq (ceiling : Nat) (text : List Char) :
    leadingInteger ceiling text =
      (if (takeSign (dropSpace text)).1 then -1 else 1) *
        (leadingNumeral (leadingBase (takeSign (dropSpace text)).2) ceiling 0
          ((takeSign (dropSpace text)).2.drop
            (leadingMark (takeSign (dropSpace text)).2).length) : Nat) := by
  generalize hparts : takeSign (dropSpace text) = parts
  obtain ⟨negative, cs⟩ := parts
  simp only [leadingInteger, hparts]
  have hnone : (∀ rest, cs ≠ '0' :: 'x' :: rest) → (∀ rest, cs ≠ '0' :: 'X' :: rest) →
      leadingMark cs = [] ∧ leadingBase cs = 10 := by
    intro hlower hupper
    unfold leadingMark leadingBase
    split
    · exact absurd rfl (hlower _)
    · exact absurd rfl (hupper _)
    · exact ⟨rfl, rfl⟩
  cases negative with
  | true =>
    simp only [if_true, neg_one_mul]
    split
    · rfl
    · rfl
    · rename_i hlower hupper
      obtain ⟨hmark, hbase⟩ := hnone hlower hupper
      rw [hmark, hbase]
      rfl
  | false =>
    simp only [Bool.false_eq_true, if_false, one_mul]
    split
    · rfl
    · rfl
    · rename_i hlower hupper
      obtain ⟨hmark, hbase⟩ := hnone hlower hupper
      rw [hmark, hbase]
      rfl

/-- The longest beginning of a text that spells an integer. -/
def leadingSpelling (text : List Char) : List Char :=
  let unsigned := (takeSign (dropSpace text)).2
  text.takeWhile isSpace ++ (leadingSign (dropSpace text) ++ (leadingMark unsigned ++
    leadingDigits (leadingBase unsigned) (unsigned.drop (leadingMark unsigned).length)))

theorem leadingSpelling_prefix (text : List Char) : leadingSpelling text <+: text := by
  set unsigned := (takeSign (dropSpace text)).2 with hunsigned
  have hdigits : leadingDigits (leadingBase unsigned)
      (unsigned.drop (leadingMark unsigned).length) <+:
        unsigned.drop (leadingMark unsigned).length :=
    List.takeWhile_prefix _
  have hmark := (List.prefix_append_right_inj (leadingMark unsigned)).2 hdigits
  rw [leadingMark_append] at hmark
  have hsign := (List.prefix_append_right_inj (leadingSign (dropSpace text))).2 hmark
  rw [hunsigned, leadingSign_append, ← hunsigned] at hsign
  have hspace := (List.prefix_append_right_inj (text.takeWhile isSpace)).2 hsign
  rwa [dropSpace, List.takeWhile_append_dropWhile] at hspace

/-- What is read from a text is what its longest spelling spells, up to the ceiling. -/
theorem exists_spellsInteger (text : List Char) :
    ∃ n, SpellsInteger (leadingSpelling text) n ∧
      ∀ ceiling : Nat, leadingInteger ceiling text = max (-(ceiling : Int)) (min n ceiling) := by
  set unsigned := (takeSign (dropSpace text)).2 with hunsigned
  have hmark := isBaseMark_leading unsigned
  obtain ⟨hpos, hbase⟩ := hmark.base_le
  obtain ⟨n, hn, hread⟩ := exists_numeralFrom? (show 0 < leadingBase unsigned by omega) 0
    (unsigned.drop (leadingMark unsigned).length)
  refine ⟨_, .intro (fun c hc => List.mem_takeWhile_imp hc) (isSign_leading _) hmark
    ((counts_iff hbase).2 hn), fun ceiling => ?_⟩
  have hceiling := hread ceiling
  rw [Nat.zero_min] at hceiling
  rw [leadingInteger_eq, ← hunsigned, hceiling]
  split <;> omega

/-! ## No beginning is longer -/

theorem Counts.prefix_leadingDigits {base n : Nat} {mark digits : List Char}
    (hmark : IsBaseMark mark base) (h : Counts base digits n) (rest : List Char) :
    digits <+: leadingDigits base (digits ++ rest) := by
  rw [leadingDigits, List.takeWhile_append_of_pos (h.digit hmark.base_le.2)]
  exact List.prefix_append _ _

/-- A mark with digits behind it is not longer than what is taken for such. -/
theorem length_numeral_le {mark digits : List Char} {base n : Nat}
    (hmark : IsBaseMark mark base) (hdigits : Counts base digits n) (rest : List Char) :
    let unsigned := mark ++ (digits ++ rest)
    (mark ++ digits).length ≤ (leadingMark unsigned ++ leadingDigits (leadingBase unsigned)
      (unsigned.drop (leadingMark unsigned).length)).length := by
  have hbegins := (Counts.prefix_leadingDigits hmark hdigits rest).length_le
  cases hmark with
  | lower => simpa [leadingMark, leadingBase] using hbegins
  | upper => simpa [leadingMark, leadingBase] using hbegins
  | decimal =>
    simp only [List.nil_append]
    -- decimal digits that go as far as the letter of a mark are one zero
    have hshort : ∀ {letter more}, digitValue? 10 letter = none →
        digits ++ rest = '0' :: letter :: more → digits.length ≤ 2 := by
      intro letter more hletter heq
      obtain - | ⟨c, - | ⟨d, ds⟩⟩ := digits
      · simp
      · simp
      · obtain rfl : d = letter := (List.cons.inj (List.cons.inj heq).2).1
        have hd := hdigits.digit (by decide) d (by simp)
        rw [hletter] at hd
        cases hd
    unfold leadingMark leadingBase
    split
    · rename_i more heq
      have := hshort (by decide) heq
      simp only [List.length_append, List.length_cons, List.length_nil]
      omega
    · rename_i more heq
      have := hshort (by decide) heq
      simp only [List.length_append, List.length_cons, List.length_nil]
      omega
    · simpa using hbegins

/-- The head of a sign with digits behind it is not white. -/
theorem isSpace_head_eq_false {sign mark digits cs : List Char} {factor : Int}
    {base magnitude : Nat} {c : Char} (hsign : IsSign sign factor) (hmark : IsBaseMark mark base)
    (hdigits : Counts base digits magnitude) (h : sign ++ (mark ++ digits) = c :: cs) :
    isSpace c = false := by
  have hdigit : ∀ d, (digitValue? base d).isSome = true → isSpace d = false := by
    intro d hd
    by_contra hspace
    simp only [Bool.not_eq_false, isSpace, Bool.or_eq_true, beq_iff_eq] at hspace
    cases hmark <;> obtain ((rfl | rfl) | rfl) | rfl := hspace <;> revert hd <;> decide
  cases hsign with
  | plus => cases h; rfl
  | minus => cases h; rfl
  | none =>
    cases hmark with
    | lower => cases h; rfl
    | upper => cases h; rfl
    | decimal =>
      obtain rfl : digits = c :: cs := h
      exact hdigit c (hdigits.digit (by decide) c (List.mem_cons_self ..))

/-- The sign is found where it stands, if digits follow when it is left out. -/
theorem takeSign_append {sign mark digits : List Char} {factor : Int} {base magnitude : Nat}
    (hsign : IsSign sign factor) (hmark : IsBaseMark mark base)
    (hdigits : Counts base digits magnitude) (hne : sign ++ (mark ++ digits) ≠ [])
    (rest : List Char) :
    leadingSign (sign ++ (mark ++ (digits ++ rest))) = sign ∧
      takeSign (sign ++ (mark ++ (digits ++ rest))) =
        (decide (factor = -1), mark ++ (digits ++ rest)) := by
  cases hsign with
  | plus => exact ⟨rfl, rfl⟩
  | minus => exact ⟨rfl, rfl⟩
  | none =>
    cases hmark with
    | lower => exact ⟨rfl, rfl⟩
    | upper => exact ⟨rfl, rfl⟩
    | decimal =>
      cases digits with
      | nil => exact absurd rfl hne
      | cons d ds =>
        have hd := hdigits.digit (by decide) d (List.mem_cons_self ..)
        have hminus : d ≠ '-' := by rintro rfl; revert hd; decide
        have hplus : d ≠ '+' := by rintro rfl; revert hd; decide
        simp [leadingSign, takeSign, hminus, hplus]

/-- No beginning of a text that spells an integer is longer than the one that is read. -/
theorem length_le_leadingSpelling {text spelled : List Char} {n : Int}
    (hbegins : spelled <+: text) (h : SpellsInteger spelled n) :
    spelled.length ≤ (leadingSpelling text).length := by
  obtain ⟨rest, rfl⟩ := hbegins
  obtain @⟨space, sign, mark, digits, factor, base, magnitude, hspace, hsign, hmark, hdigits⟩ := h
  rw [List.append_assoc, leadingSpelling, dropSpace, List.takeWhile_append_of_pos hspace,
    List.dropWhile_append_of_pos hspace]
  by_cases hne : sign ++ (mark ++ digits) = []
  · simp only [hne, List.append_nil, List.length_append]
    omega
  · obtain ⟨c, cs, hcons⟩ := List.exists_cons_of_ne_nil hne
    have hwhite := isSpace_head_eq_false hsign hmark hdigits hcons
    obtain ⟨hfound, htaken⟩ := takeSign_append hsign hmark hdigits hne rest
    have hnumeral := length_numeral_le hmark hdigits rest
    have hstay : (sign ++ (mark ++ digits) ++ rest).dropWhile isSpace =
        sign ++ (mark ++ (digits ++ rest)) := by
      rw [hcons, List.cons_append, List.dropWhile_cons_of_neg (by simp [hwhite]),
        ← List.cons_append, ← hcons]
      simp
    rw [hstay, hfound, htaken]
    simp only [List.length_append] at hnumeral ⊢
    omega

/-! ## One integer -/

/-- Before digits that stand alone the mark is found where it stands. -/
theorem leadingMark_of_counts {mark digits : List Char} {base n : Nat}
    (hmark : IsBaseMark mark base) (hdigits : Counts base digits n) :
    leadingMark (mark ++ digits) = mark ∧ leadingBase (mark ++ digits) = base := by
  cases hmark with
  | lower => exact ⟨rfl, rfl⟩
  | upper => exact ⟨rfl, rfl⟩
  | decimal =>
    have hdigit : ∀ d ∈ digits, (digitValue? 10 d).isSome = true := hdigits.digit (by decide)
    rw [List.nil_append]
    unfold leadingMark leadingBase
    split
    · exact absurd (hdigit 'x' (by simp)) (by decide)
    · exact absurd (hdigit 'X' (by simp)) (by decide)
    · exact ⟨rfl, rfl⟩

/-- A text that spells an integer in full is read as that. -/
theorem SpellsInteger.leadingInteger_eq {cs : List Char} {n : Int} (h : SpellsInteger cs n)
    (ceiling : Nat) : leadingInteger ceiling cs = max (-(ceiling : Int)) (min n ceiling) := by
  obtain @⟨space, sign, mark, digits, factor, base, magnitude, hspace, hsign, hmark, hdigits⟩ := h
  have hnumeral := hdigits.leadingNumeral_eq hmark ceiling
  rw [XmlTree.leadingInteger_eq, dropSpace, List.dropWhile_append_of_pos hspace]
  by_cases hne : sign ++ (mark ++ digits) = []
  · obtain ⟨rfl, hrest⟩ := List.append_eq_nil_iff.1 hne
    obtain ⟨rfl, rfl⟩ := List.append_eq_nil_iff.1 hrest
    cases hsign
    cases hmark
    obtain ⟨ds, hds, rfl⟩ := hdigits
    cases hds
    simp [takeSign, leadingNumeral]
  · obtain ⟨c, cs, hcons⟩ := List.exists_cons_of_ne_nil hne
    have hwhite := isSpace_head_eq_false hsign hmark hdigits hcons
    obtain ⟨-, htaken⟩ := takeSign_append hsign hmark hdigits hne []
    obtain ⟨hfound, hbase⟩ := leadingMark_of_counts hmark hdigits
    have hstay : (sign ++ (mark ++ digits)).dropWhile isSpace = sign ++ (mark ++ digits) := by
      rw [hcons, List.dropWhile_cons_of_neg (by simp [hwhite])]
    rw [List.append_nil] at htaken
    rw [hstay, htaken, hfound, hbase, List.drop_left, hnumeral]
    cases hsign with
    | none => simp
    | plus => simp
    | minus =>
      simp
      omega

theorem SpellsInteger.unique {cs : List Char} {n m : Int} (h : SpellsInteger cs n)
    (h' : SpellsInteger cs m) : n = m := by
  have hn := h.leadingInteger_eq (max n.natAbs m.natAbs)
  have hm := h'.leadingInteger_eq (max n.natAbs m.natAbs)
  omega

/-- Every text begins with exactly one integer, and it is the one that is read, up to the
ceiling. -/
theorem exists_beginsWith (text : List Char) :
    ∃ n, (∀ m, BeginsWith text m ↔ m = n) ∧
      ∀ ceiling : Nat, leadingInteger ceiling text = max (-(ceiling : Int)) (min n ceiling) := by
  obtain ⟨n, hspells, hread⟩ := exists_spellsInteger text
  have hbegins := leadingSpelling_prefix text
  refine ⟨n, fun m => ⟨?_, ?_⟩, hread⟩
  · rintro ⟨spelled, hspelled, hm, hlongest⟩
    have hlength : spelled.length = (leadingSpelling text).length :=
      Nat.le_antisymm (length_le_leadingSpelling hspelled hm) (hlongest _ _ hbegins hspells)
    have hsame : spelled = leadingSpelling text :=
      (List.prefix_of_prefix_length_le hspelled hbegins hlength.le).eq_of_length hlength
    exact (hsame ▸ hm).unique hspells
  · rintro rfl
    exact ⟨_, hbegins, hspells, fun _ _ hother h => length_le_leadingSpelling hother h⟩

/-! ## Integers that are written -/

theorem counts_toDigits (n : Nat) : Counts 10 (Nat.toDigits 10 n) n := by
  induction n using Nat.strong_induction_on with
  | _ n ih =>
    have hdigit : ∀ d, d < 10 → IsDigit 10 d.digitChar d := fun d hd => ⟨hd, .inl rfl⟩
    by_cases hsmall : n < 10
    · rw [Nat.toDigits_of_lt_base hsmall]
      exact ⟨[n], .cons (hdigit n hsmall) .nil, by simp⟩
    · obtain ⟨ds, hds, hvalue⟩ := ih (n / 10) (by omega)
      rw [Nat.toDigits_of_base_le (by decide) (by omega)]
      have hlast := hdigit _ (Nat.mod_lt n (by decide))
      refine ⟨ds ++ [n % 10], List.rel_append hds (.cons hlast .nil), ?_⟩
      rw [List.reverse_append, List.reverse_singleton, List.singleton_append, Nat.ofDigits_cons,
        hvalue]
      exact Nat.mod_add_div n 10

/-- What an integer is written as spells it. -/
theorem spellsInteger_toString (n : Int) : SpellsInteger (toString n).toList n := by
  have hspace : ∀ c ∈ ([] : List Char), isSpace c = true := nofun
  cases n with
  | ofNat n =>
    have h := SpellsInteger.intro hspace .none .decimal (counts_toDigits n)
    rw [one_mul] at h
    rw [show toString (Int.ofNat n) = toString n from rfl, Nat.toString_eq_ofList_toDigits,
      String.toList_ofList]
    exact h
  | negSucc n =>
    have h := SpellsInteger.intro hspace .minus .decimal (counts_toDigits (n + 1))
    rw [neg_one_mul] at h
    rw [show toString (Int.negSucc n) = "-" ++ (n + 1).repr from rfl, String.toList_append,
      show "-".toList = ['-'] from rfl, Nat.repr_eq_ofList_toDigits, String.toList_ofList,
      Int.negSucc_eq]
    exact_mod_cast h

/-! ## Ranges -/

namespace IntegerRange

/-- A ceiling that no value of the range exceeds does not show. -/
theorem clamp_stopped (r : IntegerRange) {ceiling : Nat} (h : r.ceiling ≤ ceiling) (n : Int) :
    r.clamp (max (-(ceiling : Int)) (min n ceiling)) = r.clamp n := by
  have hleast : r.least.natAbs ≤ ceiling := Nat.le_trans (Nat.le_max_left ..) h
  have hgreatest : r.greatest.natAbs ≤ ceiling := Nat.le_trans (Nat.le_max_right ..) h
  simp only [clamp]
  omega

/-- Within the range nothing is clamped. -/
theorem clamp_eq_self {r : IntegerRange} {n : Int} (hleast : r.least ≤ n)
    (hgreatest : n ≤ r.greatest) : r.clamp n = n := by
  rw [clamp, min_eq_left hgreatest, max_eq_right hleast]

/-- What is read is the integer that the text begins with, clamped. -/
theorem parse_eq_clamp (r : IntegerRange) {text : String} {n : Int}
    (h : ∀ ceiling : Nat, leadingInteger ceiling text.toList =
      max (-(ceiling : Int)) (min n ceiling)) : r.parse text = r.clamp n := by
  rw [parse, h, r.clamp_stopped (Nat.le_refl _)]

/-- An integer of the range that is written is read back. -/
theorem parse_toString {r : IntegerRange} {n : Int} (hleast : r.least ≤ n)
    (hgreatest : n ≤ r.greatest) : r.parse (toString n) = n := by
  rw [r.parse_eq_clamp (spellsInteger_toString n).leadingInteger_eq,
    clamp_eq_self hleast hgreatest]

end IntegerRange

/-! ## Reading with machine words -/

/-- A kind of integers that a machine holds in one word. -/
inductive MachineInteger where
  | int32
  | uint32
  | int64
  | uint64
  deriving DecidableEq, Repr

/-- A word that every kind fits into twice. -/
abbrev WideWord : Type := BitVec 128

namespace WideWord

/-- The product, or the greatest word if it does not fit. -/
def saturatingMul (a b : WideWord) : WideWord :=
  if a.umulOverflow b then BitVec.allOnes 128 else a * b

/-- The sum, or the greatest word if it does not fit. -/
def saturatingAdd (a b : WideWord) : WideWord :=
  if a.uaddOverflow b then BitVec.allOnes 128 else a + b

/-- The number that the digits at the start of a text spell, in a word that is not exceeded. -/
def numeral (base : Nat) (value : WideWord) : List Char → WideWord
  | [] => value
  | c :: cs =>
    match digitValue? base c with
    | some d =>
      numeral base
        (saturatingAdd (saturatingMul value (BitVec.ofNat 128 base)) (BitVec.ofNat 128 d)) cs
    | none => value

/-- The greatest of the words. -/
def greatest : Nat := 2 ^ 128 - 1

theorem toNat_saturatingMul (a b : WideWord) :
    (saturatingMul a b).toNat = min (a.toNat * b.toNat) greatest := by
  unfold saturatingMul BitVec.umulOverflow greatest
  split
  · rename_i h
    rw [BitVec.toNat_allOnes]
    simp only [ge_iff_le, decide_eq_true_eq] at h
    omega
  · rename_i h
    simp only [ge_iff_le, decide_eq_true_eq, Nat.not_le] at h
    rw [BitVec.toNat_mul, Nat.mod_eq_of_lt h]
    omega

theorem toNat_saturatingAdd (a b : WideWord) :
    (saturatingAdd a b).toNat = min (a.toNat + b.toNat) greatest := by
  unfold saturatingAdd BitVec.uaddOverflow greatest
  split
  · rename_i h
    rw [BitVec.toNat_allOnes]
    simp only [ge_iff_le, decide_eq_true_eq] at h
    omega
  · rename_i h
    simp only [ge_iff_le, decide_eq_true_eq, Nat.not_le] at h
    rw [BitVec.toNat_add, Nat.mod_eq_of_lt h]
    omega

theorem toNat_numeral {mark : List Char} {base : Nat} (hmark : IsBaseMark mark base)
    (value : WideWord) (cs : List Char) :
    (numeral base value cs).toNat = leadingNumeral base greatest value.toNat cs := by
  obtain ⟨-, hbase⟩ := hmark.base_le
  induction cs generalizing value with
  | nil => rfl
  | cons c cs ih =>
    rw [numeral, leadingNumeral]
    cases hdigit : digitValue? base c with
    | none => rfl
    | some d =>
      obtain ⟨hd, -⟩ := (digitValue?_eq_some_iff hbase).1 hdigit
      have hstep : (saturatingAdd (saturatingMul value (BitVec.ofNat 128 base))
          (BitVec.ofNat 128 d)).toNat = min (value.toNat * base + d) greatest := by
        rw [toNat_saturatingAdd, toNat_saturatingMul, BitVec.toNat_ofNat, BitVec.toNat_ofNat,
          Nat.mod_eq_of_lt (show base < 2 ^ 128 by omega),
          Nat.mod_eq_of_lt (show d < 2 ^ 128 by omega)]
        omega
      simp only [ih, hstep]

end WideWord

namespace MachineInteger

/-- The values of the kind. -/
def range : MachineInteger → IntegerRange
  | int32 => .int32
  | uint32 => .uint32
  | int64 => .int64
  | uint64 => .uint64

/-- Number of bits of a word of the kind. -/
def width : MachineInteger → Nat
  | int32 | uint32 => 32
  | int64 | uint64 => 64

/-- Whether the highest bit of a word is its sign. -/
def signed : MachineInteger → Bool
  | int32 | int64 => true
  | uint32 | uint64 => false

/-- The integer that a word of the kind stands for. -/
def value (k : MachineInteger) (w : BitVec k.width) : Int :=
  if k.signed then w.toInt else w.toNat

/-- The wide word that is cut to a word of the kind, for a magnitude with its sign. -/
def clampWide (k : MachineInteger) (negative : Bool) (magnitude : WideWord) : WideWord :=
  if negative then
    let least := BitVec.ofInt 128 k.range.least
    let value := if least.abs.ult magnitude then least else -magnitude
    if value.slt least then least else value
  else
    let greatest := BitVec.ofInt 128 k.range.greatest
    if greatest.ult magnitude then greatest else magnitude

/-- The integer that the start of a text spells, read and clamped in words. -/
def readInWords (k : MachineInteger) (text : List Char) : BitVec k.width :=
  let (negative, unsigned) := takeSign (dropSpace text)
  let magnitude := WideWord.numeral (leadingBase unsigned) 0
    (unsigned.drop (leadingMark unsigned).length)
  (k.clampWide negative magnitude).setWidth k.width

theorem bounds (k : MachineInteger) :
    -(2 ^ 63) ≤ k.range.least ∧ k.range.least ≤ 0 ∧ 0 ≤ k.range.greatest ∧
      k.range.greatest < 2 ^ 64 := by
  cases k <;> decide

theorem toInt_wide {n : Int} (hlow : -(2 ^ 63) ≤ n) (hhigh : n < 2 ^ 64) :
    (BitVec.ofInt 128 n).toInt = n := by
  rw [BitVec.toInt_ofInt, Int.bmod_eq_of_le] <;> omega

/-- The branch for a minus: the least value, or the negative of a magnitude that it does not
exceed. -/
theorem toInt_clampWide_negative (k : MachineInteger) (magnitude : WideWord) :
    (k.clampWide true magnitude).toInt = k.range.clamp (-(magnitude.toNat : Int)) := by
  obtain ⟨hleast, hnonpos, hnonneg, -⟩ := k.bounds
  have hl := toInt_wide hleast (show k.range.least < 2 ^ 64 by omega)
  have habs : (BitVec.ofInt 128 k.range.least).abs.toNat = k.range.least.natAbs := by
    rw [BitVec.toNat_abs, BitVec.msb_eq_toInt, hl, BitVec.toNat_ofInt]
    simp only [decide_eq_true_eq]
    split <;> omega
  have hclamp : k.range.clamp (-(magnitude.toNat : Int)) =
      max k.range.least (-(magnitude.toNat : Int)) := by
    rw [IntegerRange.clamp]
    omega
  simp only [clampWide, if_true, BitVec.ult, habs, decide_eq_true_eq]
  rw [hclamp]
  by_cases hult : k.range.least.natAbs < magnitude.toNat
  · have hslt : (BitVec.ofInt 128 k.range.least).slt (BitVec.ofInt 128 k.range.least) = false := by
      rw [Bool.eq_false_iff, Ne, BitVec.slt_iff_toInt_lt]
      exact lt_irrefl _
    rw [if_pos hult, hslt, if_neg (by decide), hl]
    omega
  · have hneg : (-magnitude).toInt = -(magnitude.toNat : Int) := by
      rw [BitVec.toInt_neg, BitVec.toInt_eq_toNat_of_lt (by omega), Int.bmod_eq_of_le] <;> omega
    have hslt : (-magnitude).slt (BitVec.ofInt 128 k.range.least) = false := by
      rw [Bool.eq_false_iff, Ne, BitVec.slt_iff_toInt_lt, hneg, hl]
      omega
    rw [if_neg hult, hslt, if_neg (by decide), hneg]
    omega

/-- The branch without a minus: the greatest value, or a magnitude that does not exceed it. -/
theorem toInt_clampWide_positive (k : MachineInteger) (magnitude : WideWord) :
    (k.clampWide false magnitude).toInt = k.range.clamp magnitude.toNat := by
  obtain ⟨hleast, hnonpos, hnonneg, hgreatest⟩ := k.bounds
  have hg := toInt_wide (show -(2 ^ 63) ≤ k.range.greatest by omega) hgreatest
  have hnat : (BitVec.ofInt 128 k.range.greatest).toNat = k.range.greatest.toNat := by
    rw [BitVec.toNat_ofInt]
    omega
  simp only [clampWide, Bool.false_eq_true, if_false, BitVec.ult, hnat, decide_eq_true_eq,
    IntegerRange.clamp]
  split
  · rw [hg]
    omega
  · rw [BitVec.toInt_eq_toNat_of_lt (by omega)]
    omega

/-- Cutting a wide word to a word of the kind keeps a value of the kind. -/
theorem value_setWidth (k : MachineInteger) {w : WideWord} (hleast : k.range.least ≤ w.toInt)
    (hgreatest : w.toInt ≤ k.range.greatest) : k.value (w.setWidth k.width) = w.toInt := by
  have hw := w.toInt_eq_toNat_bmod
  rw [Int.bmod_def] at hw
  have hlt := w.isLt
  cases k <;>
    simp only [range, IntegerRange.int32, IntegerRange.uint32, IntegerRange.int64,
      IntegerRange.uint64] at hleast hgreatest <;>
    simp only [value, signed, width, if_true, Bool.false_eq_true, if_false, BitVec.toInt_setWidth,
      BitVec.toNat_setWidth, Int.bmod_def] <;>
    omega

/-- Reading in words answers what reading without bounds and clamping does. -/
theorem value_readInWords (k : MachineInteger) (text : String) :
    k.value (k.readInWords text.toList) = k.range.parse text := by
  obtain ⟨n, -, hread⟩ := exists_beginsWith text.toList
  obtain ⟨hleast, hnonpos, hnonneg, hgreatest⟩ := k.bounds
  have hceiling : k.range.ceiling ≤ WideWord.greatest := by
    cases k <;> decide
  have hwide := hread WideWord.greatest
  rw [leadingInteger_eq] at hwide
  have htoInt : (k.clampWide (takeSign (dropSpace text.toList)).1
      (WideWord.numeral (leadingBase (takeSign (dropSpace text.toList)).2) 0
        ((takeSign (dropSpace text.toList)).2.drop
          (leadingMark (takeSign (dropSpace text.toList)).2).length))).toInt = k.range.clamp n := by
    have hnumeral := WideWord.toNat_numeral
      (isBaseMark_leading (takeSign (dropSpace text.toList)).2) 0
      ((takeSign (dropSpace text.toList)).2.drop
        (leadingMark (takeSign (dropSpace text.toList)).2).length)
    rw [← k.range.clamp_stopped hceiling, ← hwide]
    cases (takeSign (dropSpace text.toList)).1 with
    | true =>
      rw [toInt_clampWide_negative, hnumeral, if_pos rfl, neg_one_mul]
      rfl
    | false =>
      rw [toInt_clampWide_positive, hnumeral, if_neg (by decide), one_mul]
      rfl
  have hwithin : k.range.least ≤ k.range.clamp n ∧ k.range.clamp n ≤ k.range.greatest := by
    rw [IntegerRange.clamp]
    omega
  rw [k.range.parse_eq_clamp hread, readInWords]
  simp only
  rw [k.value_setWidth (by omega) (by omega), htoInt]

end MachineInteger

/-! ## The result -/

/-- For every kind of integers and every text: the longest beginning of the text that is white
space, a sign, and digits (decimal, or behind a mark hexadecimal ones), each of which may be
left out, spells one integer; what is read is that integer clamped to the range, however many
digits there are, and so it is when it is read in words.  What an integer of the kind is
written as is read as that integer, whatever the default. -/
theorem MachineInteger.parse_exact (k : MachineInteger) :
    (∀ text : String, ∃ n, (∀ m, BeginsWith text.toList m ↔ m = n) ∧
      k.range.parse text = max k.range.least (min n k.range.greatest) ∧
      k.value (k.readInWords text.toList) = max k.range.least (min n k.range.greatest)) ∧
    ∀ n default : Int, k.range.least ≤ n → n ≤ k.range.greatest →
      Scalar.read (.integer k.range default) (Scalar.toText (.integer k.range n)) =
        .integer k.range n := by
  refine ⟨fun text => ?_, fun n default hleast hgreatest => ?_⟩
  · obtain ⟨n, hunique, hread⟩ := exists_beginsWith text.toList
    refine ⟨n, hunique, k.range.parse_eq_clamp hread, ?_⟩
    rw [k.value_readInWords, k.range.parse_eq_clamp hread]
    rfl
  · have hempty : (toString n).isEmpty = false := by
      rw [Bool.eq_false_iff, Ne, String.isEmpty_iff]
      intro hnone
      have hn : n = 0 := by
        have hread := (spellsInteger_toString n).leadingInteger_eq n.natAbs
        rw [hnone] at hread
        have hzero : leadingInteger n.natAbs "".toList = 0 := rfl
        omega
      subst hn
      exact absurd hnone (by decide)
    rw [Scalar.toText, Scalar.read, hempty, if_neg (by decide), Scalar.ofText,
      IntegerRange.parse_toString hleast hgreatest]

/-- Digits that no word holds are clamped at the least value, and that value is read back. -/
theorem MachineInteger.parse_exact_int64 :
    int64.range.least ≤ (-9223372036854775808 : Int) ∧
      (-9223372036854775808 : Int) ≤ int64.range.greatest ∧
      Scalar.read (.integer int64.range 7)
        (Scalar.toText (.integer int64.range (-9223372036854775808))) =
          .integer int64.range (-9223372036854775808) :=
  ⟨by decide, by decide, int64.parse_exact.2 _ 7 (by decide) (by decide)⟩

end XmlTree
