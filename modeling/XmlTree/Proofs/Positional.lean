/-
  Proofs/Positional.lean --- numbers are written in full, and exactly.

  WHAT THIS FILE IS FOR.  A number is written by its sixteen leading digits, in positional
  notation.  Where the point stands among the digits depends on the exponent alone: before
  them, among them or behind them, with zeros filled in before or behind.  In each case the
  text is a plain decimal number with the value of the scientific form, and a reader of numbers
  takes it.

  EXACT VALUES.  The value of a text is that of the digits before its point plus that of the
  digits behind it, as a rational number.
-/
import XmlTree.Query.Number
import XmlTree.Proofs.Decimals
import XmlTree.Proofs.Lexing

set_option autoImplicit false

namespace XmlTree

open DecimalLiteral

variable {negative : Bool} {whole fraction digits : List Char} {exponent : Int}

/-! ## Plain decimal numbers -/

/-- A number with its sign. -/
def signed (negative : Bool) (q : ℚ) : ℚ := if negative then -q else q

/-- The exact value of a literal. -/
def DecimalLiteral.value (d : DecimalLiteral) : ℚ := signed d.negative (d.mantissa * 10 ^ d.exponent)

/-- The value of the digits before and after a point. -/
def decimalValue (whole fraction : List Char) : ℚ :=
  natOfDigits whole + natOfDigits fraction / 10 ^ fraction.length

/-- A minus sign for negative numbers, the digits before the point, and the point with the
digits after it, if there are any. -/
def plainNumeral (negative : Bool) (whole fraction : List Char) : List Char :=
  (if negative then ['-'] else []) ++ whole ++ if fraction = [] then [] else '.' :: fraction

/-- The digits around the point are digits, there are some before it, and none of them is a
superfluous zero. -/
structure PlainDigits (whole fraction : List Char) : Prop where
  wholeDigits : ∀ c ∈ whole, c.isDigit = true
  fractionDigits : ∀ c ∈ fraction, c.isDigit = true
  whole_ne_nil : whole ≠ []
  leading : whole = ['0'] ∨ whole.head? ≠ some '0'
  trailing : fraction.getLast? ≠ some '0'

/-- A text is the plain decimal number of the value `q`, and it is read as a literal of that
value. -/
structure WritesPlainly (text : List Char) (negative : Bool) (q : ℚ) : Prop where
  plain : ∃ whole fraction, text = plainNumeral negative whole fraction ∧
    PlainDigits whole fraction ∧ decimalValue whole fraction = q
  read : ∃ d, numberLiteral? text = some d ∧ d.value = signed negative q

/-- The value around a point is that of all digits, with the point moved. -/
theorem decimalValue_eq (whole fraction : List Char) : decimalValue whole fraction =
    natOfDigits (whole ++ fraction) * 10 ^ (-(fraction.length : Int)) := by
  rw [decimalValue, natOfDigits_append, zpow_neg, zpow_natCast]
  push_cast
  field_simp

/-! ## Reading -/

theorem dropWhile_of_all {p : Char → Bool} {cs : List Char} (h : ∀ c ∈ cs, p c = false) :
    cs.dropWhile p = cs := by
  cases cs with
  | nil => rfl
  | cons c cs => rw [List.dropWhile_cons_of_neg (by simp [h c List.mem_cons_self])]

/-- The digits around a point are taken apart at the point. -/
theorem decimalParts?_eq (h : PlainDigits whole fraction) :
    decimalParts? (whole ++ if fraction = [] then [] else '.' :: fraction) =
      some (whole, fraction) := by
  have hpoint : (if fraction = [] then [] else '.' :: fraction).head?.all
      (fun c => !c.isDigit) = true := by
    split
    · rfl
    · rfl
  have hwhole : whole.isEmpty = false := by simpa using h.whole_ne_nil
  rw [decimalParts?, takeWhile_append_of_head h.wholeDigits hpoint, List.drop_left]
  by_cases hfraction : fraction = []
  · simp [hfraction, hwhole]
  · have hall : fraction.all Char.isDigit = true := List.all_eq_true.2 h.fractionDigits
    simp [hfraction, hall, hwhole]

/-- A plain number is read as the literal of its digits. -/
theorem numberLiteral?_plainNumeral (negative : Bool) (h : PlainDigits whole fraction) :
    numberLiteral? (plainNumeral negative whole fraction) =
      some (.ofParts negative whole fraction 0) := by
  have hspace : ∀ c ∈ plainNumeral negative whole fraction, isSpace c = false := by
    intro c hc
    rw [plainNumeral, List.mem_append, List.mem_append] at hc
    obtain (hsign | hwhole) | hpoint := hc
    · split at hsign
      · rw [List.mem_singleton.1 hsign]
        decide
      · cases hsign
    · exact Token.isSpace_of_isDigit (h.wholeDigits c hwhole)
    · split at hpoint
      · cases hpoint
      · obtain rfl | hfraction := List.mem_cons.1 hpoint
        · decide
        · exact Token.isSpace_of_isDigit (h.fractionDigits c hfraction)
  have htrimmed : dropTrailingSpace (dropSpace (plainNumeral negative whole fraction)) =
      plainNumeral negative whole fraction := by
    rw [dropSpace, dropWhile_of_all hspace, dropTrailingSpace,
      dropWhile_of_all fun c hc => hspace c (List.mem_reverse.1 hc), List.reverse_reverse]
  rw [numberLiteral?, htrimmed, plainNumeral]
  cases negative with
  | true =>
    rw [if_pos rfl, List.append_assoc, List.singleton_append]
    simp only [decimalParts?_eq h, Option.map_some]
  | false =>
    obtain ⟨c, cs, rfl⟩ := List.exists_cons_of_ne_nil h.whole_ne_nil
    -- a digit is no sign
    have hsign : c ≠ '-' := by
      rintro rfl
      exact absurd (h.wholeDigits _ List.mem_cons_self) (by decide)
    have hparts := decimalParts?_eq h
    rw [List.cons_append] at hparts
    rw [if_neg (by decide), List.nil_append, List.cons_append]
    split
    rename_i hmatch
    split at hmatch
    · rename_i hhead
      exact absurd (List.cons.inj hhead).1 hsign
    · cases hmatch
      rw [hparts, Option.map_some]

theorem value_ofParts (negative : Bool) (whole fraction : List Char) :
    (DecimalLiteral.ofParts negative whole fraction 0).value =
      signed negative (decimalValue whole fraction) := by
  rw [DecimalLiteral.value, decimalValue_eq, ofParts, zero_sub]

/-- A text of plain digits writes their value. -/
theorem PlainDigits.writesPlainly (h : PlainDigits whole fraction) (negative : Bool) :
    WritesPlainly (plainNumeral negative whole fraction) negative (decimalValue whole fraction) where
  plain := ⟨whole, fraction, rfl, h, rfl⟩
  read := ⟨_, numberLiteral?_plainNumeral negative h, value_ofParts negative whole fraction⟩

/-! ## Where the point stands -/

/-- Digits without superfluous zeros at their ends. -/
structure TrimmedDigits (digits : List Char) : Prop where
  all : ∀ c ∈ digits, c.isDigit = true
  first : ∃ c rest, digits = c :: rest ∧ c ≠ '0'
  last : digits.getLast? ≠ some '0'

namespace TrimmedDigits

theorem isDigit_zero : '0'.isDigit = true := by decide

/-- The point stands before the digits, behind zeros. -/
theorem positional_of_le (h : TrimmedDigits digits) (hexponent : exponent ≤ 0) :
    ∃ fraction, positional digits exponent = plainNumeral false ['0'] fraction ∧
      PlainDigits ['0'] fraction ∧
      decimalValue ['0'] fraction = natOfDigits digits * 10 ^ (exponent - digits.length) := by
  obtain ⟨n, rfl⟩ : ∃ n : Nat, exponent = -(n : Int) := ⟨(-exponent).toNat, by omega⟩
  obtain ⟨c, rest, hdigits, -⟩ := h.first
  have hne : digits ≠ [] := by simp [hdigits]
  have hfraction : List.replicate n '0' ++ digits ≠ [] := by simp [hne]
  refine ⟨List.replicate n '0' ++ digits, ?_, ⟨?_, ?_, ?_, ?_, ?_⟩, ?_⟩
  · have hplaces : (-(n : Int)).toNat = 0 := by omega
    have hzeros : (-(-(n : Int))).toNat = n := by omega
    rw [positional, hplaces, hzeros, List.drop_zero, if_pos hexponent, plainNumeral,
      if_neg hfraction]
    simp [hne]
  · intro c hc
    rw [List.mem_singleton.1 hc]
    exact isDigit_zero
  · intro c hc
    obtain hzero | hc := List.mem_append.1 hc
    · rw [List.eq_of_mem_replicate hzero]
      exact isDigit_zero
    · exact h.all c hc
  · exact List.cons_ne_nil _ _
  · exact .inl rfl
  · rw [List.getLast?_append_of_ne_nil _ hne]
    exact h.last
  · rw [decimalValue_eq, natOfDigits_append, natOfDigits_append, natOfDigits_replicate,
      natOfDigits_singleton, Nat.sub_self, Nat.zero_mul, Nat.zero_mul, Nat.zero_add, Nat.zero_add]
    congr 2
    rw [List.length_append, List.length_replicate]
    push_cast
    omega

/-- The point stands behind the digits, after zeros, and is not written. -/
theorem positional_of_length_le (h : TrimmedDigits digits) {places : Nat}
    (hplaces : digits.length ≤ places) :
    ∃ whole, positional digits places = plainNumeral false whole [] ∧ PlainDigits whole [] ∧
      decimalValue whole [] = natOfDigits digits * 10 ^ ((places : Int) - digits.length) := by
  obtain ⟨c, rest, hdigits, hc⟩ := h.first
  have hpos : ¬ (places : Int) ≤ 0 := by
    rw [hdigits, List.length_cons] at hplaces
    omega
  refine ⟨digits ++ List.replicate (places - digits.length) '0', ?_, ⟨?_, ?_, ?_, ?_, ?_⟩, ?_⟩
  · rw [positional, Int.toNat_natCast, if_neg hpos, List.take_of_length_le hplaces,
      List.drop_eq_nil_of_le hplaces, plainNumeral]
    simp
  · intro c hc
    obtain hc | hzero := List.mem_append.1 hc
    · exact h.all c hc
    · rw [List.eq_of_mem_replicate hzero]
      exact isDigit_zero
  · intro c hc
    cases hc
  · simp [hdigits]
  · right
    simpa [hdigits] using hc
  · simp
  · rw [decimalValue_eq, List.append_nil, natOfDigits_append, natOfDigits_replicate, Nat.add_zero,
      List.length_replicate, List.length_nil, Nat.cast_zero, neg_zero, zpow_zero, mul_one,
      ← Nat.cast_sub hplaces, zpow_natCast]
    push_cast
    rfl

/-- The point stands among the digits. -/
theorem positional_of_lt_length (h : TrimmedDigits digits) {places : Nat} (hpos : 0 < places)
    (hplaces : places < digits.length) :
    ∃ whole fraction, positional digits places = plainNumeral false whole fraction ∧
      PlainDigits whole fraction ∧
      decimalValue whole fraction =
        natOfDigits digits * 10 ^ ((places : Int) - digits.length) := by
  obtain ⟨c, rest, hdigits, hc⟩ := h.first
  have hfraction : digits.drop places ≠ [] := by simpa using hplaces
  have hwhole : (digits.take places).head? = some c := by
    rw [List.head?_take, if_neg hpos.ne', hdigits, List.head?_cons]
  refine ⟨digits.take places, digits.drop places, ?_, ⟨?_, ?_, ?_, ?_, ?_⟩, ?_⟩
  · have hpositive : ¬ (places : Int) ≤ 0 := by omega
    have hzeros : places - digits.length = 0 := by omega
    have hnone : (-(places : Int)).toNat = 0 := by omega
    rw [positional, Int.toNat_natCast, hzeros, hnone, plainNumeral, if_neg hfraction]
    simp only [if_neg hpositive]
    simp [hfraction]
  · intro c hc
    exact h.all c (List.mem_of_mem_take hc)
  · intro c hc
    exact h.all c (List.mem_of_mem_drop hc)
  · intro hnil
    rw [hnil] at hwhole
    cases hwhole
  · right
    rw [hwhole]
    simpa using hc
  · rw [List.getLast?_drop, if_neg (by omega)]
    exact h.last
  · rw [decimalValue_eq, List.take_append_drop, List.length_drop, Nat.cast_sub hplaces.le]
    congr 2
    omega

/-- Wherever the point stands, the digits are written plainly and with their value. -/
theorem exists_positional (h : TrimmedDigits digits) (exponent : Int) :
    ∃ whole fraction, positional digits exponent = plainNumeral false whole fraction ∧
      PlainDigits whole fraction ∧
      decimalValue whole fraction = natOfDigits digits * 10 ^ (exponent - digits.length) := by
  by_cases hexponent : exponent ≤ 0
  · obtain ⟨fraction, hwritten⟩ := h.positional_of_le hexponent
    exact ⟨['0'], fraction, hwritten⟩
  · obtain ⟨places, rfl⟩ := Int.eq_ofNat_of_zero_le (Int.le_of_not_le hexponent)
    by_cases hplaces : digits.length ≤ places
    · obtain ⟨whole, hwritten⟩ := h.positional_of_length_le hplaces
      exact ⟨whole, [], hwritten⟩
    · exact h.positional_of_lt_length (by omega) (Nat.lt_of_not_le hplaces)

end TrimmedDigits

/-! ## Scientific forms in full -/

namespace Scientific

/-- The digits of a form without the zeros that end them. -/
theorem exists_zeros (digits : List Char) : ∃ n,
    digits = (digits.reverse.dropWhile (· == '0')).reverse ++ List.replicate n '0' := by
  have hzeros : digits.reverse.takeWhile (· == '0') =
      List.replicate (digits.reverse.takeWhile (· == '0')).length '0' := by
    refine List.eq_replicate_iff.2 ⟨rfl, fun c hc => ?_⟩
    exact beq_iff_eq.1 (List.mem_takeWhile_imp (p := (· == '0')) hc)
  refine ⟨(digits.reverse.takeWhile (· == '0')).length, ?_⟩
  rw [← List.reverse_inj, List.reverse_append, List.reverse_reverse, List.reverse_replicate,
    ← hzeros, List.takeWhile_append_dropWhile]

/-- The digits of a normal form without the zeros that end them, and the value of the form. -/
theorem Normal.trimmed {s : Scientific} (h : s.Normal) :
    TrimmedDigits (s.digits.reverse.dropWhile (· == '0')).reverse ∧
      s.value = natOfDigits (s.digits.reverse.dropWhile (· == '0')).reverse *
        10 ^ (s.exponent + 1 - (s.digits.reverse.dropWhile (· == '0')).reverse.length) := by
  have hlast : (s.digits.reverse.dropWhile (· == '0')).reverse.getLast? ≠ some '0' := by
    intro hzero
    rw [List.getLast?_reverse] at hzero
    have hnot := List.head?_dropWhile_not (· == '0') s.digits.reverse
    rw [hzero] at hnot
    exact absurd hnot (by decide)
  obtain ⟨n, hdigits⟩ := exists_zeros s.digits
  generalize (s.digits.reverse.dropWhile (· == '0')).reverse = kept at *
  obtain ⟨c, rest, hfirst, hne⟩ := h.first
  refine ⟨⟨?_, ?_, hlast⟩, ?_⟩
  · intro d hd
    exact h.digits d (hdigits ▸ List.mem_append_left _ hd)
  · cases kept with
    | nil =>
      -- nothing but zeros would be left
      rw [hfirst, List.nil_append] at hdigits
      have hzero : c ∈ List.replicate n '0' := hdigits ▸ List.mem_cons_self
      exact absurd (List.eq_of_mem_replicate hzero) hne
    | cons d kept =>
      rw [hfirst, List.cons_append] at hdigits
      exact ⟨d, kept, rfl, (List.cons.inj hdigits).1 ▸ hne⟩
  · have hten : (10 : ℚ) ≠ 0 := by norm_num
    rw [value, hdigits, natOfDigits_append, natOfDigits_replicate, Nat.add_zero,
      List.length_append, List.length_replicate]
    push_cast
    rw [mul_assoc, ← zpow_natCast, ← zpow_add₀ hten]
    congr 2
    omega

/-- A normal form is written plainly and with its value, whatever its digits and its exponent
are. -/
theorem Normal.writesPlainly {s : Scientific} (h : s.Normal) (negative : Bool) :
    WritesPlainly (if negative then '-' :: s.positional else s.positional) negative s.value := by
  obtain ⟨htrimmed, hvalue⟩ := h.trimmed
  obtain ⟨whole, fraction, hpositional, hplain, hdecimal⟩ :=
    htrimmed.exists_positional (s.exponent + 1)
  have htext : (if negative then '-' :: s.positional else s.positional) =
      plainNumeral negative whole fraction := by
    rw [Scientific.positional, hpositional]
    cases negative with
    | true => rfl
    | false => rfl
  rw [htext, hvalue, ← hdecimal]
  exact hplain.writesPlainly negative

end Scientific

/-! ## Numbers -/

/-- The exact magnitude of a finite number. -/
def Binary64.Finite.magnitude (v : Binary64.Finite) : ℚ := v.mantissa * 2 ^ v.exponent

theorem Binary64.Finite.quotient_spec (v : Binary64.Finite) (hv : v.mantissa ≠ 0) :
    0 < v.quotient.1 ∧ 0 < v.quotient.2 ∧
      (v.quotient.1 : ℚ) / v.quotient.2 = v.magnitude := by
  have hpos := Nat.pos_of_ne_zero hv
  rw [quotient, magnitude]
  split
  · rename_i hexponent
    obtain ⟨n, hn⟩ := Int.eq_ofNat_of_zero_le hexponent
    rw [hn, Int.toNat_natCast, zpow_natCast]
    refine ⟨Nat.mul_pos hpos (Nat.pow_pos (by decide)), Nat.one_pos, ?_⟩
    rw [Nat.pow_eq]
    push_cast
    rw [div_one]
  · rename_i hexponent
    obtain ⟨n, hn⟩ : ∃ n : Nat, v.exponent = -(n : Int) := ⟨(-v.exponent).toNat, by omega⟩
    rw [hn, neg_neg, Int.toNat_natCast, zpow_neg, zpow_natCast]
    refine ⟨hpos, Nat.pow_pos (by decide), ?_⟩
    rw [Nat.pow_eq]
    push_cast
    rw [div_eq_mul_inv]

/-- The text of a finite number that is not zero. -/
theorem formatNumber_eq {x : Float} {v : Binary64.Finite} (hview : Binary64.view x = .finite v)
    (hv : v.mantissa ≠ 0) :
    (formatNumber x).toList =
      let s := Scientific.ofQuotient v.quotient.1 v.quotient.2 writtenDigits
      if v.negative then '-' :: s.positional else s.positional := by
  rw [formatNumber, hview]
  simp only [if_neg hv, String.toList_ofList]

/-- Every scientific form is written as a plain decimal number with exactly its value, and a
finite number that is not zero is written as the form with sixteen digits that is nearest to
it. -/
theorem formatNumber_plain :
    (∀ (negative : Bool) (s : Scientific), s.Normal →
      WritesPlainly (if negative then '-' :: s.positional else s.positional) negative s.value) ∧
    ∀ (x : Float) (v : Binary64.Finite), Binary64.view x = .finite v → v.mantissa ≠ 0 →
      ∃ s : Scientific, s.Nearest 16 v.magnitude ∧
        WritesPlainly (formatNumber x).toList v.negative s.value := by
  refine ⟨fun negative s hs => hs.writesPlainly negative, ?_⟩
  intro x v hview hv
  obtain ⟨hnum, hden, hmagnitude⟩ := v.quotient_spec hv
  have hnearest := Scientific.ofQuotient_nearest (k := 15) hnum hden (by decide)
  rw [hmagnitude] at hnearest
  refine ⟨_, hnearest, ?_⟩
  rw [formatNumber_eq hview hv]
  exact hnearest.normal.writesPlainly v.negative

/-- A form whose digits run out before its point, and a negative number below one. -/
theorem formatNumber_plain_instances :
    (⟨['1', '2', '0'], 4⟩ : Scientific).positional = ['1', '2', '0', '0', '0'] ∧
      WritesPlainly ['1', '2', '0', '0', '0'] false (⟨['1', '2', '0'], 4⟩ : Scientific).value ∧
      formatNumber (.ofBits 0xBF9E000000000000) = "-0.029296875" ∧
      ∃ s : Scientific,
        s.Nearest 16 (⟨true, 8444249301319680, -58⟩ : Binary64.Finite).magnitude ∧
        WritesPlainly (formatNumber (.ofBits 0xBF9E000000000000)).toList true s.value := by
  have hdigits : ['1', '2', '0'].all Char.isDigit = true := by decide
  refine ⟨by decide +kernel, ?_, by decide +kernel, ?_⟩
  · exact formatNumber_plain.1 false ⟨['1', '2', '0'], 4⟩
      ⟨List.all_eq_true.1 hdigits, _, _, rfl, by decide⟩
  · exact formatNumber_plain.2 (.ofBits 0xBF9E000000000000) ⟨true, 8444249301319680, -58⟩
      (by decide +kernel) (by decide)

end XmlTree
