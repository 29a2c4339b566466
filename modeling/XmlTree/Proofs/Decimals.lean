/-
  Proofs/Decimals.lean --- digits, their values, and the nearest scientific form.

  WHAT THIS FILE IS FOR.  A scientific form is some digits and an exponent, and it has an exact
  value.  Writing a quotient with a number of significant digits gives the form of that length
  whose value is nearest, with an even last digit when two are equally near.

  ONE UNIT.  Values are compared in units of the last digit that is written.  There the forms
  with the same leading place are natural numbers, and those with another leading place lie
  beyond the powers of ten that enclose the quotient, which are natural numbers as well.  So
  the nearest natural number is nearest among all forms.
-/
import XmlTree.Number.Decimal
import Mathlib.Algebra.Order.Field.Power
import Mathlib.Algebra.Order.Ring.Rat
import Mathlib.Data.Nat.Cast.Order.Field
import Mathlib.Tactic.FieldSimp
import Mathlib.Tactic.Linarith
import Mathlib.Tactic.Positivity
import Mathlib.Tactic.Ring

set_option autoImplicit false

namespace XmlTree

/-! ## Digits -/

namespace DecimalLiteral

variable {c : Char} {cs front back : List Char}

theorem natOfDigits_append (front back : List Char) : natOfDigits (front ++ back) =
    natOfDigits front * 10 ^ back.length + natOfDigits back := by
  rw [natOfDigits_eq, natOfDigits_eq, natOfDigits_eq]
  exact natOfFewDigits_append front back

theorem natOfDigits_singleton (c : Char) : natOfDigits [c] = c.toNat - '0'.toNat := by
  rw [natOfDigits_eq, natOfFewDigits, List.foldl_cons, List.foldl_nil, Nat.mul_zero, Nat.zero_add]

theorem natOfDigits_cons (c : Char) (cs : List Char) : natOfDigits (c :: cs) =
    (c.toNat - '0'.toNat) * 10 ^ cs.length + natOfDigits cs := by
  rw [← natOfDigits_singleton]
  exact natOfDigits_append [c] cs

theorem natOfDigits_replicate (n : Nat) : natOfDigits (List.replicate n '0') = 0 := by
  induction n with
  | zero => rfl
  | succ n ih => rw [List.replicate_succ, natOfDigits_cons, ih, Nat.sub_self, Nat.zero_mul]

theorem digit_le (hc : c.isDigit = true) : '0'.toNat ≤ c.toNat ∧ c.toNat - '0'.toNat < 10 := by
  rw [Char.isDigit, Bool.and_eq_true, decide_eq_true_eq, decide_eq_true_eq] at hc
  have hlow : 48 ≤ c.toNat := hc.1
  have hhigh : c.toNat ≤ 57 := hc.2
  have hzero : '0'.toNat = 48 := rfl
  omega

theorem natOfDigits_lt (hcs : ∀ c ∈ cs, c.isDigit = true) :
    natOfDigits cs < 10 ^ cs.length := by
  induction cs with
  | nil => exact Nat.one_pos
  | cons c cs ih =>
    obtain ⟨hc, hrest⟩ := List.forall_mem_cons.1 hcs
    have hdigit := (digit_le hc).2
    have htail := ih hrest
    calc natOfDigits (c :: cs) = (c.toNat - '0'.toNat) * 10 ^ cs.length + natOfDigits cs :=
          natOfDigits_cons c cs
      _ < (c.toNat - '0'.toNat) * 10 ^ cs.length + 10 ^ cs.length := by omega
      _ = (c.toNat - '0'.toNat + 1) * 10 ^ cs.length := by rw [Nat.add_mul, Nat.one_mul]
      _ ≤ 10 * 10 ^ cs.length := Nat.mul_le_mul_right _ (by omega)
      _ = 10 ^ (c :: cs).length := by rw [List.length_cons, Nat.pow_succ, Nat.mul_comm]

/-- A first digit that is not zero makes a number as long as its digits. -/
theorem le_natOfDigits (hc : c.isDigit = true) (hne : c ≠ '0') :
    10 ^ cs.length ≤ natOfDigits (c :: cs) := by
  have hlow := (digit_le hc).1
  have hdifferent : c.toNat ≠ '0'.toNat := fun heq => hne (Char.toNat_inj.1 heq)
  rw [natOfDigits_cons]
  calc 10 ^ cs.length = 1 * 10 ^ cs.length := (Nat.one_mul _).symm
    _ ≤ (c.toNat - '0'.toNat) * 10 ^ cs.length := Nat.mul_le_mul_right _ (by omega)
    _ ≤ _ := Nat.le_add_right _ _

/-- The digits of a number spell it. -/
theorem natOfDigits_decimalDigits (n : Nat) : natOfDigits (decimalDigits n) = n := by
  rw [natOfDigits_eq]
  exact Nat.ofDigitChars_toDigits (by decide) (by decide)

end DecimalLiteral

open DecimalLiteral

/-! ## Scientific forms -/

namespace Scientific

/-- The exact value of a scientific form. -/
def value (s : Scientific) : ℚ :=
  natOfDigits s.digits * 10 ^ (s.exponent + 1 - s.digits.length)

/-- The digits of a form are digits, and the first of them is not zero. -/
structure Normal (s : Scientific) : Prop where
  digits : ∀ c ∈ s.digits, c.isDigit = true
  first : ∃ c rest, s.digits = c :: rest ∧ c ≠ '0'

/-- Of all forms with `count` digits this is the one whose value is nearest to `q`, with an
even last digit when another one is as near. -/
structure Nearest (s : Scientific) (count : Nat) (q : ℚ) : Prop where
  normal : s.Normal
  length : s.digits.length = count
  nearest : ∀ t : Scientific, t.Normal → t.digits.length = count →
    |s.value - q| ≤ |t.value - q|
  even : ∀ t : Scientific, t.Normal → t.digits.length = count →
    |t.value - q| = |s.value - q| → t.value = s.value ∨ Even (natOfDigits s.digits)

/-- The digits of a normal form spell a number of their length. -/
theorem Normal.bounds {s : Scientific} (h : s.Normal) :
    10 ^ (s.digits.length - 1) ≤ natOfDigits s.digits ∧
      natOfDigits s.digits < 10 ^ s.digits.length := by
  refine ⟨?_, natOfDigits_lt h.digits⟩
  obtain ⟨c, rest, hdigits, hne⟩ := h.first
  have hc : c.isDigit = true := h.digits c (by simp [hdigits])
  rw [hdigits, List.length_cons, Nat.add_sub_cancel]
  exact le_natOfDigits hc hne

/-- A number between two powers of ten has as many digits as that says, and the first of them is not
zero. -/
theorem normal_decimalDigits {n count : Nat} {e : Int} (hlow : 10 ^ count ≤ n)
    (hhigh : n < 10 ^ (count + 1)) :
    (⟨decimalDigits n, e⟩ : Scientific).Normal ∧ (decimalDigits n).length = count + 1 := by
  have hdigits : ∀ c ∈ decimalDigits n, c.isDigit = true := fun c hc =>
    Nat.isDigit_of_mem_toDigits (by decide) (by decide) hc
  have hlt := natOfDigits_lt hdigits
  rw [natOfDigits_decimalDigits] at hlt
  have hlength : (decimalDigits n).length = count + 1 := by
    have hle : (decimalDigits n).length ≤ count + 1 :=
      (Nat.length_toDigits_le_iff (by decide) (Nat.succ_pos _)).2 hhigh
    have hge : count < (decimalDigits n).length :=
      (Nat.pow_lt_pow_iff_right (by decide)).1 (Nat.lt_of_le_of_lt hlow hlt)
    omega
  refine ⟨⟨hdigits, ?_⟩, hlength⟩
  cases hd : decimalDigits n with
  | nil =>
    rw [hd] at hlength
    cases hlength
  | cons c rest =>
    refine ⟨c, rest, rfl, ?_⟩
    rintro rfl
    -- a zero in front would leave a number that is too small
    have hvalue := natOfDigits_decimalDigits n
    rw [hd] at hdigits hlength hvalue
    rw [natOfDigits_cons, Nat.sub_self, Nat.zero_mul, Nat.zero_add] at hvalue
    have hrest := natOfDigits_lt (List.forall_mem_cons.1 hdigits).2
    rw [Nat.succ.inj hlength, hvalue] at hrest
    exact absurd hlow (Nat.not_le.2 hrest)

end Scientific

/-! ## Rounding -/

/-- A quotient is its whole part and the rest as a fraction. -/
theorem cast_div_eq (num : Nat) {den : Nat} (hden : 0 < den) :
    (num : ℚ) / den = (num / den : Nat) + (num % den : Nat) / den := by
  have hdenq : (den : ℚ) ≠ 0 := by exact_mod_cast hden.ne'
  have hdivision : (num : ℚ) = den * (num / den : Nat) + (num % den : Nat) := by
    exact_mod_cast (Nat.div_add_mod num den).symm
  field_simp
  linarith

/-- A quotient is rounded by half a unit at most, and by half a unit only to an even number. -/
theorem abs_roundDiv_sub_le (num : Nat) {den : Nat} (hden : 0 < den) :
    |(roundDiv num den : ℚ) - num / den| ≤ 1 / 2 ∧
      (|(roundDiv num den : ℚ) - num / den| = 1 / 2 → Even (roundDiv num den)) := by
  have hdenq : (0 : ℚ) < den := by exact_mod_cast hden
  have hrest : ((num % den : Nat) : ℚ) / den < 1 := by
    rw [div_lt_one hdenq]
    exact_mod_cast Nat.mod_lt num hden
  have hnonneg : (0 : ℚ) ≤ (num % den : Nat) / den := by positivity
  rw [cast_div_eq num hden, roundDiv]
  split
  · rename_i habove
    have hhalf : 1 / 2 < ((num % den : Nat) : ℚ) / den := by
      rw [lt_div_iff₀ hdenq]
      have hcast : (den : ℚ) < 2 * (num % den : Nat) := by exact_mod_cast habove
      linarith
    push_cast
    rw [abs_of_nonneg (by linarith)]
    exact ⟨by linarith, fun heq => absurd heq (by linarith)⟩
  · split
    · rename_i htie
      have hhalf : ((num % den : Nat) : ℚ) / den = 1 / 2 := by
        rw [div_eq_iff hdenq.ne']
        have hcast : 2 * ((num % den : Nat) : ℚ) = den := by exact_mod_cast htie
        linarith
      rw [hhalf]
      obtain hzero | hone := Nat.mod_two_eq_zero_or_one (num / den)
      · rw [hzero]
        refine ⟨by norm_num, fun _ => ?_⟩
        exact Nat.even_iff.2 hzero
      · rw [hone]
        refine ⟨by norm_num, fun _ => Nat.even_iff.2 ?_⟩
        omega
    · rename_i habove htie
      have hhalf : ((num % den : Nat) : ℚ) / den < 1 / 2 := by
        rw [div_lt_iff₀ hdenq]
        have hcast : 2 * ((num % den : Nat) : ℚ) < den := by
          exact_mod_cast Nat.lt_of_le_of_ne (Nat.le_of_not_lt habove) htie
        linarith
      rw [abs_sub_comm, abs_of_nonneg (by linarith)]
      exact ⟨by linarith, fun heq => absurd heq (by linarith)⟩

/-- `n` is nearest to `y` among the natural numbers, and even when another one is as near. -/
structure NearestNat (n : Nat) (y : ℚ) : Prop where
  le : ∀ m : Nat, |(n : ℚ) - y| ≤ |(m : ℚ) - y|
  even : ∀ m : Nat, |(m : ℚ) - y| = |(n : ℚ) - y| → m = n ∨ Even n

/-- Rounding a quotient gives the nearest natural number: two different ones are a unit apart. -/
theorem roundDiv_nearest (num : Nat) {den : Nat} (hden : 0 < den) :
    NearestNat (roundDiv num den) (num / den) := by
  obtain ⟨hhalf, heven⟩ := abs_roundDiv_sub_le num hden
  have hapart : ∀ m : Nat, m ≠ roundDiv num den →
      1 ≤ |(m : ℚ) - num / den| + |(roundDiv num den : ℚ) - num / den| := by
    intro m hm
    have hunit : (1 : ℚ) ≤ |(m : ℚ) - roundDiv num den| := by
      exact_mod_cast Int.one_le_abs (show (m : ℤ) - roundDiv num den ≠ 0 by omega)
    have htriangle := abs_sub_le (m : ℚ) (num / den) (roundDiv num den)
    rw [abs_sub_comm ((num : ℚ) / den)] at htriangle
    linarith
  constructor
  · intro m
    by_cases hm : m = roundDiv num den
    · rw [hm]
    · linarith [hapart m hm]
  · intro m hequal
    by_cases hm : m = roundDiv num den
    · exact .inl hm
    · exact .inr (heven (by linarith [hapart m hm]))

/-- Between two powers of ten the nearest natural number is not beyond them. -/
theorem NearestNat.bounds {n k : Nat} {y : ℚ} (h : NearestNat n y) (hlow : (10 : ℚ) ^ k ≤ y)
    (hhigh : y < 10 ^ (k + 1)) : 10 ^ k ≤ n ∧ n ≤ 10 ^ (k + 1) := by
  have hbelow := h.le (10 ^ k)
  have habove := h.le (10 ^ (k + 1))
  push_cast at hbelow habove
  rw [abs_sub_comm ((10 : ℚ) ^ k), abs_of_nonneg (by linarith : 0 ≤ y - (10 : ℚ) ^ k)] at hbelow
  rw [abs_of_nonneg (by linarith : 0 ≤ (10 : ℚ) ^ (k + 1) - y)] at habove
  constructor
  · by_contra hcon
    have hlt : (n : ℚ) + 1 ≤ 10 ^ k := by exact_mod_cast Nat.lt_of_not_le hcon
    have hdistance := neg_abs_le ((n : ℚ) - y)
    linarith
  · by_contra hcon
    have hlt : (10 : ℚ) ^ (k + 1) + 1 ≤ n := by exact_mod_cast Nat.lt_of_not_le hcon
    have hdistance := le_abs_self ((n : ℚ) - y)
    linarith

/-- Between two powers of ten the nearest natural number is nearest among all that lies on a
natural number or beyond these powers. -/
theorem NearestNat.nearest_beyond {n k : Nat} {y z : ℚ} (h : NearestNat n y)
    (hlow : (10 : ℚ) ^ k ≤ y) (hhigh : y < 10 ^ (k + 1))
    (hz : (∃ m : Nat, z = m) ∨ 10 ^ (k + 1) ≤ z ∨ z < 10 ^ k) :
    |(n : ℚ) - y| ≤ |z - y| ∧ (|z - y| = |(n : ℚ) - y| → z = n ∨ Even n) := by
  obtain ⟨m, rfl⟩ | habove | hbelow := hz
  · refine ⟨h.le m, fun hequal => ?_⟩
    exact (h.even m hequal).imp (congrArg Nat.cast) id
  · have hle := h.le (10 ^ (k + 1))
    have heven := h.even (10 ^ (k + 1))
    push_cast at hle heven
    rw [abs_of_nonneg (by linarith : 0 ≤ (10 : ℚ) ^ (k + 1) - y)] at hle heven
    rw [abs_of_nonneg (by linarith : 0 ≤ z - y)]
    refine ⟨by linarith, fun hequal => ?_⟩
    obtain hn | hn := heven (by linarith)
    · left
      have hcast : (n : ℚ) = 10 ^ (k + 1) := by
        rw [← hn]
        push_cast
        rfl
      rw [hcast, abs_of_nonneg (by linarith)] at hequal
      linarith
    · exact .inr hn
  · have hle := h.le (10 ^ k)
    push_cast at hle
    rw [abs_sub_comm, abs_sub_comm ((10 : ℚ) ^ k),
      abs_of_nonneg (by linarith : 0 ≤ y - (10 : ℚ) ^ k)] at hle
    rw [abs_sub_comm z, abs_of_nonneg (by linarith : 0 ≤ y - z), abs_sub_comm]
    exact ⟨by linarith, fun hequal => by linarith⟩

/-! ## The leading digit -/

namespace Scientific

theorem tenPowerLe_iff (e : Int) (num : Nat) {den : Nat} (hden : 0 < den) :
    tenPowerLe e num den = true ↔ (10 : ℚ) ^ e ≤ num / den := by
  have hdenq : (0 : ℚ) < den := by exact_mod_cast hden
  rw [tenPowerLe, le_div_iff₀ hdenq]
  by_cases he : 0 ≤ e
  · obtain ⟨n, rfl⟩ := Int.eq_ofNat_of_zero_le he
    rw [if_pos he, decide_eq_true_eq, mul_comm, zpow_natCast, Int.toNat_natCast]
    exact_mod_cast Iff.rfl
  · obtain ⟨n, rfl⟩ : ∃ n : Nat, e = -(n : Int) := ⟨(-e).toNat, by omega⟩
    rw [if_neg he, decide_eq_true_eq, neg_neg, Int.toNat_natCast, zpow_neg, zpow_natCast,
      inv_mul_le_iff₀ (by positivity), mul_comm ((10 : ℚ) ^ n)]
    exact_mod_cast Iff.rfl

/-- A number is enclosed by the powers of ten that its digits say. -/
theorem decimalDigits_bounds {n : Nat} (hn : 0 < n) :
    (10 : ℚ) ^ ((decimalDigits n).length - 1 : Int) ≤ n ∧
      (n : ℚ) < 10 ^ ((decimalDigits n).length : Int) := by
  have hpos : 0 < (decimalDigits n).length := Nat.length_toDigits_pos
  obtain ⟨k, hk⟩ : ∃ k, (decimalDigits n).length = k + 1 := ⟨_, (Nat.succ_pred_eq_of_pos hpos).symm⟩
  have hlt : n < 10 ^ (k + 1) := (Nat.length_toDigits_le_iff (by decide) (Nat.succ_pos _)).1 hk.le
  have hge : 10 ^ k ≤ n := by
    obtain rfl | hk0 := Nat.eq_zero_or_pos k
    · exact hn
    · by_contra hcon
      have hle := (Nat.length_toDigits_le_iff (by decide) hk0).2 (Nat.lt_of_not_le hcon)
      have hle' : (decimalDigits n).length ≤ k := hle
      omega
  rw [hk, Nat.cast_succ, add_sub_cancel_right]
  constructor
  · exact_mod_cast hge
  · exact_mod_cast hlt

/-- The leading exponent is that of the greatest power of ten that is not greater than the
quotient. -/
theorem leadingExponent_bounds {num den : Nat} (hnum : 0 < num) (hden : 0 < den) :
    (10 : ℚ) ^ leadingExponent num den ≤ num / den ∧
      (num : ℚ) / den < 10 ^ (leadingExponent num den + 1) := by
  have hdenq : (0 : ℚ) < den := by exact_mod_cast hden
  obtain ⟨hnumlow, hnumhigh⟩ := decimalDigits_bounds hnum
  obtain ⟨hdenlow, hdenhigh⟩ := decimalDigits_bounds hden
  have hten : (10 : ℚ) ≠ 0 := by norm_num
  rw [leadingExponent]
  generalize ((decimalDigits num).length : Int) = a at *
  generalize ((decimalDigits den).length : Int) = b at *
  split
  · rename_i hguess
    refine ⟨(tenPowerLe_iff _ _ hden).1 hguess, ?_⟩
    rw [div_lt_iff₀ hdenq]
    calc (num : ℚ) < 10 ^ a := hnumhigh
      _ = 10 ^ (a - b + 1) * 10 ^ (b - 1) := by
          rw [← zpow_add₀ hten]
          congr 1
          omega
      _ ≤ 10 ^ (a - b + 1) * den := mul_le_mul_of_nonneg_left hdenlow (by positivity)
  · rename_i hguess
    rw [tenPowerLe_iff _ _ hden, not_le] at hguess
    rw [sub_add_cancel]
    refine ⟨?_, hguess⟩
    rw [le_div_iff₀ hdenq]
    calc (10 : ℚ) ^ (a - b - 1) * den ≤ 10 ^ (a - b - 1) * 10 ^ b :=
          mul_le_mul_of_nonneg_left hdenhigh.le (by positivity)
      _ = 10 ^ (a - 1) := by
          rw [← zpow_add₀ hten]
          congr 1
          omega
      _ ≤ num := hnumlow

/-! ## The nearest form -/

/-- Rounding after the quotient was multiplied by a power of ten. -/
theorem exists_roundDiv (num : Nat) {den : Nat} (hden : 0 < den) (places : Int) :
    ∃ num' den' : Nat, 0 < den' ∧
      (if 0 ≤ places then roundDiv (num * Nat.pow 10 places.toNat) den
        else roundDiv num (den * Nat.pow 10 (-places).toNat)) = roundDiv num' den' ∧
      (num' : ℚ) / den' = num / den * 10 ^ places := by
  have hdenq : (den : ℚ) ≠ 0 := by exact_mod_cast hden.ne'
  by_cases hplaces : 0 ≤ places
  · obtain ⟨n, rfl⟩ := Int.eq_ofNat_of_zero_le hplaces
    refine ⟨num * 10 ^ n, den, hden, if_pos hplaces, ?_⟩
    push_cast
    rw [zpow_natCast]
    ring
  · obtain ⟨n, rfl⟩ : ∃ n : Nat, places = -(n : Int) := ⟨(-places).toNat, by omega⟩
    refine ⟨num, den * 10 ^ n, Nat.mul_pos hden (Nat.pow_pos (by decide)), ?_, ?_⟩
    · rw [if_neg hplaces, neg_neg, Int.toNat_natCast]
      rfl
    · push_cast
      rw [zpow_neg, zpow_natCast]
      field_simp

/-- In units of the last digit of forms with the leading exponent `e`, any normal form of the
same length is a natural number or beyond the powers of ten around these forms. -/
theorem Normal.exists_units {t : Scientific} {k : Nat} (ht : t.Normal)
    (hlength : t.digits.length = k + 1) (e : Int) :
    ∃ z : ℚ, t.value = z * 10 ^ (e - k) ∧
      ((∃ m : Nat, z = m) ∨ 10 ^ (k + 1) ≤ z ∨ z < 10 ^ k) := by
  have hten : (10 : ℚ) ≠ 0 := by norm_num
  obtain ⟨hlow, hhigh⟩ := ht.bounds
  rw [hlength, Nat.add_sub_cancel] at hlow
  rw [hlength] at hhigh
  have hlowq : (10 : ℚ) ^ k ≤ natOfDigits t.digits := by exact_mod_cast hlow
  have hhighq : (natOfDigits t.digits : ℚ) < 10 ^ (k + 1) := by exact_mod_cast hhigh
  refine ⟨natOfDigits t.digits * 10 ^ (t.exponent - e), ?_, ?_⟩
  · rw [value, hlength, mul_assoc, ← zpow_add₀ hten]
    congr 2
    push_cast
    omega
  · obtain hlt | heq | hgt := lt_trichotomy t.exponent e
    · right
      right
      have hsmall : (10 : ℚ) ^ (t.exponent - e) ≤ 10 ^ (-1 : Int) :=
        zpow_le_zpow_right₀ (by norm_num) (by omega)
      calc (natOfDigits t.digits : ℚ) * 10 ^ (t.exponent - e)
          ≤ natOfDigits t.digits * 10 ^ (-1 : Int) :=
            mul_le_mul_of_nonneg_left hsmall (by positivity)
        _ < 10 ^ (k + 1) * 10 ^ (-1 : Int) := mul_lt_mul_of_pos_right hhighq (by positivity)
        _ = 10 ^ k := by
          rw [pow_succ, zpow_neg_one]
          field_simp
    · left
      exact ⟨natOfDigits t.digits, by rw [heq, sub_self, zpow_zero, mul_one]⟩
    · right
      left
      have hlarge : (10 : ℚ) ^ (1 : Int) ≤ 10 ^ (t.exponent - e) :=
        zpow_le_zpow_right₀ (by norm_num) (by omega)
      calc (10 : ℚ) ^ (k + 1) = 10 ^ k * 10 ^ (1 : Int) := by rw [pow_succ, zpow_one]
        _ ≤ natOfDigits t.digits * 10 ^ (1 : Int) :=
            mul_le_mul_of_nonneg_right hlowq (by positivity)
        _ ≤ natOfDigits t.digits * 10 ^ (t.exponent - e) :=
            mul_le_mul_of_nonneg_left hlarge (by positivity)

/-- A quotient in units of the last digit that is written. -/
theorem scaled_bounds {num den : Nat} (hnum : 0 < num) (hden : 0 < den) (k : Nat) :
    (10 : ℚ) ^ k ≤ num / den * 10 ^ ((k : Int) - leadingExponent num den) ∧
      (num : ℚ) / den * 10 ^ ((k : Int) - leadingExponent num den) < 10 ^ (k + 1) := by
  have hten : (10 : ℚ) ≠ 0 := by norm_num
  obtain ⟨hlow, hhigh⟩ := leadingExponent_bounds hnum hden
  generalize leadingExponent num den = e at *
  constructor
  · calc (10 : ℚ) ^ k = 10 ^ e * 10 ^ ((k : Int) - e) := by
          rw [← zpow_add₀ hten, add_sub_cancel, zpow_natCast]
      _ ≤ num / den * 10 ^ ((k : Int) - e) := mul_le_mul_of_nonneg_right hlow (by positivity)
  · calc (num : ℚ) / den * 10 ^ ((k : Int) - e) < 10 ^ (e + 1) * 10 ^ ((k : Int) - e) :=
          mul_lt_mul_of_pos_right hhigh (by positivity)
      _ = 10 ^ (k + 1) := by
          rw [← zpow_add₀ hten, ← zpow_natCast]
          congr 1
          push_cast
          omega

/-- The digits of a number between two powers of ten, as a form. -/
theorem form_spec {n k : Nat} (e : Int) (hlow : 10 ^ k ≤ n) (hhigh : n < 10 ^ (k + 1)) :
    (⟨decimalDigits n, e⟩ : Scientific).Normal ∧ (decimalDigits n).length = k + 1 ∧
      (⟨decimalDigits n, e⟩ : Scientific).value = n * 10 ^ (e - k) := by
  obtain ⟨hnormal, hlength⟩ := normal_decimalDigits (e := e) hlow hhigh
  refine ⟨hnormal, hlength, ?_⟩
  rw [value, hlength, natOfDigits_decimalDigits]
  congr 2
  push_cast
  omega

/-- Writing a quotient rounds it to units of the last digit.  When that reaches the next power
of ten, the form is that of the power. -/
theorem ofQuotient_spec {num den : Nat} (hnum : 0 < num) (hden : 0 < den) (k : Nat) :
    ∃ n : Nat, NearestNat n (num / den * 10 ^ ((k : Int) - leadingExponent num den)) ∧
      (ofQuotient num den (k + 1)).Normal ∧
      (ofQuotient num den (k + 1)).digits.length = k + 1 ∧
      (ofQuotient num den (k + 1)).value = n * 10 ^ (leadingExponent num den - k) ∧
      (0 < k → Even n → Even (natOfDigits (ofQuotient num den (k + 1)).digits)) := by
  obtain ⟨hlow, hhigh⟩ := scaled_bounds hnum hden k
  obtain ⟨num', den', hden', hrounded, hvalue⟩ :=
    exists_roundDiv num hden ((k + 1 : Nat) - 1 - leadingExponent num den)
  have hplaces : ((k + 1 : Nat) : Int) - 1 - leadingExponent num den =
      k - leadingExponent num den := by
    push_cast
    omega
  have hnearest := roundDiv_nearest num' hden'
  rw [hvalue, hplaces] at hnearest
  obtain ⟨hnlow, hnhigh⟩ := hnearest.bounds hlow hhigh
  refine ⟨roundDiv num' den', hnearest, ?_⟩
  rw [ofQuotient, hrounded]
  generalize leadingExponent num den = e
  generalize roundDiv num' den' = n at *
  split
  · rename_i hpower
    have hpower : n = 10 ^ (k + 1) := hpower
    have hdigits : decimalDigits (Nat.pow 10 (k + 1 - 1)) = decimalDigits (10 ^ k) := rfl
    obtain ⟨hnormal, hlength, hform⟩ := form_spec (e + 1) le_rfl
      (Nat.pow_lt_pow_right (by decide) (Nat.lt_succ_self k) : 10 ^ k < 10 ^ (k + 1))
    refine ⟨hnormal, hlength, ?_, fun hk _ => ?_⟩
    · rw [hdigits, hform, hpower]
      push_cast
      rw [pow_succ, mul_assoc, ← zpow_one_add₀ (by norm_num)]
      congr 2
      omega
    · rw [hdigits, natOfDigits_decimalDigits]
      exact (Nat.even_pow.2 ⟨by decide, hk.ne'⟩)
  · rename_i hpower
    have hlt : n < 10 ^ (k + 1) := Nat.lt_of_le_of_ne hnhigh hpower
    obtain ⟨hnormal, hlength, hform⟩ := form_spec e hnlow hlt
    refine ⟨hnormal, hlength, hform, fun _ heven => ?_⟩
    rwa [natOfDigits_decimalDigits]

/-- A quotient is written as the nearest form with the given number of digits. -/
theorem ofQuotient_nearest {num den k : Nat} (hnum : 0 < num) (hden : 0 < den) (hk : 0 < k) :
    (ofQuotient num den (k + 1)).Nearest (k + 1) (num / den) := by
  obtain ⟨n, hn, hnormal, hlength, hvalue, heven⟩ := ofQuotient_spec hnum hden k
  obtain ⟨hlow, hhigh⟩ := scaled_bounds hnum hden k
  generalize leadingExponent num den = e at *
  have hten : (10 : ℚ) ≠ 0 := by norm_num
  have hunit : (0 : ℚ) < 10 ^ (e - k) := by positivity
  have hquotient : (num : ℚ) / den = num / den * 10 ^ (k - e) * 10 ^ (e - k) := by
    rw [mul_assoc, ← zpow_add₀ hten, sub_add_sub_cancel, sub_self, zpow_zero, mul_one]
  -- distances are compared in units of the last digit
  have hdistance : ∀ z : ℚ, |z * 10 ^ (e - k) - num / den| =
      |z - num / den * 10 ^ (k - e)| * 10 ^ (e - k) := by
    intro z
    rw [← abs_of_pos hunit, ← abs_mul, abs_of_pos hunit, sub_mul, ← hquotient]
  refine ⟨hnormal, hlength, ?_, ?_⟩
  · intro t ht htlength
    obtain ⟨z, hz, hcases⟩ := ht.exists_units htlength e
    rw [hvalue, hz, hdistance, hdistance]
    exact mul_le_mul_of_nonneg_right (hn.nearest_beyond hlow hhigh hcases).1 hunit.le
  · intro t ht htlength hequal
    obtain ⟨z, hz, hcases⟩ := ht.exists_units htlength e
    rw [hvalue, hz, hdistance, hdistance] at hequal
    have hclose := mul_right_cancel₀ hunit.ne' hequal
    obtain hsame | hn := (hn.nearest_beyond hlow hhigh hcases).2 hclose
    · exact .inl (by rw [hz, hvalue, hsame])
    · exact .inr (heven hk hn)

end Scientific

end XmlTree
