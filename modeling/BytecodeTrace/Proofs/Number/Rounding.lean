/-
# Rounding to significant digits, once and again

A positive number that is rounded to some significant digits becomes a decimal with that many
digits, or the next power of ten.  Whatever lies near enough to that decimal is rounded to the same
number, so that nothing changes any more when a rounded number is disturbed a little and rounded
again:

* `coefficient_toDecimal_bounds`: the digits that rounding gives;
* `toRat_toDecimal_of_near`: a number near a decimal is rounded to it;
* `round_scale_places`: rounding at a number of places gives the same digits as rounding to
  significant digits, if the places are counted from the exponent of the result;
* `significantDigits_congr`: the digits that are written depend on the number only.

The power of ten that the digits are counted from is where a disturbance could do harm: a number
just below a power of ten has a smaller unit than the power itself.
-/
import BytecodeTrace.Proofs.Number.Decimal

namespace BytecodeTrace

/-! ## 1. Rounding to whole numbers -/

namespace Fraction

variable {x : Fraction}

/-- Rounding moves a number by at most one half. -/
theorem abs_sub_round_le (hden : 0 < x.den) : |x.toRat - x.round| ≤ 1 / 2 := by
  obtain ⟨hup, hlow⟩ := roundDiv_near x.num x.den hden
  have hdenq : (0 : ℚ) < x.den := by exact_mod_cast hden
  have hnum : x.toRat * x.den = x.num := div_mul_cancel₀ _ hdenq.ne'
  have hupq : 2 * ((x.den : ℚ) * x.round) ≤ 2 * x.num + x.den := by exact_mod_cast hup
  have hlowq : 2 * (x.num : ℚ) ≤ 2 * (x.den * x.round) + x.den := by exact_mod_cast hlow
  rw [← hnum] at hupq hlowq
  have hup : 2 * (x.round : ℚ) ≤ 2 * x.toRat + 1 := by
    refine le_of_mul_le_mul_right ?_ hdenq
    linarith
  have hlow : 2 * x.toRat ≤ 2 * (x.round : ℚ) + 1 := by
    refine le_of_mul_le_mul_right ?_ hdenq
    linarith
  rw [abs_le]
  constructor
  · linarith
  · linarith

/-- A whole number at a distance of less than one half is the rounding. -/
theorem round_eq_of_abs_sub_lt (hden : 0 < x.den) {n : Nat} (h : |x.toRat - n| < 1 / 2) :
    x.round = n := by
  obtain ⟨hlow, hup⟩ := abs_le.mp (abs_sub_round_le hden)
  obtain ⟨hlow', hup'⟩ := abs_lt.mp h
  have hle : (x.round : ℚ) < n + 1 := by linarith
  have hge : (n : ℚ) < x.round + 1 := by linarith
  have hle : x.round < n + 1 := by exact_mod_cast hle
  have hge : n < x.round + 1 := by exact_mod_cast hge
  omega

/-- A number is rounded to its whole part or to the next whole number. -/
theorem round_eq_or (x : Fraction) :
    x.round = x.num / x.den ∨ x.round = x.num / x.den + 1 := by
  simp only [round, roundDiv]
  split_ifs
  · exact .inl rfl
  · exact .inr rfl
  · exact .inl rfl
  · exact .inr rfl

/-- Rounding keeps the order. -/
theorem round_mono {y : Fraction} (hx : 0 < x.den) (hy : 0 < y.den) (h : x.toRat ≤ y.toRat) :
    x.round ≤ y.round := by
  rcases eq_or_lt_of_le h with heq | hlt
  · exact (round_congr hx hy heq).le
  · obtain ⟨hlow, -⟩ := abs_le.mp (abs_sub_round_le hx)
    obtain ⟨-, hup⟩ := abs_le.mp (abs_sub_round_le hy)
    have hround : (x.round : ℚ) < y.round + 1 := by linarith
    have hround : x.round < y.round + 1 := by exact_mod_cast hround
    exact Nat.le_of_lt_succ hround

/-- Rounding does not pass a whole number from below. -/
theorem round_le_of_lt (hden : 0 < x.den) {n : Nat} (h : x.toRat < n + 1 / 2) : x.round ≤ n := by
  obtain ⟨hlow, -⟩ := abs_le.mp (abs_sub_round_le hden)
  have hlt : (x.round : ℚ) < n + 1 := by linarith
  have hlt : x.round < n + 1 := by exact_mod_cast hlt
  exact Nat.le_of_lt_succ hlt

/-- Nor from above. -/
theorem le_round_of_le (hden : 0 < x.den) {n : Nat} (h : (n : ℚ) ≤ x.toRat) : n ≤ x.round := by
  obtain ⟨-, hup⟩ := abs_le.mp (abs_sub_round_le hden)
  have hlt : (n : ℚ) < x.round + 1 := by linarith
  have hlt : n < x.round + 1 := by exact_mod_cast hlt
  exact Nat.le_of_lt_succ hlt

end Fraction

/-! ## 2. Rounding to significant digits -/

namespace Fraction

variable {x y : Fraction}

section Digits

variable (hnum : 0 < x.num) (hden : 0 < x.den) (n : Nat)
include hnum hden

/-- The unit of the last digit is given by the integer logarithm. -/
theorem toDecimal_eq :
    x.toDecimal (n + 1) =
      ⟨(x.scale 10 (n - Int.log 10 x.toRat)).round, Int.log 10 x.toRat - n⟩ := by
  have hpower : x.leadingExponent decimalLength - (((n + 1 : Nat) : Int) - 1) =
      Int.log 10 x.toRat - n := by
    rw [leadingExponent_eq_log (by decide) decimalLength_eq_log hnum hden]
    omega
  have hneg : -(Int.log 10 x.toRat - n) = n - Int.log 10 x.toRat := Int.neg_sub ..
  simp only [toDecimal, hpower, hneg]

/-- The number in units of its last digit. -/
theorem toRat_scale_log :
    (10 : ℚ) ^ n ≤ (x.scale 10 (n - Int.log 10 x.toRat)).toRat ∧
      (x.scale 10 (n - Int.log 10 x.toRat)).toRat < (10 : ℚ) ^ (n + 1) := by
  have hpos := toRat_pos hnum hden
  have hunit : (0 : ℚ) < 10 ^ ((n : Int) - Int.log 10 x.toRat) := zpow_pos (by norm_num) _
  have hle : (10 : ℚ) ^ Int.log 10 x.toRat ≤ x.toRat :=
    Int.zpow_log_le_self (by decide) hpos
  have hlt : x.toRat < (10 : ℚ) ^ (Int.log 10 x.toRat + 1) :=
    Int.lt_zpow_succ_log_self (by decide) _
  have hlow : (10 : ℚ) ^ n = 10 ^ Int.log 10 x.toRat * 10 ^ ((n : Int) - Int.log 10 x.toRat) := by
    rw [← zpow_add₀ (by norm_num), ← zpow_natCast]
    congr 1
    omega
  have hup : (10 : ℚ) ^ (n + 1) =
      10 ^ (Int.log 10 x.toRat + 1) * 10 ^ ((n : Int) - Int.log 10 x.toRat) := by
    rw [← zpow_add₀ (by norm_num), ← zpow_natCast]
    congr 1
    omega
  rw [toRat_scale _ (by decide), hlow, hup]
  exact ⟨mul_le_mul_of_nonneg_right hle hunit.le, mul_lt_mul_of_pos_right hlt hunit⟩

/-- The coefficient has the digits asked for, or is the next power of ten. -/
theorem coefficient_toDecimal_bounds :
    10 ^ n ≤ (x.toDecimal (n + 1)).coefficient ∧
      (x.toDecimal (n + 1)).coefficient ≤ 10 ^ (n + 1) := by
  obtain ⟨hle, hlt⟩ := toRat_scale_log hnum hden n
  have hscaled := den_scale_pos hden (by decide : 0 < 10) (n - Int.log 10 x.toRat)
  rw [toDecimal_eq hnum hden]
  constructor
  · refine le_round_of_le hscaled ?_
    exact_mod_cast hle
  · refine round_le_of_lt hscaled ?_
    push_cast
    linarith

theorem coefficient_toDecimal_pos : 0 < (x.toDecimal (n + 1)).coefficient :=
  Nat.lt_of_lt_of_le (Nat.pow_pos (by decide)) (coefficient_toDecimal_bounds hnum hden n).1

omit hnum hden in
/-- The number, from its units. -/
theorem toRat_scale_mul_unit :
    (x.scale 10 (n - Int.log 10 x.toRat)).toRat * (10 : ℚ) ^ (Int.log 10 x.toRat - n) =
      x.toRat := by
  have hsum : (n : Int) - Int.log 10 x.toRat + (Int.log 10 x.toRat - n) = 0 := by omega
  rw [toRat_scale _ (by decide), Nat.cast_ofNat, mul_assoc, ← zpow_add₀ (by norm_num), hsum,
    zpow_zero, mul_one]

/-- Rounding moves a number by at most half a unit of the last digit. -/
theorem abs_sub_toDecimal_le :
    |x.toRat - (x.toDecimal (n + 1)).toRat| ≤ (10 : ℚ) ^ (Int.log 10 x.toRat - n) / 2 := by
  have hhalf := abs_sub_round_le (den_scale_pos hden (by decide : 0 < 10) (n - Int.log 10 x.toRat))
  have hunit : (0 : ℚ) < 10 ^ (Int.log 10 x.toRat - n) := zpow_pos (by norm_num) _
  rw [toDecimal_eq hnum hden, Decimal.toRat]
  nth_rewrite 1 [← toRat_scale_mul_unit n]
  rw [← sub_mul, abs_mul, abs_of_pos hunit, ← one_div_mul_eq_div]
  exact mul_le_mul_of_nonneg_right hhalf hunit.le

end Digits

/-- A number with `n + 1` digits before the point, in units of `10 ^ p`, is rounded in these
units. -/
theorem toDecimal_eq_of_near {t : ℚ} {c n : Nat} {p : Int} (hnum : 0 < x.num) (hden : 0 < x.den)
    (hx : x.toRat = t * (10 : ℚ) ^ p) (hle : (10 : ℚ) ^ n ≤ t) (hlt : t < (10 : ℚ) ^ (n + 1))
    (hnear : |t - c| < 1 / 2) : x.toDecimal (n + 1) = ⟨c, p⟩ := by
  have hunit : (0 : ℚ) < 10 ^ p := zpow_pos (by norm_num) _
  have hlog : Int.log 10 x.toRat = n + p := by
    rw [hx]
    exact @log_mul_zpow 10 (by decide) t n hle hlt p
  have hscaled : (x.scale 10 (-p)).toRat = t := by
    have hcancel : (10 : ℚ) ^ p * 10 ^ (-p) = 1 := by
      rw [← zpow_add₀ (by norm_num), add_neg_cancel, zpow_zero]
    rw [toRat_scale _ (by decide), Nat.cast_ofNat, hx, mul_assoc, hcancel, mul_one]
  have hround : (x.scale 10 (-p)).round = c :=
    round_eq_of_abs_sub_lt (den_scale_pos hden (by decide) _) (hscaled.symm ▸ hnear)
  have hexponent : (n : Int) - (n + p) = -p := by omega
  have hpower : (n : Int) + p - n = p := by omega
  rw [toDecimal_eq hnum hden, hlog, hexponent, hpower, hround]

/-- A number near a decimal is rounded to it, when the decimal has the digits asked for. -/
theorem toRat_toDecimal_of_near_of_lt {d : Decimal} {n : Nat} (hnum : 0 < x.num)
    (hden : 0 < x.den) (hlo : 10 ^ n ≤ d.coefficient) (hhi : d.coefficient < 10 ^ (n + 1))
    (hnear : |x.toRat - d.toRat| < (10 : ℚ) ^ d.power / 20) :
    (x.toDecimal (n + 1)).toRat = d.toRat := by
  obtain ⟨c, p⟩ := d
  have hunit : (0 : ℚ) < 10 ^ p := zpow_pos (by norm_num) _
  -- everything in units of the last digit
  obtain ⟨t, hx⟩ : ∃ t, x.toRat = t * (10 : ℚ) ^ p :=
    ⟨_, (div_mul_cancel₀ _ hunit.ne').symm⟩
  have hnear : |t - c| < 1 / 20 := by
    rw [hx, Decimal.toRat, ← sub_mul, abs_mul, abs_of_pos hunit, ← one_div_mul_eq_div] at hnear
    exact lt_of_mul_lt_mul_right hnear hunit.le
  obtain ⟨hbelow, habove⟩ := abs_lt.mp hnear
  have hlo' : (10 : ℚ) ^ n ≤ c := by exact_mod_cast hlo
  have hhi' : (c : ℚ) + 1 ≤ 10 ^ (n + 1) := by exact_mod_cast hhi
  have hone : (1 : ℚ) ≤ 10 ^ n := one_le_pow₀ (by norm_num)
  have hten : (10 : ℚ) ^ (n + 1) = 10 * 10 ^ n := pow_succ' ..
  rcases le_or_gt ((10 : ℚ) ^ n) t with hge | hlt
  · have hhalf : |t - c| < 1 / 2 := by linarith
    rw [toDecimal_eq_of_near hnum hden hx hge (by linarith) hhalf]
  · -- the number lies below the power of ten that the decimal is, and has a smaller unit
    have hc : c = 10 ^ n := by
      have hlt : (c : ℚ) < 10 ^ n + 1 := by linarith
      have hlt : c < 10 ^ n + 1 := by exact_mod_cast hlt
      exact Nat.le_antisymm (Nat.le_of_lt_succ hlt) hlo
    have hcq : (c : ℚ) = 10 ^ n := by exact_mod_cast hc
    have hsmaller : (10 : ℚ) ^ p = 10 * 10 ^ (p - 1) := by
      rw [← zpow_one_add₀ (by norm_num)]
      congr 1
      omega
    have hx' : x.toRat = (10 * t) * (10 : ℚ) ^ (p - 1) := by
      rw [hx, hsmaller]
      ring
    have hhalf : |10 * t - (10 ^ (n + 1) : Nat)| < 1 / 2 := by
      push_cast
      rw [abs_lt]
      constructor
      · linarith
      · linarith
    rw [toDecimal_eq_of_near hnum hden hx' (by linarith) (by linarith) hhalf, Decimal.toRat,
      Decimal.toRat, hcq, hsmaller]
    push_cast
    rw [hten]
    ring

/-- **A number near a rounded decimal is rounded to it again.** -/
theorem toRat_toDecimal_of_near {d : Decimal} {n : Nat} (hnum : 0 < x.num) (hden : 0 < x.den)
    (hlo : 10 ^ n ≤ d.coefficient) (hhi : d.coefficient ≤ 10 ^ (n + 1))
    (hnear : |x.toRat - d.toRat| < (10 : ℚ) ^ d.power / 20) :
    (x.toDecimal (n + 1)).toRat = d.toRat := by
  rcases Nat.lt_or_eq_of_le hhi with hlt | heq
  · exact toRat_toDecimal_of_near_of_lt hnum hden hlo hlt hnear
  · -- the rounding carried: the same power of ten is a one in the next unit
    obtain ⟨c, p⟩ := d
    have hlarger : (10 : ℚ) ^ (p + 1) = 10 * 10 ^ p := by
      rw [zpow_add_one₀ (by norm_num), mul_comm]
    have hunit : (0 : ℚ) < 10 ^ p := zpow_pos (by norm_num) _
    have hsame : Decimal.toRat ⟨c, p⟩ = Decimal.toRat ⟨10 ^ n, p + 1⟩ := by
      have hc : (c : ℚ) = 10 ^ (n + 1) := by exact_mod_cast heq
      rw [Decimal.toRat, Decimal.toRat, hc, hlarger]
      push_cast
      ring
    rw [hsame] at hnear ⊢
    refine toRat_toDecimal_of_near_of_lt hnum hden (Nat.le_refl _)
      (Nat.pow_lt_pow_succ (by decide)) ?_
    calc _ < (10 : ℚ) ^ p / 20 := hnear
      _ ≤ 10 ^ (p + 1) / 20 := by
        rw [hlarger]
        linarith

/-! ## 3. Rounding at a number of places -/

/-- The exponent of a number that was rounded: one more than its own when the rounding carried. -/
theorem exponent_toDecimal (hnum : 0 < x.num) (hden : 0 < x.den) (n : Nat) :
    ((x.toDecimal (n + 1)).coefficient < 10 ^ (n + 1) ∧
        (x.toDecimal (n + 1)).exponent = Int.log 10 x.toRat) ∨
      ((x.toDecimal (n + 1)).coefficient = 10 ^ (n + 1) ∧
        (x.toDecimal (n + 1)).exponent = Int.log 10 x.toRat + 1) := by
  obtain ⟨hlo, hhi⟩ := coefficient_toDecimal_bounds hnum hden n
  have hpower : (x.toDecimal (n + 1)).power = Int.log 10 x.toRat - n := by
    rw [toDecimal_eq hnum hden]
  have hne : (x.toDecimal (n + 1)).coefficient ≠ 0 :=
    Nat.ne_of_gt (coefficient_toDecimal_pos hnum hden n)
  rcases Nat.lt_or_eq_of_le hhi with hlt | heq
  · have hlog : Nat.log 10 (x.toDecimal (n + 1)).coefficient = n :=
      (Nat.log_eq_iff (.inr ⟨by decide, hne⟩)).mpr ⟨hlo, hlt⟩
    refine .inl ⟨hlt, ?_⟩
    rw [Decimal.exponent, decimalLength_eq_log, hlog, hpower]
    omega
  · have hlog : Nat.log 10 (x.toDecimal (n + 1)).coefficient = n + 1 := by
      rw [heq, Nat.log_pow (by decide)]
    refine .inr ⟨heq, ?_⟩
    rw [Decimal.exponent, decimalLength_eq_log, hlog, hpower]
    omega

/-- **Both ways of rounding agree**: at as many places as the significant digits have behind the
point, the rounding gives the same number. -/
theorem round_scale_places (hnum : 0 < x.num) (hden : 0 < x.den) {n places : Nat}
    (hplaces : (x.toDecimal (n + 1)).exponent + places = n) :
    ((x.scale 10 places).round : ℚ) = (x.toDecimal (n + 1)).toRat * 10 ^ places := by
  rcases exponent_toDecimal hnum hden n with ⟨-, hexponent⟩ | ⟨hcarry, hexponent⟩
  · have hk : (n : Int) - Int.log 10 x.toRat = places := by omega
    have hpower : Int.log 10 x.toRat - n = -(places : Int) := by omega
    have hten : (10 : ℚ) ^ places ≠ 0 := pow_ne_zero _ (by norm_num)
    rw [toDecimal_eq hnum hden, hk, hpower, Decimal.toRat, zpow_neg, zpow_natCast,
      inv_mul_cancel_right₀ hten]
  · -- the carried digit is in the place before, where the number is as near to it
    obtain ⟨-, hbelow⟩ := toRat_scale_log hnum hden n
    have hround := abs_sub_round_le
      (den_scale_pos hden (by decide : 0 < 10) (n - Int.log 10 x.toRat))
    have hk : (n : Int) - Int.log 10 x.toRat = places + 1 := by omega
    have hpower : Int.log 10 x.toRat - n = -((places + 1 : Nat) : Int) := by omega
    rw [toDecimal_eq hnum hden] at hcarry
    simp only [hk] at hcarry hbelow hround
    have hscaled : (x.scale 10 (places + 1)).toRat = 10 * (x.scale 10 places).toRat := by
      rw [toRat_scale _ (by decide), toRat_scale _ (by decide), Nat.cast_ofNat,
        zpow_add_one₀ (by norm_num)]
      ring
    rw [hcarry, hscaled, abs_le] at hround
    have hplace : (x.scale 10 places).round = 10 ^ n := by
      refine round_eq_of_abs_sub_lt (den_scale_pos hden (by decide) _) ?_
      push_cast at hround ⊢
      rw [hscaled] at hbelow
      rw [pow_succ] at hround hbelow
      rw [abs_lt]
      constructor
      · linarith
      · linarith
    rw [hplace, toDecimal_eq hnum hden, hk, hpower, hcarry, Decimal.toRat, zpow_neg, zpow_natCast]
    push_cast
    rw [pow_succ, pow_succ]
    field_simp

end Fraction

/-! ## 4. Digits of one number -/

/-- A zero at the end is one more digit. -/
theorem digitsOf_mul_ten {n : Nat} (h : 0 < n) : digitsOf (n * 10) = digitsOf n ++ ['0'] := by
  have hstep : digitsOf (n * 10) = digitsOf (n * 10 / 10) ++ [Nat.digitChar (n * 10 % 10)] :=
    Nat.toDigits_of_base_le (by decide) (by omega)
  rw [hstep, Nat.mul_div_cancel _ (by decide), Nat.mul_mod_left]
  rfl

theorem digitsOf_mul_pow {n : Nat} (h : 0 < n) (k : Nat) :
    digitsOf (n * 10 ^ k) = digitsOf n ++ List.replicate k '0' := by
  induction k with
  | zero => simp
  | succ k ih =>
    have hpos : 0 < n * 10 ^ k := Nat.mul_pos h (Nat.pow_pos (by decide))
    rw [Nat.pow_succ, ← Nat.mul_assoc, digitsOf_mul_ten hpos, ih, List.append_assoc,
      ← List.replicate_succ']

theorem trimZeros_append_replicate (ds : List Char) (k : Nat) :
    trimZeros (ds ++ List.replicate k '0') = trimZeros ds := by
  have hzeros : ∀ c ∈ List.replicate k '0', (c == '0') = true := by
    intro c hc
    exact beq_iff_eq.mpr (List.eq_of_mem_replicate hc)
  rw [trimZeros, Text.dropEndWhile, List.reverse_append, List.reverse_replicate,
    List.dropWhile_append_of_pos hzeros]
  rfl

namespace Decimal

variable {d e : Decimal}

/-- The significant digits of a decimal with the larger power are those of the other. -/
theorem significantDigits_eq_of_power_le (hd : 0 < d.coefficient) (h : d.toRat = e.toRat)
    (hle : e.power ≤ d.power) : e.significantDigits = d.significantDigits := by
  obtain ⟨k, hk⟩ := Int.eq_ofNat_of_zero_le (Int.sub_nonneg_of_le hle)
  have hpower : d.power = e.power + k := by omega
  have hunit : (10 : ℚ) ^ e.power ≠ 0 := (zpow_pos (by norm_num) _).ne'
  have hcoefficient : e.coefficient = d.coefficient * 10 ^ k := by
    rw [toRat, toRat, hpower, zpow_add₀ (by norm_num), mul_comm ((10 : ℚ) ^ e.power),
      ← mul_assoc] at h
    have hcast := mul_right_cancel₀ hunit h
    rw [zpow_natCast] at hcast
    exact_mod_cast hcast.symm
  rw [significantDigits, hcoefficient, digitsOf_mul_pow hd, trimZeros_append_replicate]
  rfl

/-- **The significant digits depend on the number only.** -/
theorem significantDigits_congr (hd : 0 < d.coefficient) (h : d.toRat = e.toRat) :
    d.significantDigits = e.significantDigits := by
  have he : 0 < e.coefficient := coefficient_pos_of_toRat_pos (h ▸ toRat_pos hd)
  rcases Int.le_total e.power d.power with hle | hle
  · exact (significantDigits_eq_of_power_le hd h hle).symm
  · exact significantDigits_eq_of_power_le he h.symm hle

/-- A coefficient with so many digits has no more significant ones, nor has the next power of
ten. -/
theorem length_significantDigits_le {n : Nat} (hd : 0 < d.coefficient)
    (h : d.coefficient ≤ 10 ^ (n + 1)) : d.significantDigits.length ≤ n + 1 := by
  have hshort (e : Decimal) (he : e.coefficient < 10 ^ (n + 1)) :
      e.significantDigits.length ≤ n + 1 := by
    obtain ⟨k, hk⟩ := exists_eq_trimZeros_append (digitsOf e.coefficient)
    have hlength := (decimalLength_le_iff (Nat.succ_pos n)).mpr he
    rw [← length_digitsOf, hk, List.length_append] at hlength
    exact Nat.le_trans (Nat.le_add_right _ _) hlength
  rcases Nat.lt_or_eq_of_le h with hlt | heq
  · exact hshort d hlt
  · have hsame : d.toRat = toRat ⟨1, d.power + (n + 1 : Nat)⟩ := by
      have hpower : d.power = d.power + (n + 1 : Nat) - (n + 1 : Nat) := by omega
      rw [← toRat_mul_pow 1 (n + 1), ← hpower, Nat.one_mul, ← heq]
    rw [significantDigits_congr hd hsame]
    exact hshort _ (Nat.one_lt_pow (Nat.succ_ne_zero n) (by decide))

/-- So does the exponent notation. -/
theorem exponentText_congr (style : ExponentStyle) (hd : 0 < d.coefficient)
    (h : d.toRat = e.toRat) : d.exponentText style = e.exponentText style := by
  have he : 0 < e.coefficient := coefficient_pos_of_toRat_pos (h ▸ toRat_pos hd)
  have hexponent : d.exponent = e.exponent := by
    rw [exponent_eq_log hd, exponent_eq_log he, h]
  simp only [exponentText, significantDigits_congr hd h, hexponent]

end Decimal
end BytecodeTrace
