/-
# Fractions as rational numbers

Scaling, rounding and the leading exponent of a fraction are computed on its two parts.  Here they
are said of the rational number that it stands for, so that all fractions of one number are treated
alike:

* `toRat_scale`: scaling is multiplication by a power;
* `round_congr`: rounding depends on the number only;
* `leadingExponent_eq_log`: the leading exponent is the integer logarithm of the number, for both
  digit counts (`binaryLength_eq_log`, `decimalLength_eq_log`).
-/
import BytecodeTrace.Number.Fraction
import Mathlib.Algebra.Order.Floor.Semifield
import Mathlib.Data.Int.Log
import Mathlib.Data.Rat.Floor
import Mathlib.Tactic.FieldSimp
import Mathlib.Tactic.Linarith
import Mathlib.Tactic.Positivity

namespace BytecodeTrace

/-! ## 1. Digit counts as logarithms -/

theorem binaryLength_eq_log (n : Nat) : binaryLength n = Nat.log 2 n + 1 := by
  rw [binaryLength, Nat.log2_eq_log_two]

theorem decimalLength_eq_log (n : Nat) : decimalLength n = Nat.log 10 n + 1 := by
  have hle : ∀ k, 0 < k → (decimalLength n ≤ k ↔ Nat.log 10 n + 1 ≤ k) := by
    intro k hk
    rw [decimalLength_le_iff hk]
    exact ⟨Nat.log_lt_of_lt_pow' (Nat.ne_of_gt hk), Nat.lt_pow_of_log_lt (by decide)⟩
  exact Nat.le_antisymm ((hle _ (Nat.succ_pos _)).mpr (Nat.le_refl _))
    ((hle _ (decimalLength_pos n)).mp (Nat.le_refl _))

/-- The integer logarithm is the only power of the base that fits below the number. -/
theorem log_eq_of_zpow_le_of_lt {b : Nat} (hb : 1 < b) {r : ℚ} {k : Int} (hle : (b : ℚ) ^ k ≤ r)
    (hlt : r < (b : ℚ) ^ (k + 1)) : Int.log b r = k := by
  have hr : 0 < r := lt_of_lt_of_le (zpow_pos (by exact_mod_cast Nat.zero_lt_of_lt hb) k) hle
  have hbelow := (Int.zpow_le_iff_le_log hb hr).mp hle
  have habove := (Int.lt_zpow_iff_log_lt hb hr).mp hlt
  omega

/-- A power as a factor adds to the logarithm. -/
theorem log_mul_zpow {b : Nat} (hb : 1 < b) {t : ℚ} {n : Nat} (hle : (b : ℚ) ^ n ≤ t)
    (hlt : t < (b : ℚ) ^ (n + 1)) (k : Int) : Int.log b (t * (b : ℚ) ^ k) = n + k := by
  have hbq : (b : ℚ) ≠ 0 := by exact_mod_cast Nat.ne_of_gt (Nat.zero_lt_of_lt hb)
  have hpow : (0 : ℚ) < (b : ℚ) ^ k := zpow_pos (by exact_mod_cast Nat.zero_lt_of_lt hb) k
  refine log_eq_of_zpow_le_of_lt hb ?_ ?_
  · rw [zpow_add₀ hbq, zpow_natCast]
    exact mul_le_mul_of_nonneg_right hle (le_of_lt hpow)
  · have hexponent : (n : Int) + k + 1 = (n + 1 : Nat) + k := by omega
    rw [hexponent, zpow_add₀ hbq, zpow_natCast]
    exact mul_lt_mul_of_pos_right hlt hpow

theorem log_natCast_mul_zpow {b : Nat} (hb : 1 < b) {n : Nat} (hn : 0 < n) (k : Int) :
    Int.log b ((n : ℚ) * (b : ℚ) ^ k) = Nat.log b n + k := by
  have hle : b ^ Nat.log b n ≤ n := Nat.pow_log_le_self b (Nat.ne_of_gt hn)
  have hlt : n < b ^ (Nat.log b n + 1) := Nat.lt_pow_succ_log_self hb n
  exact log_mul_zpow hb (by exact_mod_cast hle) (by exact_mod_cast hlt) k

/-! ## 2. Rounding -/

/-- A common factor does not change the rounding of a quotient. -/
theorem roundDiv_mul_right (num den : Nat) {k : Nat} (hk : 0 < k) :
    roundDiv (num * k) (den * k) = roundDiv num den := by
  have hlt : ∀ a b : Nat, a * k < b * k ↔ a < b := by
    intro a b
    exact Nat.mul_lt_mul_right hk
  simp only [roundDiv, Nat.mul_div_mul_right _ _ hk, Nat.mul_mod_mul_right, ← Nat.mul_assoc, hlt]

namespace Fraction

variable {x y : Fraction}

/-- The number that a fraction stands for. -/
def toRat (x : Fraction) : ℚ := x.num / x.den

@[simp] theorem toRat_ofNat (n : Nat) : (ofNat n).toRat = n := by
  simp [toRat, ofNat]

theorem toRat_pos (hnum : 0 < x.num) (hden : 0 < x.den) : 0 < x.toRat :=
  div_pos (by exact_mod_cast hnum) (by exact_mod_cast hden)

theorem den_scale_pos (hden : 0 < x.den) {b : Nat} (hb : 0 < b) (k : Int) :
    0 < (x.scale b k).den := Nat.mul_pos hden (Nat.pow_pos hb)

theorem num_scale_pos (hnum : 0 < x.num) {b : Nat} (hb : 0 < b) (k : Int) :
    0 < (x.scale b k).num := Nat.mul_pos hnum (Nat.pow_pos hb)

/-- Scaling multiplies by a power, whatever its sign. -/
theorem toRat_scale (x : Fraction) {b : Nat} (hb : 0 < b) (k : Int) :
    (x.scale b k).toRat = x.toRat * (b : ℚ) ^ k := by
  have hne : (b : ℚ) ≠ 0 := by exact_mod_cast Nat.ne_of_gt hb
  have hpow : (b : ℚ) ^ k.toNat / (b : ℚ) ^ (-k).toNat = (b : ℚ) ^ k := by
    rw [← zpow_natCast, ← zpow_natCast, ← zpow_sub₀ hne]
    congr 1
    omega
  rw [← hpow, toRat, toRat, scale]
  push_cast
  rw [mul_div_mul_comm]

/-- **Rounding depends on the number only.** -/
theorem round_congr (hx : 0 < x.den) (hy : 0 < y.den) (h : x.toRat = y.toRat) :
    x.round = y.round := by
  have hcross : x.num * y.den = y.num * x.den := by
    have hxq : (x.den : ℚ) ≠ 0 := by exact_mod_cast Nat.ne_of_gt hx
    have hyq : (y.den : ℚ) ≠ 0 := by exact_mod_cast Nat.ne_of_gt hy
    have := (div_eq_div_iff hxq hyq).mp h
    exact_mod_cast this
  calc x.round = roundDiv (x.num * y.den) (x.den * y.den) := (roundDiv_mul_right _ _ hy).symm
    _ = roundDiv (y.num * x.den) (y.den * x.den) := by rw [hcross, Nat.mul_comm x.den]
    _ = y.round := roundDiv_mul_right _ _ hx

/-- A whole number is its own rounding. -/
theorem round_of_toRat_eq_natCast (hx : 0 < x.den) {n : Nat} (h : x.toRat = n) : x.round = n := by
  rw [round_congr hx (y := ofNat n) Nat.one_pos (by rw [h, toRat_ofNat])]
  exact (congrArg (roundDiv · 1) (Nat.mul_one n)).symm.trans (roundDiv_mul n 1 Nat.one_pos)

/-! ## 3. The leading exponent -/

/-- **The leading exponent is the integer logarithm**, in the base whose digits are counted. -/
theorem leadingExponent_eq_log {b : Nat} (hb : 1 < b) {length : Nat → Nat}
    (hlength : ∀ n, length n = Nat.log b n + 1) (hnum : 0 < x.num) (hden : 0 < x.den) :
    x.leadingExponent length = Int.log b x.toRat := by
  have hdenq : (0 : ℚ) < x.den := by exact_mod_cast hden
  unfold leadingExponent
  split
  · rename_i hle
    have hone : (1 : ℚ) ≤ x.toRat := (one_le_div hdenq).mpr (by exact_mod_cast hle)
    rw [Int.log_of_one_le_right b hone, toRat, Nat.floor_div_eq_div, hlength]
    omega
  · rename_i hlt
    -- below one, `L` zeros stand between the point and the leading digit
    obtain ⟨L, hL⟩ : ∃ L, Nat.log b ((x.den - 1) / x.num) = L := ⟨_, rfl⟩
    have hq : (x.den - 1) / x.num ≠ 0 := Nat.ne_of_gt (Nat.div_pos (by omega) hnum)
    have hbelow : b ^ L ≤ (x.den - 1) / x.num := hL ▸ Nat.pow_log_le_self b hq
    have habove : (x.den - 1) / x.num < b ^ (L + 1) := hL ▸ Nat.lt_pow_succ_log_self hb _
    have hden_le : x.den ≤ x.num * b ^ (L + 1) := by
      have := (Nat.div_lt_iff_lt_mul hnum).mp habove
      rw [Nat.mul_comm] at this
      omega
    have hlt_den : x.num * b ^ L < x.den := by
      have := (Nat.le_div_iff_mul_le hnum).mp hbelow
      rw [Nat.mul_comm] at this
      omega
    have hbq : (0 : ℚ) < b := by exact_mod_cast Nat.zero_lt_of_lt hb
    rw [hlength, hL]
    refine (log_eq_of_zpow_le_of_lt hb ?_ ?_).symm
    · rw [zpow_neg, zpow_natCast, toRat, inv_le_iff_one_le_mul₀ (by positivity),
        div_mul_eq_mul_div, one_le_div hdenq]
      exact_mod_cast hden_le
    · have hexponent : -((L + 1 : Nat) : Int) + 1 = -(L : Int) := by omega
      rw [hexponent, zpow_neg, zpow_natCast, toRat, lt_inv_comm₀ (by positivity) (by positivity),
        inv_div, lt_div_iff₀ (by exact_mod_cast hnum), mul_comm]
      exact_mod_cast hlt_den

end Fraction
end BytecodeTrace
