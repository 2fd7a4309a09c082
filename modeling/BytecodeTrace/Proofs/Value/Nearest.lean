/-
# How near the nearest value is

The value nearest to a number is at most half a quantum away from it, where the quantum is the
distance of the values around the number: a part in `2 ^ 52`, and never less than `2 ^ -1074`.

* `toRat_of_magnitude`: the number of a value whose magnitude is counted in quanta;
* `nearestMagnitude_eq_of_le`: the nearest value is finite, up to the greatest number;
* `abs_sub_nearest_le`: and half a quantum away at most.
* `nearestMagnitude_mono`: the nearest value keeps the order of the numbers;
* `nearestMagnitude_of_near`: what differs from a value by less than a part in `2 ^ 54` is nearest
  to that value.
-/
import BytecodeTrace.Proofs.Number.Rounding
import BytecodeTrace.Proofs.Value.ReadBack

namespace BytecodeTrace
namespace Value

/-! ## 1. Sign and magnitude -/

/-- A value has the sign and the magnitude that it is made of. -/
theorem parts_ofMagnitude (negative : Bool) {m : Nat} (h : m < 2 ^ 63) :
    (ofMagnitude negative m).isNegative = negative ∧ (ofMagnitude negative m).magnitude = m := by
  have hbits : (ofMagnitude negative m).bits.toNat = if negative then 2 ^ 63 + m else m := by
    rw [ofMagnitude, UInt64.toNat_ofNat']
    split
    · omega
    · omega
  rw [isNegative, magnitude, hbits]
  cases negative with
  | true =>
    simp only [if_true]
    exact ⟨decide_eq_true (by omega), by omega⟩
  | false =>
    simp only [Bool.false_eq_true, if_false]
    exact ⟨decide_eq_false (by omega), by omega⟩

/-! ## 2. Quanta -/

/-- The power of two that is the distance of the values around a positive number. -/
def quantumExponent (r : ℚ) : Int := max (Int.log 2 r - 52) (-1074)

/-- The number of a value, from its magnitude in quanta.  The quanta are counted from the start of
their binade, and the end of the binade is the start of the next one. -/
theorem toRat_of_magnitude {v : Value} {s q : Nat} (hq : q ≤ 2 ^ 53) (hs : 2 ^ 52 ≤ q ∨ s = 0)
    (hv : v.magnitude = s * 2 ^ 52 + q) :
    v.toFraction.toRat = q * (2 : ℚ) ^ ((s : Int) - 1074) := by
  rw [toRat_toFraction, significand, scaleExponent, hv]
  rcases Nat.lt_or_ge q (2 ^ 52) with hlt | hge
  · obtain rfl : s = 0 := hs.resolve_left (Nat.not_le.mpr hlt)
    have hdiv : (0 * 2 ^ 52 + q) / 2 ^ 52 = 0 := by omega
    have hmod : (0 * 2 ^ 52 + q) % 2 ^ 52 = q := by omega
    rw [hdiv, hmod, if_pos rfl]
    rfl
  · rcases Nat.lt_or_eq_of_le hq with hlt | rfl
    · have hdiv : (s * 2 ^ 52 + q) / 2 ^ 52 = s + 1 := by omega
      have hmod : 2 ^ 52 + (s * 2 ^ 52 + q) % 2 ^ 52 = q := by omega
      have hexponent : ((max (s + 1) 1 : Nat) : Int) - 1075 = s - 1074 := by omega
      rw [hdiv, hmod, if_neg (Nat.succ_ne_zero s), hexponent]
    · have hdiv : (s * 2 ^ 52 + 2 ^ 53) / 2 ^ 52 = s + 2 := by omega
      have hmod : 2 ^ 52 + (s * 2 ^ 52 + 2 ^ 53) % 2 ^ 52 = 2 ^ 52 := by omega
      have hexponent : ((max (s + 2) 1 : Nat) : Int) - 1075 = (s - 1074) + 1 := by omega
      rw [hdiv, hmod, if_neg (Nat.succ_ne_zero (s + 1)), hexponent, zpow_add_one₀ (by norm_num)]
      push_cast
      ring

/-! ## 3. The nearest value -/

/-- A number, counted in its quanta. -/
def inQuanta (x : Fraction) : Fraction := x.scale 2 (-quantumExponent x.toRat)

section Nearest

variable {x : Fraction}

theorem toRat_inQuanta (x : Fraction) :
    (inQuanta x).toRat = x.toRat * (2 : ℚ) ^ (-quantumExponent x.toRat) :=
  Fraction.toRat_scale x (by decide) _

theorem toRat_inQuanta_mul (x : Fraction) :
    (inQuanta x).toRat * (2 : ℚ) ^ quantumExponent x.toRat = x.toRat := by
  rw [toRat_inQuanta, mul_assoc, ← zpow_add₀ (by norm_num), neg_add_cancel, zpow_zero, mul_one]

section Bounds

variable (hnum : 0 < x.num) (hden : 0 < x.den)

include hden

theorem den_inQuanta_pos : 0 < (inQuanta x).den :=
  Fraction.den_scale_pos hden (by decide) _

/-- A number has at most 53 binary digits before the point when it is counted in quanta. -/
theorem round_inQuanta_le : (inQuanta x).round ≤ 2 ^ 53 := by
  have hlt : x.toRat < (2 : ℚ) ^ (Int.log 2 x.toRat + 1) :=
    Int.lt_zpow_succ_log_self (by decide) _
  have hunit : (0 : ℚ) < 2 ^ (-quantumExponent x.toRat) := zpow_pos (by norm_num) _
  have hdigits : Int.log 2 x.toRat + 1 + -quantumExponent x.toRat ≤ 53 := by
    unfold quantumExponent
    omega
  have hbound : (inQuanta x).toRat < 2 ^ (53 : Int) :=
    calc (inQuanta x).toRat = x.toRat * (2 : ℚ) ^ (-quantumExponent x.toRat) := toRat_inQuanta x
      _ < (2 : ℚ) ^ (Int.log 2 x.toRat + 1) * 2 ^ (-quantumExponent x.toRat) :=
          mul_lt_mul_of_pos_right hlt hunit
      _ = 2 ^ (Int.log 2 x.toRat + 1 + -quantumExponent x.toRat) :=
          (zpow_add₀ (by norm_num) _ _).symm
      _ ≤ 2 ^ (53 : Int) := zpow_le_zpow_right₀ (by norm_num) hdigits
  refine Fraction.round_le_of_lt (den_inQuanta_pos hden) ?_
  norm_num at hbound ⊢
  linarith

include hnum

/-- It has as many, unless the quantum is the least. -/
theorem le_round_inQuanta : 2 ^ 52 ≤ (inQuanta x).round ∨ quantumExponent x.toRat = -1074 := by
  rcases Int.le_total (Int.log 2 x.toRat - 52) (-1074) with hleast | hlog
  · right
    exact max_eq_right hleast
  · left
    have hle : (2 : ℚ) ^ Int.log 2 x.toRat ≤ x.toRat :=
      Int.zpow_log_le_self (by decide) (Fraction.toRat_pos hnum hden)
    have hunit : (0 : ℚ) < 2 ^ (-quantumExponent x.toRat) := zpow_pos (by norm_num) _
    have hdigits : 52 = Int.log 2 x.toRat + -quantumExponent x.toRat := by
      unfold quantumExponent
      omega
    refine Fraction.le_round_of_le (den_inQuanta_pos hden) ?_
    rw [toRat_inQuanta]
    calc ((2 ^ 52 : Nat) : ℚ) = (2 : ℚ) ^ (52 : Int) := by norm_num
      _ = 2 ^ (Int.log 2 x.toRat + -quantumExponent x.toRat) := by rw [← hdigits]
      _ = 2 ^ Int.log 2 x.toRat * 2 ^ (-quantumExponent x.toRat) := zpow_add₀ (by norm_num) _ _
      _ ≤ _ := mul_le_mul_of_nonneg_right hle hunit.le

/-- The magnitude is counted in quanta, from the start of the binade on. -/
theorem nearestMagnitude_eq_min :
    nearestMagnitude x = min ((quantumExponent x.toRat + 1074).toNat * 2 ^ 52 +
      (inQuanta x).round) infinityMagnitude := by
  unfold nearestMagnitude
  rw [Fraction.leadingExponent_eq_log (by decide) binaryLength_eq_log hnum hden]
  rfl

section Greatest

variable (hle : x.toRat ≤ greatest)
include hle

/-- The greatest number is in the last binade. -/
theorem quantumExponent_le : quantumExponent x.toRat ≤ 971 := by
  have hlog : Int.log 2 x.toRat < 1024 :=
    (Int.lt_zpow_iff_log_lt (by decide) (Fraction.toRat_pos hnum hden)).mp
      (lt_of_le_of_lt hle greatest_lt)
  unfold quantumExponent
  omega

omit hnum in
/-- In the last binade a number is not rounded up to the end. -/
theorem round_inQuanta_lt (hlast : quantumExponent x.toRat = 971) :
    (inQuanta x).round ≤ 2 ^ 53 - 1 := by
  refine Fraction.round_le_of_lt (den_inQuanta_pos hden) ?_
  have hunit : (0 : ℚ) < 2 ^ (971 : Int) := zpow_pos (by norm_num) _
  have hmul := toRat_inQuanta_mul x
  rw [cast_greatest, ← hmul, hlast] at hle
  refine lt_of_le_of_lt (le_of_mul_le_mul_right hle hunit) ?_
  norm_num

/-- **Up to the greatest number the nearest value is finite.** -/
theorem nearestMagnitude_eq_of_le :
    nearestMagnitude x =
        (quantumExponent x.toRat + 1074).toNat * 2 ^ 52 + (inQuanta x).round ∧
      nearestMagnitude x < infinityMagnitude := by
  have hround := round_inQuanta_le hden
  have hquantum := quantumExponent_le hnum hden hle
  have hfinite : (quantumExponent x.toRat + 1074).toNat * 2 ^ 52 + (inQuanta x).round <
      infinityMagnitude := by
    unfold infinityMagnitude
    rcases Int.lt_or_eq_of_le hquantum with hlt | hlast
    · omega
    · have hend := round_inQuanta_lt hden hle hlast
      omega
  have heq := (nearestMagnitude_eq_min hnum hden).trans (Nat.min_eq_left hfinite.le)
  exact ⟨heq, heq ▸ hfinite⟩

/-- **The nearest value is half a quantum away at most.** -/
theorem abs_sub_nearest_le {v : Value} (hv : v.magnitude = nearestMagnitude x) :
    |v.toFraction.toRat - x.toRat| ≤ (2 : ℚ) ^ quantumExponent x.toRat / 2 := by
  obtain ⟨hmagnitude, -⟩ := nearestMagnitude_eq_of_le hnum hden hle
  have hleast : -1074 ≤ quantumExponent x.toRat := le_max_right _ _
  have hexponent : (((quantumExponent x.toRat + 1074).toNat : Nat) : Int) - 1074 =
      quantumExponent x.toRat := by omega
  have hbinade : 2 ^ 52 ≤ (inQuanta x).round ∨ (quantumExponent x.toRat + 1074).toNat = 0 :=
    (le_round_inQuanta hnum hden).imp_right fun heq => by rw [heq]; rfl
  have hvalue := toRat_of_magnitude (round_inQuanta_le hden) hbinade (hv.trans hmagnitude)
  have hunit : (0 : ℚ) < 2 ^ quantumExponent x.toRat := zpow_pos (by norm_num) _
  have hhalf := Fraction.abs_sub_round_le (den_inQuanta_pos hden)
  rw [abs_sub_comm] at hhalf
  rw [hvalue, hexponent]
  calc _ = |((inQuanta x).round - (inQuanta x).toRat) * (2 : ℚ) ^ quantumExponent x.toRat| := by
        rw [sub_mul, toRat_inQuanta_mul]
    _ ≤ 1 / 2 * (2 : ℚ) ^ quantumExponent x.toRat := by
        rw [abs_mul, abs_of_pos hunit]
        exact mul_le_mul_of_nonneg_right hhalf hunit.le
    _ = _ := by ring

end Greatest
end Bounds
end Nearest

/-! ## 4. Numbers that have the same nearest value -/

theorem quantumExponent_mono {r s : ℚ} (hr : 0 < r) (h : r ≤ s) :
    quantumExponent r ≤ quantumExponent s :=
  max_le_max (Int.sub_le_sub_right (Int.log_mono_right hr h) 52) (Int.le_refl _)

section Order

variable {x y : Fraction} (hxnum : 0 < x.num) (hxden : 0 < x.den)
include hxnum hxden

/-- **The nearest value keeps the order of the numbers.** -/
theorem nearestMagnitude_mono (hynum : 0 < y.num) (hyden : 0 < y.den) (h : x.toRat ≤ y.toRat) :
    nearestMagnitude x ≤ nearestMagnitude y := by
  rw [nearestMagnitude_eq_min hxnum hxden, nearestMagnitude_eq_min hynum hyden]
  refine min_le_min_right _ ?_
  have hleast : -1074 ≤ quantumExponent x.toRat := le_max_right _ _
  rcases Int.lt_or_eq_of_le (quantumExponent_mono (Fraction.toRat_pos hxnum hxden) h) with
    hlt | heq
  · -- the number with the smaller quantum ends at the latest where the next binade starts
    have hround := round_inQuanta_le hxden
    have hfull := (le_round_inQuanta hynum hyden).resolve_right (by omega)
    omega
  · have hunit : (0 : ℚ) < 2 ^ (-quantumExponent y.toRat) := zpow_pos (by norm_num) _
    have hround : (inQuanta x).round ≤ (inQuanta y).round := by
      refine Fraction.round_mono (den_inQuanta_pos hxden) (den_inQuanta_pos hyden) ?_
      rw [toRat_inQuanta, toRat_inQuanta, heq]
      exact mul_le_mul_of_nonneg_right h hunit.le
    omega

/-- The magnitude of a number near to a whole number of quanta. -/
theorem nearestMagnitude_of_quanta {t : ℚ} {q : Nat} {k : Int} (hx : x.toRat = t * (2 : ℚ) ^ k)
    (hquantum : quantumExponent x.toRat = k) (hnear : |t - q| < 1 / 2) :
    nearestMagnitude x = min ((k + 1074).toNat * 2 ^ 52 + q) infinityMagnitude := by
  have hscaled : (inQuanta x).toRat = t := by
    have hcancel : (2 : ℚ) ^ k * 2 ^ (-k) = 1 := by
      rw [← zpow_add₀ (by norm_num), add_neg_cancel, zpow_zero]
    rw [toRat_inQuanta, hquantum, hx, mul_assoc, hcancel, mul_one]
  rw [nearestMagnitude_eq_min hxnum hxden, hquantum,
    Fraction.round_eq_of_abs_sub_lt (den_inQuanta_pos hxden) (hscaled.symm ▸ hnear)]

/-- What is just below the start of a binade is nearest to that start. -/
theorem nearestMagnitude_of_near_start {t : ℚ} {k : Int} (hx : x.toRat = t * (2 : ℚ) ^ k)
    (hleast : -1074 < k) (hle : 2 ^ 52 - 1 / 4 < t) (hlt : t < 2 ^ 52) :
    nearestMagnitude x = min ((k + 1074).toNat * 2 ^ 52 + 2 ^ 52) infinityMagnitude := by
  have hsplit : (2 : ℚ) ^ k = 2 * 2 ^ (k - 1) := by
    rw [← zpow_one_add₀ (by norm_num)]
    congr 1
    omega
  have hx' : x.toRat = (2 * t) * (2 : ℚ) ^ (k - 1) := by
    rw [hx, hsplit]
    ring
  have hlog : Int.log 2 x.toRat = 51 + k := by
    rw [hx]
    exact @log_mul_zpow 2 (by decide) t 51 (by push_cast; linarith) (by push_cast; linarith) _
  have hquantum : quantumExponent x.toRat = k - 1 := by
    rw [quantumExponent, hlog]
    omega
  have hnear : |2 * t - (2 ^ 53 : Nat)| < 1 / 2 := by
    push_cast
    rw [abs_lt]
    constructor
    · linarith
    · linarith
  have hcount : (k - 1 + 1074).toNat * 2 ^ 52 + 2 ^ 53 = (k + 1074).toNat * 2 ^ 52 + 2 ^ 52 := by
    omega
  rw [nearestMagnitude_of_quanta hxnum hxden hx' hquantum hnear, hcount]

/-- **What differs from a value by less than a part in `2 ^ 54` is nearest to that value.** -/
theorem nearestMagnitude_of_near {v : Value} (h : v.isFinite = true)
    (hnear : |x.toRat - v.toFraction.toRat| < v.toFraction.toRat / 2 ^ 54) :
    nearestMagnitude x = v.magnitude := by
  obtain ⟨hlt, hleast, -, hnormal, hmagnitude⟩ := parts_of_isFinite h
  have hmin : min v.magnitude infinityMagnitude = v.magnitude :=
    Nat.min_eq_left (Nat.le_of_lt (of_decide_eq_true h))
  have hunit : (0 : ℚ) < 2 ^ v.scaleExponent := zpow_pos (by norm_num) _
  -- everything in quanta of the value
  obtain ⟨t, hx⟩ : ∃ t, x.toRat = t * (2 : ℚ) ^ v.scaleExponent :=
    ⟨_, (div_mul_cancel₀ _ hunit.ne').symm⟩
  have hnear : |t - v.significand| < v.significand / 2 ^ 54 := by
    rw [hx, toRat_toFraction, ← sub_mul, abs_mul, abs_of_pos hunit, mul_div_right_comm] at hnear
    exact lt_of_mul_lt_mul_right hnear hunit.le
  have hdigits : (v.significand : ℚ) + 1 ≤ 2 ^ 53 := by exact_mod_cast hlt
  have hhalf : |t - v.significand| < 1 / 2 := by linarith
  obtain ⟨hbelow, habove⟩ := abs_lt.mp hhalf
  have hsame (hquantum : quantumExponent x.toRat = v.scaleExponent) :
      nearestMagnitude x = v.magnitude := by
    rw [nearestMagnitude_of_quanta hxnum hxden hx hquantum hhalf, ← hmagnitude, hmin]
  rcases le_or_gt ((2 : ℚ) ^ 52) t with hge | hless
  · -- in the binade of the value, so with its quantum
    refine hsame ?_
    have hlog : Int.log 2 x.toRat = 52 + v.scaleExponent := by
      rw [hx]
      exact @log_mul_zpow 2 (by decide) t 52 hge (by push_cast; linarith) _
    rw [quantumExponent, hlog]
    omega
  rcases Int.lt_or_eq_of_le hleast with hmore | heq
  · -- below the binade of the value, which can only be because the value is its start
    have hstart : v.significand = 2 ^ 52 := by
      have hlt : (v.significand : ℚ) < 2 ^ 52 + 1 := by linarith
      have hlt : v.significand < 2 ^ 52 + 1 := by exact_mod_cast hlt
      omega
    rw [hstart] at hnear hmagnitude
    have hquarter : 2 ^ 52 - 1 / 4 < t := by
      have hlow := (abs_lt.mp hnear).1
      push_cast at hlow
      linarith
    rw [nearestMagnitude_of_near_start hxnum hxden hx hmore hquarter hless, ← hmagnitude, hmin]
  · -- the quantum is never less than that of the least values
    refine hsame ?_
    have hlog : Int.log 2 x.toRat < 52 + v.scaleExponent := by
      rw [← Int.lt_zpow_iff_log_lt (by decide) (Fraction.toRat_pos hxnum hxden), hx,
        Nat.cast_ofNat, zpow_add₀ (by norm_num)]
      exact mul_lt_mul_of_pos_right hless hunit
    rw [quantumExponent]
    omega

end Order

end Value
end BytecodeTrace
