/-
# The text of a value, read and written again

A value is written with six significant digits, so that reading the text gives another value in
general.  That value has the same text, unless it is subnormal: it differs from the rounded number
by half a quantum at most, which is far less than a unit of the sixth digit.

* `isNotation_fractionText`: the text is a notation of the rounded number;
* `fractionText_congr`: and depends on that number only;
* `toRat_rounded_le`, `half_quantum_lt`: where the rounded number lies, and how near to it the value
  is that is read;
* `exists_read?_chars`: so every text can be read, and what is read has the same text.

Near the least values a quantum is more than a unit of the sixth digit: `NotSubnormal` takes them
out.
-/
import BytecodeTrace.Proofs.Value.Nearest

namespace BytecodeTrace

/-! ## 1. Positional texts -/

/-- **The positional text** is a notation of the number rounded at its places. -/
theorem Fraction.isNotation_placesText (x : Fraction) (places : Nat) :
    Decimal.IsNotation ⟨(x.scale 10 places).round, -places⟩ (x.placesText places) [] 0 := by
  obtain ⟨n, hn⟩ : ∃ n, n = (x.scale 10 places).round := ⟨_, rfl⟩
  have hlt : n % 10 ^ places < 10 ^ places := Nat.mod_lt _ (Nat.pow_pos (by decide))
  have hsplit : n / 10 ^ places * 10 ^ places + n % 10 ^ places = n := Nat.div_add_mod' ..
  rw [placesText, ← hn]
  refine ⟨digitsOf (n / 10 ^ places), _, (List.append_nil _).symm, isWhole_digitsOf _, ?_, ?_⟩
  · split
    · exact nofun
    · intro c hc
      exact isDigit_of_mem_leftpad (fun _ => isDigit_of_mem_digitsOf) places c
        (mem_of_mem_dropEndWhile hc)
  · split
    · rename_i hzero
      subst hzero
      rw [List.append_nil, ofDigits_digitsOf, Nat.pow_zero, Nat.div_one]
      rfl
    · rename_i hne
      obtain ⟨k, hk⟩ := exists_eq_trimZeros_append ((digitsOf (n % 10 ^ places)).leftpad places '0')
      have hlength : ((digitsOf (n % 10 ^ places)).leftpad places '0').length = places := by
        have hle : (digitsOf (n % 10 ^ places)).length ≤ places := by
          rw [length_digitsOf]
          exact (decimalLength_le_iff (Nat.pos_of_ne_zero hne)).mpr hlt
        rw [List.leftpad, List.length_append, List.length_replicate, Nat.sub_add_cancel hle]
      have hvalue : ofDigits (digitsOf (n / 10 ^ places) ++
          (digitsOf (n % 10 ^ places)).leftpad places '0') = n := by
        rw [ofDigits_append, hlength, List.leftpad, ofDigits_replicate_append, ofDigits_digitsOf,
          ofDigits_digitsOf, hsplit]
      have hplaces := hlength
      rw [hk, List.length_append, List.length_replicate] at hplaces
      rw [hk, ← List.append_assoc, ofDigits_append_replicate] at hvalue
      rw [← Decimal.toRat_mul_pow _ k, hvalue]
      congr 2
      omega

namespace Value

/-! ## 2. The text of a fraction -/

section Fractions

variable {x y : Fraction} (hxnum : 0 < x.num) (hxden : 0 < x.den)

section One
include hxnum hxden

theorem coefficient_rounded_pos : 0 < (x.toDecimal traceDigits).coefficient :=
  Fraction.coefficient_toDecimal_pos hxnum hxden 5

/-- At the places of the positional text, the digits are those of the rounding. -/
theorem round_scale_tracePlaces
    (h : ¬ ((x.toDecimal traceDigits).exponent < -4 ∨
      (traceDigits : Int) ≤ (x.toDecimal traceDigits).exponent)) :
    ((x.scale 10 ((traceDigits : Int) - 1 - (x.toDecimal traceDigits).exponent).toNat).round : ℚ) =
      (x.toDecimal traceDigits).toRat *
        10 ^ ((traceDigits : Int) - 1 - (x.toDecimal traceDigits).exponent).toNat := by
  refine Fraction.round_scale_places (n := 5) hxnum hxden ?_
  show (x.toDecimal traceDigits).exponent + _ = 5
  unfold traceDigits at h ⊢
  omega

/-- **The text of a fraction** is a notation of its rounding to six significant digits. -/
theorem isNotation_fractionText (hsmall : (x.toDecimal traceDigits).exponent.natAbs < 65536) :
    ∃ tail e, (x.toDecimal traceDigits).IsNotation (fractionText x) tail e ∧
      (tail = [] ∧ e = 0 ∨ tail = traceExponent.text e ∧ e.natAbs < 65536) := by
  unfold fractionText
  simp only
  split
  · exact ⟨_, _, Decimal.isNotation_exponentText _ (coefficient_rounded_pos hxnum hxden),
      .inr ⟨rfl, hsmall⟩⟩
  · rename_i hexponent
    obtain ⟨places, hplaces⟩ : ∃ places, places =
      ((traceDigits : Int) - 1 - (x.toDecimal traceDigits).exponent).toNat := ⟨_, rfl⟩
    have hround := round_scale_tracePlaces hxnum hxden hexponent
    rw [← hplaces] at hround ⊢
    have hten : (10 : ℚ) ^ places ≠ 0 := pow_ne_zero _ (by norm_num)
    have hsame : Decimal.toRat ⟨(x.scale 10 places).round, -places⟩ =
        (x.toDecimal traceDigits).toRat := by
      rw [Decimal.toRat, hround, zpow_neg, zpow_natCast, mul_inv_cancel_right₀ hten]
    have hnotation := x.isNotation_placesText places
    rw [Decimal.IsNotation, hsame] at hnotation
    exact ⟨[], 0, hnotation, .inl ⟨rfl, rfl⟩⟩

end One

/-- **The text depends on the rounded number only.** -/
theorem fractionText_congr (hxnum : 0 < x.num) (hxden : 0 < x.den) (hynum : 0 < y.num)
    (hyden : 0 < y.den) (h : (x.toDecimal traceDigits).toRat = (y.toDecimal traceDigits).toRat) :
    fractionText x = fractionText y := by
  have hxpos := coefficient_rounded_pos hxnum hxden
  have hexponent : (x.toDecimal traceDigits).exponent = (y.toDecimal traceDigits).exponent := by
    rw [Decimal.exponent_eq_log hxpos,
      Decimal.exponent_eq_log (coefficient_rounded_pos hynum hyden), h]
  unfold fractionText
  simp only [hexponent]
  split
  · exact Decimal.exponentText_congr traceExponent hxpos h
  · rename_i hplaces
    have hx := round_scale_tracePlaces hxnum hxden (hexponent.symm ▸ hplaces)
    have hy := round_scale_tracePlaces hynum hyden hplaces
    rw [hexponent, h, ← hy] at hx
    simp only [Fraction.placesText, Nat.cast_injective hx]

end Fractions

/-! ## 3. Finite values, read and rounded again -/

/-- A decimal is at most the greatest number when it is so in some higher unit. -/
theorem toRat_le_greatest {d : Decimal} {n k : Nat} (hcoefficient : d.coefficient ≤ n)
    (hpower : d.power ≤ k) (h : n * 10 ^ k ≤ greatest) : d.toRat ≤ greatest := by
  have hunit : (0 : ℚ) < 10 ^ (k : Int) := zpow_pos (by norm_num) _
  calc d.toRat ≤ d.coefficient * (10 : ℚ) ^ (k : Int) :=
        mul_le_mul_of_nonneg_left (zpow_le_zpow_right₀ (by norm_num) hpower) (Nat.cast_nonneg _)
    _ ≤ n * (10 : ℚ) ^ (k : Int) :=
        mul_le_mul_of_nonneg_right (Nat.cast_le.mpr hcoefficient) hunit.le
    _ ≤ greatest := by
        rw [zpow_natCast]
        exact_mod_cast h

/-- A power of two with a negative exponent is below the power of ten that is near to it. -/
theorem two_zpow_neg_le_ten_zpow_neg (bits : Nat) :
    (2 : ℚ) ^ (-(bits : Int)) ≤ 10 ^ (-(decimalExponent bits : Int)) := by
  have hcast : ((10 ^ decimalExponent bits : Nat) : ℚ) ≤ ((2 ^ bits : Nat) : ℚ) :=
    Nat.cast_le.mpr (ten_pow_decimalExponent_le bits)
  push_cast at hcast
  rw [zpow_neg, zpow_neg, zpow_natCast, zpow_natCast]
  exact inv_anti₀ (pow_pos (by norm_num) _) hcast

section Finite

variable {v : Value} (h : v.isFinite = true) (hz : v.isZero = false)
include h hz

/-- The rounding of a value has an exponent at which reading does not give up. -/
theorem exponent_rounded_bounds :
    -330 ≤ (v.toFraction.toDecimal traceDigits).exponent ∧
      (v.toFraction.toDecimal traceDigits).exponent < 310 := by
  obtain ⟨hlow, hhigh⟩ := log_bounds h hz
  obtain ⟨hnum, hden⟩ := toFraction_pos h hz
  have hexponent : (v.toFraction.toDecimal traceDigits).exponent = Int.log 10 v.toFraction.toRat ∨
      (v.toFraction.toDecimal traceDigits).exponent = Int.log 10 v.toFraction.toRat + 1 :=
    (Fraction.exponent_toDecimal hnum hden 5).imp And.right And.right
  omega

theorem chars_eq_of_isFinite :
    v.chars = if v.isNegative then '-' :: fractionText v.toFraction
      else fractionText v.toFraction := by
  have hlt : v.magnitude < infinityMagnitude := of_decide_eq_true h
  have hnan : v.isNaN = false := decide_eq_false (Nat.lt_asymm hlt)
  have hinfinite : v.isInfinite = false := decide_eq_false (Nat.ne_of_lt hlt)
  simp only [chars, unsignedText, hnan, hinfinite, hz, Bool.false_eq_true, if_false]

/-- **The text of a finite value is read as the value nearest to the rounded number.** -/
theorem read?_chars_of_isFinite :
    read? v.chars = some (ofMagnitude v.isNegative
      (nearestMagnitude (v.toFraction.toDecimal traceDigits).toFraction)) := by
  obtain ⟨hnum, hden⟩ := toFraction_pos h hz
  obtain ⟨hlow, hhigh⟩ := exponent_rounded_bounds h hz
  obtain ⟨tail, e, hnotation, htail⟩ := isNotation_fractionText hnum hden (by omega)
  rw [chars_eq_of_isFinite h hz, read?_signed_of_isNotation hnotation htail,
    magnitudeOfDecimal_eq_nearest (coefficient_rounded_pos hnum hden) hlow hhigh]

/-- Rounding does not lead beyond the greatest finite number: in its decade, the six digits of the
greatest number are a rounding down. -/
theorem toRat_rounded_le : (v.toFraction.toDecimal traceDigits).toRat ≤ greatest := by
  obtain ⟨hnum, hden⟩ := toFraction_pos h hz
  obtain ⟨-, hhigh⟩ := log_bounds h hz
  obtain ⟨-, hle⟩ := toRat_bounds h hz
  obtain ⟨hcoefficient, hpower⟩ := Decimal.mk.inj (Fraction.toDecimal_eq hnum hden 5)
  obtain ⟨-, hsix⟩ : _ ∧ (v.toFraction.toDecimal traceDigits).coefficient ≤ 10 ^ 6 :=
    Fraction.coefficient_toDecimal_bounds hnum hden 5
  rcases lt_or_ge (Int.log 10 v.toFraction.toRat) 308 with hlow | hlast
  · have hpower : (v.toFraction.toDecimal traceDigits).power ≤ 302 :=
      hpower.le.trans (by omega)
    exact toRat_le_greatest (k := 302) hsix hpower (by decide +kernel)
  · have hlog : Int.log 10 v.toFraction.toRat = 308 := by omega
    have hpower : (v.toFraction.toDecimal traceDigits).power ≤ 303 :=
      hpower.le.trans (by omega)
    have hdigits : (v.toFraction.toDecimal traceDigits).coefficient ≤ 179769 := by
      have hbelow : ((2 * greatest : Nat) : ℚ) < ((359539 * 10 ^ 303 : Nat) : ℚ) :=
        Nat.cast_lt.mpr (by decide +kernel)
      have hunit : (0 : ℚ) < 10 ^ 303 := pow_pos (by norm_num) _
      have hscale : ((10 : Nat) : ℚ) ^ ((5 : Nat) - 308 : Int) = (10 ^ 303)⁻¹ := zpow_neg 10 303
      simp only [Nat.cast_mul, Nat.cast_pow, Nat.cast_ofNat] at hbelow
      refine hcoefficient.le.trans ?_
      refine Fraction.round_le_of_lt (Fraction.den_scale_pos hden (by decide) _) ?_
      rw [Fraction.toRat_scale _ (by decide), hlog, hscale, mul_inv_lt_iff₀ hunit]
      generalize (10 : ℚ) ^ 303 = unit at hbelow ⊢
      linarith only [hbelow, hle]
    exact toRat_le_greatest (k := 303) hdigits hpower (by decide +kernel)

/-- A half quantum is less than the twentieth part of a unit of the sixth digit. -/
theorem half_quantum_lt (hnormal : (2 : ℚ) ^ (-1022 : Int) ≤ v.toFraction.toRat) :
    (2 : ℚ) ^ quantumExponent (v.toFraction.toDecimal traceDigits).toRat / 2 <
      (10 : ℚ) ^ (v.toFraction.toDecimal traceDigits).power / 20 := by
  obtain ⟨hnum, hden⟩ := toFraction_pos h hz
  obtain ⟨-, hsix⟩ : _ ∧ (v.toFraction.toDecimal traceDigits).coefficient ≤ 10 ^ 6 :=
    Fraction.coefficient_toDecimal_bounds hnum hden 5
  have hpos := Decimal.toRat_pos (coefficient_rounded_pos hnum hden)
  have hpower : (v.toFraction.toDecimal traceDigits).power = Int.log 10 v.toFraction.toRat - 5 :=
    congrArg Decimal.power (Fraction.toDecimal_eq hnum hden 5)
  have hlog : -308 ≤ Int.log 10 v.toFraction.toRat := by
    rw [← Int.zpow_le_iff_le_log (by decide) (Fraction.toRat_pos hnum hden)]
    exact le_trans (@ten_zpow_neg_le_two_zpow_neg 1022 308 (by decide)) hnormal
  generalize v.toFraction.toDecimal traceDigits = d at hsix hpos hpower ⊢
  have hunit : (0 : ℚ) < 10 ^ d.power := zpow_pos (by norm_num) _
  rcases Int.le_total (Int.log 2 d.toRat - 52) (-1074) with hleast | hmore
  · -- the least quantum there is
    have hquantum : quantumExponent d.toRat = -1074 := max_eq_right hleast
    have hten : (10 : ℚ) ^ (-313 : Int) ≤ 10 ^ d.power :=
      zpow_le_zpow_right₀ (by norm_num) (by omega)
    have hsmall : (2 : ℚ) ^ (-1074 : Int) * 20 < 10 ^ (-313 : Int) :=
      calc (2 : ℚ) ^ (-1074 : Int) * 20 ≤ 10 ^ (-323 : Int) * 20 :=
            mul_le_mul_of_nonneg_right (two_zpow_neg_le_ten_zpow_neg 1074) (by norm_num)
        _ < 10 ^ (-323 : Int) * 10 ^ (10 : Int) :=
            mul_lt_mul_of_pos_left (by norm_num) (zpow_pos (by norm_num) _)
        _ = 10 ^ (-313 : Int) := (zpow_add₀ (by norm_num) _ _).symm
    rw [hquantum]
    linarith
  · have hquantum : quantumExponent d.toRat = Int.log 2 d.toRat - 52 := max_eq_left hmore
    have hle : (2 : ℚ) ^ Int.log 2 d.toRat ≤ d.toRat := Int.zpow_log_le_self (by decide) hpos
    have hcoefficient : (d.coefficient : ℚ) ≤ 10 ^ 6 := by exact_mod_cast hsix
    have hdigits : d.toRat ≤ 10 ^ 6 * (10 : ℚ) ^ d.power :=
      mul_le_mul_of_nonneg_right hcoefficient hunit.le
    have hsplit : (2 : ℚ) ^ (Int.log 2 d.toRat - 52) = 2 ^ Int.log 2 d.toRat / 2 ^ 52 :=
      zpow_sub₀ (by norm_num) _ _
    rw [hquantum, hsplit]
    linarith

/-- **The value that is read is rounded to the same decimal again.** -/
theorem fractionText_nearest (hnormal : (2 : ℚ) ^ (-1022 : Int) ≤ v.toFraction.toRat) {w : Value}
    (hw : w.magnitude = nearestMagnitude (v.toFraction.toDecimal traceDigits).toFraction) :
    w.isFinite = true ∧ w.isZero = false ∧
      fractionText w.toFraction = fractionText v.toFraction := by
  obtain ⟨hnum, hden⟩ := toFraction_pos h hz
  obtain ⟨hlo, hhi⟩ : 10 ^ 5 ≤ (v.toFraction.toDecimal traceDigits).coefficient ∧
      (v.toFraction.toDecimal traceDigits).coefficient ≤ 10 ^ 6 :=
    Fraction.coefficient_toDecimal_bounds hnum hden 5
  have hle := toRat_rounded_le h hz
  have hhalf := half_quantum_lt h hz hnormal
  obtain ⟨d, hd⟩ : ∃ d, d = v.toFraction.toDecimal traceDigits := ⟨_, rfl⟩
  rw [← hd] at hw hlo hhi hle hhalf
  have hdnum : 0 < d.toFraction.num := Value.num_toFraction_pos (by omega)
  have hdden := Value.den_toFraction_pos d
  rw [← Decimal.toRat_toFraction] at hle hhalf
  have hfinite : w.isFinite = true := by
    rw [isFinite, hw]
    exact decide_eq_true (nearestMagnitude_eq_of_le hdnum hdden hle).2
  have hnear := lt_of_le_of_lt (abs_sub_nearest_le hdnum hdden hle hw) hhalf
  rw [Decimal.toRat_toFraction] at hnear
  have hzero : w.isZero = false := by
    refine decide_eq_false fun hmagnitude => ?_
    have hsignificand : w.significand = 0 := by simp [significand, hmagnitude]
    have hunit : (0 : ℚ) < 10 ^ d.power := zpow_pos (by norm_num) _
    have hone : (1 : ℚ) ≤ d.coefficient := by
      have : 1 ≤ d.coefficient := by omega
      exact_mod_cast this
    have hunits : (10 : ℚ) ^ d.power ≤ d.toRat := le_mul_of_one_le_left hunit.le hone
    rw [toRat_toFraction, hsignificand, Nat.cast_zero, zero_mul, zero_sub, abs_neg] at hnear
    linarith only [lt_of_le_of_lt (le_trans hunits (le_abs_self _)) hnear, hunit]
  refine ⟨hfinite, hzero, ?_⟩
  obtain ⟨hwnum, hwden⟩ := toFraction_pos hfinite hzero
  refine fractionText_congr hwnum hwden hnum hden ?_
  rw [← hd]
  exact Fraction.toRat_toDecimal_of_near hwnum hwden hlo hhi hnear

end Finite

/-! ## 4. Values of every kind -/

/-- A value that is not a number between zero and the least normal one, `2 ^ -1022`. -/
def NotSubnormal (v : Value) : Prop :=
  v.isNaN = true ∨ v.isInfinite = true ∨ v.isZero = true ∨
    v.isFinite = true ∧ (2 : ℚ) ^ (-1022 : Int) ≤ v.toFraction.toRat

theorem normal_of_notSubnormal {v : Value} (h : v.isFinite = true) (hz : v.isZero = false)
    (hv : v.NotSubnormal) : (2 : ℚ) ^ (-1022 : Int) ≤ v.toFraction.toRat := by
  have hlt : v.magnitude < infinityMagnitude := of_decide_eq_true h
  rcases hv with hnan | hinfinite | hzero | ⟨-, hle⟩
  · exact absurd (of_decide_eq_true hnan) (Nat.lt_asymm hlt)
  · exact absurd (of_decide_eq_true hinfinite) (Nat.ne_of_lt hlt)
  · rw [hz] at hzero
    cases hzero
  · exact hle

/-- In terms of the pattern: it is a zero, or some exponent bit is set. -/
theorem notSubnormal_iff {v : Value} : v.NotSubnormal ↔ v.isZero = true ∨ 2 ^ 52 ≤ v.magnitude := by
  have hleast : (2 : ℚ) ^ (-1022 : Int) = 2 ^ 52 * 2 ^ (-1074 : Int) := by
    rw [← zpow_natCast, ← zpow_add₀ (by norm_num)]
    rfl
  have hunit : (0 : ℚ) < 2 ^ (-1074 : Int) := zpow_pos (by norm_num) _
  constructor
  · rintro (hnan | hinfinite | hzero | ⟨-, hle⟩)
    · exact .inr (Nat.le_trans (by decide) (Nat.le_of_lt (of_decide_eq_true hnan)))
    · exact .inr (Nat.le_trans (by decide) (Nat.le_of_eq (of_decide_eq_true hinfinite).symm))
    · exact .inl hzero
    · right
      by_contra hlt
      have hlt : v.magnitude < 2 ^ 52 := Nat.not_le.mp hlt
      have hrat : v.toFraction.toRat = v.magnitude * (2 : ℚ) ^ (-1074 : Int) :=
        toRat_of_magnitude (s := 0) (by omega) (.inr rfl) (by omega)
      have hcast : (v.magnitude : ℚ) < 2 ^ 52 := by exact_mod_cast hlt
      rw [hrat, hleast] at hle
      exact absurd (le_of_mul_le_mul_right hle hunit) (not_le.mpr hcast)
  · rintro (hzero | hge)
    · exact .inr (.inr (.inl hzero))
    · rcases Nat.lt_trichotomy v.magnitude infinityMagnitude with hlt | heq | hgt
      · have hfinite : v.isFinite = true := decide_eq_true hlt
        obtain ⟨-, hmin, -, hnormal, hmagnitude⟩ := parts_of_isFinite hfinite
        have hsignificand : 2 ^ 52 ≤ v.significand := by omega
        have hcast : (2 : ℚ) ^ 52 ≤ v.significand := by exact_mod_cast hsignificand
        refine .inr (.inr (.inr ⟨hfinite, ?_⟩))
        rw [toRat_toFraction, hleast]
        exact mul_le_mul hcast (zpow_le_zpow_right₀ (by norm_num) hmin) hunit.le
          (Nat.cast_nonneg _)
      · exact .inr (.inl (decide_eq_true heq))
      · exact .inl (decide_eq_true hgt)

instance (v : Value) : Decidable v.NotSubnormal := decidable_of_iff _ notSubnormal_iff.symm

theorem nearestMagnitude_le (x : Fraction) : nearestMagnitude x ≤ infinityMagnitude :=
  Nat.min_le_right _ _

variable {v : Value}

/-- The text of a value that is not finite or is zero is read as one with the same text. -/
theorem read?_chars_of_word (h : v.isFinite = false ∨ v.isZero = true) :
    ∃ w, read? v.chars = some w ∧ w.chars = v.chars := by
  cases hnan : v.isNaN with
  | true =>
    have hchars : v.chars = ['n', 'a', 'n'] := by rw [chars, hnan, if_pos rfl]
    rw [hchars]
    exact ⟨ofMagnitude false (infinityMagnitude + 2 ^ 51), by decide, by decide⟩
  | false =>
    rcases h with h | h
    · have hinfinite : v.isInfinite = true := by
        rw [isFinite, decide_eq_false_iff_not] at h
        rw [isNaN, decide_eq_false_iff_not] at hnan
        exact decide_eq_true (by omega)
      have hchars : v.chars = if v.isNegative then ['-', 'i', 'n', 'f'] else ['i', 'n', 'f'] := by
        simp only [chars, unsignedText, hnan, hinfinite, Bool.false_eq_true, if_false, if_true]
      refine ⟨ofMagnitude v.isNegative infinityMagnitude, ?_⟩
      rw [hchars]
      cases v.isNegative with
      | true => exact ⟨by decide, by decide⟩
      | false => exact ⟨by decide, by decide⟩
    · have hinfinite : v.isInfinite = false := by
        rw [isZero, decide_eq_true_eq] at h
        rw [isInfinite, h]
        rfl
      have hchars : v.chars = if v.isNegative then ['-', '0'] else ['0'] := by
        simp only [chars, unsignedText, hnan, hinfinite, h, Bool.false_eq_true, if_false, if_true]
      refine ⟨ofMagnitude v.isNegative 0, ?_⟩
      rw [hchars]
      cases v.isNegative with
      | true => exact ⟨by decide, by decide⟩
      | false => exact ⟨by decide, by decide⟩

/-- **Every text of a value can be read, and what is read from the text of a value that is not
subnormal has the same text.** -/
theorem exists_read?_chars (v : Value) :
    ∃ w, read? v.chars = some w ∧ (v.NotSubnormal → w.chars = v.chars) := by
  by_cases hword : v.isFinite = false ∨ v.isZero = true
  · obtain ⟨w, hread, hchars⟩ := read?_chars_of_word hword
    exact ⟨w, hread, fun _ => hchars⟩
  · rw [not_or, Bool.not_eq_false, Bool.not_eq_true] at hword
    obtain ⟨h, hz⟩ := hword
    refine ⟨_, read?_chars_of_isFinite h hz, fun hv => ?_⟩
    obtain ⟨hsign, hmagnitude⟩ := parts_ofMagnitude v.isNegative
      (Nat.lt_of_le_of_lt (nearestMagnitude_le (v.toFraction.toDecimal traceDigits).toFraction)
        (by decide))
    obtain ⟨hfinite, hzero, htext⟩ :=
      fractionText_nearest h hz (normal_of_notSubnormal h hz hv) hmagnitude
    rw [chars_eq_of_isFinite hfinite hzero, chars_eq_of_isFinite h hz, htext, hsign]

-- near the least values the rounding may move on: "1e-318", "9.99999e-319"
example : read? (chars ⟨202403⟩) = some ⟨202402⟩ ∧ chars ⟨202402⟩ ≠ chars ⟨202403⟩ := by
  decide +kernel

end Value
end BytecodeTrace
