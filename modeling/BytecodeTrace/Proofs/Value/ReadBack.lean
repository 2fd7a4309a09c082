/-
# Numbers read back

A finite value that is written as a JSON number and read again is the same value, bit for bit:

* `nearestMagnitude_congr`, `magnitudeOfDecimal_congr`: the nearest value depends on the number
  only, not on the fraction or the decimal that it is given by;
* `nearestMagnitude_toFraction`: the number that a value stands for is nearest to that value;
* `readsBack_shortest`: so the search for the shortest decimal ends with one that reads back, if not
  among few digits then with the exact decimal value;
* `read?_jsonChars`: neither notation loses the number, so the text reads back.
-/
import BytecodeTrace.Json.Basic
import BytecodeTrace.Proofs.Number.Decimal
import BytecodeTrace.Proofs.Value.Equality

namespace BytecodeTrace
namespace Value

/-! ## 1. The nearest value depends on the number only -/

theorem nearestMagnitude_congr {x y : Fraction} (hxnum : 0 < x.num) (hxden : 0 < x.den)
    (hynum : 0 < y.num) (hyden : 0 < y.den) (h : x.toRat = y.toRat) :
    nearestMagnitude x = nearestMagnitude y := by
  have hlog : x.leadingExponent binaryLength = y.leadingExponent binaryLength := by
    rw [Fraction.leadingExponent_eq_log (by decide) binaryLength_eq_log hxnum hxden,
      Fraction.leadingExponent_eq_log (by decide) binaryLength_eq_log hynum hyden, h]
  have hround : ∀ k, (x.scale 2 k).round = (y.scale 2 k).round := by
    intro k
    refine Fraction.round_congr (Fraction.den_scale_pos hxden (by decide) k)
      (Fraction.den_scale_pos hyden (by decide) k) ?_
    rw [Fraction.toRat_scale _ (by decide), Fraction.toRat_scale _ (by decide), h]
  simp only [nearestMagnitude, hlog, hround]

theorem den_toFraction_pos (d : Decimal) : 0 < d.toFraction.den :=
  Fraction.den_scale_pos Nat.one_pos (by decide) _

theorem num_toFraction_pos {d : Decimal} (h : 0 < d.coefficient) : 0 < d.toFraction.num :=
  Fraction.num_scale_pos h (by decide) _

theorem magnitudeOfDecimal_congr {d e : Decimal} (h : d.toRat = e.toRat) :
    magnitudeOfDecimal d = magnitudeOfDecimal e := by
  rcases Nat.eq_zero_or_pos d.coefficient with hd | hd
  · have he : e.coefficient = 0 := by
      by_contra hne
      have hpos := Decimal.toRat_pos (Nat.pos_of_ne_zero hne)
      rw [← h, Decimal.toRat, hd, Nat.cast_zero, zero_mul] at hpos
      exact absurd hpos (lt_irrefl _)
    simp only [magnitudeOfDecimal, hd, he, if_true]
  · have he : 0 < e.coefficient :=
      Decimal.coefficient_pos_of_toRat_pos (h ▸ Decimal.toRat_pos hd)
    have hexponent : d.exponent = e.exponent := by
      rw [Decimal.exponent_eq_log hd, Decimal.exponent_eq_log he, h]
    have hnearest : nearestMagnitude d.toFraction = nearestMagnitude e.toFraction :=
      nearestMagnitude_congr (num_toFraction_pos hd) (den_toFraction_pos d)
        (num_toFraction_pos he) (den_toFraction_pos e) (by
          rw [Decimal.toRat_toFraction, Decimal.toRat_toFraction, h])
    simp only [magnitudeOfDecimal, Nat.ne_of_gt hd, Nat.ne_of_gt he, if_false, hexponent, hnearest]

/-- A decimal that reads as a finite value other than zero is in the range of such values. -/
theorem bounds_of_magnitudeOfDecimal {d : Decimal} (hpos : 0 < magnitudeOfDecimal d)
    (hlt : magnitudeOfDecimal d < infinityMagnitude) :
    0 < d.coefficient ∧ -330 ≤ d.exponent ∧ d.exponent < 310 := by
  unfold magnitudeOfDecimal at hpos hlt
  split at hpos
  · exact absurd hpos (Nat.lt_irrefl 0)
  · split at hpos
    · simp_all
    · split at hpos
      · exact absurd hpos (Nat.lt_irrefl 0)
      · exact ⟨by omega, by omega, by omega⟩

/-! ## 2. The number of a value -/

section Finite

variable {v : Value}

theorem toRat_toFraction (v : Value) :
    v.toFraction.toRat = v.significand * (2 : ℚ) ^ v.scaleExponent := by
  rw [toFraction, Fraction.toRat_scale _ (by decide), Fraction.toRat_ofNat]
  rfl

/-- The parts of a finite value: its significand has 53 digits, or fewer at the least exponent. -/
theorem parts_of_isFinite (h : v.isFinite = true) :
    v.significand < 2 ^ 53 ∧ -1074 ≤ v.scaleExponent ∧ v.scaleExponent ≤ 971 ∧
      (2 ^ 52 ≤ v.significand ∨ v.scaleExponent = -1074) ∧
      v.magnitude = (v.scaleExponent + 1074).toNat * 2 ^ 52 + v.significand := by
  have hlt : v.magnitude < 2047 * 2 ^ 52 := of_decide_eq_true h
  have hmod : v.magnitude % 2 ^ 52 < 2 ^ 52 := Nat.mod_lt _ (by decide)
  have hdiv : v.magnitude / 2 ^ 52 < 2047 := (Nat.div_lt_iff_lt_mul (by decide)).mpr hlt
  have hsplit := Nat.div_add_mod v.magnitude (2 ^ 52)
  unfold significand scaleExponent
  split
  · rename_i hzero
    rw [hzero] at hsplit ⊢
    refine ⟨by omega, by decide, by decide, .inr (by decide), ?_⟩
    omega
  · rename_i hne
    refine ⟨by omega, by omega, by omega, .inl (by omega), ?_⟩
    omega

theorem significand_pos (h : v.isFinite = true) (hz : v.isZero = false) : 0 < v.significand := by
  have hm : v.magnitude ≠ 0 := by simpa [isZero] using hz
  obtain ⟨-, -, -, hnormal | hsub, heq⟩ := parts_of_isFinite h
  · omega
  · rw [hsub] at heq
    omega

theorem toFraction_pos (h : v.isFinite = true) (hz : v.isZero = false) :
    0 < v.toFraction.num ∧ 0 < v.toFraction.den :=
  ⟨Fraction.num_scale_pos (significand_pos h hz) (by decide) _,
    Fraction.den_scale_pos Nat.one_pos (by decide) _⟩

/-- The quantum is the power of two that the significand is multiplied with. -/
theorem quantum_toFraction (h : v.isFinite = true) (hz : v.isZero = false) :
    max (Int.log 2 v.toFraction.toRat - 52) (-1074) = v.scaleExponent := by
  have hs := significand_pos h hz
  obtain ⟨hlt, hmin, -, hnormal, -⟩ := parts_of_isFinite h
  have hlog : Int.log 2 v.toFraction.toRat = Nat.log 2 v.significand + v.scaleExponent := by
    rw [toRat_toFraction]
    exact log_natCast_mul_zpow (by decide) hs _
  have hle : Nat.log 2 v.significand < 53 := Nat.log_lt_of_lt_pow (Nat.ne_of_gt hs) hlt
  rcases hnormal with hge | heq
  · have : 52 ≤ Nat.log 2 v.significand := Nat.le_log_of_pow_le (by decide) hge
    omega
  · omega

/-- **The number of a value is nearest to that value.** -/
theorem nearestMagnitude_toFraction (h : v.isFinite = true) (hz : v.isZero = false) :
    nearestMagnitude v.toFraction = v.magnitude := by
  obtain ⟨-, -, -, -, hmagnitude⟩ := parts_of_isFinite h
  obtain ⟨hnum, hden⟩ := toFraction_pos h hz
  have hlog := Fraction.leadingExponent_eq_log (by decide) binaryLength_eq_log hnum hden
  have hround : (v.toFraction.scale 2 (-v.scaleExponent)).round = v.significand := by
    refine Fraction.round_of_toRat_eq_natCast (Fraction.den_scale_pos hden (by decide) _) ?_
    have hcancel :
        ((2 : Nat) : ℚ) ^ v.scaleExponent * ((2 : Nat) : ℚ) ^ (-v.scaleExponent) = 1 := by
      rw [← zpow_add₀ (by norm_num), add_neg_cancel, zpow_zero]
    rw [Fraction.toRat_scale _ (by decide), toRat_toFraction, mul_assoc]
    exact (congrArg _ hcancel).trans (mul_one _)
  have hinfinity : v.magnitude < infinityMagnitude := of_decide_eq_true h
  simp only [nearestMagnitude, hlog, quantum_toFraction h hz, hround, ← hmagnitude]
  exact Nat.min_eq_left (Nat.le_of_lt hinfinity)

/-! ## 3. The shortest decimal -/

/-- The exact decimal stands for the number. -/
theorem toRat_exactDecimal (s : Nat) (k : Int) :
    (exactDecimal s k).toRat = s * (2 : ℚ) ^ k := by
  rcases le_total 0 k with hk | hk
  · obtain ⟨n, rfl⟩ := Int.eq_ofNat_of_zero_le hk
    simp [exactDecimal, Decimal.toRat]
  · obtain ⟨n, hn⟩ := Int.eq_ofNat_of_zero_le (Int.neg_nonneg_of_nonpos hk)
    have hkn : k = -(n : Int) := by omega
    subst hkn
    have hten : (10 : ℚ) ^ n = 5 ^ n * 2 ^ n := by
      rw [← mul_pow]
      norm_num
    have hexact : exactDecimal s (-(n : Int)) = ⟨s * 5 ^ n, -n⟩ := by simp [exactDecimal]
    rw [hexact, Decimal.toRat, zpow_neg, zpow_neg, zpow_natCast, zpow_natCast, hten]
    push_cast
    field_simp

/-- A power of two is below a power of ten whose exponent is a little less than a third of its own,
because `2 ^ 93` is just below `10 ^ 28`. -/
theorem two_zpow_le_ten_zpow {m n : Nat} (h : 28 * m ≤ 93 * n) :
    (2 : ℚ) ^ (m : Int) ≤ 10 ^ (n : Int) := by
  have hpow : (2 ^ m) ^ 28 ≤ (10 ^ n) ^ 28 :=
    calc (2 ^ m) ^ 28
        = 2 ^ (28 * m) := by rw [← Nat.pow_mul, Nat.mul_comm]
      _ ≤ 2 ^ (93 * n) := Nat.pow_le_pow_right (by decide) h
      _ = (2 ^ 93) ^ n := Nat.pow_mul ..
      _ ≤ (10 ^ 28) ^ n := Nat.pow_le_pow_left (by decide) n
      _ = (10 ^ n) ^ 28 := by rw [← Nat.pow_mul, ← Nat.pow_mul, Nat.mul_comm]
  have hnat : 2 ^ m ≤ 10 ^ n := (Nat.pow_le_pow_iff_left (by decide)).mp hpow
  rw [zpow_natCast, zpow_natCast]
  exact_mod_cast hnat

theorem ten_zpow_neg_le_two_zpow_neg {m n : Nat} (h : 28 * m ≤ 93 * n) :
    (10 : ℚ) ^ (-(n : Int)) ≤ 2 ^ (-(m : Int)) := by
  rw [zpow_neg, zpow_neg]
  exact inv_anti₀ (zpow_pos (by norm_num) _) (two_zpow_le_ten_zpow h)

/-- The greatest finite number. -/
def greatest : Nat := (2 ^ 53 - 1) * 2 ^ 971

theorem cast_greatest : (greatest : ℚ) = (2 ^ 53 - 1) * (2 : ℚ) ^ (971 : Int) := by
  have htwo : (2 : ℚ) ^ (971 : Int) = 2 ^ 971 := zpow_natCast 2 971
  have hsignificand : ((2 ^ 53 - 1 : Nat) : ℚ) = 2 ^ 53 - 1 := by norm_num
  simp only [greatest, htwo, Nat.cast_mul, Nat.cast_pow, Nat.cast_ofNat, hsignificand]

theorem greatest_lt : (greatest : ℚ) < 2 ^ (1024 : Int) := by
  have hsplit : (2 : ℚ) ^ (1024 : Int) = 2 ^ 53 * 2 ^ (971 : Int) := by
    rw [← zpow_natCast, ← zpow_add₀ (by norm_num)]
    rfl
  rw [cast_greatest, hsplit]
  exact mul_lt_mul_of_pos_right (by norm_num) (zpow_pos (by norm_num) _)

/-- The number of a finite value other than zero is between the least and the greatest. -/
theorem toRat_bounds (h : v.isFinite = true) (hz : v.isZero = false) :
    (2 : ℚ) ^ (-1074 : Int) ≤ v.toFraction.toRat ∧ v.toFraction.toRat ≤ greatest := by
  obtain ⟨hlt, hmin, hmax, -, -⟩ := parts_of_isFinite h
  have hone : (1 : ℚ) ≤ v.significand := by exact_mod_cast significand_pos h hz
  have hsignificand : (v.significand : ℚ) + 1 ≤ 2 ^ 53 := by exact_mod_cast hlt
  have htwo : (0 : ℚ) < 2 ^ v.scaleExponent := zpow_pos (by norm_num) _
  rw [toRat_toFraction, cast_greatest]
  constructor
  · calc (2 : ℚ) ^ (-1074 : Int) ≤ 2 ^ v.scaleExponent := zpow_le_zpow_right₀ (by norm_num) hmin
      _ ≤ v.significand * 2 ^ v.scaleExponent := le_mul_of_one_le_left htwo.le hone
  · calc (v.significand : ℚ) * 2 ^ v.scaleExponent ≤ (2 ^ 53 - 1) * 2 ^ v.scaleExponent :=
          mul_le_mul_of_nonneg_right (by linarith) htwo.le
      _ ≤ (2 ^ 53 - 1) * 2 ^ (971 : Int) :=
          mul_le_mul_of_nonneg_left (zpow_le_zpow_right₀ (by norm_num) hmax) (by norm_num)

/-- So is the exponent of its leading digit. -/
theorem log_bounds (h : v.isFinite = true) (hz : v.isZero = false) :
    -324 ≤ Int.log 10 v.toFraction.toRat ∧ Int.log 10 v.toFraction.toRat < 309 := by
  obtain ⟨hleast, hgreatest⟩ := toRat_bounds h hz
  have hpos : 0 < v.toFraction.toRat := lt_of_lt_of_le (zpow_pos (by norm_num) _) hleast
  constructor
  · rw [← Int.zpow_le_iff_le_log (by decide) hpos]
    exact le_trans (@ten_zpow_neg_le_two_zpow_neg 1074 324 (by decide)) hleast
  · rw [← Int.lt_zpow_iff_log_lt (by decide) hpos]
    calc v.toFraction.toRat ≤ greatest := hgreatest
      _ < 2 ^ (1024 : Int) := greatest_lt
      _ ≤ 10 ^ (309 : Int) := @two_zpow_le_ten_zpow 1024 309 (by decide)

/-- Within the exponents at which reading gives up, a decimal is read as the nearest magnitude. -/
theorem magnitudeOfDecimal_eq_nearest {d : Decimal} (hpos : 0 < d.coefficient)
    (hlow : -330 ≤ d.exponent) (hhigh : d.exponent < 310) :
    magnitudeOfDecimal d = nearestMagnitude d.toFraction := by
  rw [magnitudeOfDecimal, if_neg (Nat.ne_of_gt hpos), if_neg (by omega), if_neg (by omega)]

/-- A decimal that is read as the value is in the range where reading does not give up. -/
theorem bounds_of_reads (h : v.isFinite = true) (hz : v.isZero = false) {d : Decimal}
    (hd : magnitudeOfDecimal d = v.magnitude) :
    0 < d.coefficient ∧ -330 ≤ d.exponent ∧ d.exponent < 310 := by
  have hpos : 0 < v.magnitude := Nat.pos_of_ne_zero (of_decide_eq_false hz)
  have hlt : v.magnitude < infinityMagnitude := of_decide_eq_true h
  exact bounds_of_magnitudeOfDecimal (hd ▸ hpos) (hd ▸ hlt)

/-- The exact decimal of a finite value other than zero reads back: the powers of ten at which
reading gives up are outside the range of such values. -/
theorem readsBack_exactDecimal (h : v.isFinite = true) (hz : v.isZero = false) :
    magnitudeOfDecimal (exactDecimal v.significand v.scaleExponent) = v.magnitude := by
  obtain ⟨hnum, hden⟩ := toFraction_pos h hz
  obtain ⟨hlow, hhigh⟩ := log_bounds h hz
  obtain ⟨d, hd⟩ : ∃ d, d = exactDecimal v.significand v.scaleExponent := ⟨_, rfl⟩
  have hrat : d.toRat = v.toFraction.toRat := by
    rw [hd, toRat_exactDecimal, toRat_toFraction]
  have hpos : 0 < d.toRat := by
    rw [hrat]
    exact lt_of_lt_of_le (zpow_pos (by norm_num) _) (toRat_bounds h hz).1
  have hcoefficient : 0 < d.coefficient := Decimal.coefficient_pos_of_toRat_pos hpos
  have hexponent : d.exponent = Int.log 10 v.toFraction.toRat := by
    rw [Decimal.exponent_eq_log hcoefficient, hrat]
  have hnearest : nearestMagnitude d.toFraction = nearestMagnitude v.toFraction :=
    nearestMagnitude_congr (num_toFraction_pos hcoefficient) (den_toFraction_pos d)
      hnum hden (by rw [Decimal.toRat_toFraction, hrat])
  rw [← hd, magnitudeOfDecimal_eq_nearest hcoefficient (by omega) (by omega), hnearest,
    nearestMagnitude_toFraction h hz]

/-- **The shortest decimal reads back.** -/
theorem readsBack_shortest (h : v.isFinite = true) (hz : v.isZero = false) :
    magnitudeOfDecimal v.shortest = v.magnitude := by
  unfold shortest
  simp only
  split
  · rename_i d hd
    obtain ⟨k, -, hk⟩ := List.exists_of_findSome?_eq_some hd
    have hreads : readsBack v.magnitude d = true := List.find?_some hk
    exact of_decide_eq_true hreads
  · exact readsBack_exactDecimal h hz

end Finite

/-! ## 4. Texts -/

theorem toLower_of_isDigit {c : Char} (h : c.isDigit = true) : c.toLower = c := by
  have hdigit := Char.isDigit_iff_toNat.mp h
  have hval : c.toNat = c.val.toNat := rfl
  unfold Char.toLower
  split
  · rename_i hupper
    simp only [ge_iff_le, UInt32.le_iff_toNat_le] at hupper
    simp at hupper hdigit
    omega
  · rfl

theorem magnitudeOfWord?_of_isDigit {c : Char} {s : List Char} (h : c.isDigit = true) :
    magnitudeOfWord? (c :: s) = none := by
  have hword : ∀ w : Char, w.isDigit = false → c.toLower ≠ w := by
    intro w hw heq
    rw [toLower_of_isDigit h] at heq
    rw [← heq, h] at hw
    cases hw
  unfold magnitudeOfWord?
  split
  · rename_i heq
    exact absurd (List.cons.inj heq).1 (hword 'i' (by decide))
  · rename_i heq
    exact absurd (List.cons.inj heq).1 (hword 'i' (by decide))
  · rename_i heq
    exact absurd (List.cons.inj heq).1 (hword 'n' (by decide))
  · rfl

/-- What is read from a decimal with or without a minus sign. -/
theorem read?_signed {c : Char} {s : List Char} {d : Decimal} (hc : c.isDigit = true)
    (h : Decimal.read? (c :: s) = some d) (negative : Bool) :
    read? (if negative then '-' :: c :: s else c :: s) =
      some (ofMagnitude negative (magnitudeOfDecimal d)) := by
  have hsign : Decimal.readSign (if negative then '-' :: c :: s else c :: s) =
      (negative, c :: s) := by
    cases negative with
    | true => rfl
    | false =>
      have hplus : c ≠ '+' := by
        intro heq
        rw [heq] at hc
        cases hc
      have hminus : c ≠ '-' := by
        intro heq
        rw [heq] at hc
        cases hc
      simp [Decimal.readSign, hplus, hminus]
  rw [read?, hsign]
  simp only [magnitudeOfWord?_of_isDigit hc, h, Option.map_some]

/-- What is read from a notation of a decimal, without an exponent or with one that is written out,
and with or without a minus sign. -/
theorem read?_signed_of_isNotation {d : Decimal} {text tail : List Char} {x : Int}
    {style : ExponentStyle} (h : d.IsNotation text tail x)
    (htail : tail = [] ∧ x = 0 ∨ tail = style.text x ∧ x.natAbs < 65536) (negative : Bool) :
    read? (if negative then '-' :: text else text) =
      some (ofMagnitude negative (magnitudeOfDecimal d)) := by
  obtain ⟨e, hread, hrat⟩ : ∃ e, Decimal.read? text = some e ∧ e.toRat = d.toRat := by
    refine Decimal.read?_of_isNotation h ?_ ?_
    · rcases htail with ⟨rfl, -⟩ | ⟨rfl, -⟩
      · simp
      · simp [ExponentStyle.text]
    · rcases htail with ⟨rfl, rfl⟩ | ⟨rfl, hx⟩
      · rfl
      · exact Decimal.readExponent?_text style hx
  obtain ⟨whole, fraction, rfl, hwhole, -, -⟩ := h
  obtain ⟨c, s, hcons, hc⟩ := hwhole.exists_joinPoint_eq_cons fraction tail
  rw [hcons] at hread ⊢
  rw [read?_signed hc hread, magnitudeOfDecimal_congr hrat]

/-- The text of a value without its sign. -/
def unsignedChars (v : Value) : List Char :=
  if v.isZero then ['0', '.', '0']
  else if -5 ≤ v.shortest.exponent ∧ v.shortest.exponent < 16 then v.shortest.pointText
  else v.shortest.exponentText jsonExponent

theorem jsonChars_eq {v : Value} (h : v.isFinite = true) :
    v.jsonChars = if v.isNegative then '-' :: v.unsignedChars else v.unsignedChars := by
  simp only [jsonChars, h, Bool.not_true, Bool.false_eq_true, if_false]
  rfl

/-- The text without the sign is a notation of a decimal that reads back. -/
theorem exists_isNotation {v : Value} (h : v.isFinite = true) :
    ∃ (d : Decimal) (tail : List Char) (x : Int), d.IsNotation v.unsignedChars tail x ∧
      magnitudeOfDecimal d = v.magnitude ∧
        (tail = [] ∧ x = 0 ∨ tail = jsonExponent.text x ∧ x.natAbs < 65536) := by
  cases hz : v.isZero with
  | true =>
    have hmagnitude : v.magnitude = 0 := of_decide_eq_true hz
    refine ⟨⟨0, -1⟩, [], 0, ⟨['0'], ['0'], ?_, ⟨isDigit_of_mem_zero, by decide, .inl rfl⟩,
      isDigit_of_mem_zero, ?_⟩, hmagnitude.symm ▸ rfl, .inl ⟨rfl, rfl⟩⟩
    · rw [unsignedChars, hz]
      rfl
    · rfl
  | false =>
    have hback := readsBack_shortest h hz
    obtain ⟨hcoefficient, hbelow, habove⟩ := bounds_of_reads h hz hback
    rw [unsignedChars, hz, if_neg Bool.false_ne_true]
    split
    · exact ⟨_, _, _, Decimal.isNotation_pointText hcoefficient, hback, .inl ⟨rfl, rfl⟩⟩
    · exact ⟨_, _, _, Decimal.isNotation_exponentText jsonExponent hcoefficient, hback,
        .inr ⟨rfl, by omega⟩⟩

/-- **The JSON text of a finite value reads back**, bit for bit. -/
theorem read?_jsonChars {v : Value} (h : v.isFinite = true) : read? v.jsonChars = some v := by
  obtain ⟨d, tail, x, hnotation, hmagnitude, htail⟩ := exists_isNotation h
  rw [jsonChars_eq h, read?_signed_of_isNotation hnotation htail, hmagnitude,
    ofMagnitude_magnitude]

end Value
end BytecodeTrace
