/-
# The shortest decimal is the shortest

The numbers that are nearest to one value are those of an interval around it.  So if any decimal
with `n` digits is read as the value, then one of its two neighbours on the grid of `n` digits is,
since there is a grid point between the decimal and the value.  The search for the shortest decimal
tries the neighbours on finer and finer grids, so it finds one as soon as there is any.

* `magnitudeOfDecimal_of_mem_uIcc`: what lies between a value and a decimal that is read as it is
  read as it too;
* `exists_neighbours`: the two neighbours, the nearer one first, one of them between the value and
  any other decimal with as many digits;
* `readsBack_seventeen`: with seventeen digits the nearer neighbour is always read as the value, so
  that the search never fails;
* `isShortest_shortest`: of the decimals that are read as a value, the shortest one has the fewest
  significant digits, and it is the nearest with as few.
-/
import BytecodeTrace.Proofs.Value.Nearest
import Mathlib.Algebra.Order.Group.Pointwise.Interval

namespace BytecodeTrace

/-! ## 1. Neighbours on a grid -/

/-- A decimal with `n + 1` digits at most is a multiple of the unit of a grid, or at most as great
as the least number that has `n + 1` digits there. -/
theorem Decimal.toRat_cases {d : Decimal} {n : Nat} (hd : d.coefficient < 10 ^ (n + 1)) (p : Int) :
    (∃ m : Nat, d.toRat = m * (10 : ℚ) ^ p) ∨ d.toRat ≤ 10 ^ n * (10 : ℚ) ^ p := by
  rcases Int.lt_or_le d.power p with hlt | hle
  · right
    have hcoefficient : (d.coefficient : ℚ) ≤ 10 ^ (n + 1) := by exact_mod_cast hd.le
    calc d.toRat ≤ 10 ^ (n + 1) * (10 : ℚ) ^ (p - 1) :=
          mul_le_mul hcoefficient (zpow_le_zpow_right₀ (by norm_num) (by omega))
            (zpow_pos (by norm_num) _).le (by positivity)
      _ = 10 ^ n * (10 : ℚ) ^ p := by
        rw [zpow_sub_one₀ (by norm_num)]
        ring
  · left
    obtain ⟨k, hk⟩ := Int.eq_ofNat_of_zero_le (Int.sub_nonneg_of_le hle)
    have hpower : d.power - k = p := by omega
    refine ⟨d.coefficient * 10 ^ k, ?_⟩
    rw [← hpower]
    exact (Decimal.toRat_mul_pow d.coefficient k d.power).symm

/-- Two decimals in a row are a unit apart. -/
theorem Decimal.abs_sub_succ (q : Nat) (p : Int) :
    |toRat ⟨q, p⟩ - toRat ⟨q + 1, p⟩| = (10 : ℚ) ^ p := by
  have hunit : (0 : ℚ) < 10 ^ p := zpow_pos (by norm_num) _
  rw [toRat, toRat, ← sub_mul, abs_mul, abs_of_pos hunit]
  norm_num

namespace Value

section Neighbours

variable {x : Fraction} (hnum : 0 < x.num) (hden : 0 < x.den) (n : Nat)
include hnum hden

/-- The neighbours are the multiples of the unit below and above the number. -/
theorem neighbours_cases :
    ∃ (q : Nat) (p : Int), 10 ^ n ≤ q ∧ q < 10 ^ (n + 1) ∧ p = Int.log 10 x.toRat - n ∧
      (q : ℚ) * 10 ^ p ≤ x.toRat ∧ x.toRat < (q + 1) * 10 ^ p ∧
      (neighbours x (n + 1) = [⟨q, p⟩, ⟨q + 1, p⟩] ∨
        neighbours x (n + 1) = [⟨q + 1, p⟩, ⟨q, p⟩]) := by
  obtain ⟨hlow, hhigh⟩ := Fraction.toRat_scale_log hnum hden n
  have hmul := Fraction.toRat_scale_mul_unit (x := x) n
  have hneg : -(Int.log 10 x.toRat - n) = n - Int.log 10 x.toRat := Int.neg_sub ..
  have hdenpos := Fraction.den_scale_pos hden (by decide : 0 < 10) (n - Int.log 10 x.toRat)
  have hdecimal := Fraction.toDecimal_eq hnum hden n
  generalize hy : x.scale 10 (n - Int.log 10 x.toRat) = y at hlow hhigh hmul hdenpos hdecimal
  generalize hp : Int.log 10 x.toRat - n = p at hmul hneg hdecimal
  have hunit : (0 : ℚ) < 10 ^ p := zpow_pos (by norm_num) _
  have hfloor : ⌊y.toRat⌋₊ = y.num / y.den := Nat.floor_div_eq_div ..
  have hypos : 0 ≤ y.toRat := le_trans (by positivity) hlow
  rw [← hmul]
  refine ⟨⌊y.toRat⌋₊, p, Nat.le_floor (by exact_mod_cast hlow), ?_, rfl, ?_, ?_, ?_⟩
  · exact (Nat.floor_lt hypos).mpr (by exact_mod_cast hhigh)
  · exact mul_le_mul_of_nonneg_right (Nat.floor_le hypos) hunit.le
  · exact mul_lt_mul_of_pos_right (Nat.lt_floor_add_one _) hunit
  · simp only [neighbours, hdecimal, hneg, hy]
    have hwhole : y.num / y.den * y.den ≤ y.num := Nat.div_mul_le_self ..
    have hnext : ¬(y.num / y.den + 1) * y.den ≤ y.num := by
      rw [Nat.not_le]
      exact (Nat.div_lt_iff_lt_mul hdenpos).mp (Nat.lt_succ_self _)
    rcases y.round_eq_or with hround | hround
    · left
      rw [hround, hfloor, if_pos hwhole]
    · right
      rw [hround, hfloor, if_neg hnext, Nat.add_sub_cancel]

/-- The coefficients of the neighbours have as many digits as the grid, or are the next power of
ten. -/
theorem coefficient_of_mem_neighbours {d : Decimal} (hd : d ∈ neighbours x (n + 1)) :
    0 < d.coefficient ∧ d.coefficient ≤ 10 ^ (n + 1) := by
  obtain ⟨q, p, hlow, hhigh, -, -, -, hneighbours⟩ := neighbours_cases hnum hden n
  have hpos : 0 < 10 ^ n := Nat.pow_pos (by decide)
  have hcases : d = ⟨q, p⟩ ∨ d = ⟨q + 1, p⟩ := by
    rcases hneighbours with heq | heq
    · rw [heq] at hd
      simpa using hd
    · rw [heq] at hd
      simpa [or_comm] using hd
  rcases hcases with rfl | rfl
  · exact ⟨Nat.lt_of_lt_of_le hpos hlow, hhigh.le⟩
  · exact ⟨Nat.succ_pos q, hhigh⟩

/-- The nearer neighbour is the first. -/
theorem pairwise_neighbours :
    (neighbours x (n + 1)).Pairwise fun d e => |x.toRat - d.toRat| ≤ |x.toRat - e.toRat| := by
  have hnear := Fraction.abs_sub_toDecimal_le hnum hden n
  obtain ⟨q, p, -, -, rfl, -, -, hneighbours⟩ := neighbours_cases hnum hden n
  have hfirst : (neighbours x (n + 1)).head? = some (x.toDecimal (n + 1)) := rfl
  -- the first one is half a unit away at most, and the other one is a unit away from it
  have hpair (d e : Decimal) (heq : neighbours x (n + 1) = [d, e])
      (hunits : |d.toRat - e.toRat| = 10 ^ (Int.log 10 x.toRat - n)) :
      (neighbours x (n + 1)).Pairwise fun d e => |x.toRat - d.toRat| ≤ |x.toRat - e.toRat| := by
    rw [heq] at hfirst ⊢
    rw [← Option.some.inj hfirst, abs_sub_comm] at hnear
    have htriangle := abs_sub_le d.toRat x.toRat e.toRat
    rw [List.pairwise_pair, abs_sub_comm x.toRat d.toRat]
    linarith
  have hunits := Decimal.abs_sub_succ q (Int.log 10 x.toRat - n)
  rcases hneighbours with heq | heq
  · exact hpair _ _ heq hunits
  · exact hpair _ _ heq ((abs_sub_comm _ _).trans hunits)

/-- **Between the number and a decimal with as many digits there is a neighbour.** -/
theorem exists_mem_neighbours {d : Decimal} (hd : d.coefficient < 10 ^ (n + 1)) :
    ∃ g ∈ neighbours x (n + 1), g.toRat ∈ Set.uIcc d.toRat x.toRat := by
  obtain ⟨q, p, hlow, -, -, hle, hlt, hneighbours⟩ := neighbours_cases hnum hden n
  have hunit : (0 : ℚ) < 10 ^ p := zpow_pos (by norm_num) _
  have hmem : (⟨q, p⟩ : Decimal) ∈ neighbours x (n + 1) ∧
      (⟨q + 1, p⟩ : Decimal) ∈ neighbours x (n + 1) := by
    rcases hneighbours with heq | heq
    · simp [heq]
    · simp [heq]
  have hsmall : (10 : ℚ) ^ n * 10 ^ p ≤ q * 10 ^ p :=
    mul_le_mul_of_nonneg_right (by exact_mod_cast hlow) hunit.le
  rcases le_or_gt d.toRat x.toRat with hbelow | habove
  · refine ⟨_, hmem.1, Set.mem_uIcc.mpr (.inl ⟨?_, hle⟩)⟩
    rcases Decimal.toRat_cases hd p with ⟨m, hm⟩ | hleast
    · rw [hm] at hbelow ⊢
      have hlt : (m : ℚ) < q + 1 := lt_of_mul_lt_mul_right (lt_of_le_of_lt hbelow hlt) hunit.le
      have hlt : m < q + 1 := by exact_mod_cast hlt
      exact mul_le_mul_of_nonneg_right (by exact_mod_cast Nat.le_of_lt_succ hlt) hunit.le
    · exact hleast.trans hsmall
  · refine ⟨_, hmem.2, Set.mem_uIcc.mpr (.inr ⟨?_, ?_⟩)⟩
    · rw [Decimal.toRat]
      push_cast
      exact hlt.le
    rcases Decimal.toRat_cases hd p with ⟨m, hm⟩ | hleast
    · rw [hm] at habove ⊢
      have hlt : (q : ℚ) < m := lt_of_mul_lt_mul_right (lt_of_le_of_lt hle habove) hunit.le
      have hlt : q < m := by exact_mod_cast hlt
      exact mul_le_mul_of_nonneg_right (by exact_mod_cast Nat.succ_le_of_lt hlt) hunit.le
    · exact absurd (habove.trans_le (hleast.trans hsmall)) (not_lt.mpr hle)

end Neighbours

/-! ## 2. What a search finds -/

/-- What is found in a list comes before everything else that could have been found. -/
theorem eq_or_of_find?_eq_some {α : Type} {R : α → α → Prop} {p : α → Bool} {xs : List α} {a b : α}
    (hsorted : xs.Pairwise R) (hfind : xs.find? p = some a) (hb : b ∈ xs) (hp : p b = true) :
    b = a ∨ R a b := by
  obtain ⟨-, before, after, rfl, hbefore⟩ := List.find?_eq_some_iff_append.mp hfind
  rw [List.pairwise_append, List.pairwise_cons] at hsorted
  rcases List.mem_append.mp hb with hmem | hmem
  · have hnot := hbefore b hmem
    rw [hp] at hnot
    cases hnot
  · exact (List.mem_cons.mp hmem).imp_right (hsorted.2.1.1 b)

/-- What is found for one of the first numbers is found for the least of those that have any. -/
theorem exists_of_findSome?_range {α : Type} {f : Nat → Option α} {n : Nat} {a : α}
    (hfind : (List.range n).findSome? f = some a) :
    ∃ k < n, f k = some a ∧ ∀ j < k, f j = none := by
  obtain ⟨before, k, after, hsplit, hk, hnone⟩ := List.findSome?_eq_some_iff.mp hfind
  have hsorted : (List.range n).Pairwise (· < ·) := List.pairwise_lt_range
  have hmem : k ∈ List.range n := by
    rw [hsplit]
    exact List.mem_append_right _ List.mem_cons_self
  have hlt := List.mem_range.mp hmem
  rw [hsplit, List.pairwise_append, List.pairwise_cons] at hsorted
  refine ⟨k, hlt, hk, fun j hj => ?_⟩
  have hjmem : j ∈ before ++ k :: after := by
    rw [← hsplit]
    exact List.mem_range.mpr (hj.trans hlt)
  rcases List.mem_append.mp hjmem with hbefore | hrest
  · exact hnone j hbefore
  · rcases List.mem_cons.mp hrest with rfl | hafter
    · exact absurd hj (Nat.lt_irrefl _)
    · exact absurd (hsorted.2.1.1 j hafter) (Nat.lt_asymm hj)

/-! ## 3. Decimals that are read as one value -/

/-- A decimal between two numbers that have one nearest magnitude is read as that. -/
theorem magnitudeOfDecimal_of_le_of_le {a b : Fraction} {g : Decimal} {m : Nat}
    (hanum : 0 < a.num) (haden : 0 < a.den) (hbnum : 0 < b.num) (hbden : 0 < b.den)
    (ha : nearestMagnitude a = m) (hb : nearestMagnitude b = m)
    (hlow : -330 ≤ Int.log 10 a.toRat) (hhigh : Int.log 10 b.toRat < 310)
    (hle : a.toRat ≤ g.toRat) (hge : g.toRat ≤ b.toRat) : magnitudeOfDecimal g = m := by
  have hapos := Fraction.toRat_pos hanum haden
  have hgpos := lt_of_lt_of_le hapos hle
  have hpos := Decimal.coefficient_pos_of_toRat_pos hgpos
  have hexponent := Decimal.exponent_eq_log hpos
  have hlogle := Int.log_mono_right (b := 10) hapos hle
  have hlogge := Int.log_mono_right (b := 10) hgpos hge
  have hgnum := num_toFraction_pos hpos
  have hgden := den_toFraction_pos g
  rw [magnitudeOfDecimal_eq_nearest hpos (by omega) (by omega)]
  rw [← Decimal.toRat_toFraction] at hle hge
  refine Nat.le_antisymm ?_ ?_
  · rw [← hb]
    exact nearestMagnitude_mono hgnum hgden hbnum hbden hge
  · rw [← ha]
    exact nearestMagnitude_mono hanum haden hgnum hgden hle

section Finite

variable {v : Value} (h : v.isFinite = true) (hz : v.isZero = false)
include h hz

/-- **What lies between the value and a decimal that is read as it** is read as it too. -/
theorem magnitudeOfDecimal_of_mem_uIcc {d g : Decimal} (hd : magnitudeOfDecimal d = v.magnitude)
    (hg : g.toRat ∈ Set.uIcc d.toRat v.toFraction.toRat) :
    magnitudeOfDecimal g = v.magnitude := by
  obtain ⟨hpos, hlow, hhigh⟩ := bounds_of_reads h hz hd
  obtain ⟨hlow', hhigh'⟩ := log_bounds h hz
  obtain ⟨hnum, hden⟩ := toFraction_pos h hz
  have hnearest := nearestMagnitude_toFraction h hz
  have hdnum := num_toFraction_pos hpos
  have hdden := den_toFraction_pos d
  rw [magnitudeOfDecimal_eq_nearest hpos hlow hhigh] at hd
  rw [Decimal.exponent_eq_log hpos, ← Decimal.toRat_toFraction] at hlow hhigh
  rw [← Decimal.toRat_toFraction d] at hg
  rcases Set.mem_uIcc.mp hg with ⟨hle, hge⟩ | ⟨hle, hge⟩
  · exact magnitudeOfDecimal_of_le_of_le hdnum hdden hnum hden hd hnearest hlow (by omega) hle hge
  · exact magnitudeOfDecimal_of_le_of_le hnum hden hdnum hdden hnearest hd (by omega) hhigh hle hge

/-- **With seventeen digits the rounding of a value is read as the value,** since it moves the value
by less than a part in `2 ^ 54`. -/
theorem readsBack_seventeen :
    magnitudeOfDecimal (v.toFraction.toDecimal mostDigits) = v.magnitude := by
  obtain ⟨hnum, hden⟩ := toFraction_pos h hz
  obtain ⟨hlow, hhigh⟩ := log_bounds h hz
  have hpos : 0 < (v.toFraction.toDecimal mostDigits).coefficient :=
    Fraction.coefficient_toDecimal_pos hnum hden 16
  have hexponent : (v.toFraction.toDecimal mostDigits).exponent = Int.log 10 v.toFraction.toRat ∨
      (v.toFraction.toDecimal mostDigits).exponent = Int.log 10 v.toFraction.toRat + 1 :=
    (Fraction.exponent_toDecimal hnum hden 16).imp And.right And.right
  have hnear : |v.toFraction.toRat - (v.toFraction.toDecimal mostDigits).toRat| ≤
      (10 : ℚ) ^ (Int.log 10 v.toFraction.toRat - 16) / 2 :=
    Fraction.abs_sub_toDecimal_le hnum hden 16
  have hlead : (10 : ℚ) ^ Int.log 10 v.toFraction.toRat ≤ v.toFraction.toRat :=
    Int.zpow_log_le_self (by decide) (Fraction.toRat_pos hnum hden)
  have hunit : (10 : ℚ) ^ (Int.log 10 v.toFraction.toRat - 16) =
      10 ^ Int.log 10 v.toFraction.toRat / 10 ^ 16 := zpow_sub₀ (by norm_num) _ _
  rw [magnitudeOfDecimal_eq_nearest hpos (by omega) (by omega)]
  refine nearestMagnitude_of_near (num_toFraction_pos hpos) (den_toFraction_pos _) h ?_
  rw [Decimal.toRat_toFraction, abs_sub_comm]
  have hxpos := Fraction.toRat_pos hnum hden
  linarith

/-! ## 4. The shortest decimal -/

/-- If a decimal with so many digits is read as the value, a neighbour between the two is. -/
theorem exists_neighbour_of_reads {d : Decimal} {n : Nat}
    (hd : magnitudeOfDecimal d = v.magnitude) (hlength : d.significantDigits.length ≤ n + 1) :
    ∃ g ∈ neighbours v.toFraction (n + 1), readsBack v.magnitude g = true ∧
      |v.toFraction.toRat - g.toRat| ≤ |v.toFraction.toRat - d.toRat| := by
  obtain ⟨hnum, hden⟩ := toFraction_pos h hz
  have hdigits : d.trimmed.coefficient < 10 ^ (n + 1) :=
    Nat.lt_of_lt_of_le d.coefficient_trimmed_lt (Nat.pow_le_pow_right (by decide) hlength)
  obtain ⟨g, hmem, hbetween⟩ := exists_mem_neighbours hnum hden n hdigits
  rw [Decimal.toRat_trimmed] at hbetween
  refine ⟨g, hmem, decide_eq_true (magnitudeOfDecimal_of_mem_uIcc h hz hd hbetween), ?_⟩
  rw [abs_sub_comm _ d.toRat, abs_sub_comm d.toRat]
  exact Set.abs_sub_right_of_mem_uIcc hbetween

/-- **The search ends on the first grid where a neighbour is read as the value.** -/
theorem exists_grid :
    ∃ n < mostDigits,
      (neighbours v.toFraction (n + 1)).find? (readsBack v.magnitude) = some v.shortest ∧
      ∀ m < n, (neighbours v.toFraction (m + 1)).find? (readsBack v.magnitude) = none := by
  unfold shortest
  simp only
  split
  · rename_i d hfind
    exact exists_of_findSome?_range hfind
  · rename_i hfind
    have hlast := List.findSome?_eq_none_iff.mp hfind 16 (List.mem_range.mpr (by decide))
    have hreads : readsBack v.magnitude (v.toFraction.toDecimal mostDigits) = true :=
      decide_eq_true (readsBack_seventeen h hz)
    exact absurd hreads (List.find?_eq_none.mp hlast _ List.mem_cons_self)

end Finite

/-- The decimal is read as the value, no decimal with fewer significant digits is, and none with as
few is nearer to the value. -/
structure IsShortest (v : Value) (d : Decimal) : Prop where
  magnitude_eq : magnitudeOfDecimal d = v.magnitude
  length_le_mostDigits : d.significantDigits.length ≤ mostDigits
  length_le : ∀ e, magnitudeOfDecimal e = v.magnitude →
    d.significantDigits.length ≤ e.significantDigits.length
  near_le : ∀ e, magnitudeOfDecimal e = v.magnitude →
    e.significantDigits.length ≤ d.significantDigits.length →
      |v.toFraction.toRat - d.toRat| ≤ |v.toFraction.toRat - e.toRat|

/-- **The shortest decimal of a value is the shortest one that is read as it.** -/
theorem isShortest_shortest {v : Value} (h : v.isFinite = true) (hz : v.isZero = false) :
    v.IsShortest v.shortest := by
  obtain ⟨hnum, hden⟩ := toFraction_pos h hz
  obtain ⟨n, hn, hfind, hbefore⟩ := exists_grid h hz
  obtain ⟨hpos, hdigits⟩ :=
    coefficient_of_mem_neighbours hnum hden n (List.mem_of_find?_eq_some hfind)
  have hlength := Decimal.length_significantDigits_le hpos hdigits
  refine ⟨readsBack_shortest h hz, Nat.le_trans hlength hn, fun e he => ?_, fun e he hle => ?_⟩
  · refine hlength.trans (Nat.not_lt.mp fun hshort => ?_)
    -- the search would have ended on the grid of the shorter decimal
    obtain ⟨m, hm⟩ : ∃ m, e.significantDigits.length = m + 1 :=
      Nat.exists_eq_succ_of_ne_zero (Nat.ne_of_gt (List.length_pos_iff.mpr
        (Decimal.significantDigits_ne_nil (bounds_of_reads h hz he).1)))
    obtain ⟨g, hmem, hreads, -⟩ := exists_neighbour_of_reads h hz he hm.le
    exact List.find?_eq_none.mp (hbefore m (by omega)) g hmem hreads
  · obtain ⟨g, hmem, hreads, hnear⟩ := exists_neighbour_of_reads h hz he (hle.trans hlength)
    rcases eq_or_of_find?_eq_some (pairwise_neighbours hnum hden n) hfind hmem hreads with
      rfl | hnearer
    · exact hnear
    · exact hnearer.trans hnear

end Value
end BytecodeTrace
