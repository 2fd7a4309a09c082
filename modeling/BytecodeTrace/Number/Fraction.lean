/-
# Fractions, and rounding them

Every number text in this library comes from exact arithmetic on natural numbers.  A finite
value is a fraction, and a text of it is a rounding of that fraction times a power of ten.

* `roundDiv`: a quotient rounded to the nearest natural number, ties to even;
* `Fraction.scale`: a fraction times any integer power of a base;
* `Fraction.leadingExponent`: the exponent of the leading digit, exactly;
* `decimalLength`: the number of decimal digits.

The main facts are `roundDiv_near` (the rounding is within half a unit), `roundDiv_tie_even` (a
tie goes to the even neighbour) and `decimalLength_le_iff` (the count is the least that suffices).
-/
-- A power of a natural number is the core library's, also in a module that imports the powers of
-- a monoid: so the definitions and the theorems about them are written with one power.
attribute [default_instance 20000, instance (20000)] instPowNat

namespace BytecodeTrace

/-! ## 1. Rounding a quotient -/

/-- The natural number nearest to `num / den`; a tie goes to the even neighbour. -/
def roundDiv (num den : Nat) : Nat :=
  let q := num / den
  let r := num % den
  if 2 * r < den then q
  else if den < 2 * r then q + 1
  else if q % 2 = 0 then q else q + 1

/-- The rounded quotient is within half a unit of the exact one. -/
theorem roundDiv_near (num den : Nat) (h : 0 < den) :
    2 * (den * roundDiv num den) ≤ 2 * num + den ∧
      2 * num ≤ 2 * (den * roundDiv num den) + den := by
  have e : den * (num / den) + num % den = num := Nat.div_add_mod num den
  have l : num % den < den := Nat.mod_lt _ h
  have s : den * (num / den + 1) = den * (num / den) + den := by rw [Nat.mul_add, Nat.mul_one]
  simp only [roundDiv]
  split
  · omega
  · split
    · omega
    · split <;> omega

/-- On an exact tie the result is even. -/
theorem roundDiv_tie_even (num den : Nat) (h : 2 * (num % den) = den) :
    roundDiv num den % 2 = 0 := by
  simp only [roundDiv]
  split
  · omega
  · split
    · omega
    · split <;> omega

/-- A whole quotient is kept. -/
theorem roundDiv_mul (q den : Nat) (h : 0 < den) : roundDiv (q * den) den = q := by
  simp [roundDiv, h]

/-! ## 2. Fractions -/

/-- The non-negative fraction `num / den`. -/
structure Fraction where
  num : Nat
  den : Nat
deriving DecidableEq, Repr

namespace Fraction

/-- The fraction of a natural number. -/
def ofNat (n : Nat) : Fraction := ⟨n, 1⟩

/-- The nearest natural number; ties to even. -/
def round (x : Fraction) : Nat := roundDiv x.num x.den

/-- `x · bᵏ`.  One of the two powers is always `b ^ 0`. -/
def scale (x : Fraction) (b : Nat) (k : Int) : Fraction :=
  ⟨x.num * b ^ k.toNat, x.den * b ^ (-k).toNat⟩

/-- The exponent of the leading digit of a positive fraction, in the base whose digit count is
`length`.  At or above one it is the digit count of the whole part, less one.  Below one it is
minus the least power that lifts the fraction to one or more: that is the digit count of the
largest whole number below `den / num`. -/
def leadingExponent (length : Nat → Nat) (x : Fraction) : Int :=
  if x.den ≤ x.num then (length (x.num / x.den) : Int) - 1
  else -(length ((x.den - 1) / x.num) : Int)

end Fraction

/-! ## 3. Digit counts -/

/-- The number of binary digits. -/
def binaryLength (n : Nat) : Nat := n.log2 + 1

/-- The least `k`, from a start on, with `n < 10ᵏ`; at most `fuel` steps away. -/
def decimalLengthFrom (n : Nat) : Nat → Nat → Nat
  | 0, k => k
  | fuel + 1, k => if n < 10 ^ k then k else decimalLengthFrom n fuel (k + 1)

/-- The exponent of a power of ten that is at most `2 ^ bits`; it is a near one, because
`2 ^ 196` is little more than `10 ^ 59`. -/
def decimalExponent (bits : Nat) : Nat := bits * 59 / 196

/-- The number of decimal digits.  The search starts just below it, at what the binary length
tells. -/
def decimalLength (n : Nat) : Nat :=
  decimalLengthFrom n (n.log2 + 1) (decimalExponent n.log2 + 1)

/-- The search starts at a number of digits that is not more than needed. -/
theorem ten_pow_decimalExponent_le (bits : Nat) : 10 ^ decimalExponent bits ≤ 2 ^ bits := by
  have h : (10 ^ decimalExponent bits) ^ 196 ≤ (2 ^ bits) ^ 196 :=
    calc (10 ^ decimalExponent bits) ^ 196
        = 10 ^ (decimalExponent bits * 196) := (Nat.pow_mul ..).symm
      _ ≤ 10 ^ (59 * bits) :=
          Nat.pow_le_pow_right (by decide) (by simp only [decimalExponent]; omega)
      _ = (10 ^ 59) ^ bits := Nat.pow_mul ..
      _ ≤ (2 ^ 196) ^ bits := Nat.pow_le_pow_left (by decide) bits
      _ = (2 ^ bits) ^ 196 := by rw [← Nat.pow_mul, ← Nat.pow_mul, Nat.mul_comm]
  exact (Nat.pow_le_pow_iff_left (by decide)).mp h

/-- The search goes upwards. -/
theorem le_decimalLengthFrom (n fuel k : Nat) : k ≤ decimalLengthFrom n fuel k := by
  induction fuel generalizing k with
  | zero => exact Nat.le_refl k
  | succ fuel ih =>
    unfold decimalLengthFrom
    split
    · exact Nat.le_refl k
    · exact Nat.le_of_succ_le (ih (k + 1))

/-- The search ends where there are digits enough, if it has the steps to get there. -/
theorem lt_ten_pow_decimalLengthFrom {n fuel k : Nat} (h : n < 10 ^ (k + fuel)) :
    n < 10 ^ decimalLengthFrom n fuel k := by
  induction fuel generalizing k with
  | zero => exact h
  | succ fuel ih =>
    unfold decimalLengthFrom
    split
    · assumption
    · exact ih (by rwa [Nat.add_right_comm, Nat.add_assoc])

/-- The search passes over nothing that suffices. -/
theorem ten_pow_le_of_lt_decimalLengthFrom {n fuel k j : Nat} (hk : k ≤ j)
    (hj : j < decimalLengthFrom n fuel k) : 10 ^ j ≤ n := by
  induction fuel generalizing k with
  | zero => exact absurd hj (Nat.not_lt.mpr hk)
  | succ fuel ih =>
    unfold decimalLengthFrom at hj
    split at hj
    · exact absurd hj (Nat.not_lt.mpr hk)
    · rename_i h
      by_cases e : k = j
      · exact e ▸ Nat.not_lt.mp h
      · exact ih (by omega) hj

/-- A number has at most `k` decimal digits exactly when it is below `10ᵏ`. -/
theorem decimalLength_le_iff {n k : Nat} (h : 0 < k) : decimalLength n ≤ k ↔ n < 10 ^ k := by
  have enough : n < 10 ^ (decimalExponent n.log2 + 1 + (n.log2 + 1)) :=
    calc n < 2 ^ (n.log2 + 1) := Nat.lt_log2_self
      _ ≤ 10 ^ (n.log2 + 1) := Nat.pow_le_pow_left (by decide) _
      _ ≤ _ := Nat.pow_le_pow_right (by decide) (Nat.le_add_left ..)
  constructor
  · exact fun hk => Nat.lt_of_lt_of_le (lt_ten_pow_decimalLengthFrom enough)
      (Nat.pow_le_pow_right (by decide) hk)
  · refine fun hn => Nat.not_lt.mp fun hk => Nat.not_le.mpr hn ?_
    by_cases hs : decimalExponent n.log2 + 1 ≤ k
    · exact ten_pow_le_of_lt_decimalLengthFrom hs hk
    · by_cases hz : n = 0
      · subst hz
        exact absurd h (by simp [decimalExponent] at hs; omega)
      · calc 10 ^ k ≤ 10 ^ decimalExponent n.log2 := Nat.pow_le_pow_right (by decide) (by omega)
          _ ≤ 2 ^ n.log2 := ten_pow_decimalExponent_le _
          _ ≤ n := Nat.log2_self_le hz

/-- Every number has a digit. -/
theorem decimalLength_pos (n : Nat) : 0 < decimalLength n :=
  Nat.lt_of_lt_of_le (Nat.succ_pos _) (le_decimalLengthFrom ..)

end BytecodeTrace
