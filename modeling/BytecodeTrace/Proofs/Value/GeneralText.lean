/-
# The text of a value is the general format with six digits

What a text of a value has to be is said here without the way in which it is made: the exact value
is rounded to six significant digits, ties to even (`RoundsTo`), and the digits are written
positionally or with an exponent, as the exponent of the rounded number says (`generalText`).

The text of a finite value is made by two roundings, one to six significant digits and one, for the
positional notation, at the places that are left.  `fractionText_eq_generalText` says that both are
the one rounding of the specification, also where it carries into a new digit.

* `exists_roundsTo`, `RoundsTo.unique`: a positive number has one rounding;
* `digitsOf_eq_append`: the digits of a number, cut at a place;
* `placesText_eq_positionalText`, `exponentText_eq_scientificText`: the two notations;
* `text_general`: the text of every value.
-/
import BytecodeTrace.Proofs.Value.TraceText

namespace BytecodeTrace

/-! ## 1. Rounding as a relation -/

/-- A whole number at a distance of at most one half, an even one if it is one half. -/
structure IsNearestEven (r : ℚ) (n : Nat) : Prop where
  near : |r - n| ≤ 1 / 2
  even_of_tie : |r - n| = 1 / 2 → n % 2 = 0

/-- There is one such number. -/
theorem IsNearestEven.unique {r : ℚ} {a b : Nat} (ha : IsNearestEven r a)
    (hb : IsNearestEven r b) : a = b := by
  by_contra hne
  wlog hlt : a < b generalizing a b
  · exact this hb ha (Ne.symm hne) (by omega)
  obtain ⟨-, hup⟩ := abs_le.mp ha.near
  obtain ⟨hlow, -⟩ := abs_le.mp hb.near
  have hsucc : (a : ℚ) + 1 ≤ b := by exact_mod_cast hlt
  have hb_eq : (b : ℚ) = a + 1 := by linarith
  -- the number lies in the middle between both, and one of them is odd
  have hmiddle : r - a = 1 / 2 := by linarith
  have htie : |r - a| = 1 / 2 := by
    rw [hmiddle]
    norm_num
  have htie' : |r - b| = 1 / 2 := by
    rw [hb_eq, ← sub_sub, hmiddle]
    norm_num
  have hnext : b = a + 1 := by exact_mod_cast hb_eq
  have := ha.even_of_tie htie
  have := hb.even_of_tie htie'
  omega

/-- The rounding of a fraction is the nearest whole number. -/
theorem Fraction.isNearestEven_round {x : Fraction} (hden : 0 < x.den) :
    IsNearestEven x.toRat x.round := by
  refine ⟨abs_sub_round_le hden, fun htie => ?_⟩
  have hdenq : (x.den : ℚ) ≠ 0 := by exact_mod_cast Nat.ne_of_gt hden
  have hnum : x.toRat * x.den = x.num := div_mul_cancel₀ _ hdenq
  have htie : 2 * (x.num : ℚ) = 2 * (x.den * x.round) + x.den ∨
      2 * (x.num : ℚ) + x.den = 2 * (x.den * x.round) := by
    rw [← hnum]
    rcases abs_choice (x.toRat - x.round) with habs | habs
    · have habove : x.toRat = x.round + 1 / 2 := by linarith
      left
      rw [habove]
      ring
    · have hbelow : x.toRat = x.round - 1 / 2 := by linarith
      right
      rw [hbelow]
      ring
  have htie : 2 * x.num = 2 * (x.den * x.round) + x.den ∨
      2 * x.num + x.den = 2 * (x.den * x.round) := by exact_mod_cast htie
  refine roundDiv_tie_even x.num x.den ?_
  -- in both cases the remainder is one half of the denominator
  have hsplit : x.den * (x.num / x.den) + x.num % x.den = x.num := Nat.div_add_mod ..
  have hlt : x.num % x.den < x.den := Nat.mod_lt _ hden
  have hround : x.round = x.num / x.den ∨ x.round = x.num / x.den + 1 := by
    rw [round, roundDiv]
    split
    · exact .inl rfl
    · split
      · exact .inr rfl
      · split
        · exact .inl rfl
        · exact .inr rfl
  rcases hround with hround | hround
  · rw [hround] at htie
    omega
  · rw [hround, Nat.mul_add, Nat.mul_one] at htie
    omega

/-- `m · 10 ^ (X - n)`, with `n + 1` digits before the power, is the number rounded to `n + 1`
significant digits: in units of its own last digit it is the nearest whole number.  When that number
is the next power of ten, `X` is the exponent behind the carry. -/
structure RoundsTo (n : Nat) (r : ℚ) (m : Nat) (X : Int) : Prop where
  le : 10 ^ n ≤ m
  lt : m < 10 ^ (n + 1)
  rounds : ∃ (E : Int) (k : Nat), (10 : ℚ) ^ E ≤ r ∧ r < (10 : ℚ) ^ (E + 1) ∧
    IsNearestEven (r * (10 : ℚ) ^ (n - E)) k ∧
    (m : ℚ) * (10 : ℚ) ^ (X - n) = k * (10 : ℚ) ^ (E - n)

/-- Digits and exponent can be told from the number. -/
theorem eq_of_mul_zpow_eq {n m m' : Nat} {X X' : Int} (hle : 10 ^ n ≤ m) (hlt : m < 10 ^ (n + 1))
    (hle' : 10 ^ n ≤ m') (hlt' : m' < 10 ^ (n + 1))
    (h : (m : ℚ) * (10 : ℚ) ^ (X - n) = m' * (10 : ℚ) ^ (X' - n)) : m = m' ∧ X = X' := by
  have hlog : ∀ {a : Nat} {Y : Int}, 10 ^ n ≤ a → a < 10 ^ (n + 1) →
      Int.log 10 ((a : ℚ) * (10 : ℚ) ^ (Y - n)) = Y := by
    intro a Y ha ha'
    have hpos : 0 < a := Nat.lt_of_lt_of_le (Nat.pow_pos (by decide)) ha
    have hlog : Nat.log 10 a = n :=
      (Nat.log_eq_iff (.inr ⟨by decide, Nat.ne_of_gt hpos⟩)).mpr ⟨ha, ha'⟩
    have := log_natCast_mul_zpow (b := 10) (by decide) hpos (Y - n)
    rw [Nat.cast_ofNat, hlog] at this
    omega
  have hX : X = X' := by
    rw [← hlog (Y := X) hle hlt, h, hlog hle' hlt']
  subst hX
  have hunit : (10 : ℚ) ^ (X - n) ≠ 0 := (zpow_pos (by norm_num) _).ne'
  have hcast := mul_right_cancel₀ hunit h
  exact ⟨by exact_mod_cast hcast, rfl⟩

/-- **A number has one rounding.** -/
theorem RoundsTo.unique {n m m' : Nat} {r : ℚ} {X X' : Int} (h : RoundsTo n r m X)
    (h' : RoundsTo n r m' X') : m = m' ∧ X = X' := by
  obtain ⟨E, k, hle, hlt, hnear, heq⟩ := h.rounds
  obtain ⟨E', k', hle', hlt', hnear', heq'⟩ := h'.rounds
  have hE : E = E' := by
    have hlog : Int.log 10 r = E := log_eq_of_zpow_le_of_lt (by decide) hle hlt
    rw [← hlog, log_eq_of_zpow_le_of_lt (by decide) hle' hlt']
  subst hE
  rw [hnear.unique hnear', ← heq'] at heq
  exact eq_of_mul_zpow_eq h.le h.lt h'.le h'.lt heq

/-- **A positive fraction has a rounding**, and it is the decimal that is chosen for it. -/
theorem Fraction.exists_roundsTo {x : Fraction} (hnum : 0 < x.num) (hden : 0 < x.den) (n : Nat) :
    ∃ m, RoundsTo n x.toRat m (x.toDecimal (n + 1)).exponent ∧
      (x.toDecimal (n + 1)).toRat = m * (10 : ℚ) ^ ((x.toDecimal (n + 1)).exponent - n) := by
  obtain ⟨hlo, -⟩ := coefficient_toDecimal_bounds hnum hden n
  have hcoefficient : (x.toDecimal (n + 1)).coefficient =
      (x.scale 10 (n - Int.log 10 x.toRat)).round :=
    congrArg Decimal.coefficient (toDecimal_eq hnum hden n)
  have hpower : (x.toDecimal (n + 1)).power = Int.log 10 x.toRat - n :=
    congrArg Decimal.power (toDecimal_eq hnum hden n)
  have hle : (10 : ℚ) ^ Int.log 10 x.toRat ≤ x.toRat :=
    Int.zpow_log_le_self (by decide) (toRat_pos hnum hden)
  have hlt : x.toRat < (10 : ℚ) ^ (Int.log 10 x.toRat + 1) :=
    Int.lt_zpow_succ_log_self (by decide) _
  have hnear : IsNearestEven (x.toRat * (10 : ℚ) ^ (n - Int.log 10 x.toRat))
      (x.toDecimal (n + 1)).coefficient := by
    have hscaled := toRat_scale x (b := 10) (by decide) (n - Int.log 10 x.toRat)
    rw [Nat.cast_ofNat] at hscaled
    rw [← hscaled, hcoefficient]
    exact isNearestEven_round (den_scale_pos hden (by decide) _)
  have hrat : (x.toDecimal (n + 1)).toRat =
      (x.toDecimal (n + 1)).coefficient * (10 : ℚ) ^ (Int.log 10 x.toRat - n) := by
    rw [Decimal.toRat, hpower]
  rcases exponent_toDecimal hnum hden n with ⟨hdigits, hexponent⟩ | ⟨hcarry, hexponent⟩
  · rw [hexponent]
    exact ⟨_, ⟨hlo, hdigits, _, _, hle, hlt, hnear, rfl⟩, hrat⟩
  · -- a power of ten is a one with zeros in the next higher unit
    have hsame : ((10 ^ n : Nat) : ℚ) * (10 : ℚ) ^ (Int.log 10 x.toRat + 1 - n) =
        (x.toDecimal (n + 1)).coefficient * (10 : ℚ) ^ (Int.log 10 x.toRat - n) := by
      have hstep : Int.log 10 x.toRat + 1 - n = Int.log 10 x.toRat - n + 1 := by omega
      rw [hcarry, hstep, zpow_add_one₀ (by norm_num)]
      push_cast
      ring
    rw [hexponent]
    exact ⟨_, ⟨Nat.le_refl _, Nat.pow_lt_pow_succ (by decide), _, _, hle, hlt, hnear, hsame⟩,
      hrat.trans hsame.symm⟩

/-! ## 2. Digits, cut at a place -/

/-- One more digit behind others, in a field of zeros. -/
theorem leftpad_digitsOf_succ {k c p : Nat} (hp : 0 < p) (hc : c < 10) :
    (digitsOf (10 * k + c)).leftpad (p + 1) '0' =
      (digitsOf k).leftpad p '0' ++ [Nat.digitChar c] := by
  rcases Nat.eq_zero_or_pos k with rfl | hk
  · have hdigit : digitsOf (10 * 0 + c) = [Nat.digitChar c] := by
      rw [Nat.mul_zero, Nat.zero_add]
      exact Nat.toDigits_of_lt_base hc
    obtain ⟨p, rfl⟩ : ∃ q, p = q + 1 := ⟨p - 1, by omega⟩
    have hzero : (digitsOf 0).leftpad (p + 1) '0' = List.replicate (p + 1) '0' := by
      rw [List.replicate_succ']
      rfl
    rw [hdigit, hzero]
    rfl
  · have hstep : digitsOf (10 * k + c) =
        digitsOf ((10 * k + c) / 10) ++ [Nat.digitChar ((10 * k + c) % 10)] :=
      Nat.toDigits_of_base_le (by decide) (by omega)
    have hdiv : (10 * k + c) / 10 = k := by omega
    have hmod : (10 * k + c) % 10 = c := by omega
    rw [hstep, hdiv, hmod, List.leftpad, List.leftpad, List.length_append, List.length_singleton,
      Nat.add_sub_add_right, List.append_assoc]

/-- **The digits of a number, cut at a place**: those of the quotient, and those of the remainder
in as many places. -/
theorem digitsOf_eq_append {n p : Nat} (hp : 0 < p) (h : 10 ^ p ≤ n) :
    digitsOf n = digitsOf (n / 10 ^ p) ++ (digitsOf (n % 10 ^ p)).leftpad p '0' := by
  induction p, hp using Nat.le_induction generalizing n with
  | base =>
    have hdigit : digitsOf (n % 10) = [Nat.digitChar (n % 10)] :=
      Nat.toDigits_of_lt_base (Nat.mod_lt _ (by decide))
    rw [Nat.pow_one, hdigit]
    exact Nat.toDigits_of_base_le (by decide) h
  | succ p hp ih =>
    have hstep : digitsOf n = digitsOf (n / 10) ++ [Nat.digitChar (n % 10)] :=
      Nat.toDigits_of_base_le (by decide)
        (Nat.le_trans (Nat.le_self_pow (Nat.succ_ne_zero p) 10) h)
    have hless : 10 ^ p ≤ n / 10 := by
      rw [Nat.pow_succ] at h
      omega
    have hpow : 10 ^ (p + 1) = 10 * 10 ^ p := Nat.pow_succ'
    have hmod : n % 10 ^ (p + 1) = 10 * (n / 10 % 10 ^ p) + n % 10 := by
      rw [hpow, Nat.mod_mul, Nat.add_comm]
    have hdiv : n / 10 ^ (p + 1) = n / 10 / 10 ^ p := by
      rw [hpow, Nat.div_div_eq_div_mul]
    rw [hstep, ih hless, hmod, hdiv, leftpad_digitsOf_succ hp (Nat.mod_lt _ (by decide)),
      List.append_assoc]

/-- A number of `k` digits. -/
theorem length_digitsOf_eq {n k : Nat} (hle : 10 ^ k ≤ n) (hlt : n < 10 ^ (k + 1)) :
    (digitsOf n).length = k + 1 := by
  have hpos : 0 < n := Nat.lt_of_lt_of_le (Nat.pow_pos (by decide)) hle
  rw [length_digitsOf, decimalLength_eq_log,
    (Nat.log_eq_iff (.inr ⟨by decide, Nat.ne_of_gt hpos⟩)).mpr ⟨hle, hlt⟩]

/-- A first digit that is no zero is not trimmed. -/
theorem trimZeros_cons {c : Char} (hc : c ≠ '0') (ds : List Char) :
    trimZeros (c :: ds) = c :: trimZeros ds := by
  have hkeep : [c].dropWhile (· == '0') = [c] := by simp [hc]
  rw [trimZeros, Text.dropEndWhile, List.reverse_cons, List.dropWhile_append, hkeep]
  split
  · rename_i hempty
    rw [trimZeros, Text.dropEndWhile, List.isEmpty_iff.mp hempty]
    rfl
  · rw [List.reverse_append]
    rfl

/-! ## 3. The general format -/

/-- The positional text of `m · 10 ^ (X - 5)`, where `m` has six digits: zeros in front so that a
digit stands before the point, and no zeros at the end of the fractional part. -/
def positionalText (m : Nat) (X : Int) : List Char :=
  let digits := List.replicate (-X).toNat '0' ++ digitsOf m
  joinPoint (digits.take (X.toNat + 1)) (trimZeros (digits.drop (X.toNat + 1)))

/-- The text of `m · 10 ^ (X - 5)` with one digit before the point, without zeros at the end, and an
exponent that has a sign and at least two digits. -/
def scientificText (m : Nat) (X : Int) : List Char :=
  joinPoint ((digitsOf m).take 1) (trimZeros ((digitsOf m).drop 1)) ++
    'e' :: (if X < 0 then '-' else '+') :: (digitsOf X.natAbs).leftpad 2 '0'

/-- The general format: positional for exponents from -4 to 5. -/
def generalText (m : Nat) (X : Int) : List Char :=
  if -4 ≤ X ∧ X < 6 then positionalText m X else scientificText m X

section Notations

variable {m : Nat} {X : Int} (hle : 10 ^ 5 ≤ m) (hlt : m < 10 ^ 6)
include hle hlt

/-- A rounding at the places behind the point is written positionally. -/
theorem placesText_eq_positionalText {x : Fraction} {places : Nat}
    (hround : (x.scale 10 places).round = m) (hplaces : X + places = 5) :
    x.placesText places = positionalText m X := by
  have hlength : (digitsOf m).length = 6 := length_digitsOf_eq hle hlt
  simp only [Fraction.placesText, positionalText, hround]
  rcases lt_or_ge X 0 with hneg | hpos
  · -- nothing but zeros before the digits
    have hbelow : m < 10 ^ places :=
      Nat.lt_of_lt_of_le hlt (Nat.pow_le_pow_right (by decide) (by omega))
    have hfraction : (digitsOf m).leftpad places '0' =
        List.replicate (-X - 1).toNat '0' ++ digitsOf m := by
      rw [List.leftpad, hlength]
      congr 2
      omega
    have hzeros : (-X).toNat = (-X - 1).toNat + 1 := by omega
    have hfirst : X.toNat + 1 = 1 := by omega
    rw [Nat.div_eq_of_lt hbelow, Nat.mod_eq_of_lt hbelow, if_neg (by omega), hfraction, hzeros,
      List.replicate_succ, hfirst]
    rfl
  · have hzeros : (-X).toNat = 0 := by omega
    rw [hzeros, List.replicate_zero, List.nil_append]
    rcases Nat.eq_zero_or_pos places with hnone | hsome
    · have hall : (digitsOf m).length ≤ X.toNat + 1 := by omega
      rw [List.take_of_length_le hall, List.drop_eq_nil_of_le hall, hnone, if_pos rfl, Nat.pow_zero,
        Nat.div_one]
      rfl
    · have habove : 10 ^ places ≤ m :=
        Nat.le_trans (Nat.pow_le_pow_right (by decide) (by omega)) hle
      have hdigits := digitsOf_eq_append hsome habove
      have hfraction : ((digitsOf (m % 10 ^ places)).leftpad places '0').length = places := by
        have hmod : (digitsOf (m % 10 ^ places)).length ≤ places := by
          rw [length_digitsOf, decimalLength_le_iff hsome]
          exact Nat.mod_lt _ (Nat.pow_pos (by decide))
        rw [List.leftpad, List.length_append, List.length_replicate, Nat.sub_add_cancel hmod]
      have hwhole : (digitsOf (m / 10 ^ places)).length = X.toNat + 1 := by
        rw [hdigits, List.length_append, hfraction] at hlength
        omega
      rw [hdigits, ← hwhole, List.take_left, List.drop_left, if_neg (Nat.ne_of_gt hsome)]

/-- A decimal is written with an exponent as its six digits are. -/
theorem exponentText_eq_scientificText {d : Decimal}
    (hrat : d.toRat = m * (10 : ℚ) ^ (X - 5)) :
    d.exponentText Value.traceExponent = scientificText m X := by
  have hpos : 0 < m := Nat.lt_of_lt_of_le (by decide) hle
  have hsame : Decimal.toRat ⟨m, X - 5⟩ = d.toRat := hrat.symm
  have hexponent : Decimal.exponent ⟨m, X - 5⟩ = X := by
    rw [Decimal.exponent, ← length_digitsOf, length_digitsOf_eq hle hlt]
    show X - 5 + ((5 + 1 : Nat) : Int) - 1 = X
    omega
  obtain ⟨c, ds, hdigits⟩ := List.exists_cons_of_ne_nil (digitsOf_ne_nil m)
  have hfirst : c ≠ '0' := by
    have hhead := head?_digitsOf_ne hpos
    rw [hdigits, List.head?_cons] at hhead
    exact fun hc => hhead (congrArg some hc)
  rw [← Decimal.exponentText_congr Value.traceExponent hpos hsame, Decimal.exponentText, hexponent,
    Decimal.significantDigits, scientificText, hdigits, trimZeros_cons hfirst]
  rfl

end Notations

namespace Value

section Fractions

variable {x : Fraction} (hnum : 0 < x.num) (hden : 0 < x.den)
include hnum hden

/-- **Both roundings are one.**  The text of a fraction is the general format of its rounding to
six significant digits. -/
theorem fractionText_eq_generalText {m : Nat} {X : Int} (h : RoundsTo 5 x.toRat m X) :
    (x.toDecimal traceDigits).toRat = m * (10 : ℚ) ^ (X - 5) ∧
      (x.toDecimal traceDigits).exponent = X ∧ fractionText x = generalText m X := by
  obtain ⟨m', hm', hrat⟩ : ∃ m', RoundsTo 5 x.toRat m' (x.toDecimal traceDigits).exponent ∧
      (x.toDecimal traceDigits).toRat =
        m' * (10 : ℚ) ^ ((x.toDecimal traceDigits).exponent - 5) :=
    Fraction.exists_roundsTo hnum hden 5
  obtain ⟨rfl, hX⟩ := hm'.unique h
  rw [hX] at hrat
  refine ⟨hrat, hX, ?_⟩
  unfold fractionText generalText
  simp only [hX]
  by_cases hpositional : -4 ≤ X ∧ X < 6
  · have hnot : ¬ (X < -4 ∨ (traceDigits : Int) ≤ X) := by
      unfold traceDigits
      omega
    rw [if_pos hpositional, if_neg hnot]
    obtain ⟨places, hplaces⟩ : ∃ places, places = ((traceDigits : Int) - 1 - X).toNat := ⟨_, rfl⟩
    have hplace : X + places = 5 := by
      unfold traceDigits at hplaces
      omega
    have hround := round_scale_tracePlaces hnum hden (hX.symm ▸ hnot)
    rw [hX, ← hplaces, hrat] at hround
    have hpower : X - 5 = -(places : Int) := by omega
    have hten : (10 : ℚ) ^ places ≠ 0 := pow_ne_zero _ (by norm_num)
    rw [hpower, zpow_neg, zpow_natCast, inv_mul_cancel_right₀ hten] at hround
    rw [← hplaces]
    exact placesText_eq_positionalText h.le h.lt (by exact_mod_cast hround) hplace
  · have hexponent : X < -4 ∨ (traceDigits : Int) ≤ X := by
      unfold traceDigits
      omega
    rw [if_neg hpositional, if_pos hexponent]
    exact exponentText_eq_scientificText h.le h.lt hrat

/-- The text is read as the rounded number. -/
theorem read?_generalText {m : Nat} {X : Int} (h : RoundsTo 5 x.toRat m X)
    (hsmall : X.natAbs < 65536) :
    ∃ d, Decimal.read? (generalText m X) = some d ∧ d.toRat = m * (10 : ℚ) ^ (X - 5) := by
  obtain ⟨hrat, hexponent, htext⟩ := fractionText_eq_generalText hnum hden h
  obtain ⟨tail, e, hnotation, htail⟩ :=
    isNotation_fractionText hnum hden (hexponent.symm ▸ hsmall)
  rw [htext] at hnotation
  rw [← hrat]
  rcases htail with ⟨rfl, rfl⟩ | ⟨rfl, he⟩
  · exact Decimal.read?_of_isNotation hnotation nofun rfl
  · refine Decimal.read?_of_isNotation hnotation ?_ (Decimal.readExponent?_text _ he)
    intro c hc
    obtain rfl : c = 'e' := (Option.some.inj hc).symm
    exact ⟨rfl, by decide⟩

end Fractions

/-! ## 4. Every value -/

/-- The text of a finite value other than zero: its sign, and the general format of the one rounding
of its exact value.  What is written is the rounded number, in either notation. -/
structure IsGeneral (v : Value) (m : Nat) (X : Int) : Prop where
  roundsTo : RoundsTo 5 (v.significand * (2 : ℚ) ^ v.scaleExponent) m X
  unique : ∀ m' X', RoundsTo 5 (v.significand * (2 : ℚ) ^ v.scaleExponent) m' X' → m' = m ∧ X' = X
  text_eq : v.text =
    String.ofList (if v.isNegative then '-' :: generalText m X else generalText m X)
  read_eq : ∃ d, Decimal.read? (generalText m X) = some d ∧ d.toRat = m * (10 : ℚ) ^ (X - 5)

theorem exists_isGeneral {v : Value} (h : v.isFinite = true) (hz : v.isZero = false) :
    ∃ m X, IsGeneral v m X := by
  obtain ⟨hnum, hden⟩ := toFraction_pos h hz
  obtain ⟨hlow, hhigh⟩ := exponent_rounded_bounds h hz
  obtain ⟨m, hm, -⟩ : ∃ m, RoundsTo 5 v.toFraction.toRat m
      (v.toFraction.toDecimal traceDigits).exponent ∧ _ :=
    Fraction.exists_roundsTo hnum hden 5
  obtain ⟨-, -, htext⟩ := fractionText_eq_generalText hnum hden hm
  have hread := read?_generalText hnum hden hm (by omega)
  rw [toRat_toFraction] at hm
  refine ⟨m, _, hm, fun m' X' h' => h'.unique hm, ?_, hread⟩
  rw [text, chars_eq_of_isFinite h hz, htext]

/-- **The text of a value is the general format with six significant digits.** -/
theorem text_general (v : Value) :
    (v.isNaN = true → v.text = "nan") ∧
    (v.isInfinite = true → v.text = if v.isNegative then "-inf" else "inf") ∧
    (v.isZero = true → v.text = if v.isNegative then "-0" else "0") ∧
    (v.isFinite = true → v.isZero = false → ∃ m X, IsGeneral v m X) := by
  refine ⟨?_, ?_, ?_, exists_isGeneral⟩
  · intro h
    rw [text, chars, h, if_pos rfl]
  · intro h
    have hnan : v.isNaN = false := by
      rw [isInfinite, decide_eq_true_eq] at h
      exact decide_eq_false (by omega)
    simp only [text, chars, unsignedText, hnan, h, Bool.false_eq_true, if_false, if_true]
    split <;> rfl
  · intro h
    rw [isZero, decide_eq_true_eq] at h
    have hnan : v.isNaN = false := decide_eq_false (by omega)
    have hinfinite : v.isInfinite = false := by
      rw [isInfinite, h]
      rfl
    have hzero : v.isZero = true := decide_eq_true h
    simp only [text, chars, unsignedText, hnan, hinfinite, hzero, Bool.false_eq_true, if_false,
      if_true]
    split <;> rfl

/-- Half a unit below a million the rounding carries, and the notation follows the exponent behind
the carry. -/
theorem text_general_of_carry :
    (⟨0x412e847f00000000⟩ : Value).text = "1e+06" ∧
      ∃ m X, IsGeneral ⟨0x412e847f00000000⟩ m X := by
  obtain ⟨-, -, -, hgeneral⟩ := text_general ⟨0x412e847f00000000⟩
  exact ⟨by decide +kernel, hgeneral (by decide) (by decide)⟩

end Value
end BytecodeTrace
