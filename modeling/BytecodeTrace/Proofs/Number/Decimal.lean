/-
# Reading decimals back

A decimal stands for a rational number.  Its two notations write the significant digits only, and
add zeros where the point asks for them, so what is read from a notation is a decimal of the same
number with another coefficient:

* `trimmed`: the decimal of the significant digits, `toRat_trimmed`;
* `IsNotation`: a text of digits, a point among them and an exponent behind, that stands for the
  number; `isNotation_pointText`, `isNotation_exponentText`;
* `read?_of_isNotation`: reading such a text gives the number back.
-/
import BytecodeTrace.Proofs.Number.Digits
import BytecodeTrace.Proofs.Number.Fraction

namespace BytecodeTrace

/-! ## 1. Digits -/

/-- A zero is a digit. -/
theorem isDigit_of_mem_zero : ∀ c ∈ ['0'], c.isDigit = true := List.forall_mem_singleton.mpr rfl

theorem isDigit_of_mem_leftpad {ds : List Char} (h : ∀ c ∈ ds, c.isDigit = true) (k : Nat) :
    ∀ c ∈ ds.leftpad k '0', c.isDigit = true := by
  intro c hc
  rcases List.mem_append.mp hc with hc | hc
  · rw [List.eq_of_mem_replicate hc]
    rfl
  · exact h c hc

/-- Zeros in front count for nothing. -/
theorem ofDigits_replicate_append (k : Nat) (ds : List Char) :
    ofDigits (List.replicate k '0' ++ ds) = ofDigits ds := by
  rw [ofDigits_append, ofDigits_replicate_zero, Nat.zero_mul, Nat.zero_add]

theorem ofDigits_append_replicate (ds : List Char) (k : Nat) :
    ofDigits (ds ++ List.replicate k '0') = ofDigits ds * 10 ^ k := by
  rw [ofDigits_append, ofDigits_replicate_zero, Nat.add_zero, List.length_replicate]

theorem ofDigits_append_singleton (ds : List Char) (c : Char) :
    ofDigits (ds ++ [c]) = 10 * ofDigits ds + (c.toNat - '0'.toNat) := by
  simp only [ofDigits, List.foldl_append, List.foldl_cons, List.foldl_nil]

/-- A number other than zero is written without a zero in front. -/
theorem head?_digitsOf_ne {n : Nat} (h : 0 < n) : (digitsOf n).head? ≠ some '0' := by
  induction n using Nat.strongRecOn with
  | ind n ih =>
    rcases Nat.lt_or_ge n 10 with hlt | hge
    · rw [digitsOf, Nat.toDigits_of_lt_base hlt]
      have hdigit : ∀ k < 10, 0 < k → [Nat.digitChar k].head? ≠ some '0' := by decide
      exact hdigit n hlt h
    · have hstep : digitsOf n = digitsOf (n / 10) ++ [Nat.digitChar (n % 10)] :=
        Nat.toDigits_of_base_le (by decide) hge
      rw [hstep, List.head?_append_of_ne_nil _ (digitsOf_ne_nil _)]
      exact ih (n / 10) (Nat.div_lt_self h (by decide)) (Nat.div_pos hge (by decide))

/-- Digits that may stand before the point: a zero alone, or digits without a zero in front. -/
structure IsWhole (ds : List Char) : Prop where
  isDigit : ∀ c ∈ ds, c.isDigit = true
  ne_nil : ds ≠ []
  head_ne : ds = ['0'] ∨ ds.head? ≠ some '0'

theorem isWhole_digitsOf (n : Nat) : IsWhole (digitsOf n) := by
  refine ⟨fun _ => isDigit_of_mem_digitsOf, digitsOf_ne_nil n, ?_⟩
  rcases Nat.eq_zero_or_pos n with rfl | hpos
  · exact .inl rfl
  · exact .inr (head?_digitsOf_ne hpos)

/-- Digits with a point among them start with a digit. -/
theorem IsWhole.exists_joinPoint_eq_cons {whole : List Char} (h : IsWhole whole)
    (fraction tail : List Char) :
    ∃ c s, joinPoint whole fraction ++ tail = c :: s ∧ c.isDigit = true := by
  obtain ⟨c, cs, rfl⟩ := List.exists_cons_of_ne_nil h.ne_nil
  have hc : c.isDigit = true := h.isDigit c (List.mem_cons_self ..)
  unfold joinPoint
  split
  · exact ⟨c, _, rfl, hc⟩
  · exact ⟨c, _, rfl, hc⟩

namespace Decimal

/-! ## 2. Decimals as rational numbers -/

/-- The number that a decimal stands for. -/
def toRat (d : Decimal) : ℚ := d.coefficient * (10 : ℚ) ^ d.power

variable {d : Decimal}

theorem toRat_toFraction (d : Decimal) : d.toFraction.toRat = d.toRat := by
  rw [toFraction, Fraction.toRat_scale _ (by decide), Fraction.toRat_ofNat]
  rfl

theorem toRat_pos (h : 0 < d.coefficient) : 0 < d.toRat :=
  mul_pos (by exact_mod_cast h) (zpow_pos (by norm_num) _)

theorem coefficient_pos_of_toRat_pos (h : 0 < d.toRat) : 0 < d.coefficient := by
  rcases Nat.eq_zero_or_pos d.coefficient with hz | hpos
  · rw [toRat, hz, Nat.cast_zero, zero_mul] at h
    exact absurd h (lt_irrefl _)
  · exact hpos

/-- Zeros at the end of the coefficient can be taken into the power. -/
theorem toRat_mul_pow (c k : Nat) (p : Int) :
    toRat ⟨c * 10 ^ k, p - k⟩ = toRat ⟨c, p⟩ := by
  have hsplit : (10 : ℚ) ^ p = (10 : ℚ) ^ k * (10 : ℚ) ^ (p - k) := by
    rw [← zpow_natCast, ← zpow_add₀ (by norm_num)]
    congr 1
    omega
  simp only [toRat]
  rw [hsplit]
  push_cast
  rw [mul_assoc]

/-- **The exponent of the leading digit is the integer logarithm of the number.** -/
theorem exponent_eq_log (h : 0 < d.coefficient) : d.exponent = Int.log 10 d.toRat := by
  have hlog : Int.log 10 d.toRat = Nat.log 10 d.coefficient + d.power :=
    log_natCast_mul_zpow (by decide) h d.power
  rw [hlog, exponent, decimalLength_eq_log]
  omega

/-- The decimal of the significant digits, read as a whole number. -/
def trimmed (d : Decimal) : Decimal :=
  ⟨ofDigits d.significantDigits, d.exponent + 1 - d.significantDigits.length⟩

/-- The coefficient has its significant digits, and zeros behind them. -/
theorem exists_coefficient_eq (d : Decimal) :
    ∃ k, d.coefficient = d.trimmed.coefficient * 10 ^ k ∧
      decimalLength d.coefficient = d.significantDigits.length + k := by
  obtain ⟨k, hk⟩ := exists_eq_trimZeros_append (digitsOf d.coefficient)
  have hds : trimZeros (digitsOf d.coefficient) = d.significantDigits := rfl
  rw [hds] at hk
  refine ⟨k, ?_, ?_⟩
  · rw [trimmed, ← ofDigits_append_replicate, ← hk, ofDigits_digitsOf]
  · rw [← length_digitsOf, hk, List.length_append, List.length_replicate]

theorem toRat_trimmed (d : Decimal) : d.trimmed.toRat = d.toRat := by
  obtain ⟨k, hcoefficient, hlength⟩ := d.exists_coefficient_eq
  have hpower : d.power = d.trimmed.power - k := by
    change _ = d.exponent + 1 - d.significantDigits.length - k
    rw [exponent, hlength]
    omega
  have hd : d = ⟨d.trimmed.coefficient * 10 ^ k, d.trimmed.power - k⟩ := by
    rw [← hcoefficient, ← hpower]
  exact ((congrArg toRat hd).trans (toRat_mul_pow _ k _)).symm

/-- The significant digits say how great the whole number is. -/
theorem coefficient_trimmed_lt (d : Decimal) :
    d.trimmed.coefficient < 10 ^ d.significantDigits.length := by
  obtain ⟨k, hcoefficient, hlength⟩ := d.exists_coefficient_eq
  have hlt := (decimalLength_le_iff (decimalLength_pos d.coefficient)).mp (Nat.le_refl _)
  rw [hlength, hcoefficient, Nat.pow_add] at hlt
  exact Nat.lt_of_mul_lt_mul_right hlt

theorem isDigit_of_mem_significantDigits : ∀ c ∈ d.significantDigits, c.isDigit = true := by
  intro c hc
  exact isDigit_of_mem_digitsOf (mem_of_mem_dropEndWhile hc)

theorem significantDigits_ne_nil (h : 0 < d.coefficient) : d.significantDigits ≠ [] := by
  intro hnil
  have hpos := toRat_pos h
  rw [← toRat_trimmed, trimmed, hnil] at hpos
  exact absurd (coefficient_pos_of_toRat_pos hpos) (Nat.lt_irrefl 0)

theorem head?_significantDigits_ne (h : 0 < d.coefficient) :
    d.significantDigits.head? ≠ some '0' := by
  obtain ⟨k, hk⟩ := exists_eq_trimZeros_append (digitsOf d.coefficient)
  have hhead := head?_digitsOf_ne h
  have hne : trimZeros (digitsOf d.coefficient) ≠ [] := significantDigits_ne_nil h
  rw [hk, List.head?_append_of_ne_nil _ hne] at hhead
  exact hhead

/-! ## 3. The two notations -/

/-- The text has digits, a point before those of a fractional part, and the tail, and the digits
times the power of ten that `x` is the exponent of are the number. -/
def IsNotation (d : Decimal) (text tail : List Char) (x : Int) : Prop :=
  ∃ whole fraction, text = joinPoint whole fraction ++ tail ∧ IsWhole whole ∧
    (∀ c ∈ fraction, c.isDigit = true) ∧
      toRat ⟨ofDigits (whole ++ fraction), x - fraction.length⟩ = d.toRat

/-- **The positional notation.** -/
theorem isNotation_pointText (h : 0 < d.coefficient) : d.IsNotation d.pointText [] 0 := by
  have hds : ∀ c ∈ d.significantDigits, c.isDigit = true := isDigit_of_mem_significantDigits
  have hne := significantDigits_ne_nil h
  have hhead := head?_significantDigits_ne h
  have hzeros : ∀ k, ∀ c ∈ List.replicate k '0', c.isDigit = true := by
    intro k c hc
    rw [List.eq_of_mem_replicate hc]
    rfl
  have hjoin : ∀ whole fraction : List Char, fraction ≠ [] →
      whole ++ '.' :: fraction = joinPoint whole fraction ++ [] := by
    intro whole fraction hf
    rw [joinPoint, List.isEmpty_eq_false_iff.mpr hf, List.append_nil]
    rfl
  rw [IsNotation, ← toRat_trimmed, trimmed, pointText]
  simp only
  split
  · rename_i hx
    have hfraction : List.replicate (-d.exponent - 1).toNat '0' ++ d.significantDigits ≠ [] :=
      List.append_ne_nil_of_right_ne_nil _ hne
    refine ⟨['0'], _, hjoin ['0'] _ hfraction, ⟨isDigit_of_mem_zero, by decide, .inl rfl⟩,
      fun c hc => (List.mem_append.mp hc).elim (hzeros _ c) (hds c), ?_⟩
    have hzero : ['0'] ++ (List.replicate (-d.exponent - 1).toNat '0' ++ d.significantDigits) =
        List.replicate ((-d.exponent - 1).toNat + 1) '0' ++ d.significantDigits := rfl
    rw [hzero, ofDigits_replicate_append, List.length_append, List.length_replicate]
    congr 2
    omega
  · rename_i hx
    rcases Nat.lt_or_ge (d.exponent.toNat + 1) d.significantDigits.length with hlt | hle
    · -- the point stands among the digits
      have hwhole : (d.significantDigits.take (d.exponent.toNat + 1)).rightpad
          (d.exponent.toNat + 1) '0' = d.significantDigits.take (d.exponent.toNat + 1) := by
        rw [List.rightpad, List.length_take, Nat.min_eq_left (Nat.le_of_lt hlt), Nat.sub_self]
        exact List.append_nil _
      have hfraction : d.significantDigits.drop (d.exponent.toNat + 1) ≠ [] := by
        rw [ne_eq, List.drop_eq_nil_iff]
        omega
      rw [hwhole, List.isEmpty_eq_false_iff.mpr hfraction, if_neg Bool.false_ne_true]
      refine ⟨_, _, hjoin _ _ hfraction, ⟨fun c hc => hds c (List.mem_of_mem_take hc), ?_, ?_⟩,
        fun c hc => hds c (List.mem_of_mem_drop hc), ?_⟩
      · rw [ne_eq, List.take_eq_nil_iff]
        simp [hne]
      · rw [List.head?_take, if_neg (Nat.succ_ne_zero _)]
        exact .inr hhead
      · rw [List.take_append_drop, List.length_drop]
        congr 2
        omega
    · -- zeros stand between the digits and the point, and one behind it
      have hwhole : (d.significantDigits.take (d.exponent.toNat + 1)).rightpad
          (d.exponent.toNat + 1) '0' = d.significantDigits ++
            List.replicate (d.exponent.toNat + 1 - d.significantDigits.length) '0' := by
        rw [List.take_of_length_le hle, List.rightpad]
      have hfraction : d.significantDigits.drop (d.exponent.toNat + 1) = [] :=
        List.drop_eq_nil_of_le hle
      rw [hwhole, hfraction]
      refine ⟨_, ['0'], hjoin _ ['0'] (by decide),
        ⟨fun c hc => (List.mem_append.mp hc).elim (hds c) (hzeros _ c),
          List.append_ne_nil_of_left_ne_nil hne _, ?_⟩, isDigit_of_mem_zero, ?_⟩
      · rw [List.head?_append_of_ne_nil _ hne]
        exact .inr hhead
      · rw [List.append_assoc, ← List.replicate_succ', ofDigits_append_replicate,
          ← toRat_mul_pow _ (d.exponent.toNat + 1 - d.significantDigits.length + 1)
            (d.exponent + 1 - d.significantDigits.length)]
        congr 2
        rw [List.length_singleton]
        omega

/-- **The exponent notation.** -/
theorem isNotation_exponentText (style : ExponentStyle) (h : 0 < d.coefficient) :
    d.IsNotation (d.exponentText style) (style.text d.exponent) d.exponent := by
  have hds : ∀ c ∈ d.significantDigits, c.isDigit = true := isDigit_of_mem_significantDigits
  have hlength : 0 < d.significantDigits.length :=
    List.length_pos_iff.mpr (significantDigits_ne_nil h)
  refine ⟨_, _, rfl, ⟨fun c hc => hds c (List.mem_of_mem_take hc), ?_, ?_⟩,
    fun c hc => hds c (List.mem_of_mem_drop hc), ?_⟩
  · rw [ne_eq, List.take_eq_nil_iff]
    simp [significantDigits_ne_nil h]
  · rw [List.head?_take, if_neg Nat.one_ne_zero]
    exact .inr (head?_significantDigits_ne h)
  · rw [← toRat_trimmed d, trimmed, List.take_append_drop, List.length_drop]
    congr 2
    omega

/-! ## 4. Reading -/

theorem spanDigits_append {ds rest : List Char} (hds : ∀ c ∈ ds, c.isDigit = true)
    (hrest : ∀ c ∈ rest.head?, c.isDigit = false) : spanDigits (ds ++ rest) = (ds, rest) := by
  have htail : rest.takeWhile Char.isDigit = [] ∧ rest.dropWhile Char.isDigit = rest := by
    cases rest with
    | nil => exact ⟨rfl, rfl⟩
    | cons c rest =>
      have hc := hrest c rfl
      simp [hc]
  rw [spanDigits, List.takeWhile_append_of_pos hds, List.dropWhile_append_of_pos hds, htail.1,
    htail.2, List.append_nil]

/-- The exponent digits of a small number are all read. -/
theorem exponentOfDigits_eq {ds : List Char} (h : ofDigits ds < 65536) :
    exponentOfDigits ds = ofDigits ds := by
  induction ds using List.reverseRecOn with
  | nil => rfl
  | append_singleton ds c ih =>
    rw [ofDigits_append_singleton] at h ⊢
    have hds : ofDigits ds < 65536 := by omega
    have hstep : exponentOfDigits (ds ++ [c]) =
        if exponentOfDigits ds < 65536 then 10 * exponentOfDigits ds + (c.toNat - '0'.toNat)
        else exponentOfDigits ds := by
      rw [exponentOfDigits, List.foldl_append]
      rfl
    rw [hstep, ih hds, if_pos hds]

theorem readExponent?_text (style : ExponentStyle) {x : Int} (h : x.natAbs < 65536) :
    readExponent? (style.text x) = some x := by
  have hdigits : ∀ c ∈ (digitsOf x.natAbs).leftpad style.width '0', c.isDigit = true :=
    isDigit_of_mem_leftpad (fun _ => isDigit_of_mem_digitsOf) _
  have hspan : spanDigits ((digitsOf x.natAbs).leftpad style.width '0') =
      ((digitsOf x.natAbs).leftpad style.width '0', []) := by
    have := @spanDigits_append _ [] hdigits (by simp)
    rwa [List.append_nil] at this
  have hvalue : ofDigits ((digitsOf x.natAbs).leftpad style.width '0') = x.natAbs := by
    rw [List.leftpad, ofDigits_replicate_append, ofDigits_digitsOf]
  have hne : ((digitsOf x.natAbs).leftpad style.width '0').isEmpty = false := by
    rw [List.isEmpty_eq_false_iff, List.leftpad]
    simp [digitsOf_ne_nil]
  rw [ExponentStyle.text]
  split
  · simp only [readExponent?, true_or, if_true, readSign, hspan, hne, hvalue,
      exponentOfDigits_eq (hvalue.symm ▸ h)]
    simp [-Nat.cast_natAbs]
    omega
  · simp only [readExponent?, true_or, if_true, readSign, hspan, hne, hvalue,
      exponentOfDigits_eq (hvalue.symm ▸ h)]
    simp [-Nat.cast_natAbs]
    omega

/-- What is read from a whole part, a fractional part and an exponent. -/
theorem read?_joinPoint {whole fraction tail : List Char}
    (hwhole : ∀ c ∈ whole, c.isDigit = true) (hne : whole ≠ [])
    (hfraction : ∀ c ∈ fraction, c.isDigit = true)
    (htail : ∀ c ∈ tail.head?, c.isDigit = false ∧ c ≠ '.') :
    read? (joinPoint whole fraction ++ tail) =
      (readExponent? tail).map fun x => ⟨ofDigits (whole ++ fraction), x - fraction.length⟩ := by
  have hempty : whole.isEmpty = false := List.isEmpty_eq_false_iff.mpr hne
  have hdigit : ∀ c ∈ tail.head?, c.isDigit = false := by
    intro c hc
    exact (htail c hc).1
  cases hf : fraction with
  | nil =>
    have hnone : readFraction tail = ([], tail) := by
      cases tail with
      | nil => rfl
      | cons c tail =>
        have hc : c ≠ '.' := (htail c rfl).2
        unfold readFraction
        split
        · rename_i heq
          exact absurd (List.cons.inj heq).1 hc
        · rfl
    simp [read?, joinPoint, spanDigits_append hwhole hdigit, hnone, hempty]
  | cons c cs =>
    rw [← hf]
    have hjoin : joinPoint whole fraction ++ tail = whole ++ '.' :: (fraction ++ tail) := by
      simp [joinPoint, hf]
    have hspan := @spanDigits_append whole ('.' :: (fraction ++ tail)) hwhole (by simp)
    simp [hjoin, read?, hspan, readFraction, spanDigits_append hfraction hdigit, hempty]

/-- **Reading a notation gives the number back.** -/
theorem read?_of_isNotation {text tail : List Char} {x : Int} (h : d.IsNotation text tail x)
    (htail : ∀ c ∈ tail.head?, c.isDigit = false ∧ c ≠ '.') (hx : readExponent? tail = some x) :
    ∃ e, read? text = some e ∧ e.toRat = d.toRat := by
  obtain ⟨whole, fraction, rfl, hwhole, hfraction, hrat⟩ := h
  refine ⟨_, ?_, hrat⟩
  rw [read?_joinPoint hwhole.isDigit hwhole.ne_nil hfraction htail, hx, Option.map_some]

end Decimal
end BytecodeTrace
