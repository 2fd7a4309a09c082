/-
# Equality of the numbers

Equality of values is equality of bits.  Numeric equality joins the two zeros and takes the NaNs
out: `ieeeEq_iff` says that it is `SameNumber`, and nothing else.
-/
import BytecodeTrace.Value.Basic

namespace BytecodeTrace
namespace Value

/-- A value is its sign and its magnitude. -/
theorem ofMagnitude_magnitude (v : Value) : ofMagnitude v.isNegative v.magnitude = v := by
  have hlt : v.bits.toNat < 2 ^ 64 := v.bits.toNat_lt
  have hbits : (if v.isNegative then 2 ^ 63 + v.magnitude else v.magnitude) = v.bits.toNat := by
    unfold isNegative magnitude
    split
    · rename_i hneg
      have := of_decide_eq_true hneg
      omega
    · rename_i hpos
      have := of_decide_eq_false (Bool.eq_false_iff.mpr hpos)
      omega
  rw [ofMagnitude, hbits, UInt64.ofNat_toNat]

/-- The values stand for the same number: none is a NaN, and the bits are the same or both are
zero. -/
structure SameNumber (a b : Value) : Prop where
  left_not_nan : a.isNaN = false
  right_not_nan : b.isNaN = false
  same : a = b ∨ a.isZero = true ∧ b.isZero = true

/-- Values of one sign are equal when their magnitudes are. -/
theorem eq_of_magnitude_eq {a b : Value} (hsign : a.isNegative = b.isNegative)
    (h : a.magnitude = b.magnitude) : a = b := by
  rw [← ofMagnitude_magnitude a, hsign, h, ofMagnitude_magnitude]

/-- The keys tell all values apart but the two zeros. -/
theorem key_eq_iff {a b : Value} :
    a.key = b.key ↔ a = b ∨ a.isZero = true ∧ b.isZero = true := by
  simp only [isZero, decide_eq_true_eq]
  constructor
  · intro h
    unfold key at h
    split at h <;> split at h
    · rename_i ha hb
      exact .inl (eq_of_magnitude_eq (ha.trans hb.symm) (by omega))
    · exact .inr (by omega)
    · exact .inr (by omega)
    · rename_i ha hb
      rw [Bool.not_eq_true] at ha hb
      exact .inl (eq_of_magnitude_eq (ha.trans hb.symm) (by omega))
  · rintro (rfl | ⟨ha, hb⟩)
    · rfl
    · simp [key, ha, hb]

/-- **Numeric equality** joins the zeros and leaves out the NaNs. -/
theorem ieeeEq_iff {a b : Value} : a.ieeeEq b = true ↔ SameNumber a b := by
  simp only [ieeeEq, Bool.and_eq_true, Bool.not_eq_true', beq_iff_eq, key_eq_iff]
  constructor
  · rintro ⟨⟨ha, hb⟩, h⟩
    exact ⟨ha, hb, h⟩
  · rintro ⟨ha, hb, h⟩
    exact ⟨⟨ha, hb⟩, h⟩

/-- A value is the number that it stands for, unless it stands for none. -/
theorem sameNumber_self_iff {a : Value} : SameNumber a a ↔ a.isNaN = false := by
  constructor
  · intro h
    exact h.left_not_nan
  · intro h
    exact ⟨h, h, .inl rfl⟩

end Value
end BytecodeTrace
