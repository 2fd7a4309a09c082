/-
# Positions as words

A position in the code is a word of 64 bits.  The rest of the library counts in natural numbers,
which never overflow; here a sum or a difference has a result only where it is a word again, and a
range of bytes only where the code has all of them.

`add?_eq_some` and `sub?_eq_some` give the conditions, with the result as a natural number.
-/
import BytecodeTrace.Number.Fraction
import Mathlib.Data.Nat.Bitwise
import Mathlib.Data.UInt

namespace BytecodeTrace
namespace Word

/-! ## 1. Sums and differences -/

/-- The sum, unless it overflows. -/
def add? (a b : UInt64) : Option UInt64 :=
  if a.toNat + b.toNat < 2 ^ 64 then some (a + b) else none

/-- The difference, unless it is negative. -/
def sub? (a b : UInt64) : Option UInt64 :=
  if b ≤ a then some (a - b) else none

theorem add?_eq_some {a b : UInt64} (h : a.toNat + b.toNat < 2 ^ 64) :
    ∃ sum, add? a b = some sum ∧ sum.toNat = a.toNat + b.toNat := by
  refine ⟨a + b, if_pos h, ?_⟩
  rw [UInt64.toNat_add, Nat.mod_eq_of_lt h]

theorem sub?_eq_some {a b : UInt64} (h : b.toNat ≤ a.toNat) :
    ∃ difference, sub? a b = some difference ∧ difference.toNat = a.toNat - b.toNat := by
  have hle : b ≤ a := UInt64.le_iff_toNat_le.mpr h
  exact ⟨a - b, if_pos hle, UInt64.toNat_sub_of_le a b hle⟩

/-! ## 2. Bytes -/

/-- The bytes from one position to right before another, if the code has all of them. -/
def slice? (code : Array UInt8) (start stop : UInt64) : Option (List UInt8) :=
  if start ≤ stop ∧ stop.toNat ≤ code.size then
    some (code.extract start.toNat stop.toNat).toList
  else none

/-- A byte of a slice is the byte of the code at its position. -/
theorem getElem?_extract {code : Array UInt8} {start stop k : Nat} (hk : start + k < stop)
    (hstop : stop ≤ code.size) : (code.extract start stop).toList[k]? = code[start + k]? := by
  rw [Array.getElem?_toList, Array.getElem?_extract, Nat.min_eq_left hstop, if_pos (by omega)]

/-- Three bytes side by side in a word, the most significant first. -/
def join (high middle low : UInt8) : UInt64 :=
  (high.toUInt64 <<< 16) ||| (middle.toUInt64 <<< 8) ||| low.toUInt64

/-- Bytes that lie side by side do not overlap. -/
theorem toNat_join (high middle low : UInt8) :
    (join high middle low).toNat = high.toNat * 65536 + middle.toNat * 256 + low.toNat := by
  have hhigh := high.toNat_lt
  have hmiddle := middle.toNat_lt
  have hlow := low.toNat_lt
  have hshift16 : (high.toUInt64 <<< 16).toNat = high.toNat <<< 16 := by
    rw [UInt64.toNat_shiftLeft, UInt8.toNat_toUInt64, Nat.mod_eq_of_lt]
    · rfl
    · show high.toNat <<< 16 < 2 ^ 64
      rw [Nat.shiftLeft_eq]
      omega
  have hshift8 : (middle.toUInt64 <<< 8).toNat = middle.toNat <<< 8 := by
    rw [UInt64.toNat_shiftLeft, UInt8.toNat_toUInt64, Nat.mod_eq_of_lt]
    · rfl
    · show middle.toNat <<< 8 < 2 ^ 64
      rw [Nat.shiftLeft_eq]
      omega
  have hpair : middle.toNat <<< 8 + low.toNat < 2 ^ 16 := by
    rw [Nat.shiftLeft_eq]
    omega
  rw [join, UInt64.toNat_or, UInt64.toNat_or, hshift16, hshift8, UInt8.toNat_toUInt64,
    Nat.lor_assoc, ← Nat.shiftLeft_add_eq_or_of_lt hlow, ← Nat.shiftLeft_add_eq_or_of_lt hpair,
    Nat.shiftLeft_eq, Nat.shiftLeft_eq, Nat.add_assoc]

/-- The byte of a word that starts at a bit. -/
def byteAt (word bit : UInt64) : UInt8 := ((word >>> bit) &&& 0xFF).toUInt8

theorem byteAt_eq (word : UInt64) {bit : UInt64} (h : bit.toNat < 64) :
    byteAt word bit = UInt8.ofNat (word.toNat / 2 ^ bit.toNat) := by
  apply UInt8.toNat_inj.mp
  have hmask : (0xFF : UInt64).toNat = 2 ^ 8 - 1 := rfl
  rw [byteAt, UInt64.toNat_toUInt8, UInt64.toNat_and, UInt64.toNat_shiftRight,
    Nat.mod_eq_of_lt h, hmask, Nat.and_two_pow_sub_one_eq_mod, Nat.mod_mod,
    Nat.shiftRight_eq_div_pow, UInt8.toNat_ofNat']

end Word
end BytecodeTrace
