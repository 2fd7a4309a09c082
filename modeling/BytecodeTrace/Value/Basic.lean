/-
# Values

A value is a binary floating-point number of 64 bits, held as its bit pattern: one sign bit,
eleven exponent bits and 52 fraction bits.

* `Value.ieeeEq`, `Value.ieeeCompare`: equality and order of the numbers, for which the two zeros
  are equal and a NaN is related to nothing, itself included;
* `Value.toFraction`: the exact absolute value of a finite value;
* `Value.nearestMagnitude`: the pattern nearest to a positive fraction.

Equality of `Value`s themselves is equality of bits.
-/
import BytecodeTrace.Number.Fraction

namespace BytecodeTrace

/-- A number of the constant pool, as its bit pattern. -/
structure Value where
  bits : UInt64
deriving DecidableEq, Inhabited, Repr

namespace Value

/-! ## 1. The parts of a pattern -/

/-- The magnitude of the infinities: all exponent bits, no fraction bit. -/
def infinityMagnitude : Nat := 2047 * 2 ^ 52

/-- The sign bit. -/
def isNegative (v : Value) : Bool := 2 ^ 63 ≤ v.bits.toNat

/-- The pattern without the sign bit.  Magnitudes are ordered as the numbers they stand for. -/
def magnitude (v : Value) : Nat := v.bits.toNat % 2 ^ 63

/-- The value with the given sign and magnitude. -/
def ofMagnitude (negative : Bool) (magnitude : Nat) : Value :=
  ⟨UInt64.ofNat (if negative then 2 ^ 63 + magnitude else magnitude)⟩

/-- All exponent bits are set, and a fraction bit. -/
def isNaN (v : Value) : Bool := infinityMagnitude < v.magnitude

/-- All exponent bits are set, and no fraction bit. -/
def isInfinite (v : Value) : Bool := v.magnitude = infinityMagnitude

/-- Some exponent bit is not set. -/
def isFinite (v : Value) : Bool := v.magnitude < infinityMagnitude

/-- Neither exponent nor fraction bits are set. -/
def isZero (v : Value) : Bool := v.magnitude = 0

/-! ## 2. Equality and order of the numbers -/

/-- The magnitude with its sign.  Both zeros have the key zero. -/
def key (v : Value) : Int := if v.isNegative then -(v.magnitude : Int) else v.magnitude

/-- Numeric equality. -/
def ieeeEq (a b : Value) : Bool := !a.isNaN && !b.isNaN && a.key == b.key

/-- Numeric order; none when one side is a NaN. -/
def ieeeCompare (a b : Value) : Option Ordering :=
  if a.isNaN || b.isNaN then none else some (compare a.key b.key)

/-! ## 3. Finite values as fractions -/

/-- The significand of a finite value, a natural number below `2 ^ 53`. -/
def significand (v : Value) : Nat :=
  if v.magnitude / 2 ^ 52 = 0 then v.magnitude % 2 ^ 52 else 2 ^ 52 + v.magnitude % 2 ^ 52

/-- The power of two that the significand is multiplied with. -/
def scaleExponent (v : Value) : Int := (max (v.magnitude / 2 ^ 52) 1 : Nat) - 1075

/-- The absolute value of a finite value. -/
def toFraction (v : Value) : Fraction := (Fraction.ofNat v.significand).scale 2 v.scaleExponent

/-- The magnitude nearest to a positive fraction; ties go to the even significand, and what is
beyond the largest finite number becomes infinity.  The quantum is `2 ^ e`, where `e` leaves 53
binary digits or is the least exponent there is.  Counting quanta from the start of the binade
continues across its end, so a rounding that carries needs no case of its own. -/
def nearestMagnitude (x : Fraction) : Nat :=
  let e := max (x.leadingExponent binaryLength - 52) (-1074)
  min ((e + 1074).toNat * 2 ^ 52 + (x.scale 2 (-e)).round) infinityMagnitude

end Value
end BytecodeTrace
