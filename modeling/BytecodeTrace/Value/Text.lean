/-
# The text of a value in a trace

A value is written with six significant digits: positionally when the exponent of the leading
digit, after rounding, is from -4 to 5, and in exponent notation otherwise.  Zeros at the end of
the fractional part are not written, nor a point without digits behind it.  The exponent has a
sign and at least two digits.
-/
import BytecodeTrace.Number.Decimal
import BytecodeTrace.Value.Basic

namespace BytecodeTrace
namespace Value

/-- The number of significant digits of a value in a trace. -/
def traceDigits : Nat := 6

/-- The exponent of a value in a trace has at least two digits. -/
def traceExponent : ExponentStyle := ⟨2⟩

/-- The text of a positive fraction.  The rounding to six significant digits decides the
notation; the positional text rounds the fraction once more, at the places that are left. -/
def fractionText (x : Fraction) : List Char :=
  let d := x.toDecimal traceDigits
  if d.exponent < -4 ∨ (traceDigits : Int) ≤ d.exponent then d.exponentText traceExponent
  else x.placesText ((traceDigits : Int) - 1 - d.exponent).toNat

/-- The text without the sign. -/
def unsignedText (v : Value) : List Char :=
  if v.isInfinite then ['i', 'n', 'f']
  else if v.isZero then ['0']
  else fractionText v.toFraction

/-- The text of a value, as characters. -/
def chars (v : Value) : List Char :=
  if v.isNaN then ['n', 'a', 'n']
  else if v.isNegative then '-' :: v.unsignedText
  else v.unsignedText

/-- The text of a value in a trace. -/
def text (v : Value) : String := String.ofList v.chars

end Value
end BytecodeTrace
