/-
# Reading a value

A number text is a sign that may be missing, followed by `inf`, `infinity` or `nan` in any case,
or by a decimal.  The value is the one nearest to the number, ties to even, whatever the length
of the text.
-/
import BytecodeTrace.Number.Decimal
import BytecodeTrace.Value.Basic

namespace BytecodeTrace
namespace Value

/-- The magnitude nearest to a decimal.  A number of `10 ^ 310` or more is infinite, one below
`10 ^ -330` is zero: both are far outside the finite range, and no power is computed for them. -/
def magnitudeOfDecimal (d : Decimal) : Nat :=
  if d.coefficient = 0 then 0
  else if 310 ≤ d.exponent then infinityMagnitude
  else if d.exponent < -330 then 0
  else nearestMagnitude d.toFraction

/-- The magnitude that a word stands for. -/
def magnitudeOfWord? (s : List Char) : Option Nat :=
  match s.map Char.toLower with
  | ['i', 'n', 'f'] => some infinityMagnitude
  | ['i', 'n', 'f', 'i', 'n', 'i', 't', 'y'] => some infinityMagnitude
  | ['n', 'a', 'n'] => some (infinityMagnitude + 2 ^ 51)
  | _ => none

/-- Reads a whole text as a value. -/
def read? (s : List Char) : Option Value :=
  let (negative, s) := Decimal.readSign s
  match magnitudeOfWord? s with
  | some m => some (ofMagnitude negative m)
  | none => (Decimal.read? s).map fun d => ofMagnitude negative (magnitudeOfDecimal d)

end Value
end BytecodeTrace
