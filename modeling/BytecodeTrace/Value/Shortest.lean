/-
# The shortest decimal that reads back

`Value.shortest` chooses, for a finite value that is not zero, the decimal with the fewest digits
that reads back to it, and of those with as few the nearest one.

The search asks the reader itself: for 1, 2, … 17 digits it tries the two neighbours of the exact
value on the grid with that many digits, the nearer one first.  Should no grid serve, the exact
decimal value would be taken, but seventeen digits always serve.
-/
import BytecodeTrace.Value.Reading

namespace BytecodeTrace
namespace Value

/-- The value's two neighbours on the grid of its `n`-digit decimals, the nearer one first. -/
def neighbours (x : Fraction) (n : Nat) : List Decimal :=
  let d := x.toDecimal n
  let y := x.scale 10 (-d.power)
  let other := if d.coefficient * y.den ≤ y.num then d.coefficient + 1 else d.coefficient - 1
  [d, ⟨other, d.power⟩]

/-- The decimal reads back to the magnitude. -/
def readsBack (magnitude : Nat) (d : Decimal) : Bool := magnitudeOfDecimal d = magnitude

/-- The exact decimal value of a significand times a power of two. -/
def exactDecimal (significand : Nat) (exponent : Int) : Decimal :=
  ⟨significand * 2 ^ exponent.toNat * 5 ^ (-exponent).toNat, min exponent 0⟩

/-- The largest number of digits that the search tries. -/
def mostDigits : Nat := 17

/-- The shortest decimal that reads back to a finite value other than zero. -/
def shortest (v : Value) : Decimal :=
  let x := v.toFraction
  match (List.range mostDigits).findSome? fun k =>
      (neighbours x (k + 1)).find? (readsBack v.magnitude) with
  | some d => d
  | none => exactDecimal v.significand v.scaleExponent

end Value
end BytecodeTrace
