/-
# Decimals

A decimal is a coefficient times a power of ten.  This file has the three things that happen to
one: it is read from text, it is chosen as the rounding of a fraction, and its digits are written.

* `Decimal.read?`: the grammar `digits [. digits] [e [sign] digits]`, with a digit somewhere
  before the exponent;
* `Fraction.toDecimal`: a positive fraction rounded to a number of significant digits;
* `Fraction.placesText`: a fraction rounded to a number of decimal places;
* `Decimal.exponentText`, `Decimal.pointText`: the two notations.
-/
import BytecodeTrace.Number.Fraction
import BytecodeTrace.Text.Span

namespace BytecodeTrace

/-- The non-negative number `coefficient · 10 ^ power`. -/
structure Decimal where
  coefficient : Nat
  power : Int
deriving DecidableEq, Repr

/-! ## 1. Digits -/

/-- The decimal digits of a natural number; `0` for zero. -/
def digitsOf (n : Nat) : List Char := Nat.toDigits 10 n

/-- The number that a list of digits stands for. -/
def ofDigits (ds : List Char) : Nat := ds.foldl (fun n d => 10 * n + (d.toNat - '0'.toNat)) 0

/-- Drops the zeros at the end. -/
def trimZeros (ds : List Char) : List Char := Text.dropEndWhile (· == '0') ds

/-- A whole part and a fractional part; the point is written only before a fractional digit. -/
def joinPoint (whole fraction : List Char) : List Char :=
  if fraction.isEmpty then whole else whole ++ '.' :: fraction

namespace Decimal

/-- The exact value. -/
def toFraction (d : Decimal) : Fraction := (Fraction.ofNat d.coefficient).scale 10 d.power

/-- The exponent of the leading digit. -/
def exponent (d : Decimal) : Int := d.power + decimalLength d.coefficient - 1

/-- The digits from the leading one to the last that is not zero. -/
def significantDigits (d : Decimal) : List Char := trimZeros (digitsOf d.coefficient)

end Decimal

/-! ## 2. Rounding a fraction -/

/-- A positive fraction rounded to `n` significant digits, ties to even.  When the rounding
carries into a new digit, the coefficient is `10 ^ n`. -/
def Fraction.toDecimal (x : Fraction) (n : Nat) : Decimal :=
  let power := x.leadingExponent decimalLength - (n - 1 : Int)
  ⟨(x.scale 10 (-power)).round, power⟩

/-- A fraction rounded to `places` decimal places, ties to even, written without the zeros that
end the fractional part. -/
def Fraction.placesText (x : Fraction) (places : Nat) : List Char :=
  let n := (x.scale 10 places).round
  joinPoint (digitsOf (n / 10 ^ places))
    (if places = 0 then [] else trimZeros ((digitsOf (n % 10 ^ places)).leftpad places '0'))

/-! ## 3. Writing -/

/-- How an exponent is written. -/
structure ExponentStyle where
  /-- The least number of digits. -/
  width : Nat
deriving DecidableEq, Repr

/-- An exponent: the letter, the sign, which is always written, and the digits. -/
def ExponentStyle.text (style : ExponentStyle) (x : Int) : List Char :=
  'e' :: (if x < 0 then '-' else '+') :: (digitsOf x.natAbs).leftpad style.width '0'

namespace Decimal

/-- Exponent notation: one digit, the other significant digits behind a point, the exponent. -/
def exponentText (style : ExponentStyle) (d : Decimal) : List Char :=
  let ds := d.significantDigits
  joinPoint (ds.take 1) (ds.drop 1) ++ style.text d.exponent

/-- Positional notation, with a point and at least one digit on each side of it. -/
def pointText (d : Decimal) : List Char :=
  let ds := d.significantDigits
  let x := d.exponent
  if x < 0 then '0' :: '.' :: (List.replicate (-x - 1).toNat '0' ++ ds)
  else
    let whole := ds.take (x.toNat + 1)
    let fraction := ds.drop (x.toNat + 1)
    whole.rightpad (x.toNat + 1) '0' ++ '.' :: (if fraction.isEmpty then ['0'] else fraction)

/-! ## 4. Reading -/

/-- The digits at the front of a text, and what follows them. -/
def spanDigits (s : List Char) : List Char × List Char :=
  (s.takeWhile Char.isDigit, s.dropWhile Char.isDigit)

/-- The value of exponent digits.  A digit is taken only while the value is at most 65535: an
exponent beyond that is large enough for every purpose, and its other digits are passed over. -/
def exponentOfDigits (ds : List Char) : Nat :=
  ds.foldl (fun n d => if n < 65536 then 10 * n + (d.toNat - '0'.toNat) else n) 0

/-- A sign that may be missing: whether it is a minus, and the rest. -/
def readSign : List Char → Bool × List Char
  | '+' :: s => (false, s)
  | '-' :: s => (true, s)
  | s => (false, s)

/-- The exponent part, which reaches to the end of the text: nothing, or a letter, a sign that
may be missing, and at least one digit. -/
def readExponent? : List Char → Option Int
  | [] => some 0
  | e :: s =>
    if e = 'e' ∨ e = 'E' then
      let (minus, s) := readSign s
      let (ds, rest) := spanDigits s
      if ds.isEmpty ∨ ¬ rest.isEmpty then none
      else some (if minus then -(exponentOfDigits ds : Int) else exponentOfDigits ds)
    else none

/-- The fractional digits behind a point, and what follows them. -/
def readFraction : List Char → List Char × List Char
  | '.' :: s => spanDigits s
  | s => ([], s)

/-- Reads a whole text as an unsigned decimal. -/
def read? (s : List Char) : Option Decimal :=
  let (whole, s) := spanDigits s
  let (fraction, s) := readFraction s
  if whole.isEmpty ∧ fraction.isEmpty then none
  else (readExponent? s).map fun x => ⟨ofDigits (whole ++ fraction), x - fraction.length⟩

end Decimal
end BytecodeTrace
