/-!
# Double-precision numbers

A `Double` is the 64-bit pattern of an IEEE 754 binary64 number.  Numbers are only read, compared
by pattern and written, so patterns are decoded and rounded to in natural-number arithmetic.

Main definitions:

- `Double.mantissa`, `Double.exponent`: a finite magnitude is `mantissa * 2 ^ exponent`.
- `Double.ofRatio`: the double nearest to a ratio, a tie going to the even pattern.
- `Double.ofDecimal`: the double nearest to `digits * 10 ^ exponent`.
-/

namespace TypeFlow

/-- A binary64 number, by its bit pattern. -/
structure Double where
  bits : UInt64
  deriving DecidableEq

namespace Double

/-- The positive zero. -/
def zero : Double := ⟨0⟩

/-- The sign bit is set. -/
def isNegative (x : Double) : Bool := Nat.pow 2 63 ≤ x.bits.toNat

/-- The pattern without its sign bit.  It grows with the magnitude. -/
def magnitude (x : Double) : Nat := x.bits.toNat % Nat.pow 2 63

/-- The pattern of an infinite magnitude. -/
def infinityPattern : Nat := 2047 * Nat.pow 2 52

/-- Either zero. -/
def isZero (x : Double) : Bool := x.magnitude == 0

/-- An infinity. -/
def isInfinite (x : Double) : Bool := x.magnitude == infinityPattern

/-- Not a number. -/
def isNaN (x : Double) : Bool := infinityPattern < x.magnitude

/-- The integer significand of a finite magnitude. -/
def mantissa (x : Double) : Nat :=
  if x.magnitude < Nat.pow 2 52 then x.magnitude else Nat.pow 2 52 + x.magnitude % Nat.pow 2 52

/-- The power of two that scales the significand. -/
def exponent (x : Double) : Int :=
  if x.magnitude < Nat.pow 2 52 then -1074 else x.magnitude / Nat.pow 2 52 - 1075

/-- The ratio `num / den` times `base ^ -power`, again as numerator and denominator. -/
def scaleDown (base num den : Nat) (power : Int) : Nat × Nat :=
  if 0 ≤ power then (num, den * Nat.pow base power.toNat)
  else (num * Nat.pow base (-power).toNat, den)

/-- The finite magnitude as numerator and denominator. -/
def ratio (x : Double) : Nat × Nat := scaleDown 2 x.mantissa 1 (-x.exponent)

/-- The quotient rounded to the nearest integer, a tie going to the even one. -/
def roundDiv (num den : Nat) : Nat :=
  let q := num / den
  let r := num % den
  if den < 2 * r || (den == 2 * r && q % 2 == 1) then q + 1 else q

/-- The power of two at which a positive ratio has a 53-bit significand, or the least one. -/
def binade (num den : Nat) : Int :=
  let guess : Int := (Nat.log2 num : Int) - (Nat.log2 den : Int) - 53
  let scaled := scaleDown 2 num den guess
  let exact := if Nat.pow 2 53 ≤ scaled.1 / scaled.2 then guess + 1 else guess
  max exact (-1074)

/-- The pattern of the nearest magnitude.  Adding the rounded significand to the pattern that
precedes its binade carries into the exponent by itself. -/
def patternOfRatio (num den : Nat) : Nat :=
  if num == 0 then 0
  else
    let power := binade num den
    let scaled := scaleDown 2 num den power
    min ((power + 1074).toNat * Nat.pow 2 52 + roundDiv scaled.1 scaled.2) infinityPattern

/-- The nonnegative double nearest to `num / den`. -/
def ofRatio (num den : Nat) : Double := ⟨UInt64.ofNat (patternOfRatio num den)⟩

/-- The nonnegative double nearest to `digits * 10 ^ exponent`. -/
def ofDecimal (digits : Nat) (exponent : Int) : Double :=
  let scaled := scaleDown 10 digits 1 (-exponent)
  ofRatio scaled.1 scaled.2

end Double

end TypeFlow
