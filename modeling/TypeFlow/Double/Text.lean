import TypeFlow.Double.Basic

/-!
# Text of a double

A double is shown by the fewest digits that read back to it, and of those by the nearest.  Numbers
from `0.0001` up to below `10 ^ 16` are written positionally with at least one digit after the
point, all others with an exponent.

Main definitions:

- `Double.shortest`: the digits and the power of ten that are written.
- `Double.render`: the written form.
-/

namespace TypeFlow

/-- The number `digits * 10 ^ exponent`. -/
structure Decimal where
  digits : Nat
  exponent : Int
  deriving DecidableEq

namespace Double

/-- The least number of decimal places to the left of the point that hold a positive ratio;
negative when zeros follow the point. -/
def pointPlace (num den : Nat) : Int :=
  if den ≤ num then ((Nat.toDigits 10 (num / den)).length : Int) else -leadingZeros 400 num
where
  /-- The zeros between the point and the first digit of a ratio below one. -/
  leadingZeros : Nat → Nat → Int
    | 0, _ => 0
    | fuel + 1, num => if den ≤ num * 10 then 0 else leadingZeros fuel (num * 10) + 1

/-- The nearer of the two decimals of `count` digits around the magnitude that reads back to it.
On a tie the larger one is taken. -/
def candidate (x : Double) (place : Int) (count : Nat) : Option Decimal :=
  let ratio := x.ratio
  let exponent := place - count
  let scaled := scaleDown 10 ratio.1 ratio.2 exponent
  let low := scaled.1 / scaled.2
  let readsBack (digits : Nat) : Bool := (ofDecimal digits exponent).magnitude == x.magnitude
  let lowFirst := 2 * (scaled.1 % scaled.2) < scaled.2
  let near := if lowFirst then low else low + 1
  let far := if lowFirst then low + 1 else low
  if readsBack near then some ⟨near, exponent⟩
  else if readsBack far then some ⟨far, exponent⟩
  else none

/-- The finite magnitude digit by digit. -/
def expansion (x : Double) : Decimal :=
  if 0 ≤ x.exponent then ⟨x.mantissa * Nat.pow 2 x.exponent.toNat, 0⟩
  else ⟨x.mantissa * Nat.pow 5 (-x.exponent).toNat, x.exponent⟩

/-- The first decimal that reads back, among those of `count` digits and up to `fuel - 1` more. -/
def shortestFrom (x : Double) (place : Int) : Nat → Nat → Decimal
  | 0, _ => x.expansion
  | fuel + 1, count =>
    match x.candidate place count with
    | some d => d
    | none => shortestFrom x place fuel (count + 1)

/-- The decimal of fewest digits that reads back to a positive finite magnitude. -/
def shortest (x : Double) : Decimal :=
  x.shortestFrom (pointPlace x.ratio.1 x.ratio.2) 17 1

/-- The digits without trailing zeros, and the place of the point counted from their left. -/
def significant (d : Decimal) : List Char × Int :=
  let all := Nat.toDigits 10 d.digits
  let kept := (all.reverse.dropWhile (· == '0')).reverse
  (kept, all.length + d.exponent)

/-- Digits written around the point. -/
def positional (digits : List Char) (place : Int) : String :=
  let count := digits.length
  if place ≤ 0 then "0." ++ String.ofList (List.replicate (-place).toNat '0' ++ digits)
  else if (count : Int) ≤ place then
    String.ofList (digits ++ List.replicate (place.toNat - count) '0') ++ ".0"
  else String.ofList (digits.take place.toNat) ++ "." ++ String.ofList (digits.drop place.toNat)

/-- Digits with a point after the first, and an exponent. -/
def scientific (digits : List Char) (place : Int) : String :=
  let fraction := digits.drop 1
  String.ofList (digits.take 1) ++ (if fraction.isEmpty then "" else "." ++ String.ofList fraction)
    ++ "e" ++ toString (place - 1)

/-- The written form of a magnitude. -/
def renderMagnitude (x : Double) : String :=
  if x.isZero then "0.0"
  else if x.isInfinite then "inf"
  else
    let written := significant x.shortest
    if -3 ≤ written.2 && written.2 ≤ 16 then positional written.1 written.2
    else scientific written.1 written.2

/-- The written form. -/
def render (x : Double) : String :=
  if x.isNaN then "NaN" else (if x.isNegative then "-" else "") ++ x.renderMagnitude

end Double

end TypeFlow
