/-!
# Decimal digits

The number that a run of decimal digits stands for, and the counts that fit into 64 bits.
-/

namespace TypeFlow

/-- The number that decimal digits stand for. -/
def decimalValue (digits : List Char) : Nat :=
  digits.foldl (fun n c => n * 10 + (c.toNat - '0'.toNat)) 0

/-- The number that a spelling stands for, if it is one or more digits and nothing else. -/
def decimalValue? (spelling : List Char) : Option Nat :=
  if spelling.isEmpty || !spelling.all Char.isDigit then none else some (decimalValue spelling)

/-- Counts are numbers below this. -/
def countBound : Nat := Nat.pow 2 64

/-- The count that a spelling stands for. -/
def count? (spelling : List Char) : Option Nat := (decimalValue? spelling).filter (· < countBound)

end TypeFlow
