import TypeFlow.Worklist

/-!
# Settings of an analysis

What an analysis computes, in which order, and where it gives up.
-/

namespace TypeFlow

/-- The settings of an analysis. -/
structure Settings where
  /-- Compute types. -/
  types : Bool := true
  /-- Compute flows. -/
  flows : Bool := true
  /-- Look every node over again after each phase and report what could still move. -/
  checkInvariants : Bool := true
  /-- How many nodes are taken off the worklist before the analysis gives up. -/
  maxIterations : Nat := 100000
  /-- How many times functions that escape are widened. -/
  maxWidenRounds : Nat := 16
  /-- How deep records from one place may be nested in each other. -/
  nestingCutoff : Nat := 1
  /-- Which pending node is taken next. -/
  popOrder : PopOrder := .lifo
  deriving DecidableEq

instance : Inhabited Settings := ⟨{}⟩

end TypeFlow
