import TypeFlow.OrderedSet

/-!
# Pending work

A `Worklist` holds the tree nodes that wait for another step.  A node waits at most once, and
announcing a waiting node does not move it.  Work is taken newest or oldest first, and the list
counts how often some was taken.
-/

namespace TypeFlow

/-- Position of a node in its tree. -/
abbrev NodeId := Nat

/-- Which pending node is taken next. -/
inductive PopOrder
  /-- The newest. -/
  | lifo
  /-- The oldest. -/
  | fifo
  deriving DecidableEq

/-- The nodes that wait for another step. -/
structure Worklist where
  pending : OrderedSet NodeId
  order : PopOrder
  /-- How many nodes were taken so far. -/
  pops : Nat

namespace Worklist

/-- No work yet. -/
def empty (order : PopOrder := .lifo) : Worklist := ⟨.empty, order, 0⟩

instance : Inhabited Worklist := ⟨empty⟩

/-- The worklist with a node added, unless it waits already. -/
def push (w : Worklist) (node : NodeId) : Worklist :=
  { w with pending := w.pending.insert node }

/-- The worklist with a node added, if there is one. -/
def push? (w : Worklist) : Option NodeId → Worklist
  | none => w
  | some node => w.push node

/-- The worklist with several nodes added in turn. -/
def pushAll (w : Worklist) (nodes : List NodeId) : Worklist :=
  { w with pending := w.pending.insertAll nodes }

/-- The next node, and the worklist without it. -/
def pop? (w : Worklist) : Option (NodeId × Worklist) :=
  match w.order with
  | .lifo => w.pending.popNewest?.map fun (node, rest) =>
    (node, { w with pending := rest, pops := w.pops + 1 })
  | .fifo => w.pending.popOldest?.map fun (node, rest) =>
    (node, { w with pending := rest, pops := w.pops + 1 })

/-- The node waits. -/
def has (w : Worklist) (node : NodeId) : Bool := w.pending.contains node

/-- How many nodes wait. -/
def size (w : Worklist) : Nat := w.pending.size

/-- No node waits. -/
def isEmpty (w : Worklist) : Bool := w.pending.isEmpty

end Worklist

end TypeFlow
