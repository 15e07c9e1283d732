import TypeFlow.Program.Basic
import TypeFlow.Proofs.FlowLattice

/-!
# The order of the flows of a program

The flows of all nodes and of all parameters are ordered slot by slot.  An analysis starts at the
top, and lowering one slot leads down.

Main results:

- `Flows.Below`: the order, which makes the flows a partial order.
- `Flows.setNode_le`, `Flows.setFormal_le`: lowering one slot.
-/

namespace TypeFlow

namespace Flows

/-- The flow of one parameter of a function.  A parameter that a function lacks may be anything. -/
def formal (w : Flows) (fid : FunctionId) (index : Nat) : Flow :=
  (w.ofFormals fid)[index]?.getD .bottom

/-- Slot by slot, the first flows are at or below the second. -/
structure Below (v w : Flows) : Prop where
  nodeCount : v.nodes.size = w.nodes.size
  node : ∀ id, v.ofNode id ≤ w.ofNode id
  functionCount : v.formals.size = w.formals.size
  formalCount : ∀ fid, (v.ofFormals fid).length = (w.ofFormals fid).length
  formal : ∀ fid index, v.formal fid index ≤ w.formal fid index

private theorem nodes_eq_of_ofNode {v w : Flows} (hs : v.nodes.size = w.nodes.size)
    (h : ∀ id, v.ofNode id = w.ofNode id) : v.nodes = w.nodes := by
  apply Array.ext hs
  intro i hv hw
  have hi := h i
  simpa [ofNode, hv, hw] using hi

private theorem formals_eq_of_formal {v w : Flows} (hs : v.formals.size = w.formals.size)
    (hl : ∀ fid, (v.ofFormals fid).length = (w.ofFormals fid).length)
    (h : ∀ fid index, v.formal fid index = w.formal fid index) : v.formals = w.formals := by
  apply Array.ext hs
  intro k hv hw
  have hv' : v.ofFormals (k + 1) = v.formals[k] := by simp [ofFormals, hv]
  have hw' : w.ofFormals (k + 1) = w.formals[k] := by simp [ofFormals, hw]
  have hk := hl (k + 1)
  rw [hv', hw'] at hk
  apply List.ext_getElem hk
  intro i hi hi'
  have hf := h (k + 1) i
  simpa [formal, hv', hw', hi, hi'] using hf

/-- Slot by slot, flows are ordered as a product. -/
instance : PartialOrder Flows where
  le := Below
  le_refl w := ⟨rfl, fun _ => le_rfl, rfl, fun _ => rfl, fun _ _ => le_rfl⟩
  le_trans u v w huv hvw :=
    ⟨huv.nodeCount.trans hvw.nodeCount, fun id => (huv.node id).trans (hvw.node id),
      huv.functionCount.trans hvw.functionCount,
      fun fid => (huv.formalCount fid).trans (hvw.formalCount fid),
      fun fid i => (huv.formal fid i).trans (hvw.formal fid i)⟩
  le_antisymm v w hvw hwv := by
    have hn := nodes_eq_of_ofNode hvw.nodeCount fun id => (hvw.node id).antisymm (hwv.node id)
    have hf := formals_eq_of_formal hvw.functionCount hvw.formalCount fun fid i =>
      (hvw.formal fid i).antisymm (hwv.formal fid i)
    cases v
    cases w
    simp_all

/-! ## Replacing a slot -/

/-- Setting a flow of a node changes that of the node only. -/
theorem ofNode_setNode (w : Flows) (id n : NodeId) (flow : Flow) :
    (w.setNode id flow).ofNode n =
      if id = n ∧ id < w.nodes.size then flow else w.ofNode n := by
  unfold ofNode setNode
  rw [Array.getElem?_setIfInBounds]
  by_cases e : id = n
  · subst e
    by_cases h : id < w.nodes.size
    · simp [h]
    · simp [h]
  · simp [e]

@[simp] theorem ofFormals_setNode (w : Flows) (id : NodeId) (flow : Flow) (fid : FunctionId) :
    (w.setNode id flow).ofFormals fid = w.ofFormals fid := rfl

@[simp] theorem ofNode_setFormal (w : Flows) (fid : FunctionId) (index : Nat) (flow : Flow)
    (n : NodeId) : (w.setFormal fid index flow).ofNode n = w.ofNode n := rfl

/-- Setting a flow of an argument changes that of the function only. -/
theorem ofFormals_setFormal (w : Flows) (fid fid' : FunctionId) (index : Nat) (flow : Flow) :
    (w.setFormal fid index flow).ofFormals fid' =
      if fid - 1 = fid' - 1 then (w.ofFormals fid').set index flow else w.ofFormals fid' := by
  unfold ofFormals setFormal
  rw [Array.getElem?_modify]
  by_cases e : fid - 1 = fid' - 1
  · rw [if_pos e, if_pos e]
    cases w.formals[fid' - 1]? <;> rfl
  · rw [if_neg e, if_neg e]

/-- Lowering a parameter changes no other parameter. -/
theorem formal_setFormal_of_ne {w : Flows} {fid fid' : FunctionId} {index index' : Nat}
    {flow : Flow} (h : ¬(fid - 1 = fid' - 1 ∧ index = index')) :
    (w.setFormal fid index flow).formal fid' index' = w.formal fid' index' := by
  unfold formal
  rw [ofFormals_setFormal]
  split
  · rename_i e
    rw [List.getElem?_set_ne fun hi => h ⟨e, hi⟩]
  · rfl

/-- What was set for an argument is its flow. -/
theorem formal_setFormal_self {w : Flows} {fid : FunctionId} {index : Nat} {old flow : Flow}
    (hold : (w.ofFormals fid)[index]? = some old) :
    (w.setFormal fid index flow).formal fid index = flow := by
  obtain ⟨hlt, -⟩ := List.getElem?_eq_some_iff.1 hold
  unfold formal
  rw [ofFormals_setFormal, if_pos rfl, List.getElem?_set_self hlt]
  rfl

/-- Flows fall when that of a node is set to one below. -/
theorem setNode_le {w : Flows} {id : NodeId} {flow : Flow} (h : flow ≤ w.ofNode id) :
    w.setNode id flow ≤ w where
  nodeCount := by simp [setNode]
  node n := by
    rw [ofNode_setNode]
    split
    · rename_i e
      rw [← e.1]
      exact h
    · exact le_rfl
  functionCount := rfl
  formalCount _ := rfl
  formal _ _ := le_rfl

/-- What is below the flows and below the new flow of a node is below both together. -/
theorem le_setNode {v w : Flows} {id : NodeId} {flow : Flow} (h : v ≤ w)
    (hflow : v.ofNode id ≤ flow) : v ≤ w.setNode id flow where
  nodeCount := by simpa [setNode] using h.nodeCount
  node n := by
    rw [ofNode_setNode]
    split
    · rename_i e
      rw [← e.1]
      exact hflow
    · exact h.node n
  functionCount := h.functionCount
  formalCount := h.formalCount
  formal := h.formal

/-- Function ids of one position have the same arguments. -/
theorem formal_eq_of_position {w : Flows} {fid fid' : FunctionId} (h : fid - 1 = fid' - 1)
    (index : Nat) : w.formal fid index = w.formal fid' index := by
  rw [formal, formal, ofFormals, ofFormals, h]

/-- What is below the flows and below the new flow of a parameter is below both together. -/
theorem le_setFormal {v w : Flows} {fid : FunctionId} {index : Nat} {old flow : Flow} (h : v ≤ w)
    (hold : (w.ofFormals fid)[index]? = some old) (hflow : v.formal fid index ≤ flow) :
    v ≤ w.setFormal fid index flow where
  nodeCount := h.nodeCount
  node := h.node
  functionCount := by simpa [setFormal] using h.functionCount
  formalCount fid' := by
    rw [ofFormals_setFormal, h.formalCount]
    split
    · rw [List.length_set]
    · rfl
  formal fid' i := by
    by_cases e : fid - 1 = fid' - 1 ∧ index = i
    · obtain ⟨he, rfl⟩ := e
      rw [← formal_eq_of_position he, ← formal_eq_of_position he, formal_setFormal_self hold]
      exact hflow
    · rw [formal_setFormal_of_ne e]
      exact h.formal fid' i

/-- Flows fall when that of an argument is set to one below. -/
theorem setFormal_le {w : Flows} {fid : FunctionId} {index : Nat} {old flow : Flow}
    (hold : (w.ofFormals fid)[index]? = some old) (h : flow ≤ old) :
    w.setFormal fid index flow ≤ w where
  nodeCount := rfl
  node _ := le_rfl
  functionCount := by simp [setFormal]
  formalCount fid' := by
    rw [ofFormals_setFormal]
    split
    · rw [List.length_set]
    · rfl
  formal fid' i := by
    unfold formal
    rw [ofFormals_setFormal]
    split
    · rename_i e
      have he : w.ofFormals fid' = w.ofFormals fid := by rw [ofFormals, ofFormals, e]
      rw [he, List.getElem?_set]
      by_cases hi : index = i
      · subst hi
        obtain ⟨hlt, hget⟩ := List.getElem?_eq_some_iff.1 hold
        simpa [hlt, hget] using h
      · simp [hi]
    · exact le_rfl

end Flows

end TypeFlow
