import TypeFlow.Proofs.FirstStates

/-!
# Call sites

A function is analysed once, with parameters at or below every argument that any call passes in.
Parameters are not recomputed: a call lowers them whenever a flow of one of its parts is installed.
This suffices at all times, since a call sees every change of its callee and of its arguments, and
what a parameter lost it never regains.

Main definitions:

- `Program.Coherent`: at every call, the parameters of each function it may reach are at or below
  its arguments.

Main results:

- `Program.coherent_of_lowers`, `Program.install_coherent`: lowering parameters and installing a
  flow keep calls coherent.
- `Program.calls_coherent`: calls are coherent in every state of every run.
-/

namespace TypeFlow

namespace Program

/-- At every call, the parameters of each function of the program that the flow of the callee names
are at or below the arguments at their positions. -/
def Coherent (p : Program) (s : State) : Prop :=
  ∀ (call fn : NodeId) (args : List NodeId) (fids : IdSet) (nil : Bool) (fid : FunctionId)
    (callee : NodeId), p.kind call = .apply fn args → s.flows.ofNode fn = .function fids nil →
    fid ∈ fids → p.functionNode? fid = some callee →
    ∀ (i : Nat) (arg : NodeId) (formal : Flow), args[i]? = some arg →
      (s.flows.ofFormals fid)[i]? = some formal → (s.flows.ofNode arg).covers formal = true

variable {p : Program} {s t : State}

/-- At or below an argument means the same of a parameter and of its slot. -/
theorem covers_formal_iff {w : Flows} {fid : FunctionId} {i : Nat} {arg : NodeId} {formal : Flow}
    (h : (w.ofFormals fid)[i]? = some formal) :
    (w.ofNode arg).covers formal = true ↔ w.formal fid i ≤ w.ofNode arg := by
  rw [Flow.covers_iff_le, Flows.formal, h, Option.getD_some]

/-- Who lowers parameters and leaves the flows of nodes alone keeps calls coherent. -/
theorem coherent_of_lowers (h : State.Lowers s t) (hs : p.Coherent s) : p.Coherent t := by
  intro call fn args fids nil fid callee hcall hfn hfid hcallee i arg formal harg hformal
  rw [covers_formal_iff hformal, h.node]
  refine (h.flows.formal fid i).trans ?_
  rw [h.node] at hfn
  have hlt : i < (s.flows.ofFormals fid).length := by
    rw [← h.flows.formalCount fid]
    exact (List.getElem?_eq_some_iff.1 hformal).1
  have hold := List.getElem?_eq_getElem hlt
  exact (covers_formal_iff hold).1
    (hs call fn args fids nil fid callee hcall hfn hfid hcallee i arg _ harg hold)

/-- Installing the flow of a part of a call enters the functions that the callee now names. -/
theorem install_enters {id call fn : NodeId} {args : List NodeId} {flow : Flow} {u : Unit}
    (hparent : p.parent id = some call) (hcall : p.kind call = .apply fn args)
    (h : p.install id flow s = some (u, t)) {fids : IdSet} {nil : Bool}
    (hfn : t.flows.ofNode fn = .function fids nil) {fid : FunctionId} (hfid : fid ∈ fids)
    {callee : NodeId} (hcallee : p.functionNode? fid = some callee) {i : Nat} {arg : NodeId}
    (harg : args[i]? = some arg) : t.flows.formal fid i ≤ t.flows.ofNode arg := by
  have hflow := install_parent hparent h
  rw [announceFlow_apply hcall] at hflow
  obtain ⟨v, s₁, hfirst, henter⟩ := bind_eq_some.1 hflow
  have hlowers : State.Lowers s₁ t := keeps_enterCall p call fn args s₁ u t henter
  rw [hlowers.node] at hfn
  refine enterCall_each (R := State.Lowers) (I := fun _ => True)
    (Q := fun t => t.flows.formal fid i ≤ t.flows.ofNode arg) ?_ ?_ ?_ trivial hfn henter hfid
  · intro _ _ _ _
    trivial
  · intro s' t' h' _ hle
    rw [h'.node]
    exact (h'.flows.formal fid i).trans hle
  · intro s' t' u' _ h'
    exact enterCallee_coherent hcallee h' i arg harg

/-- Installing a flow keeps calls coherent: a call of which the node is a part is entered, and at
the others only parameters fall. -/
theorem install_coherent (htree : p.Tree) {id : NodeId} {flow : Flow} {u : Unit}
    (hs : p.Coherent s) (h : p.install id flow s = some (u, t)) : p.Coherent t := by
  have hlowers : State.Lowers { s with flows := s.flows.setNode id flow } t := install_related h
  intro call fn args fids nil fid callee hcall hfn hfid hcallee i arg formal harg hformal
  by_cases hpart : id ∈ fn :: args
  · have hparent : p.parent id = some call := by
      apply htree.parent
      rw [hcall]
      exact hpart
    rw [covers_formal_iff hformal]
    exact install_enters hparent hcall h hfn hfid hcallee harg
  · have hnode : ∀ n ∈ fn :: args, t.flows.ofNode n = s.flows.ofNode n := by
      rintro n hn
      have hne : id ≠ n := by
        rintro rfl
        exact hpart hn
      rw [hlowers.node, Flows.ofNode_setNode, if_neg fun e => hne e.1]
    have hlt : i < (s.flows.ofFormals fid).length := by
      rw [← Flows.ofFormals_setNode s.flows id flow, ← hlowers.flows.formalCount fid]
      exact (List.getElem?_eq_some_iff.1 hformal).1
    have hold := List.getElem?_eq_getElem hlt
    rw [hnode fn List.mem_cons_self] at hfn
    have hle := (covers_formal_iff hold).1
      (hs call fn args fids nil fid callee hcall hfn hfid hcallee i arg _ harg hold)
    rw [covers_formal_iff hformal, hnode arg (List.mem_cons_of_mem _ (List.mem_of_getElem? harg))]
    exact (hlowers.flows.formal fid i).trans hle

/-- Every step of the solver, on whatever node, keeps calls coherent. -/
theorem perform_coherent (htree : p.Tree) {step : SolverStep} (hs : p.Coherent s)
    (h : p.perform step s = some ((), t)) : p.Coherent t := by
  have hsame : ∀ {t}, State.SameFlows s t → p.Coherent t := fun h =>
    coherent_of_lowers (.of_flows h) hs
  cases step with
  | type id =>
    refine hsame ((keeps_bind (keeps_sameFlows_stepType p id) fun _ => ?_) s () t h)
    exact keeps_pure _
  | check phase converged =>
    refine hsame ((keeps_bind (keeps_sameFlows_check p phase converged) fun _ => ?_) s () t h)
    exact keeps_pure _
  | widen =>
    refine coherent_of_lowers ((keeps_bind (keeps_widenEscapes p) fun _ => ?_) s () t h) hs
    exact keeps_pure _
  | flow id =>
    obtain ⟨found, s₁, hstep, h₁⟩ := bind_eq_some.1 h
    obtain ⟨rise, s₂, hflow, h₂⟩ := bind_eq_some.1 hstep
    obtain ⟨-, rfl⟩ := pure_eq_some.1 h₂
    obtain ⟨-, rfl⟩ := pure_eq_some.1 h₁
    obtain ⟨new, forest, -, hcases⟩ := flowStep_eq_some hflow
    have hlooked : p.Coherent { s with forest := forest } := hsame rfl
    rcases hcases with ⟨-, -, rfl⟩ | ⟨-, -, -, hnew⟩ | ⟨-, -, rfl | hmeet⟩
    · exact hlooked
    · exact install_coherent htree hlooked hnew
    · exact hlooked
    · exact install_coherent htree hlooked hmeet

private theorem coherent_of_leads (htree : p.Tree) (hs : p.Coherent s) (h : p.Leads s t) :
    p.Coherent t := by
  induction h with
  | refl => exact hs
  | tail _ hmove ih =>
    cases hmove with
    | step step hstep => exact perform_coherent htree ih hstep
    | queue => exact ih

/-- From the first state of every program on, calls are coherent between any two steps, in whatever
order type steps, flow steps and widening are made and on whatever nodes.  A whole run is such a
sequence of steps. -/
theorem calls_coherent {e : Expr} {settings : Settings} {depth : Nat}
    (h : Program.build e settings depth = .ok (p, s)) :
    (∀ t, p.Leads s t → p.Coherent t) ∧
      ∀ stats t, p.run s = some (stats, t) → p.Leads s t ∧ p.Coherent t := by
  have hleads : ∀ t, p.Leads s t → p.Coherent t := by
    intro t
    refine coherent_of_leads (tree_of_build h) ?_
    intro call fn args fids nil fid callee _ hfn
    rw [(flows_of_build h).1 fn] at hfn
    cases hfn
  refine ⟨hleads, ?_⟩
  intro stats t hrun
  have hrun' := keeps_leads_run p s stats t hrun
  exact ⟨hrun', hleads t hrun'⟩

/-- The program `({ x -> x } 3)`: at the end of its run the callee names the function, and the call
is coherent. -/
theorem calls_coherent_identity_three :
    ∃ a, Expr.analyze (.apply (.lambda ["x"] (.ident "x") true) [.int 3]) {} = .ok a ∧
      a.state.flows.ofNode 2 = .function (.singleton 1) false ∧ a.program.Coherent a.state := by
  have hrun : ((Expr.analyze (.apply (.lambda ["x"] (.ident "x") true) [.int 3]) {}).toOption.map
      fun a => (a.state.flows.ofNode 2)) = some (.function (.singleton 1) false) := by
    decide +kernel
  obtain ⟨a, ha, hflow⟩ := ok_of_map hrun
  obtain ⟨s, hbuild, hrun⟩ := Expr.analyze_eq_ok.1 ha
  exact ⟨a, ha, hflow, ((calls_coherent hbuild).2 a.stats a.state hrun).2⟩

end Program

end TypeFlow
