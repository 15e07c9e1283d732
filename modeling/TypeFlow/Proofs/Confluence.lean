import TypeFlow.Proofs.TwinPrograms

/-!
# Runs in two orders

Without types and without nil, runs of one program in different orders report nothing.  They end with
the same flows after the same number of rounds if every callee that held functions at some moment of
one run still holds functions at the end of the other.  Without that they may differ: what a call
passed to the functions of its callee stays passed when the callee falls below all functions.

Main results:

- `Program.flows_agree`: runs of programs that differ in the order of work.
- `flows_raced`: two runs that end with different flows.
-/

namespace TypeFlow

namespace Program

/-- Every callee holds functions. -/
def calleesHold (p : Program) (w : Flows) : Bool :=
  p.nodes.all fun node =>
    match node.kind with
    | .apply fn _ => (w.ofNode fn).functions?.isSome
    | _ => true

/-- Where every callee holds functions at the end, nothing was lost on the way. -/
theorem retains_of_calleesHold {p : Program} {w : Flows} (h : p.calleesHold w = true)
    (trace : List State) : p.Retains trace w := by
  intro u _ call fn args hcall _
  have hlt : call < p.nodes.size := by
    by_contra hle
    have hnone : p.nodes[call]? = none := Array.getElem?_eq_none (Nat.le_of_not_lt hle)
    rw [kind, node, hnone] at hcall
    cases hcall
  have hnode := (Array.all_eq_true.1 h) call hlt
  rw [kind, node, Array.getElem?_eq_getElem hlt, Option.getD_some] at hcall
  rw [hcall] at hnode
  exact hnode

/-- The solver's runs are among those in any order, and those report nothing.  Two of them, under
settings that differ at most in the order of work, end with the same flows after the same number of
rounds, if the callees that held functions in one hold functions at the end of the other. -/
theorem flows_agree {e : Expr} {settings : Settings} {order : PopOrder} {depth : Nat}
    {p p' : Program} {s s' : State} (hnil : e.mentionsNil = false)
    (htypes : settings.types = false) (hflows : settings.flows = true)
    (h : build e settings depth = .ok (p, s))
    (h' : build e { settings with popOrder := order } depth = .ok (p', s')) :
    (∀ stats t, p.run s = some (stats, t) → stats.converged = true →
      ∃ trace, p.Runs s trace stats.widenRounds stats.violations t) ∧
    (∀ stats t, p'.run s' = some (stats, t) → stats.converged = true →
      ∃ trace, p'.Runs s' trace stats.widenRounds stats.violations t) ∧
    ∀ trace rounds found t trace' rounds' found' t',
      p.Runs s trace rounds found t → p'.Runs s' trace' rounds' found' t' →
      found = [] ∧ found' = [] ∧
        (p.Retains trace t'.flows → p'.Retains trace' t.flows →
          t.flows = t'.flows ∧ rounds = rounds') := by
  obtain ⟨rfl, hforest, hinitial⟩ := build_withOrder h h'
  have hsettings := settings_of_build h
  have hp : p.Propagates :=
    ⟨by rw [hsettings, htypes], by rw [hsettings, hflows], tree_of_build h, nilFree_of_build hnil h⟩
  have hq := hp.withOrder order
  have hready := ready_of_build hnil h
  have hready' := ready_of_build hnil h'
  refine ⟨fun _ _ => runs_of_run, fun _ _ => runs_of_run, ?_⟩
  intro trace rounds found t trace' rounds' found' t' hruns hruns'
  refine ⟨?_, ?_, ?_⟩
  · exact calm_runs hp hready hruns
  · exact calm_runs hq hready' hruns'
  · exact runs_agree hp hready hready' hforest hinitial hruns hruns'

/-- The program `({ x -> x } 3)`, newest first and oldest first. -/
theorem flows_agree_identity_three :
    ∃ a a', Expr.analyze (.apply (.lambda ["x"] (.ident "x") true) [.int 3])
        { types := false } = .ok a ∧
      Expr.analyze (.apply (.lambda ["x"] (.ident "x") true) [.int 3])
        { types := false, popOrder := .fifo } = .ok a' ∧
      a.state.flows = a'.state.flows ∧ a.stats.widenRounds = a'.stats.widenRounds ∧
      a.stats.violations = [] ∧ a'.stats.violations = [] := by
  have hlifo : ((Expr.analyze (.apply (.lambda ["x"] (.ident "x") true) [.int 3])
      { types := false }).toOption.map fun a =>
        (a.stats.converged, a.program.calleesHold a.state.flows)) = some (true, true) := by
    decide +kernel
  have hfifo : ((Expr.analyze (.apply (.lambda ["x"] (.ident "x") true) [.int 3])
      { types := false, popOrder := .fifo }).toOption.map fun a =>
        (a.stats.converged, a.program.calleesHold a.state.flows)) = some (true, true) := by
    decide +kernel
  obtain ⟨a, ha, hends⟩ := ok_of_map hlifo
  obtain ⟨a', ha', hends'⟩ := ok_of_map hfifo
  rw [Prod.mk.injEq] at hends hends'
  obtain ⟨s, hbuild, hrun⟩ := Expr.analyze_eq_ok.1 ha
  obtain ⟨s', hbuild', hrun'⟩ := Expr.analyze_eq_ok.1 ha'
  obtain ⟨hsolver, hsolver', hagree⟩ := flows_agree rfl rfl rfl hbuild hbuild'
  obtain ⟨trace, htrace⟩ := hsolver _ _ hrun hends.1
  obtain ⟨trace', htrace'⟩ := hsolver' _ _ hrun' hends'.1
  obtain ⟨hfound, hfound', hequal⟩ := hagree _ _ _ _ _ _ _ _ htrace htrace'
  have hprogram : a'.program = a.program.withOrder .fifo := (build_withOrder hbuild hbuild').1
  have hholds : a.program.calleesHold a'.state.flows = true := by
    have h := hends'.2
    rw [hprogram] at h
    exact h
  have hholds' : a'.program.calleesHold a.state.flows = true := by
    rw [hprogram]
    exact hends.2
  obtain ⟨hflows, hrounds⟩ :=
    hequal (retains_of_calleesHold hholds trace) (retains_of_calleesHold hholds' trace')
  exact ⟨a, a', ha, ha', hflows, hrounds, hfound, hfound'⟩

end Program

/-- In `h = { g -> (g 1) }; (pair (h 5) (h { x -> x }))` the call `(g 1)` reaches `{ x -> x }` or
not, depending on when `g` falls below all functions. -/
theorem flows_raced :
    ¬∀ (e : Expr) (settings : Settings) (order : PopOrder) (a a' : Analysis),
      e.mentionsNil = false → settings.types = false → settings.flows = true →
      e.analyze settings = .ok a → e.analyze { settings with popOrder := order } = .ok a' →
      a.stats.converged = true → a'.stats.converged = true →
      a.state.flows = a'.state.flows ∧ a.stats.widenRounds = a'.stats.widenRounds ∧
        a.stats.violations = [] ∧ a'.stats.violations = [] := by
  intro h
  have hlifo : ((Expr.analyze (.letIn "h" (.lambda ["g"] (.apply (.ident "g") [.int 1]) true)
      (.apply (.prim .pair) [.apply (.ident "h") [.int 5],
        .apply (.ident "h") [.lambda ["x"] (.ident "x") true]]))
      { types := false }).toOption.map fun a => (a.stats.converged, a.state.flows.ofNode 10)) =
        some (true, .int (.const 1)) := by
    decide +kernel
  have hfifo : ((Expr.analyze (.letIn "h" (.lambda ["g"] (.apply (.ident "g") [.int 1]) true)
      (.apply (.prim .pair) [.apply (.ident "h") [.int 5],
        .apply (.ident "h") [.lambda ["x"] (.ident "x") true]]))
      { types := false, popOrder := .fifo }).toOption.map fun a =>
        (a.stats.converged, a.state.flows.ofNode 10)) = some (true, .any) := by
    decide +kernel
  obtain ⟨a, ha, hends⟩ := ok_of_map hlifo
  obtain ⟨a', ha', hends'⟩ := ok_of_map hfifo
  rw [Prod.mk.injEq] at hends hends'
  have hflows := (h _ _ .fifo a a' rfl rfl rfl ha ha' hends.1 hends'.1).1
  have hnode : Flow.int (.const 1) = .any := by rw [← hends.2, ← hends'.2, hflows]
  cases hnode

end TypeFlow
