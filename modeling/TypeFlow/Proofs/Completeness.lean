import TypeFlow.Proofs.FirstStates

/-!
# What runs report

Without types, a run that the ceiling does not stop reports nothing but rises and what follows from
them, and without nil nothing at all: whoever reads a flow is woken when it changes.  With types the
same cannot be said, for a type step may have progress to make that nobody woke its node for.

Main results:

- `Program.violations_of_build`: what runs of prepared programs report where no types are computed.
- `unsettled_misapplied`: a run with types that leaves a node unsettled.
-/

namespace TypeFlow

namespace Program

/-- A run of a prepared program that computes no types, in any order of visits, reports nothing
unless a flow rose, and no flow rises in a program without nil. -/
theorem violations_of_build {e : Expr} {settings : Settings} {depth : Nat} {p : Program} {s : State}
    (htypes : settings.types = false) (h : build e settings depth = .ok (p, s)) :
    (∀ stats t, p.run s = some (stats, t) → stats.converged = true →
      ∃ trace, p.Runs s trace stats.widenRounds stats.violations t) ∧
    ∀ trace rounds found t, p.Runs s trace rounds found t →
      (found = [] ↔ ∀ id rise, Violation.rose id rise ∉ found) ∧
      (e.mentionsNil = false → found = []) := by
  have hsettings := settings_of_build h
  have htypes' : p.settings.types = false := by rw [hsettings, htypes]
  refine ⟨fun stats t hrun hc => runs_of_run hrun hc, ?_⟩
  intro trace rounds found t hruns
  cases hflows : settings.flows with
  | false =>
    have hflows' : p.settings.flows = false := by rw [hsettings, hflows]
    have hfound := violations_of_idle htypes' hflows' hruns
    refine ⟨⟨?_, fun _ => hfound⟩, fun _ => hfound⟩
    rintro rfl id rise hmem
    cases hmem
  | true =>
    have hflows' : p.settings.flows = true := by rw [hsettings, hflows]
    have htree := tree_of_build h
    refine ⟨violations_of_runs htypes' hflows' htree (tended_of_build h) hruns, fun hnil => ?_⟩
    exact calm_runs ⟨htypes', hflows', htree, nilFree_of_build hnil h⟩ (ready_of_build hnil h) hruns

/-- The program `({ x -> x } 3)` without types: its run ends and reports nothing. -/
theorem violations_identity_three :
    ∃ a, Expr.analyze (.apply (.lambda ["x"] (.ident "x") true) [.int 3]) { types := false } = .ok a ∧
      a.stats.converged = true ∧ a.stats.violations = [] := by
  have hrun : ((Expr.analyze (.apply (.lambda ["x"] (.ident "x") true) [.int 3])
      { types := false }).toOption.map fun a => a.stats.converged) = some true := by
    decide +kernel
  obtain ⟨a, ha, hc⟩ := ok_of_map hrun
  obtain ⟨s, hbuild, hrun⟩ := Expr.analyze_eq_ok.1 ha
  obtain ⟨hsolver, hruns⟩ := violations_of_build rfl hbuild
  obtain ⟨trace, htrace⟩ := hsolver a.stats a.state hrun hc
  exact ⟨a, ha, hc, (hruns _ _ _ _ htrace).2 rfl⟩

end Program

/-- With types, the run of `({ x -> (x 1) } 3)` ends and still finds a type step to make: the call
`(x 1)` was not woken when the type of `x` became an error. -/
theorem unsettled_misapplied :
    ¬∀ (source : String) (settings : Settings) (a : Analysis),
      settings.checkInvariants = true → analyze source settings = .ok a →
      a.stats.converged = true → a.stats.violations = [] := by
  intro h
  have hrun : ((analyze "({ x -> (x 1) } 3)" {}).toOption.map fun a =>
      (a.stats.converged, a.stats.violations)) = some (true, [.unsettledType 3 .fixpoint]) := by
    decide +kernel
  obtain ⟨a, ha, hstats⟩ := ok_of_map hrun
  rw [Prod.mk.injEq] at hstats
  have hnone := h _ _ a rfl ha hstats.1
  rw [hstats.2] at hnone
  cases hnone

end TypeFlow
