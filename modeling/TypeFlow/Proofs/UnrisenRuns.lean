import TypeFlow.Proofs.FirstStates

/-!
# Runs in which no flow rises

Where only flows are computed, a node that does not wait holds the flow that a recomputation would
give it, in every state of a run up to the first step that reports a rise.  The order of the visits
does not matter, nor does it how often escaping functions are widened in between.

Main definitions:

- `Program.Unrisen`: what may happen next in a run, short of the rise of a flow.

Main results:

- `Program.tended_of_unrisen`: what happens short of a rise leaves no node that is not settled out
  of the worklist.
- `Program.settled_of_unrisen`: nodes that do not wait are settled throughout, and runs without a
  rise report nothing of them.
-/

namespace TypeFlow

namespace Program

/-- What may happen next in a run, short of the rise of a flow: the visit of a node, which thereby
ceases to wait, a round of widening, looking every node over, or the announcement of more work. -/
inductive Unrisen (p : Program) : State → State → Prop
  | visit {s t : State} {id : NodeId} {rest : Worklist} {found : List Violation}
      (hrest : ∀ n, n ∈ s.work.pending → n ≠ id → n ∈ rest.pending)
      (h : p.visit id { s with work := rest } = some (found, t))
      (hrose : ∀ n rise, Violation.rose n rise ∉ found) : Unrisen p s t
  | widen {s t : State} {widened : Bool} (h : p.widenEscapes s = some (widened, t)) : Unrisen p s t
  | check {s t : State} {phase : Phase} {converged : Bool} {found : List Violation}
      (h : p.check phase converged s = some (found, t)) : Unrisen p s t
  | announce {s : State} {work : Worklist} (h : ∀ n, n ∈ s.work.pending → n ∈ work.pending) :
    Unrisen p s { s with work := work }

variable {p : Program}

section Untyped

variable (htypes : p.settings.types = false) (hflows : p.settings.flows = true) (htree : p.Tree)

include htypes hflows htree

/-! ## One move -/

/-- A visit that reports no rise reports nothing, and leaves a node unsettled only if it waits. -/
theorem visit_tended {id : NodeId} {rest : Worklist} {s t : State} {found : List Violation}
    (hs : p.Tended s) (hrest : ∀ n, n ∈ s.work.pending → n ≠ id → n ∈ rest.pending)
    (h : p.visit id { s with work := rest } = some (found, t))
    (hrose : ∀ n rise, Violation.rose n rise ∉ found) : found = [] ∧ p.Tended t := by
  obtain ⟨rise, hstep, rfl⟩ := visit_eq_some htypes hflows h
  have hnone : rise = none := by
    cases rise with
    | none => rfl
    | some r => exact absurd List.mem_cons_self (hrose id r)
  subst hnone
  have hs' := hs.sound.of_work rest
  refine ⟨rfl, flowStep_sound htypes htree hs' hstep, ?_⟩
  refine flowStep_settled htypes htree hs' hstep ?_
  intro n hn hne
  exact hs.settled n fun hmem => hn (hrest n hmem hne)

private theorem tended_of_unrisen {s t : State} (hs : p.Tended s) (h : p.Unrisen s t) : p.Tended t := by
  cases h with
  | visit hrest h hrose => exact (visit_tended htypes hflows htree hs hrest h hrose).2
  | widen h => exact tended_widenEscapes htree hs h
  | check h =>
    rw [(check_eq_some htypes h).1]
    exact hs
  | announce h => exact ⟨hs.sound.of_work _, fun n hn => hs.settled n fun hmem => hn (h n hmem)⟩

/-- Any number of moves short of a rise leave a node unsettled only if it waits. -/
theorem tended_of_unrisens {s t : State} (hs : p.Tended s)
    (h : Relation.ReflTransGen p.Unrisen s t) : p.Tended t := by
  induction h with
  | refl => exact hs
  | tail _ hmove ih => exact tended_of_unrisen htypes hflows htree ih hmove

/-! ## Whole runs -/

/-- Up to the first rise, the loop reports nothing and makes moves short of a rise. -/
theorem driveWithin_unrisen {fuel : Nat} {found : List Violation} {s t : State} {course : Course}
    (h : p.driveWithin fuel found s = some (course, t)) :
    ∃ more, course.violations = found ++ more ∧
      (p.Tended s → (∀ n rise, Violation.rose n rise ∉ more) →
        more = [] ∧ Relation.ReflTransGen p.Unrisen s t) := by
  induction fuel generalizing found s with
  | zero => exact (failure_eq_some.1 h).elim
  | succ fuel ih =>
    obtain ⟨turn, u, hturn, hrun⟩ := bind_eq_some.1 h
    rcases nextTurn_eq_some hturn with
      ⟨rfl, rfl, -⟩ | ⟨rfl, work, hwork, rfl⟩ | ⟨id, rest, rfl, -, hrest, rfl⟩
    · obtain ⟨rfl, rfl⟩ := pure_eq_some.1 hrun
      exact ⟨[], (List.append_nil found).symm, fun _ _ => ⟨rfl, .refl⟩⟩
    · obtain ⟨rfl, rfl⟩ := pure_eq_some.1 hrun
      exact ⟨[], (List.append_nil found).symm, fun _ _ => ⟨rfl, .single (.announce hwork)⟩⟩
    · obtain ⟨first, v, hvisit, hloop⟩ := bind_eq_some.1 hrun
      obtain ⟨more, hfound, hmore⟩ := ih hloop
      refine ⟨first ++ more, by rw [hfound, List.append_assoc], fun hs hnone => ?_⟩
      have hrest' : ∀ n, n ∈ s.work.pending → n ≠ id → n ∈ rest.pending := fun n hn hne =>
        (hrest n).2 ⟨hn, hne⟩
      have hrose : ∀ n rise, Violation.rose n rise ∉ first := fun n rise hmem =>
        hnone n rise (List.mem_append_left _ hmem)
      obtain ⟨rfl, hv⟩ := visit_tended htypes hflows htree hs hrest' hvisit hrose
      obtain ⟨rfl, hleads⟩ := hmore hv fun n rise hmem =>
        hnone n rise (List.mem_append_right _ hmem)
      exact ⟨rfl, .head (.visit hrest' hvisit hrose) hleads⟩

private theorem settle_unrisen {phase : Phase} {s t : State} {course : Course}
    (h : p.settle phase s = some (course, t)) (hs : p.Tended s)
    (hrose : ∀ n rise, Violation.rose n rise ∉ course.violations) :
    course.violations = [] ∧ Relation.ReflTransGen p.Unrisen s t := by
  obtain ⟨driven, u, hdrive, h₁⟩ := bind_eq_some.1 h
  obtain ⟨more, v, hcheck, h₂⟩ := bind_eq_some.1 h₁
  obtain ⟨rfl, rfl⟩ := pure_eq_some.1 h₂
  obtain ⟨found, hfound, hdriven⟩ := driveWithin_unrisen htypes hflows htree hdrive
  rw [List.nil_append] at hfound
  obtain ⟨rfl, hleads⟩ := hdriven hs fun n rise hmem =>
    hrose n rise (List.mem_append_left _ (by rw [hfound]; exact hmem))
  have hu := tended_of_unrisens htypes hflows htree hs hleads
  refine ⟨?_, hleads.tail (.check hcheck)⟩
  dsimp only
  rw [hfound, (check_eq_some htypes hcheck).2 hu.settled]
  rfl

private theorem widenRounds_unrisen {left rounds total : Nat} {course final : Course} {s t : State}
    (h : p.widenRounds left rounds course s = some ((total, final), t)) :
    ∃ more, final.violations = course.violations ++ more ∧
      (p.Tended s → (∀ n rise, Violation.rose n rise ∉ more) →
        more = [] ∧ Relation.ReflTransGen p.Unrisen s t) := by
  have hstay : ∀ {rounds : Nat} {s t : State} {course : Course},
      (pure (rounds, course) : StepM _) s = some ((total, final), t) →
      ∃ more, final.violations = course.violations ++ more ∧
        (p.Tended s → (∀ n rise, Violation.rose n rise ∉ more) →
          more = [] ∧ Relation.ReflTransGen p.Unrisen s t) := by
    intro rounds s t course h
    obtain ⟨e, rfl⟩ := pure_eq_some.1 h
    cases e
    exact ⟨[], (List.append_nil _).symm, fun _ _ => ⟨rfl, .refl⟩⟩
  induction left generalizing rounds course s with
  | zero => exact hstay h
  | succ left ih =>
    unfold widenRounds at h
    split at h
    · exact hstay h
    obtain ⟨widened, u, hwiden, h₁⟩ := bind_eq_some.1 h
    cases widened with
    | false =>
      obtain ⟨more, hfound, hmore⟩ := hstay h₁
      refine ⟨more, hfound, fun hs hnone => ?_⟩
      obtain ⟨rfl, hleads⟩ := hmore (tended_widenEscapes htree hs hwiden) hnone
      exact ⟨rfl, .head (.widen hwiden) hleads⟩
    | true =>
      obtain ⟨next, v, hsettle, h₂⟩ := bind_eq_some.1 h₁
      obtain ⟨more, hfound, hmore⟩ := ih h₂
      refine ⟨next.violations ++ more, by rw [hfound, List.append_assoc], fun hs hnone => ?_⟩
      have hu := tended_widenEscapes htree hs hwiden
      obtain ⟨hnext, hleads⟩ := settle_unrisen htypes hflows htree hsettle hu fun n rise hmem =>
        hnone n rise (List.mem_append_left _ hmem)
      have hv := tended_of_unrisens htypes hflows htree hu hleads
      obtain ⟨rfl, hrest⟩ := hmore hv fun n rise hmem =>
        hnone n rise (List.mem_append_right _ hmem)
      rw [hnext]
      exact ⟨rfl, .head (.widen hwiden) (hleads.trans hrest)⟩

/-- A run that reports no rise makes moves short of one and reports nothing, whether the ceiling
stops it or not. -/
theorem run_unrisen {s t : State} {stats : Stats} (hs : p.Tended s)
    (h : p.run s = some (stats, t)) (hrose : ∀ n rise, Violation.rose n rise ∉ stats.violations) :
    stats.violations = [] ∧ Relation.ReflTransGen p.Unrisen s t := by
  obtain ⟨terms, s₁, hterms, h₁⟩ := bind_eq_some.1 h
  obtain ⟨course, u, hsettle, h₂⟩ := bind_eq_some.1 h₁
  obtain ⟨⟨rounds, final⟩, v, hwiden, h₃⟩ := bind_eq_some.1 h₂
  obtain ⟨terms', v₁, hterms', h₄⟩ := bind_eq_some.1 h₃
  obtain ⟨w, v₂, hget, h₅⟩ := bind_eq_some.1 h₄
  obtain ⟨rfl, rfl⟩ := get_eq_some.1 hget
  obtain ⟨rfl, rfl⟩ := pure_eq_some.1 h₅
  cases hterms
  cases hterms'
  dsimp only at hrose ⊢
  obtain ⟨more, hfound, hmore⟩ := widenRounds_unrisen htypes hflows htree hwiden
  rw [hfound] at hrose ⊢
  obtain ⟨hcourse, hleads⟩ := settle_unrisen htypes hflows htree hsettle hs fun n rise hmem =>
    hrose n rise (List.mem_append_left _ hmem)
  have hu := tended_of_unrisens htypes hflows htree hs hleads
  obtain ⟨rfl, hrest⟩ := hmore hu fun n rise hmem => hrose n rise (List.mem_append_right _ hmem)
  rw [hcourse]
  exact ⟨rfl, hleads.trans hrest⟩

end Untyped

/-! ## From the first state on -/

/-- Where only flows are computed, a node that does not wait holds the flow that a recomputation
gives it, in every state that moves short of a rise lead to from the first state of a program.  A
run that reports no rise makes such moves only, and never finds a node to hold another flow. -/
theorem settled_of_unrisen {e : Expr} {settings : Settings} {depth : Nat} {s : State}
    (htypes : settings.types = false) (hflows : settings.flows = true)
    (h : Program.build e settings depth = .ok (p, s)) :
    (∀ t, Relation.ReflTransGen p.Unrisen s t → ∀ n, n ∉ t.work.pending →
      p.evaluate t.flows n t.forest = some (t.flows.ofNode n, t.forest)) ∧
    ∀ stats t, p.run s = some (stats, t) →
      (∀ n rise, Violation.rose n rise ∉ stats.violations) →
      Relation.ReflTransGen p.Unrisen s t ∧
        ∀ n held recomputed phase,
          Violation.unsettledFlow n held recomputed phase ∉ stats.violations := by
  have hsettings := settings_of_build h
  have htypes' : p.settings.types = false := by rw [hsettings, htypes]
  have hflows' : p.settings.flows = true := by rw [hsettings, hflows]
  have htree := tree_of_build h
  have hs := tended_of_build h
  constructor
  · intro t ht n hn
    have hsettled := (tended_of_unrisens htypes' hflows' htree hs ht).settled n hn
    rw [evaluate_eq htypes', hsettled]
    rfl
  · intro stats t hrun hrose
    obtain ⟨hnone, hleads⟩ := run_unrisen htypes' hflows' htree hs hrun hrose
    refine ⟨hleads, fun n held recomputed phase hmem => ?_⟩
    rw [hnone] at hmem
    cases hmem

/-- The program `({ x -> x } 3)` without types: its run reports no rise, so at its end every node
that does not wait holds its recomputed flow. -/
theorem settled_of_unrisen_identity_three :
    ∃ a, Expr.analyze (.apply (.lambda ["x"] (.ident "x") true) [.int 3]) { types := false } = .ok a ∧
      a.stats.converged = true ∧ ∀ n, n ∉ a.state.work.pending →
        a.program.evaluate a.state.flows n a.state.forest =
          some (a.state.flows.ofNode n, a.state.forest) := by
  have hrun : ((Expr.analyze (.apply (.lambda ["x"] (.ident "x") true) [.int 3])
      { types := false }).toOption.map fun a => (a.stats.converged, a.stats.violations)) =
      some (true, []) := by
    decide +kernel
  obtain ⟨a, ha, hstats⟩ := ok_of_map hrun
  rw [Prod.mk.injEq] at hstats
  obtain ⟨s, hbuild, hrun⟩ := Expr.analyze_eq_ok.1 ha
  obtain ⟨hsettled, hruns⟩ := settled_of_unrisen rfl rfl hbuild
  obtain ⟨hleads, -⟩ := hruns a.stats a.state hrun fun n rise hmem => by
    rw [hstats.2] at hmem
    cases hmem
  exact ⟨a, ha, hstats.1, hsettled a.state hleads⟩

end Program

end TypeFlow
