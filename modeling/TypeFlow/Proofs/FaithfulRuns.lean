import TypeFlow.Proofs.BuiltTerms
import TypeFlow.Proofs.FaithfulSteps
import TypeFlow.Proofs.FlowUpkeep
import TypeFlow.Proofs.Runs

/-!
# Type steps of a run are faithful

In every state that a run may lead to the forest is sound and has the terms of the program, so there
every type step and its probe answer the same.  What a run watches for while it makes type steps
never happens: classes are not split, none is merged by a step that answers `false`, and none by a
probe.

Main definitions:

- `Program.Termed`: the forest is sound and has all terms of the program.
- `Program.Ripens`: one state goes on from another, in which merged classes stay merged.
- `Program.Upholds`: a step keeps this, and its answer has a property.

Main results:

- `Program.ripens_of_leads`: every state that a run may lead to is such.
- `Program.run_upholds`: no run reports a split or an unannounced merge.
- `Program.type_steps_faithful`: both, from the first state of every program on.
-/

namespace TypeFlow

open Unifier (Continues Call)

/-- The report is about merges that a type step should not have made, or about a split. -/
def Violation.ofMerges : Violation → Bool
  | split _ | silentMerge _ | probeMerged _ _ => true
  | rose _ _ | unsettledType _ _ | unsettledFlow _ _ _ _ => false

namespace Program

variable {α β : Type} {p : Program} {s t : State}

/-! ## Access to the terms -/

/-- Committing runs a computation on the forest with what is queued. -/
theorem commit_eq_some {run : UnifyM α} {a : α} :
    commit run s = some (a, t) ↔ ∃ u, run (Call.start s.forest (some s.work)) = some (a, u) ∧
      t = ⟨u.forest, s.flows, u.work.getD default⟩ := by
  have h : commit run s = (run (Call.start s.forest (some s.work))).map
      fun r => (r.1, ⟨r.2.forest, s.flows, r.2.work.getD default⟩) := rfl
  rw [h]
  constructor
  · intro h
    obtain ⟨r, hr, he⟩ := Option.map_eq_some_iff.1 h
    cases he
    exact ⟨r.2, hr, rfl⟩
  · rintro ⟨u, hu, rfl⟩
    rw [hu]
    rfl

private theorem probe_eq_some {run : UnifyM α} {a : α} :
    probe run s = some (a, t) ↔ ∃ u, run (Call.start s.forest none) = some (a, u) ∧
      t = { s with forest := u.forest } := by
  have h : probe run s = (run (Call.start s.forest none)).map
      fun r => (r.1, { s with forest := r.2.forest }) := rfl
  rw [h]
  constructor
  · intro h
    obtain ⟨r, hr, he⟩ := Option.map_eq_some_iff.1 h
    cases he
    exact ⟨r.2, hr, rfl⟩
  · rintro ⟨u, hu, rfl⟩
    rw [hu]
    rfl

private theorem forestSays_eq_some {read : Forest → α} {a : α} :
    forestSays read s = some (a, t) ↔ read s.forest = a ∧ s = t := by
  have h : forestSays read s = some (read s.forest, s) := rfl
  rw [h, Option.some.injEq, Prod.mk.injEq]

/-! ## Type steps -/

/-- The forest is sound and has all terms of the program. -/
structure Termed (p : Program) (s : State) : Prop where
  sound : s.forest.Sound
  terms : p.TermsIn s.forest.size

/-- The second state goes on from the first: it has all terms, and merged classes stay merged. -/
structure Ripens (p : Program) (s t : State) : Prop where
  termed : p.Termed t
  evolves : Forest.Evolves s.forest t.forest

private theorem Ripens.refl (hs : p.Termed s) : p.Ripens s s := ⟨hs, .refl hs.sound.rooted⟩

private theorem Ripens.trans {u : State} (h : p.Ripens s t) (h' : p.Ripens t u) : p.Ripens s u :=
  ⟨h'.termed, h.evolves.trans h'.evolves⟩

private theorem Ripens.queue (hs : p.Termed s) (work : Worklist) :
    p.Ripens s { s with work := work } :=
  ⟨⟨hs.sound, hs.terms⟩, .refl hs.sound.rooted⟩

private theorem Termed.ripens (hs : p.Termed s) (h : State.Matures s t) : p.Ripens s t :=
  ⟨⟨(h hs.sound).1, hs.terms.mono (h hs.sound).2.grows.size⟩, (h hs.sound).2⟩

/-- A probe of a type step tidies the forest up at most, and nothing else changes. -/
theorem probe_typeStep (hs : p.Termed s) {id : NodeId} {b : Bool}
    (h : probe (p.typeStep s.flows id) s = some (b, t)) :
    s.forest.Preserved t.forest ∧ t.flows = s.flows ∧ t.work = s.work := by
  obtain ⟨u, hu, rfl⟩ := probe_eq_some.1 h
  have hup := (p.spares_typeStep s.flows id _ _ _ hu rfl hs.sound.rooted).1
  exact ⟨hs.sound.preserved hup, rfl, rfl⟩

/-- A type step answers what its probe answers, and if that is `false` it added no term and merged
no class. -/
theorem commit_typeStep (hs : p.Termed s) {id : NodeId} {b : Bool}
    (h : commit (p.typeStep s.flows id) s = some (b, t)) :
    (∀ b' t', probe (p.typeStep s.flows id) s = some (b', t') → b' = b) ∧
      (b = false → t.forest.size = s.forest.size ∧ t.forest.unions = s.forest.unions ∧
        ∀ x, t.forest.rep x = s.forest.rep x) := by
  obtain ⟨u, hu, rfl⟩ := commit_eq_some.1 h
  have hready := Call.ready_start hs.sound s.work
  rcases typeStep_honest hready hs.terms s.flows id b u hu with ⟨hrests, hsame⟩ | ⟨rfl, hyes⟩
  · refine ⟨fun b' t' h' => ?_, fun _ => ⟨hrests.size, hrests.unions, hrests.steady.rep⟩⟩
    obtain ⟨v, hv, -⟩ := probe_eq_some.1 h'
    exact hsame b' v hv
  · refine ⟨fun b' t' h' => ?_, fun hfalse => (Bool.false_ne_true hfalse.symm).elim⟩
    obtain ⟨v, hv, -⟩ := probe_eq_some.1 h'
    exact hyes b' v hv

/-- A type step with what it announces is the step, after which the forest stays as it is but for
look-ups. -/
theorem advanceType_runs (hs : p.Termed s) {id : NodeId} {b : Bool}
    (h : p.advanceType id s = some (b, t)) :
    ∃ u v, p.typeStep s.flows id (Call.start s.forest (some s.work)) = some (b, u) ∧
      Continues (Call.start s.forest (some s.work)) u ∧ Stays u v ∧
      t = ⟨v.forest, s.flows, v.work.getD default⟩ := by
  obtain ⟨flows, s₁, hflows, h⟩ := bind_eq_some.1 h
  obtain ⟨rfl, rfl⟩ := flowsSay_eq_some.1 hflows
  obtain ⟨v, hv, rfl⟩ := commit_eq_some.1 h
  obtain ⟨progress, u, hstep, hv⟩ := bind_eq_some.1 hv
  have hstart := Call.sound_start hs.sound (some s.work)
  have hcontinues := (typeStep_safe hstart hs.terms s.flows id _ _ hstep).1
  cases progress with
  | false =>
    obtain ⟨rfl, rfl⟩ := pure_eq_some.1 hv
    exact ⟨u, u, hstep, hcontinues, Std.Refl.refl _, rfl⟩
  | true =>
    obtain ⟨x, w, hannounce, hv⟩ := bind_eq_some.1 hv
    obtain ⟨rfl, rfl⟩ := pure_eq_some.1 hv
    exact ⟨u, w, hstep, hcontinues, p.stays_announceWithin _ id _ _ _ hannounce, rfl⟩

/-- A type step with what it announces lets the forest evolve, and merges only if it says so. -/
theorem advanceType_eq_some (hs : p.Termed s) {id : NodeId} {b : Bool}
    (h : p.advanceType id s = some (b, t)) :
    State.Matures s t ∧ (b = false → t.forest.unions = s.forest.unions) := by
  obtain ⟨u, v, hstep, hu, hstays, rfl⟩ := advanceType_runs hs h
  have hv := hu.trans (hstays.continues hu.sound)
  refine ⟨fun _ => ⟨hv.sound.forest, hv.evolves⟩, ?_⟩
  rintro rfl
  have hcommit := commit_typeStep hs (commit_eq_some.2 ⟨u, hstep, rfl⟩)
  show v.forest.unions = s.forest.unions
  rw [(hstays.upkeeps hu.sound.forest.rooted).unions]
  exact (hcommit.2 rfl).2.1

/-- Watching a type step looks at the state before and after it. -/
theorem advanceType_of_stepType {id : NodeId} {found : List Violation}
    (h : p.stepType id s = some (found, t)) : ∃ b, p.advanceType id s = some (b, t) := by
  rcases ite_eq_some.1 h with ⟨-, h⟩ | ⟨-, h⟩
  · obtain ⟨before, s₁, hbefore, h⟩ := bind_eq_some.1 h
    obtain ⟨rfl, rfl⟩ := forestSays_eq_some.1 hbefore
    obtain ⟨classes, s₂, hclasses, h⟩ := bind_eq_some.1 h
    obtain ⟨rfl, rfl⟩ := forestSays_eq_some.1 hclasses
    obtain ⟨unions, s₃, hunions, h⟩ := bind_eq_some.1 h
    obtain ⟨rfl, rfl⟩ := forestSays_eq_some.1 hunions
    obtain ⟨progress, u, hadvance, h⟩ := bind_eq_some.1 h
    refine ⟨progress, ?_⟩
    split at h
    · obtain ⟨after, u₁, hafter, h⟩ := bind_eq_some.1 h
      obtain ⟨rfl, rfl⟩ := forestSays_eq_some.1 hafter
      rwa [← (pure_eq_some.1 h).2]
    · obtain ⟨after, u₁, hafter, h⟩ := bind_eq_some.1 h
      obtain ⟨rfl, rfl⟩ := forestSays_eq_some.1 hafter
      rwa [← (pure_eq_some.1 h).2]
  · obtain ⟨progress, u, hadvance, h⟩ := bind_eq_some.1 h
    rw [← (pure_eq_some.1 h).2]
    exact ⟨progress, hadvance⟩

/-! ## Steps that keep the terms -/

/-- From every state with a sound forest that has all terms the step leads to another one, and what
it answers has the property. -/
def Upholds (p : Program) (good : α → Prop) (m : StepM α) : Prop :=
  ∀ s a t, p.Termed s → m s = some (a, t) → p.Ripens s t ∧ good a

/-- None of the reports is about merges or splits. -/
abbrev Clean (found : List Violation) : Prop := ∀ v ∈ found, v.ofMerges = false

section Rules

variable {good : α → Prop} {good' : β → Prop}

private theorem upholds_pure {a : α} (h : good a) : p.Upholds good (pure a) := by
  intro s b t hs hr
  obtain ⟨rfl, rfl⟩ := pure_eq_some.1 hr
  exact ⟨.refl hs, h⟩

private theorem Upholds.bind {m : StepM β} {k : β → StepM α} (hm : p.Upholds good' m)
    (hk : ∀ b, good' b → p.Upholds good (k b)) : p.Upholds good (m >>= k) := by
  intro s a t hs h
  obtain ⟨b, u, hb, h⟩ := bind_eq_some.1 h
  obtain ⟨hu, hgood⟩ := hm s b u hs hb
  obtain ⟨ht, hgood'⟩ := hk b hgood u a t hu.termed h
  exact ⟨hu.trans ht, hgood'⟩

private theorem upholds_ite {c : Prop} [Decidable c] {m m' : StepM α} (h : p.Upholds good m)
    (h' : p.Upholds good m') : p.Upholds good (if c then m else m') := by
  split
  · exact h
  · exact h'

private theorem upholds_of_matures {m : StepM α} (h : Keeps State.Matures m) :
    p.Upholds (fun _ => True) m :=
  fun s a t hs hr => ⟨hs.ripens (h s a t hr), trivial⟩

private theorem upholds_forestSays (read : Forest → α) : p.Upholds (fun _ => True) (forestSays read) := by
  intro s a t hs h
  obtain ⟨-, rfl⟩ := forestSays_eq_some.1 h
  exact ⟨.refl hs, trivial⟩

private theorem Clean.append {found more : List Violation} (h : Clean found) (h' : Clean more) :
    Clean (found ++ more) := fun v hv => (List.mem_append.1 hv).elim (h v) (h' v)

private theorem clean_nil : Clean [] := fun _ hv => absurd hv List.not_mem_nil

end Rules

/-! ## What a run reports -/

/-- Watching a type step finds nothing. -/
theorem stepType_upholds (id : NodeId) : p.Upholds Clean (p.stepType id) := by
  intro s found t hs h
  rcases ite_eq_some.1 h with ⟨-, h⟩ | ⟨-, h⟩
  · obtain ⟨before, s₁, hbefore, h⟩ := bind_eq_some.1 h
    obtain ⟨rfl, rfl⟩ := forestSays_eq_some.1 hbefore
    obtain ⟨classes, s₂, hclasses, h⟩ := bind_eq_some.1 h
    obtain ⟨rfl, rfl⟩ := forestSays_eq_some.1 hclasses
    obtain ⟨unions, s₃, hunions, h⟩ := bind_eq_some.1 h
    obtain ⟨rfl, rfl⟩ := forestSays_eq_some.1 hunions
    obtain ⟨progress, u, hadvance, h⟩ := bind_eq_some.1 h
    obtain ⟨hmatures, hsilent⟩ := advanceType_eq_some hs hadvance
    cases progress with
    | true =>
      obtain ⟨after, u₁, hafter, h⟩ := bind_eq_some.1 h
      obtain ⟨rfl, rfl⟩ := forestSays_eq_some.1 hafter
      obtain ⟨rfl, rfl⟩ := pure_eq_some.1 h
      rw [if_neg (Nat.not_lt.2 ((hmatures hs.sound).2.classes_le le_rfl))]
      exact ⟨hs.ripens hmatures, clean_nil⟩
    | false =>
      obtain ⟨after, u₁, hafter, h⟩ := bind_eq_some.1 h
      obtain ⟨rfl, rfl⟩ := forestSays_eq_some.1 hafter
      obtain ⟨rfl, rfl⟩ := pure_eq_some.1 h
      rw [if_neg (not_not.2 (hsilent rfl))]
      exact ⟨hs.ripens hmatures, clean_nil⟩
  · obtain ⟨progress, u, hadvance, h⟩ := bind_eq_some.1 h
    obtain ⟨rfl, rfl⟩ := pure_eq_some.1 h
    exact ⟨hs.ripens (advanceType_eq_some hs hadvance).1, clean_nil⟩

private theorem stepFlow_upholds (id : NodeId) : p.Upholds Clean (p.stepFlow id) := by
  refine (upholds_of_matures (matures_flowStep id)).bind fun rise _ => upholds_pure ?_
  intro v hv
  obtain ⟨r, -, rfl⟩ := List.mem_map.1 hv
  rfl

private theorem byAnalysis_upholds {types flows : StepM (List Violation)} (htypes : p.Upholds Clean types)
    (hflows : p.Upholds Clean flows) : p.Upholds Clean (p.byAnalysis types flows) := by
  refine (upholds_ite htypes (upholds_pure clean_nil)).bind fun ofTypes hofTypes => ?_
  refine (upholds_ite hflows (upholds_pure clean_nil)).bind fun ofFlows hofFlows => ?_
  exact upholds_pure (hofTypes.append hofFlows)

private theorem visit_upholds (id : NodeId) : p.Upholds Clean (p.visit id) := by
  rw [visit_eq]
  exact byAnalysis_upholds (stepType_upholds id) (stepFlow_upholds id)

private theorem nextTurn_upholds : p.Upholds (fun _ => True) p.nextTurn := by
  intro s turn t hs h
  rcases nextTurn_eq_some h with ⟨-, rfl, -⟩ | ⟨-, work, -, rfl⟩ | ⟨id, rest, -, -, -, rfl⟩
  · exact ⟨.refl hs, trivial⟩
  · exact ⟨.queue hs _, trivial⟩
  · exact ⟨.queue hs _, trivial⟩

private theorem driveWithin_upholds (fuel : Nat) {found : List Violation} (hfound : Clean found) :
    p.Upholds (fun course => Clean course.violations) (p.driveWithin fuel found) := by
  induction fuel generalizing found with
  | zero => exact fun s a t _ h => (failure_eq_some.1 h).elim
  | succ fuel ih =>
    refine nextTurn_upholds.bind fun turn _ => ?_
    cases turn with
    | idle => exact upholds_pure hfound
    | stopped => exact upholds_pure hfound
    | take id => exact (visit_upholds id).bind fun more hmore => ih (hfound.append hmore)

private theorem drive_upholds : p.Upholds (fun course => Clean course.violations) p.drive :=
  fun s course t hs h => driveWithin_upholds _ clean_nil s course t hs h

/-- Probing a type step that should have nothing to do merges nothing. -/
theorem checkType_upholds (phase : Phase) (id : NodeId) :
    p.Upholds Clean (p.checkType phase id) := by
  intro s found t hs h
  obtain ⟨unions, s₁, hunions, h⟩ := bind_eq_some.1 h
  obtain ⟨rfl, rfl⟩ := forestSays_eq_some.1 hunions
  obtain ⟨flows, s₂, hflows, h⟩ := bind_eq_some.1 h
  obtain ⟨rfl, rfl⟩ := flowsSay_eq_some.1 hflows
  obtain ⟨progress, u, hprobe, h⟩ := bind_eq_some.1 h
  obtain ⟨after, u₁, hafter, h⟩ := bind_eq_some.1 h
  obtain ⟨rfl, rfl⟩ := forestSays_eq_some.1 hafter
  obtain ⟨rfl, rfl⟩ := pure_eq_some.1 h
  obtain ⟨hpreserved, -, -⟩ := probe_typeStep hs hprobe
  have hmatures : State.Matures s u := fun hf =>
    ⟨hpreserved.upkeeps.sound hf, (hpreserved.upkeeps.steady hf.rooted).evolves⟩
  refine ⟨hs.ripens hmatures, Clean.append ?_ ?_⟩
  · split
    · exact List.forall_mem_singleton.2 rfl
    · exact clean_nil
  · rw [if_neg]
    · exact clean_nil
    · simp [hpreserved.unions]

private theorem checkFlow_upholds (phase : Phase) (id : NodeId) :
    p.Upholds Clean (p.checkFlow phase id) := by
  have hevaluate : Keeps State.Matures (onTerms fun flows => p.evaluate flows id) := by
    intro s flow t h
    obtain ⟨forest, heval, rfl⟩ := onTerms_eq_some.1 h
    exact matures_evaluate s.flows id _ _ _ heval
  refine (upholds_of_matures hevaluate).bind fun recomputed _ => ?_
  refine (upholds_of_matures (keeps_of_quiet p (quiet_flowsSay _))).bind fun held _ => ?_
  refine upholds_pure ?_
  split
  · exact List.forall_mem_singleton.2 rfl
  · exact clean_nil

private theorem checkNodes_upholds (phase : Phase) (ids : List NodeId) {found : List Violation}
    (hfound : Clean found) : p.Upholds Clean (p.checkNodes phase ids found) := by
  induction ids generalizing found with
  | nil => exact upholds_pure hfound
  | cons id rest ih =>
    have hnode : p.Upholds Clean (p.checkNode phase id) := by
      rw [checkNode_eq]
      refine (upholds_of_matures keeps_get).bind fun s _ => upholds_ite (upholds_pure clean_nil) ?_
      exact byAnalysis_upholds (checkType_upholds phase id) (checkFlow_upholds phase id)
    exact hnode.bind fun more hmore => ih (hfound.append hmore)

private theorem check_upholds (phase : Phase) (converged : Bool) :
    p.Upholds Clean (p.check phase converged) :=
  upholds_ite (checkNodes_upholds phase _ clean_nil) (upholds_pure clean_nil)

private theorem settle_upholds (phase : Phase) :
    p.Upholds (fun course => Clean course.violations) (p.settle phase) :=
  drive_upholds.bind fun course hcourse => (check_upholds phase course.converged).bind
    fun _ hmore => upholds_pure (hcourse.append hmore)

private theorem widenRounds_upholds (left rounds : Nat) {course : Course}
    (hcourse : Clean course.violations) :
    p.Upholds (fun r => Clean r.2.violations) (p.widenRounds left rounds course) := by
  induction left generalizing rounds course with
  | zero => exact upholds_pure hcourse
  | succ left ih =>
    refine upholds_ite (upholds_pure hcourse) ?_
    refine (upholds_of_matures (keeps_widenEscapes p)).bind fun widened _ => ?_
    refine upholds_ite (upholds_pure hcourse) ?_
    exact (settle_upholds _).bind fun next hnext => ih _ (hcourse.append hnext)

/-- No run reports a split or a merge that was not announced, whether it converges or not. -/
theorem run_upholds : p.Upholds (fun stats => Clean stats.violations) p.run := by
  refine (upholds_forestSays _).bind fun initialTerms _ => ?_
  refine (settle_upholds _).bind fun course hcourse => ?_
  refine (widenRounds_upholds _ _ hcourse).bind fun r hr => ?_
  refine (upholds_forestSays _).bind fun terms _ => ?_
  exact (upholds_of_matures keeps_get).bind fun s _ => upholds_pure hr

/-! ## Every state of a run -/

private theorem perform_upholds (step : SolverStep) : p.Upholds (fun _ => True) (p.perform step) := by
  cases step with
  | type id => exact (stepType_upholds id).bind fun _ _ => upholds_pure trivial
  | flow id => exact (stepFlow_upholds id).bind fun _ _ => upholds_pure trivial
  | widen =>
    exact (upholds_of_matures (keeps_widenEscapes p)).bind fun _ _ => upholds_pure trivial
  | check phase converged =>
    exact (check_upholds phase converged).bind fun _ _ => upholds_pure trivial

/-- Whatever steps are made in whatever order, every state goes on from the first. -/
theorem ripens_of_leads (hs : p.Termed s) (h : p.Leads s t) : p.Ripens s t := by
  induction h with
  | refl => exact .refl hs
  | tail _ hmove ih =>
    cases hmove with
    | step step hstep => exact ih.trans (perform_upholds step _ _ _ ih.termed hstep).1
    | queue => exact ih.trans (.queue ih.termed _)

/-- So the forest stays sound and has all terms. -/
theorem termed_of_leads (hs : p.Termed s) (h : p.Leads s t) : p.Termed t :=
  (ripens_of_leads hs h).termed

/-- From the first state of every program on, in whatever order steps are made: a probe of a type
step adds no term, merges no class and changes no flow, and answers what the step answers, and a step
that answers `false` adds no term and merges no class.  So no run reports that a type step split
classes, merged some without saying so, or merged some in a probe. -/
theorem type_steps_faithful {e : Expr} {settings : Settings} {depth : Nat}
    (h : Program.build e settings depth = .ok (p, s)) :
    (∀ t, p.Leads s t → ∀ id,
      (∀ b u, probe (p.typeStep t.flows id) t = some (b, u) →
        t.forest.Preserved u.forest ∧ u.flows = t.flows ∧ u.work = t.work) ∧
      ∀ b u, commit (p.typeStep t.flows id) t = some (b, u) →
        (∀ b' v, probe (p.typeStep t.flows id) t = some (b', v) → b' = b) ∧
          (b = false → u.forest.size = t.forest.size ∧ u.forest.unions = t.forest.unions ∧
            ∀ x, u.forest.rep x = t.forest.rep x)) ∧
      ∀ stats t, p.run s = some (stats, t) → ∀ id phase, .split id ∉ stats.violations ∧
        .silentMerge id ∉ stats.violations ∧ .probeMerged id phase ∉ stats.violations := by
  obtain ⟨hsound, hterms⟩ := termed_of_build h
  have hs : p.Termed s := ⟨hsound, hterms⟩
  refine ⟨fun t ht id => ?_, fun stats t hrun id phase => ?_⟩
  · have ht := termed_of_leads hs ht
    exact ⟨fun b u => probe_typeStep ht, fun b u => commit_typeStep ht⟩
  · have hclean := (run_upholds s stats t hs hrun).2
    have habsent : ∀ v : Violation, v.ofMerges = true → v ∉ stats.violations := by
      intro v hv hmem
      rw [hclean v hmem] at hv
      cases hv
    exact ⟨habsent _ rfl, habsent _ rfl, habsent _ rfl⟩

/-- The program `(pair 3 4)`: both the step of the call and its probe answer at first that there is
something to change, and in the end neither finds anything. -/
theorem type_steps_faithful_pair : ∃ p s stats t u v w,
    Program.build (.apply (.prim .pair) [.int 3, .int 4]) {} = .ok (p, s) ∧
      probe (p.typeStep s.flows 1) s = some (true, u) ∧ s.forest.Preserved u.forest ∧
      commit (p.typeStep s.flows 1) s = some (true, v) ∧
      p.run s = some (stats, t) ∧ s.forest.unions < t.forest.unions ∧
      (∀ id, .silentMerge id ∉ stats.violations) ∧
      commit (p.typeStep t.flows 1) t = some (false, w) ∧ w.forest.size = t.forest.size := by
  have hrun : ((Program.build (.apply (.prim .pair) [.int 3, .int 4]) {}).toOption.bind fun r =>
      (probe (r.1.typeStep r.2.flows 1) r.2).bind fun u =>
        (commit (r.1.typeStep r.2.flows 1) r.2).bind fun v =>
          (r.1.run r.2).bind fun x =>
            (commit (r.1.typeStep x.2.flows 1) x.2).map fun w =>
              (u.1, v.1, w.1, decide (r.2.forest.unions < x.2.forest.unions))) =
      some (true, true, false, true) := by
    decide +kernel
  obtain ⟨r, hbuild, hrun⟩ := Option.bind_eq_some_iff.1 hrun
  obtain ⟨⟨b, u⟩, hprobe, hrun⟩ := Option.bind_eq_some_iff.1 hrun
  obtain ⟨⟨b', v⟩, hcommit, hrun⟩ := Option.bind_eq_some_iff.1 hrun
  obtain ⟨⟨stats, t⟩, hall, hrun⟩ := Option.bind_eq_some_iff.1 hrun
  obtain ⟨⟨b'', w⟩, hlast, hanswers⟩ := Option.map_eq_some_iff.1 hrun
  simp only [Prod.mk.injEq, decide_eq_true_eq] at hanswers
  obtain ⟨rfl, rfl, rfl, hunions⟩ := hanswers
  obtain ⟨⟨p, s⟩, hok, rfl⟩ := ok_of_map (f := id) (by rw [Option.map_id]; exact hbuild)
  obtain ⟨hsteps, hruns⟩ := type_steps_faithful hok
  have hleads := keeps_leads_run p s stats t hall
  have hpreserved := ((hsteps s .refl 1).1 _ _ hprobe).1
  have hrests := ((hsteps t hleads 1).2 _ _ hlast).2 rfl
  exact ⟨p, s, stats, t, u, v, w, hok, hprobe, hpreserved, hcommit, hall, hunions,
    fun id => (hruns stats t hall id .fixpoint).2.1, hlast, hrests.1⟩

end Program

end TypeFlow
