import Mathlib.Data.List.Chain
import TypeFlow.Program.Fixpoint
import TypeFlow.Proofs.Construction
import TypeFlow.Proofs.Steps

/-!
# Flows only fall

Whatever the solver does next, no flow of a node and no flow of a parameter ever rises.  Type steps
and looking over do not touch flows.  A flow step installs a recomputed flow only below the old one,
and the meet of both where it rose; parameters are only ever lowered by a meet.

Main definitions:

- `SolverStep`: the steps of the solver, on any node.
- `Program.Moves`: what may happen next in a run: a step, in any order, or a change of what is
  pending.

Main results:

- `Program.perform_le`: no step raises a flow.
- `Program.flows_fall`: from the first state on, every slot falls along every run.
-/

namespace TypeFlow

/-- A step of the solver. -/
inductive SolverStep
  /-- The type step of a node. -/
  | type (id : NodeId)
  /-- The flow step of a node. -/
  | flow (id : NodeId)
  /-- The widening of the functions that escape. -/
  | widen
  /-- Looking every settled node over. -/
  | check (phase : Phase) (converged : Bool)

/-- No flow rose from one state to the other. -/
def State.Falls (s t : State) : Prop := t.flows ≤ s.flows

instance : IsPreorder State State.Falls where
  refl _ := le_refl (α := Flows) _
  trans _ _ _ hst htu := le_trans (α := Flows) htu hst

/-- All flows are the same in both states. -/
def State.SameFlows (s t : State) : Prop := t.flows = s.flows

instance : IsPreorder State State.SameFlows where
  refl _ := rfl
  trans _ _ _ hst htu := Eq.trans htu hst

private theorem State.SameFlows.falls {s t : State} (h : State.SameFlows s t) : State.Falls s t :=
  le_of_eq (α := Flows) h

namespace Program

/-- Performs a step. -/
def perform (p : Program) : SolverStep → StepM Unit
  | .type id => do let _ ← p.stepType id
  | .flow id => do let _ ← p.stepFlow id
  | .widen => do let _ ← p.widenEscapes
  | .check phase converged => do let _ ← p.check phase converged

/-- What may happen next in a run: a step of the solver on any node, or any change of what is
pending, as when a node is taken. -/
inductive Moves (p : Program) : State → State → Prop
  | step {s t : State} (step : SolverStep) (h : p.perform step s = some ((), t)) : Moves p s t
  | queue (s : State) (work : Worklist) : Moves p s { s with work := work }

variable {α : Type}

/-! ## Steps that leave flows alone -/

private theorem falls_of_advances {m : StepM α} (h : Keeps State.Advances m) : Keeps State.Falls m :=
  h.mono fun _ _ hst => hst.flows

instance (p : Program) : StepStable p State.Falls where
  quiet h := h.flows.le
  pass hcallee index arg := falls_of_advances (StepStable.pass hcallee index arg)
  widen hcallee := falls_of_advances (StepStable.widen hcallee)

private theorem keeps_sameFlows_commit (run : UnifyM α) : Keeps State.SameFlows (commit run) := by
  intro s a t h
  obtain ⟨r, -, e⟩ := Option.map_eq_some_iff.1 h
  rw [Prod.mk.injEq] at e
  rw [← e.2]
  rfl

private theorem keeps_sameFlows_probe (run : UnifyM α) : Keeps State.SameFlows (probe run) := by
  intro s a t h
  obtain ⟨r, -, e⟩ := Option.map_eq_some_iff.1 h
  rw [Prod.mk.injEq] at e
  rw [← e.2]
  rfl

private theorem keeps_sameFlows_forestSays (read : Forest → α) :
    Keeps State.SameFlows (forestSays read) := by
  intro s a t h
  have e : some (read s.forest, s) = some (a, t) := h
  rw [Option.some.injEq, Prod.mk.injEq] at e
  rw [e.2]
  exact Std.Refl.refl t

private theorem keeps_sameFlows_flowsSay (read : Flows → α) : Keeps State.SameFlows (flowsSay read) :=
  (quiet_flowsSay read).mono fun _ _ h => h.flows

private theorem keeps_sameFlows_onTerms (run : Flows → ForestM α) :
    Keeps State.SameFlows (onTerms run) := by
  intro s a t h
  obtain ⟨forest, -, rfl⟩ := onTerms_eq_some.1 h
  rfl

/-- A type step changes no flow. -/
theorem keeps_sameFlows_stepType (p : Program) (id : NodeId) :
    Keeps State.SameFlows (p.stepType id) := by
  have hadvance : Keeps State.SameFlows (p.advanceType id) :=
    keeps_bind (keeps_sameFlows_flowsSay _) fun flows => keeps_sameFlows_commit _
  unfold stepType
  split
  · refine keeps_bind (keeps_sameFlows_forestSays _) fun before => ?_
    refine keeps_bind (keeps_sameFlows_forestSays _) fun classes => ?_
    refine keeps_bind (keeps_sameFlows_forestSays _) fun unions => ?_
    refine keeps_bind hadvance fun progress => ?_
    split
    · exact keeps_bind (keeps_sameFlows_forestSays _) fun after => keeps_pure _
    · exact keeps_bind (keeps_sameFlows_forestSays _) fun after => keeps_pure _
  · exact keeps_bind hadvance fun _ => keeps_pure _

/-- The results of both analyses, as far as the settings ask for them. -/
def byAnalysis (p : Program) (types flows : StepM (List Violation)) : StepM (List Violation) :=
  (if p.settings.types then types else pure []) >>= fun ofTypes =>
    (if p.settings.flows then flows else pure []) >>= fun ofFlows => pure (ofTypes ++ ofFlows)

/-- A visit steps type and flow as far as these are analysed. -/
theorem visit_eq (p : Program) (id : NodeId) :
    p.visit id = p.byAnalysis (p.stepType id) (p.stepFlow id) := by
  unfold visit byAnalysis
  cases p.settings.types <;> cases p.settings.flows <;> rfl

/-- A node that waits is not checked, and others are as far as types and flows are analysed. -/
theorem checkNode_eq (p : Program) (phase : Phase) (id : NodeId) :
    p.checkNode phase id =
      get >>= fun s =>
        if s.work.has id then pure []
        else p.byAnalysis (p.checkType phase id) (p.checkFlow phase id) := by
  unfold checkNode byAnalysis
  cases p.settings.types <;> cases p.settings.flows <;> rfl

/-- What the steps that are analysed keep is kept by analysis. -/
theorem keeps_byAnalysis {R : State → State → Prop} [IsPreorder State R] {p : Program}
    {types flows : StepM (List Violation)} (htypes : p.settings.types = true → Keeps R types)
    (hflows : p.settings.flows = true → Keeps R flows) : Keeps R (p.byAnalysis types flows) := by
  have hif : ∀ {b : Bool} {m : StepM (List Violation)}, (b = true → Keeps R m) →
      Keeps R (if b then m else pure []) := by
    intro b m hm
    split
    · exact hm ‹_›
    · exact keeps_pure _
  refine keeps_bind (hif htypes) fun ofTypes => ?_
  exact keeps_bind (hif hflows) fun ofFlows => keeps_pure _

/-- Checking the nodes changes no flow. -/
theorem keeps_sameFlows_check (p : Program) (phase : Phase) (converged : Bool) :
    Keeps State.SameFlows (p.check phase converged) := by
  have htype : ∀ id, Keeps State.SameFlows (p.checkType phase id) := by
    intro id
    refine keeps_bind (keeps_sameFlows_forestSays _) fun unions => ?_
    refine keeps_bind (keeps_sameFlows_flowsSay _) fun flows => ?_
    refine keeps_bind (keeps_sameFlows_probe _) fun progress => ?_
    exact keeps_bind (keeps_sameFlows_forestSays _) fun after => keeps_pure _
  have hflow : ∀ id, Keeps State.SameFlows (p.checkFlow phase id) := by
    intro id
    refine keeps_bind (keeps_sameFlows_onTerms _) fun recomputed => ?_
    exact keeps_bind (keeps_sameFlows_flowsSay _) fun held => keeps_pure _
  have hnode : ∀ id, Keeps State.SameFlows (p.checkNode phase id) := by
    intro id
    rw [checkNode_eq]
    refine keeps_bind keeps_get fun s => ?_
    split
    · exact keeps_pure _
    · exact keeps_byAnalysis (fun _ => htype id) fun _ => hflow id
  have hnodes : ∀ ids found, Keeps State.SameFlows (p.checkNodes phase ids found) := by
    intro ids
    induction ids with
    | nil => exact fun found => keeps_pure found
    | cons id rest ih => exact fun found => keeps_bind (hnode id) fun more => ih (found ++ more)
  unfold check
  split
  · exact hnodes _ _
  · exact keeps_pure _

/-! ## Every step lets flows fall -/

private theorem keeps_falls_flowStep (p : Program) (id : NodeId) : Keeps State.Falls (p.flowStep id) := by
  intro s rise t h
  obtain ⟨new, forest, -, h⟩ := flowStep_eq_some h
  have hinstall : ∀ {flow : Flow}, flow ≤ s.flows.ofNode id →
      p.install id flow { s with forest := forest } = some ((), t) → State.Falls s t := by
    intro flow hle hflow
    have ht : t.flows ≤ s.flows.setNode id flow :=
      install_related (R := State.Falls) (s := { s with forest := forest }) hflow
    exact ht.trans (Flows.setNode_le hle)
  rcases h with ⟨-, -, rfl⟩ | ⟨-, hle, -, hnew⟩ | ⟨-, -, rfl | hmeet⟩
  · exact le_refl (α := Flows) _
  · exact hinstall hle hnew
  · exact le_refl (α := Flows) _
  · exact hinstall inf_le_left hmeet

/-- No step raises a flow, on whatever node and in whatever state it is made. -/
theorem perform_le (p : Program) (step : SolverStep) : Keeps State.Falls (p.perform step) := by
  cases step with
  | type id =>
    refine keeps_bind ?_ fun _ => keeps_pure _
    exact (keeps_sameFlows_stepType p id).mono fun _ _ => State.SameFlows.falls
  | flow id =>
    refine keeps_bind ?_ fun _ => keeps_pure _
    exact keeps_bind (keeps_falls_flowStep p id) fun rise => keeps_pure _
  | widen =>
    refine keeps_bind ?_ fun _ => keeps_pure _
    exact keeps_widenEscapes p
  | check phase converged =>
    refine keeps_bind ?_ fun _ => keeps_pure _
    exact (keeps_sameFlows_check p phase converged).mono fun _ _ => State.SameFlows.falls

private theorem moves_le {p : Program} {s t : State} (h : p.Moves s t) : t.flows ≤ s.flows := by
  cases h with
  | step step h => exact perform_le p step s () t h
  | queue => exact le_rfl

/-! ## What runs are made of -/

/-- The relation leads along every run: it holds along any change of what is pending and along every
step that the settings ask for. -/
structure Drives (p : Program) (R : State → State → Prop) : Prop where
  queue : ∀ (s : State) (work : Worklist), R s { s with work := work }
  type : p.settings.types = true → ∀ id, Keeps R (p.stepType id)
  flow : p.settings.flows = true → ∀ id, Keeps R (p.stepFlow id)
  widen : Keeps R p.widenEscapes
  check : ∀ phase converged, Keeps R (p.check phase converged)

namespace Drives

variable {p : Program} {R : State → State → Prop} [IsPreorder State R] (hR : p.Drives R)

include hR

/-- A visit keeps what steps keep. -/
theorem visit (id : NodeId) : Keeps R (p.visit id) := by
  rw [visit_eq]
  exact keeps_byAnalysis (hR.type · id) (hR.flow · id)

private theorem nextTurn : Keeps R p.nextTurn := by
  rintro ⟨forest, flows, work⟩ turn t h
  have hqueue : ∀ work', R ⟨forest, flows, work⟩ ⟨forest, flows, work'⟩ :=
    hR.queue ⟨forest, flows, work⟩
  simp only [Program.nextTurn] at h
  cases hpop : work.pop? with
  | none =>
    rw [hpop] at h
    cases h
    exact Std.Refl.refl _
  | some r =>
    rw [hpop] at h
    dsimp only at h
    split at h
    · cases h
      exact hqueue _
    · cases h
      exact hqueue _

/-- So does driving the queue. -/
theorem drive : Keeps R p.drive := by
  have hwithin : ∀ fuel found, Keeps R (p.driveWithin fuel found) := by
    intro fuel
    induction fuel with
    | zero => exact fun found => keeps_failure
    | succ fuel ih =>
      intro found
      refine keeps_bind hR.nextTurn fun turn => ?_
      split
      · exact keeps_pure _
      · exact keeps_pure _
      · exact keeps_bind (hR.visit _) fun more => ih (found ++ more)
  intro s course t h
  exact hwithin _ _ s course t h

private theorem settle (phase : Phase) : Keeps R (p.settle phase) := by
  refine keeps_bind hR.drive fun course => ?_
  exact keeps_bind (hR.check phase course.converged) fun more => keeps_pure _

private theorem widenRounds (left rounds : Nat) (course : Course) :
    Keeps R (p.widenRounds left rounds course) := by
  induction left generalizing rounds course with
  | zero => exact keeps_pure _
  | succ left ih =>
    unfold Program.widenRounds
    split
    · exact keeps_pure _
    · refine keeps_bind hR.widen fun widened => ?_
      split
      · exact keeps_pure _
      · exact keeps_bind (hR.settle _) fun next => ih _ _

omit hR in
private theorem forestSays (read : Forest → α) : Keeps R (forestSays read) := by
  intro s a t h
  have e : some (read s.forest, s) = some (a, t) := h
  rw [Option.some.injEq, Prod.mk.injEq] at e
  rw [e.2]
  exact Std.Refl.refl t

/-- So does a run. -/
theorem run : Keeps R p.run := by
  refine keeps_bind (forestSays _) fun initialTerms => ?_
  refine keeps_bind (hR.settle _) fun course => ?_
  refine keeps_bind (hR.widenRounds _ _ _) fun r => ?_
  refine keeps_bind (forestSays _) fun terms => ?_
  exact keeps_bind keeps_get fun s => keeps_pure _

end Drives

/-! ## Runs are sequences of moves -/

/-- What a run leads to, move by move. -/
def Leads (p : Program) : State → State → Prop := Relation.ReflTransGen p.Moves

instance (p : Program) : IsPreorder State p.Leads where
  refl _ := Relation.ReflTransGen.refl
  trans _ _ _ := Relation.ReflTransGen.trans

/-- Flows fall along the moves of a program. -/
theorem leads_le {p : Program} {s t : State} (h : p.Leads s t) : t.flows ≤ s.flows := by
  induction h with
  | refl => exact le_rfl
  | tail _ hmove ih => exact (moves_le hmove).trans ih

private theorem keeps_leads_of_perform {p : Program} (step : SolverStep) {m : StepM α}
    (h : p.perform step = do let _ ← m) : Keeps p.Leads m := by
  intro s a t ht
  refine Relation.ReflTransGen.single (Moves.step step ?_)
  rw [h]
  exact bind_eq_some.2 ⟨a, t, ht, rfl⟩

/-- Runs are made of moves of the program. -/
theorem drives_leads (p : Program) : p.Drives p.Leads where
  queue s work := Relation.ReflTransGen.single (.queue s work)
  type _ id := keeps_leads_of_perform (.type id) rfl
  flow _ id := keeps_leads_of_perform (.flow id) rfl
  widen := keeps_leads_of_perform .widen rfl
  check phase converged := keeps_leads_of_perform (.check phase converged) rfl

/-- A run is a chain of moves. -/
theorem keeps_leads_run (p : Program) : Keeps p.Leads p.run := (drives_leads p).run

/-! ## From the first state on -/

/-- Nothing was observed in the first state of a program. -/
theorem flows_of_build {e : Expr} {settings : Settings} {depth : Nat} {p : Program} {s : State}
    (h : Program.build e settings depth = .ok (p, s)) :
    (∀ id, s.flows.ofNode id = .any) ∧ ∀ fid, ∀ flow ∈ s.flows.ofFormals fid, flow = .any := by
  obtain ⟨b, -, rfl, rfl⟩ := build_eq_ok.1 h
  constructor
  · intro id
    by_cases hid : id < b.nodes.size
    · simp [Flows.ofNode, Builder.initialFlows, hid]
    · simp [Flows.ofNode, Builder.initialFlows, hid]
  · intro fid flow hflow
    simp only [Flows.ofFormals, Builder.initialFlows, Array.getElem?_map] at hflow
    cases hnode : b.functions[fid - 1]? with
    | none => simp [hnode] at hflow
    | some node =>
      rw [hnode] at hflow
      simp only [Option.map_some, Option.getD_some] at hflow
      split at hflow
      · obtain ⟨-, -, rfl⟩ := List.mem_map.1 hflow
        rfl
      · cases hflow

/-- In the first state of every program nothing was observed of any slot.  From there every slot
falls along every sequence of moves, and a whole run is such a sequence. -/
theorem flows_fall {e : Expr} {settings : Settings} {depth : Nat} {p : Program} {s : State}
    (h : Program.build e settings depth = .ok (p, s)) :
    (∀ id, s.flows.ofNode id = .any) ∧
      (∀ fid, ∀ flow ∈ s.flows.ofFormals fid, flow = .any) ∧
      (∀ run, (s :: run).IsChain p.Moves →
        (s :: run).Pairwise fun u v => v.flows ≤ u.flows) ∧
      ∀ stats t, p.run s = some (stats, t) →
        ∃ run, (s :: run).IsChain p.Moves ∧ (s :: run).getLast (List.cons_ne_nil s run) = t := by
  obtain ⟨hnodes, hformals⟩ := flows_of_build h
  refine ⟨hnodes, hformals, ?_, ?_⟩
  · intro run hrun
    have hfalls : (s :: run).IsChain State.Falls := hrun.imp fun _ _ => moves_le
    have : Trans State.Falls State.Falls State.Falls := ⟨IsTrans.trans _ _ _⟩
    exact hfalls.pairwise
  · intro stats t ht
    exact List.exists_isChain_cons_of_relationReflTransGen (keeps_leads_run p s stats t ht)

/-- The program `dec 3`: its flows fall along every run. -/
theorem flows_fall_dec_three :
    ∃ p s, Program.build (.apply (.prim .dec) [.int 3]) {} = .ok (p, s) ∧
      ∀ run, (s :: run).IsChain p.Moves → (s :: run).Pairwise fun u v => v.flows ≤ u.flows := by
  have hbuild : ∃ r, Program.build (.apply (.prim .dec) [.int 3]) {} = .ok r := ⟨_, rfl⟩
  obtain ⟨⟨p, s⟩, h⟩ := hbuild
  exact ⟨p, s, h, (flows_fall h).2.2.1⟩

end Program

end TypeFlow
