import TypeFlow.Proofs.Computations
import TypeFlow.Program.Fixpoint

/-!
# Runs with their visits

A run is a sequence of visits, with looks over the nodes and rounds of widening in between.  Here the
loops of a run list the visits they make, each with the state it finds.  Apart from that they are the
loops themselves, so the visits of a run that has no result are listed too.

Main definitions:

- `Traced`: a computation on states that lists the visits it makes.
- `Program.traceRun`, `Program.visits`: a run with its visits, and the visits alone.

Main results:

- `Program.traceRun_run`: a run with its visits ends as the run.
-/

namespace TypeFlow

/-! ## Visits -/

/-- A visit: the node, and the state before its steps. -/
abbrev Visit := NodeId × State

/-- A computation on states that lists the visits it makes, those before a failure included. -/
def Traced (α : Type) : Type := State → List Visit × Option (α × State)

namespace Traced

variable {α β : Type}

/-- A computation that makes no visit. -/
def lift (m : StepM α) : Traced α := fun s => ([], m s)

/-- A computation that is the visit of a node. -/
def visiting (id : NodeId) (m : StepM α) : Traced α := fun s => ([(id, s)], m s)

/-- The visits of two computations in turn. -/
protected def bind (m : Traced α) (f : α → Traced β) : Traced β := fun s =>
  match m s with
  | (visits, some (a, t)) => (visits ++ (f a t).1, (f a t).2)
  | (visits, none) => (visits, none)

instance : Monad Traced where
  pure a := lift (pure a)
  bind := Traced.bind

instance : MonadLift StepM Traced where
  monadLift := lift

/-- A traced computation that answers goes on with what it visited. -/
theorem bind_of_some {m : Traced α} {s t : State} {a : α} {visits : List Visit}
    (h : m s = (visits, some (a, t))) (f : α → Traced β) :
    (m >>= f) s = (visits ++ (f a t).1, (f a t).2) := by
  change Traced.bind m f s = _
  unfold Traced.bind
  rw [h]

/-- One that does not answer visits nothing more. -/
theorem bind_of_none {m : Traced α} {s : State} {visits : List Visit} (h : m s = (visits, none))
    (f : α → Traced β) : (m >>= f) s = (visits, none) := by
  change Traced.bind m f s = _
  unfold Traced.bind
  rw [h]

end Traced

namespace Program

/-- Visits at most `fuel` pending nodes. -/
def traceWithin (p : Program) : Nat → List Violation → Traced Course
  | 0, _ => Traced.lift failure
  | fuel + 1, found => do
    match ← p.nextTurn with
    | .idle => return ⟨true, found⟩
    | .stopped => return ⟨false, found⟩
    | .take id =>
      let more ← Traced.visiting id (p.visit id)
      traceWithin p fuel (found ++ more)

/-- Visits pending nodes until none waits or the ceiling is reached. -/
def traceDrive (p : Program) : Traced Course :=
  fun s => p.traceWithin (p.settings.maxIterations - s.work.pops + 1) [] s

/-- Visits what is pending and looks every node over. -/
def traceSettle (p : Program) (phase : Phase) : Traced Course := do
  let course ← p.traceDrive
  let more ← p.check phase course.converged
  return ⟨course.converged, course.violations ++ more⟩

/-- At most `left` more rounds of widening, each followed by what it leaves to do. -/
def traceRounds (p : Program) : Nat → Nat → Course → Traced (Nat × Course)
  | 0, rounds, course => return (rounds, course)
  | left + 1, rounds, course => do
    if !course.converged then return (rounds, course)
    if !(← p.widenEscapes) then return (rounds, course)
    let next ← p.traceSettle .escapeWidening
    traceRounds p left (rounds + 1) ⟨next.converged, course.violations ++ next.violations⟩

/-- A whole run with its visits. -/
def traceRun (p : Program) : Traced Stats := do
  let initialTerms ← forestSays Forest.size
  let course ← p.traceSettle .fixpoint
  let limit := if p.settings.flows then p.settings.maxWidenRounds else 0
  let (rounds, course) ← p.traceRounds limit 0 course
  let terms ← forestSays Forest.size
  let last ← (get : StepM State)
  return {
    nodes := p.size
    initialTerms := initialTerms
    terms := terms
    pops := last.work.pops
    widenRounds := rounds
    converged := course.converged
    violations := course.violations }

/-- The visits of a run, in their order. -/
def visits (p : Program) (s : State) : List Visit := (p.traceRun s).1

end Program

/-! ## A run with its visits is the run -/

namespace Traced

variable {α β : Type}

/-- Apart from the visits, it is the computation. -/
def Mirrors (m : Traced α) (m' : StepM α) : Prop := ∀ s, (m s).2 = m' s

private theorem mirrors_lift (m : StepM α) : Mirrors (lift m) m := fun _ => rfl

private theorem mirrors_pure (a : α) : Mirrors (pure a) (pure a) := mirrors_lift _

private theorem mirrors_visiting (id : NodeId) (m : StepM α) : Mirrors (visiting id m) m := fun _ => rfl

private theorem mirrors_bind {m : Traced α} {m' : StepM α} {f : α → Traced β} {f' : α → StepM β}
    (hm : Mirrors m m') (hf : ∀ a, Mirrors (f a) (f' a)) : Mirrors (m >>= f) (m' >>= f') := by
  intro s
  have hbind : (m' >>= f') s = (m' s).bind fun r => f' r.1 r.2 := rfl
  rw [hbind, ← hm s]
  rcases h : m s with ⟨visits, _ | ⟨a, t⟩⟩
  · rw [bind_of_none h]
    rfl
  · rw [bind_of_some h]
    exact hf a t

private theorem mirrors_ite {c : Prop} [Decidable c] {m n : Traced α} {m' n' : StepM α}
    (hm : Mirrors m m') (hn : Mirrors n n') :
    Mirrors (if c then m else n) (if c then m' else n') := by
  split
  · exact hm
  · exact hn

end Traced

namespace Program

open Traced (Mirrors mirrors_lift mirrors_pure mirrors_visiting mirrors_bind mirrors_ite)

private theorem traceSettle_settle (p : Program) (phase : Phase) :
    Mirrors (p.traceSettle phase) (p.settle phase) := by
  have hwithin : ∀ fuel found, Mirrors (p.traceWithin fuel found) (p.driveWithin fuel found) := by
    intro fuel
    induction fuel with
    | zero => exact fun _ => mirrors_lift _
    | succ fuel ih =>
      intro found
      refine mirrors_bind (mirrors_lift _) fun turn => ?_
      cases turn with
      | idle => exact mirrors_pure _
      | stopped => exact mirrors_pure _
      | take id => exact mirrors_bind (mirrors_visiting id _) fun more => ih _
  refine mirrors_bind (fun s => hwithin _ _ s) fun course => ?_
  exact mirrors_bind (mirrors_lift _) fun more => mirrors_pure _

private theorem traceRounds_widenRounds (p : Program) (left rounds : Nat) (course : Course) :
    Mirrors (p.traceRounds left rounds course) (p.widenRounds left rounds course) := by
  induction left generalizing rounds course with
  | zero => exact mirrors_pure _
  | succ left ih =>
    refine mirrors_ite (mirrors_pure _) (mirrors_bind (mirrors_lift _) fun widened => ?_)
    refine mirrors_ite (mirrors_pure _) ?_
    exact mirrors_bind (traceSettle_settle p _) fun next => ih _ _

/-- A run with its visits ends as the run. -/
theorem traceRun_run (p : Program) (s : State) : (p.traceRun s).2 = p.run s := by
  suffices h : Mirrors p.traceRun p.run from h s
  refine mirrors_bind (mirrors_lift _) fun initialTerms => ?_
  refine mirrors_bind (traceSettle_settle p _) fun course => ?_
  refine mirrors_bind (traceRounds_widenRounds p _ _ _) fun r => ?_
  refine mirrors_bind (mirrors_lift _) fun terms => ?_
  exact mirrors_bind (mirrors_lift _) fun last => mirrors_pure _

end Program

end TypeFlow
