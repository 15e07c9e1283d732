import TypeFlow.Program.Escape
import TypeFlow.Program.Typing

/-!
# Running to a fixpoint

One loop drives both analyses: every node taken off the worklist gets a type step and a flow step,
each of which announces the nodes it affects.  When no node waits, the functions that escape are
widened for unknown callers and the loop goes on, until nothing moves.

Main definitions:

- `Violation`: what a healthy run never reports.
- `Program.visit`: both steps of one node.
- `Program.drive`: takes nodes until none waits or the ceiling is reached.
- `Program.check`: looks every settled node over again.
- `Program.run`: the whole run, with its statistics.
-/

namespace TypeFlow

/-- What a run had just done when its nodes were looked over. -/
inductive Phase
  /-- No node waited any more. -/
  | fixpoint
  /-- No node waited any more after a round of widening. -/
  | escapeWidening
  deriving DecidableEq

/-- The name of a phase. -/
def Phase.name : Phase → String
  | fixpoint => "fixpoint"
  | escapeWidening => "escape widening"

/-- What a healthy run never reports. -/
inductive Violation
  /-- A type step left more classes than there were. -/
  | split (node : NodeId)
  /-- A type step merged classes and said that it changed nothing. -/
  | silentMerge (node : NodeId)
  /-- A recomputed flow was not below the old one. -/
  | rose (node : NodeId) (rise : Rise)
  /-- A settled node still had a type step to make. -/
  | unsettledType (node : NodeId) (phase : Phase)
  /-- A probe merged classes. -/
  | probeMerged (node : NodeId) (phase : Phase)
  /-- A settled node did not hold the flow it should. -/
  | unsettledFlow (node : NodeId) (held recomputed : Flow) (phase : Phase)
  deriving DecidableEq

/-- The number of a node as it is written. -/
def renderNode (id : NodeId) : String := "#" ++ toString id

/-- The text of a violation. -/
def Violation.message : Violation → String
  | split id => renderNode id ++ ": HM step split merged classes"
  | silentMerge id => renderNode id ++ ": HM step merged classes without reporting progress"
  | rose id r =>
    renderNode id ++ ": flow rose from " ++ r.old.render ++ " to " ++ r.new.render
  | unsettledType id phase => renderNode id ++ ": HM progress after " ++ phase.name
  | probeMerged id phase => renderNode id ++ ": HM check merged classes after " ++ phase.name
  | unsettledFlow id held recomputed phase =>
    renderNode id ++ ": flow " ++ held.render ++ " recomputes to " ++ recomputed.render ++
      " after " ++ phase.name

/-- How far a run has come: whether it was never stopped by the ceiling, and what it reported. -/
structure Course where
  converged : Bool
  violations : List Violation

/-- The counts and reports of a run. -/
structure Stats where
  nodes : Nat
  /-- Terms at the start of the run. -/
  initialTerms : Nat
  /-- Terms at its end, links included. -/
  terms : Nat
  pops : Nat
  widenRounds : Nat
  /-- The run was not stopped by the ceiling. -/
  converged : Bool
  violations : List Violation

namespace Program

/-! ## One node -/

/-- Runs a computation on terms that commits what it finds. -/
def commit {α : Type} (run : UnifyM α) : StepM α :=
  fun ⟨forest, flows, work⟩ =>
    (run ⟨forest, some work, [], []⟩).map fun (a, u) => (a, ⟨u.forest, flows, u.work.getD default⟩)

/-- Runs a computation on terms that only says what it would do. -/
def probe {α : Type} (run : UnifyM α) : StepM α :=
  fun ⟨forest, flows, work⟩ =>
    (run ⟨forest, none, [], []⟩).map fun (a, u) => (a, ⟨u.forest, flows, work⟩)

/-- What a function says of the forest. -/
def forestSays {α : Type} (read : Forest → α) : StepM α := fun s => some (read s.forest, s)

/-- The type step of a node, with the announcements it leads to. -/
def advanceType (p : Program) (id : NodeId) : StepM Bool := do
  let flows ← flowsSay fun w => w
  commit do
    let progress ← p.typeStep flows id
    if progress then p.announceType id
    return progress

/-- The type step of a node, watched if the settings ask for it. -/
def stepType (p : Program) (id : NodeId) : StepM (List Violation) := do
  if p.settings.checkInvariants then
    let before ← forestSays Forest.size
    let classes ← forestSays (·.classes before)
    let unions ← forestSays Forest.unions
    if ← p.advanceType id then
      return if (← forestSays (·.classes before)) > classes then [.split id] else []
    else
      return if (← forestSays Forest.unions) ≠ unions then [.silentMerge id] else []
  else
    let _ ← p.advanceType id
    return []

/-- The flow step of a node. -/
def stepFlow (p : Program) (id : NodeId) : StepM (List Violation) := do
  return (← p.flowStep id).toList.map (.rose id)

/-- Both steps of a node, as far as the settings ask for them. -/
def visit (p : Program) (id : NodeId) : StepM (List Violation) := do
  let types ← if p.settings.types then p.stepType id else pure []
  let flows ← if p.settings.flows then p.stepFlow id else pure []
  return types ++ flows

/-! ## The loop -/

/-- What looking for work came to. -/
inductive Turn
  /-- No node waits. -/
  | idle
  /-- The ceiling is exceeded; the node waits again. -/
  | stopped
  | take (id : NodeId)
  deriving DecidableEq

/-- Takes the next pending node, unless that exceeds the ceiling. -/
def nextTurn (p : Program) : StepM Turn :=
  fun ⟨forest, flows, work⟩ =>
    match work.pop? with
    | none => some (.idle, ⟨forest, flows, work⟩)
    | some (id, work) =>
      if work.pops > p.settings.maxIterations then
        some (.stopped, ⟨forest, flows, work.push id⟩)
      else some (.take id, ⟨forest, flows, work⟩)

/-- Visits at most `fuel` pending nodes. -/
def driveWithin (p : Program) : Nat → List Violation → StepM Course
  | 0, _ => failure
  | fuel + 1, found => do
    match ← p.nextTurn with
    | .idle => return ⟨true, found⟩
    | .stopped => return ⟨false, found⟩
    | .take id =>
      let more ← p.visit id
      driveWithin p fuel (found ++ more)

/-- Visits pending nodes until none waits or the ceiling is reached.  Every visit counts towards
the ceiling, so there are no more of them than it leaves. -/
def drive (p : Program) : StepM Course :=
  fun s => p.driveWithin (p.settings.maxIterations - s.work.pops + 1) [] s

/-! ## Looking over -/

/-- Probes the type step of a node that should have none to make. -/
def checkType (p : Program) (phase : Phase) (id : NodeId) : StepM (List Violation) := do
  let unions ← forestSays Forest.unions
  let flows ← flowsSay fun w => w
  let progress ← probe (p.typeStep flows id)
  let merged := (← forestSays Forest.unions) ≠ unions
  return (if progress then [.unsettledType id phase] else []) ++
    (if merged then [.probeMerged id phase] else [])

/-- Recomputes the flow of a node that should hold it already. -/
def checkFlow (p : Program) (phase : Phase) (id : NodeId) : StepM (List Violation) := do
  let recomputed ← onTerms fun flows => p.evaluate flows id
  let held ← flowsSay (·.ofNode id)
  return if recomputed ≠ held then [.unsettledFlow id held recomputed phase] else []

/-- Looks one node over, unless it waits. -/
def checkNode (p : Program) (phase : Phase) (id : NodeId) : StepM (List Violation) := do
  if (← get).work.has id then return []
  let types ← if p.settings.types then p.checkType phase id else pure []
  let flows ← if p.settings.flows then p.checkFlow phase id else pure []
  return types ++ flows

/-- Looks several nodes over. -/
def checkNodes (p : Program) (phase : Phase) : List NodeId → List Violation → StepM (List Violation)
  | [], found => return found
  | id :: rest, found => do
    let more ← p.checkNode phase id
    checkNodes p phase rest (found ++ more)

/-- Looks every node over that does not wait, if the settings ask for it and nothing stopped the
run. -/
def check (p : Program) (phase : Phase) (converged : Bool) : StepM (List Violation) :=
  if p.settings.checkInvariants && converged then p.checkNodes phase (List.range p.size) []
  else return []

/-! ## The run -/

/-- Visits what is pending and looks every node over. -/
def settle (p : Program) (phase : Phase) : StepM Course := do
  let course ← p.drive
  let more ← p.check phase course.converged
  return ⟨course.converged, course.violations ++ more⟩

/-- At most `left` more rounds of widening, each followed by what it leaves to do. -/
def widenRounds (p : Program) : Nat → Nat → Course → StepM (Nat × Course)
  | 0, rounds, course => return (rounds, course)
  | left + 1, rounds, course => do
    if !course.converged then return (rounds, course)
    if !(← p.widenEscapes) then return (rounds, course)
    let next ← p.settle .escapeWidening
    widenRounds p left (rounds + 1) ⟨next.converged, course.violations ++ next.violations⟩

/-- Runs to a fixpoint, or until the ceiling stops it. -/
def run (p : Program) : StepM Stats := do
  let initialTerms ← forestSays Forest.size
  let course ← p.settle .fixpoint
  let limit := if p.settings.flows then p.settings.maxWidenRounds else 0
  let (rounds, course) ← p.widenRounds limit 0 course
  return {
    nodes := p.size
    initialTerms := initialTerms
    terms := ← forestSays Forest.size
    pops := (← get).work.pops
    widenRounds := rounds
    converged := course.converged
    violations := course.violations }

end Program

end TypeFlow
