import TypeFlow.Program.Escape
import TypeFlow.Proofs.FlowsOrder
import TypeFlow.Proofs.Registration

/-!
# What flow steps and widening are built from

Flow steps and the widening of escaping functions are built from a few accesses to the state.  What
all of these keep, the steps keep too, except for the flow that a step installs.

Main definitions:

- `State.Quiet`: the flows stayed, pending work stayed, and the forest was tidied.
- `StepStable`: a relation that all but the installation of a flow keeps.
- `State.Advances`: flows fell, pending work stayed, and the forest was tidied.

Main results:

- `Program.flowStep_eq_some`: what a flow step does.
- `Program.keeps_announceFlow`, `Program.keeps_widenEscapes`: both keep what the accesses keep.
-/

namespace TypeFlow

namespace Program

variable {α : Type}

/-! ## Access to the state -/

/-- A computation on terms changes neither flows nor the queue. -/
theorem onTerms_eq_some {run : Flows → ForestM α} {s t : State} {a : α} :
    onTerms run s = some (a, t) ↔
      ∃ forest, run s.flows s.forest = some (a, forest) ∧ t = ⟨forest, s.flows, s.work⟩ := by
  have h : onTerms run s =
      (run s.flows s.forest).map fun r => (r.1, ⟨r.2, s.flows, s.work⟩) := rfl
  rw [h]
  constructor
  · intro h
    obtain ⟨r, hr, e⟩ := Option.map_eq_some_iff.1 h
    rw [Prod.mk.injEq] at e
    refine ⟨r.2, ?_, e.2.symm⟩
    rw [hr, ← e.1]
  · rintro ⟨forest, hr, rfl⟩
    rw [hr, Option.map_some]

/-- Reading the flows changes nothing. -/
theorem flowsSay_eq_some {read : Flows → α} {s t : State} {a : α} :
    flowsSay read s = some (a, t) ↔ read s.flows = a ∧ s = t := by
  have h : flowsSay read s = some (read s.flows, s) := rfl
  rw [h, Option.some.injEq, Prod.mk.injEq]

/-- Announcing a node queues it. -/
theorem announce_eq_some {id : NodeId} {s t : State} {u : Unit} :
    announce id s = some (u, t) ↔ t = { s with work := s.work.push id } := by
  have h : announce id s = some ((), { s with work := s.work.push id }) := rfl
  rw [h, Option.some.injEq, Prod.mk.injEq, eq_comm (a := t)]
  exact and_iff_right rfl

/-- Waking a term queues its nodes. -/
theorem wakeTerm_eq_some {t : TermId} {s s' : State} {u : Unit} :
    wakeTerm t s = some (u, s') ↔ s' = { s with work := s.forest.wake t s.work } := by
  have h : wakeTerm t s = some ((), { s with work := s.forest.wake t s.work }) := rfl
  rw [h, Option.some.injEq, Prod.mk.injEq, eq_comm (a := s')]
  exact and_iff_right rfl

private theorem setFlow_eq_some {id : NodeId} {flow : Flow} {s t : State} {u : Unit} :
    setFlow id flow s = some (u, t) ↔ t = { s with flows := s.flows.setNode id flow } := by
  have h : setFlow id flow s = some ((), { s with flows := s.flows.setNode id flow }) := rfl
  rw [h, Option.some.injEq, Prod.mk.injEq, eq_comm (a := t)]
  exact and_iff_right rfl

/-- Lowering a parameter replaces it by its meet with the flow, if there is such a parameter and
that is another flow. -/
theorem meetFormal_eq_some {fid : FunctionId} {index : Nat} {flow : Flow} {s t : State}
    {fell : Bool} (h : meetFormal fid index flow s = some (fell, t)) :
    (fell = false ∧ t = s ∧
        ∀ old, (s.flows.ofFormals fid)[index]? = some old → old.meet flow = old) ∨
      ∃ old, fell = true ∧ (s.flows.ofFormals fid)[index]? = some old ∧ old.meet flow ≠ old ∧
        t = { s with flows := s.flows.setFormal fid index (old.meet flow) } := by
  obtain ⟨forest, flows, work⟩ := s
  unfold meetFormal at h
  cases hold : (flows.ofFormals fid)[index]? with
  | none =>
    simp only [hold, Option.some.injEq, Prod.mk.injEq] at h
    exact Or.inl ⟨h.1.symm, h.2.symm, by simp⟩
  | some old =>
    simp only [hold] at h
    split at h
    · rename_i e
      simp only [Option.some.injEq, Prod.mk.injEq] at h
      exact Or.inl ⟨h.1.symm, h.2.symm, by simp [e]⟩
    · rename_i ne
      simp only [Option.some.injEq, Prod.mk.injEq] at h
      exact Or.inr ⟨old, h.1.symm, rfl, ne, h.2.symm⟩

/-! ## The parts of a step -/

/-- Wakes the class of a parameter of a function. -/
def wakeFormal (p : Program) (node : NodeId) (index : Nat) : StepM Unit :=
  match (p.kind node).function? with
  | some (_, formals) => do
    let formals ← onTerms fun _ => Forest.findAll formals
    match formals[index]? with
    | some t => wakeTerm t
    | none => pure ()
  | none => pure ()

/-- Announces the body of a function, or a conditional whose predicate fell. -/
def announceBody (p : Program) (node : NodeId) (index : Nat) : StepM Unit :=
  match p.kind node with
  | .lambda _ body _ _ _ => announce body
  | .prim .cond _ _ => if index = 0 then announce node else pure ()
  | _ => pure ()

/-- Announcing an argument wakes its type and announces the body. -/
theorem announceFormal_eq (p : Program) (node : NodeId) (index : Nat) :
    p.announceFormal node index =
      p.wakeFormal node index >>= fun _ => p.announceBody node index := by
  unfold announceFormal wakeFormal
  cases (p.kind node).function? with
  | none => rfl
  | some r =>
    simp only [bind_assoc]
    congr 1
    funext formals
    cases formals[index]? <;> rfl

/-- Lowers one parameter of a function and announces who reads it if it fell. -/
def lowerFormal (p : Program) (fid : FunctionId) (node : NodeId) (index : Nat) (flow : Flow) :
    StepM Unit := do
  if ← meetFormal fid index flow then p.announceFormal node index

/-- Passes the flow of an argument to a parameter. -/
def passArgument (p : Program) (fid : FunctionId) (node : NodeId) (index : Nat) (arg : NodeId) :
    StepM Unit := do
  p.lowerFormal fid node index (← flowsSay (·.ofNode arg))

/-- An argument passed lowers the flow that the function has for it. -/
theorem passArgument_eq_some {p : Program} {fid : FunctionId} {node : NodeId} {index : Nat}
    {arg : NodeId} {s t : State} {u : Unit} :
    p.passArgument fid node index arg s = some (u, t) ↔
      p.lowerFormal fid node index (s.flows.ofNode arg) s = some (u, t) := Iff.rfl

/-- Arguments are met one after the other. -/
theorem meetFormals_cons (p : Program) (fid : FunctionId) (node : NodeId) (i : Nat)
    (arg : NodeId) (rest : List NodeId) :
    p.meetFormals fid node i (arg :: rest) =
      p.passArgument fid node i arg >>= fun _ => p.meetFormals fid node (i + 1) rest := by
  rw [meetFormals]
  unfold passArgument lowerFormal
  simp only [bind_assoc]
  congr 1
  funext actual
  congr 1
  funext fell
  cases fell <;> rfl

/-- Registers a call with one function it may reach and lowers its parameters. -/
def enterCallee (p : Program) (call : NodeId) (args : List NodeId) (fid : FunctionId) :
    StepM Unit :=
  match p.functionNode? fid with
  | some node => do
    onTerms fun _ => do
      let callee ← Forest.find (p.node node).type
      watch callee call
    p.meetFormals fid node 0 args
  | none => pure ()

/-- Functions are entered one after the other. -/
theorem enterCallees_cons (p : Program) (call : NodeId) (args : List NodeId) (fid : FunctionId)
    (rest : List FunctionId) :
    p.enterCallees call args (fid :: rest) =
      p.enterCallee call args fid >>= fun _ => p.enterCallees call args rest := by
  rw [enterCallees]
  unfold enterCallee
  cases p.functionNode? fid with
  | none => rfl
  | some node =>
    simp only [bind_assoc]

/-- Enters every function that a call reaches with the flow its callee has. -/
def enterCall (p : Program) (call fn : NodeId) (args : List NodeId) : StepM Unit := do
  match ← flowsSay (·.ofNode fn) with
  | .function fids _ => p.enterCallees call args fids.toList
  | _ => return

/-- The announcement of a callee or an argument enters the call. -/
theorem announceFlow_apply {p : Program} {parent fn : NodeId} {args : List NodeId}
    (h : p.kind parent = .apply fn args) (child : NodeId) :
    p.announceFlow parent child =
      (if child = fn then announce parent else pure ()) >>= fun _ =>
        p.enterCall parent fn args := by
  unfold announceFlow
  simp only [h]
  by_cases e : child = fn
  · rw [if_pos e, if_pos e]
    rfl
  · rw [if_neg e, if_neg e]
    rfl

/-- Announces the body of an escaping function whose parameter fell, or the primitive itself. -/
def announceWidened (p : Program) (node : NodeId) : StepM Unit :=
  match p.kind node with
  | .lambda _ body _ _ _ => announce body
  | _ => announce node

/-- Lowers one parameter of an escaping function to what its type allows and announces who reads it
if it fell. -/
def widenFormal (p : Program) (fid : FunctionId) (node : NodeId) (index : Nat) (formal : TermId) :
    StepM Bool := do
  let widest ← onTerms fun _ => widestOf formal
  let fell ← meetFormal fid index widest
  if fell then
    wakeTerm formal
    p.announceWidened node
  return fell

/-- Arguments are widened one after the other. -/
theorem widenFormals_cons (p : Program) (fid : FunctionId) (node : NodeId) (i : Nat)
    (formal : TermId) (rest : List TermId) :
    p.widenFormals fid node i (formal :: rest) =
      p.widenFormal fid node i formal >>= fun fell =>
        p.widenFormals fid node (i + 1) rest >>= fun later => pure (fell || later) := by
  rw [widenFormals]
  unfold widenFormal announceWidened
  simp only [bind_assoc]
  congr 1
  funext widest
  congr 1
  funext fell
  cases fell with
  | false => rfl
  | true =>
    simp only [if_true, bind_assoc]
    congr 1
    funext _
    cases p.kind node <;> rfl

/-- The terms of the parameters of a function. -/
def formalsOfNode (p : Program) (node : NodeId) : List TermId :=
  ((p.kind node).function?.map Prod.snd).getD []

/-- Lowers all parameters of an escaping function. -/
def widenFunction (p : Program) (fid : FunctionId) (node : NodeId) : StepM Bool := do
  let formals ← onTerms fun _ => Forest.findAll (p.formalsOfNode node)
  p.widenFormals fid node 0 formals

/-- Widens one function and follows what it returns, if it is the program's own. -/
def escapeFunction (p : Program) (walk : EscapeWalk) (fid : FunctionId) (seen : List Flow) :
    StepM (Bool × List Flow) :=
  match p.functionNode? fid with
  | none => pure (false, seen)
  | some node => do
    let widened ← p.widenFunction fid node
    match p.kind node with
    | .lambda _ body _ _ _ => do
      let (below, seen) ← walk (← flowsSay (·.ofNode body)) seen
      pure (widened || below, seen)
    | _ => pure (widened, seen)

/-- Functions escape one after the other. -/
theorem escapeFunctions_cons (p : Program) (walk : EscapeWalk) (fid : FunctionId)
    (rest : List FunctionId) (seen : List Flow) :
    p.escapeFunctions walk (fid :: rest) seen =
      p.escapeFunction walk fid seen >>= fun r =>
        p.escapeFunctions walk rest r.2 >>= fun r' => pure (r.1 || r'.1, r'.2) := by
  rw [escapeFunctions]
  unfold escapeFunction
  cases p.functionNode? fid with
  | none => rfl
  | some node =>
    unfold widenFunction formalsOfNode
    simp only [bind_assoc]
    congr 1
    funext formals
    congr 1
    funext widened
    cases p.kind node <;> simp only [bind_assoc]

/-- What a flow step does: nothing if the recomputed flow is the old one, an installation if it fell,
and the installation of the meet of both, if that fell, where the recomputed flow rose. -/
theorem flowStep_eq_some {p : Program} {id : NodeId} {s t : State} {rise : Option Rise}
    (h : p.flowStep id s = some (rise, t)) :
    ∃ new forest, p.evaluate s.flows id s.forest = some (new, forest) ∧
      ((new = s.flows.ofNode id ∧ rise = none ∧ t = { s with forest := forest }) ∨
        (new ≠ s.flows.ofNode id ∧ new ≤ s.flows.ofNode id ∧ rise = none ∧
          p.install id new { s with forest := forest } = some ((), t)) ∨
        (¬new ≤ s.flows.ofNode id ∧ rise = some ⟨s.flows.ofNode id, new⟩ ∧
          (t = { s with forest := forest } ∨
            p.install id ((s.flows.ofNode id).meet new) { s with forest := forest } =
              some ((), t)))) := by
  unfold flowStep at h
  obtain ⟨old, s₁, hold, h⟩ := bind_eq_some.1 h
  obtain ⟨rfl, rfl⟩ := flowsSay_eq_some.1 hold
  obtain ⟨new, s₂, hnew, h⟩ := bind_eq_some.1 h
  obtain ⟨forest, heval, rfl⟩ := onTerms_eq_some.1 hnew
  refine ⟨new, forest, heval, ?_⟩
  split at h
  · rename_i same
    obtain ⟨rfl, rfl⟩ := pure_eq_some.1 h
    exact Or.inl ⟨same, rfl, rfl⟩
  rename_i other
  split at h
  · rename_i fell
    obtain ⟨u, s₃, hinstall, h⟩ := bind_eq_some.1 h
    obtain ⟨rfl, rfl⟩ := pure_eq_some.1 h
    exact Or.inr (Or.inl ⟨other, fell, rfl, hinstall⟩)
  rename_i rose
  dsimp only at h
  split at h
  · obtain ⟨u, s₃, hinstall, h⟩ := bind_eq_some.1 h
    obtain ⟨rfl, rfl⟩ := pure_eq_some.1 h
    exact Or.inr (Or.inr ⟨rose, rfl, Or.inr hinstall⟩)
  · obtain ⟨rfl, rfl⟩ := pure_eq_some.1 h
    exact Or.inr (Or.inr ⟨rose, rfl, Or.inl rfl⟩)

end Program

/-! ## What widening is composed from -/

namespace Program

section Walks

variable {p : Program} {P : (α : Type) → StepM α → Prop} (hP : Composes P)

section Walk

variable {walk : EscapeWalk} (hwalk : ∀ flow seen, P _ (walk flow seen))

include hP hwalk in
private theorem composed_escapeEach (flows seen : List Flow) : P _ (escapeEach walk flows seen) := by
  induction flows generalizing seen with
  | nil => exact hP.pure _
  | cons flow rest ih =>
    refine hP.bind (hwalk flow seen) fun r => ?_
    exact hP.bind (ih r.2) fun r' => hP.pure _

variable (hsay : ∀ {α : Type} (read : Flows → α), P α (flowsSay read))
  (hwiden : ∀ {fid callee}, p.functionNode? fid = some callee → P _ (p.widenFunction fid callee))

include hP hwalk hsay hwiden in
private theorem composed_escapeFunction (fid : FunctionId) (seen : List Flow) :
    P _ (p.escapeFunction walk fid seen) := by
  unfold escapeFunction
  split
  · exact hP.pure _
  · rename_i callee hcallee
    refine hP.bind (hwiden hcallee) fun widened => ?_
    split
    · refine hP.bind (hsay _) fun flow => ?_
      exact hP.bind (hwalk flow seen) fun r => hP.pure _
    · exact hP.pure _

include hP hwalk hsay hwiden in
private theorem composed_escapeFunctions (fids : List FunctionId) (seen : List Flow) :
    P _ (p.escapeFunctions walk fids seen) := by
  induction fids generalizing seen with
  | nil => exact hP.pure _
  | cons fid rest ih =>
    rw [escapeFunctions_cons]
    refine hP.bind (composed_escapeFunction hP hwalk hsay hwiden fid seen) fun r => ?_
    exact hP.bind (ih r.2) fun r' => hP.pure _

end Walk

variable (hsay : ∀ {α : Type} (read : Flows → α), P α (flowsSay read))
  (hwiden : ∀ {fid callee}, p.functionNode? fid = some callee → P _ (p.widenFunction fid callee))

include hP hsay hwiden in
private theorem composed_escapeFrom (fuel : Nat) (flow : Flow) (seen : List Flow) :
    P _ (p.escapeFrom fuel flow seen) := by
  induction fuel generalizing flow seen with
  | zero => exact hP.failure
  | succ fuel ih =>
    unfold escapeFrom
    split
    · exact hP.pure _
    · split
      · exact composed_escapeFunctions hP ih hsay hwiden _ _
      · exact composed_escapeEach hP ih _ _
      · exact hP.pure _

include hP hsay hwiden in
/-- Widening what escapes is composed from what the flows say and the widening of functions. -/
theorem composed_widenEscapes : P _ p.widenEscapes := by
  refine hP.bind (hsay _) fun result => ?_
  refine hP.bind (hsay _) fun fuel => ?_
  exact hP.bind (composed_escapeFrom hP hsay hwiden fuel result []) fun r => hP.pure _

end Walks

end Program

/-! ## Quiet steps -/

/-- The flows stayed, what was pending still is, nothing was taken, and the forest was tidied. -/
structure State.Quiet (s t : State) : Prop where
  forest : Forest.Tidied s.forest t.forest
  flows : t.flows = s.flows
  pending : ∀ id, id ∈ s.work.pending → id ∈ t.work.pending
  pops : t.work.pops = s.work.pops

instance : IsPreorder State State.Quiet where
  refl s := ⟨Std.Refl.refl s.forest, rfl, fun _ h => h, rfl⟩
  trans _ _ _ hst htu :=
    ⟨IsTrans.trans _ _ _ hst.forest htu.forest, htu.flows.trans hst.flows,
      fun id h => htu.pending id (hst.pending id h), htu.pops.trans hst.pops⟩

namespace Program

/-- A computation that only tidies types up is quiet. -/
theorem quiet_onTerms {run : Flows → ForestM α} (h : ∀ w, Keeps Forest.Tidied (run w)) :
    Keeps State.Quiet (onTerms run) := by
  intro s a t ht
  obtain ⟨forest, hrun, rfl⟩ := onTerms_eq_some.1 ht
  exact ⟨h s.flows s.forest a forest hrun, rfl, fun _ h => h, rfl⟩

/-- Reading the flows is quiet. -/
theorem quiet_flowsSay (read : Flows → α) : Keeps State.Quiet (flowsSay read) := by
  intro s a t ht
  rw [(flowsSay_eq_some.1 ht).2]
  exact Std.Refl.refl t

/-- So is announcing a node. -/
theorem quiet_announce (id : NodeId) : Keeps State.Quiet (announce id) := by
  intro s a t ht
  rw [announce_eq_some.1 ht]
  exact ⟨Std.Refl.refl s.forest, rfl, fun n hn => OrderedSet.mem_insert.2 (Or.inr hn), rfl⟩

/-- So is waking a term. -/
theorem quiet_wakeTerm (t : TermId) : Keeps State.Quiet (wakeTerm t) := by
  intro s a s' hs
  rw [wakeTerm_eq_some.1 hs]
  exact ⟨Std.Refl.refl s.forest, rfl, fun n hn => Forest.mem_wake.2 (Or.inl hn), Forest.pops_wake _ _ _⟩

/-- Waking the type of an argument is quiet. -/
theorem quiet_wakeFormal (p : Program) (node : NodeId) (index : Nat) :
    Keeps State.Quiet (p.wakeFormal node index) := by
  unfold wakeFormal
  split
  · refine keeps_bind (quiet_onTerms fun _ => Forest.keeps_findAll _) fun formals => ?_
    split
    · exact quiet_wakeTerm _
    · exact keeps_pure _
  · exact keeps_pure _

/-- So is announcing the body of a function. -/
theorem quiet_announceBody (p : Program) (node : NodeId) (index : Nat) :
    Keeps State.Quiet (p.announceBody node index) := by
  unfold announceBody
  split
  · exact quiet_announce _
  · split
    · exact quiet_announce _
    · exact keeps_pure _
  · exact keeps_pure _

/-- So is announcing an argument. -/
theorem quiet_announceFormal (p : Program) (node : NodeId) (index : Nat) :
    Keeps State.Quiet (p.announceFormal node index) := by
  rw [announceFormal_eq]
  exact keeps_bind (quiet_wakeFormal p node index) fun _ => quiet_announceBody p node index

/-- So is announcing what was widened. -/
theorem quiet_announceWidened (p : Program) (node : NodeId) :
    Keeps State.Quiet (p.announceWidened node) := by
  unfold announceWidened
  split
  · exact quiet_announce _
  · exact quiet_announce _

end Program

/-! ## Relations that steps keep -/

/-- A relation between states that quiet steps keep, as do passing an argument to a function of the
program and widening one. -/
class StepStable (p : Program) (R : State → State → Prop) : Prop extends IsPreorder State R where
  quiet : ∀ {s t : State}, State.Quiet s t → R s t
  pass : ∀ {fid : FunctionId} {callee : NodeId}, p.functionNode? fid = some callee →
    ∀ index arg, Keeps R (p.passArgument fid callee index arg)
  widen : ∀ {fid : FunctionId} {callee : NodeId}, p.functionNode? fid = some callee →
    Keeps R (p.widenFunction fid callee)

namespace Program

section Stable

variable {R : State → State → Prop}

/-- What steps keep quiet computations keep. -/
theorem keeps_of_quiet (p : Program) [StepStable p R] {m : StepM α} (h : Keeps State.Quiet m) :
    Keeps R m :=
  h.mono fun _ _ => StepStable.quiet p

/-- Meeting the arguments of a function keeps what steps keep. -/
theorem keeps_meetFormals (p : Program) [StepStable p R] {fid : FunctionId} {callee : NodeId}
    (hcallee : p.functionNode? fid = some callee) (i : Nat) (args : List NodeId) :
    Keeps R (p.meetFormals fid callee i args) := by
  induction args generalizing i with
  | nil => exact keeps_pure _
  | cons arg rest ih =>
    rw [meetFormals_cons]
    exact keeps_bind (StepStable.pass hcallee i arg) fun _ => ih (i + 1)

/-- So does entering one function. -/
theorem keeps_enterCallee (p : Program) [StepStable p R] (call : NodeId) (args : List NodeId)
    (fid : FunctionId) : Keeps R (p.enterCallee call args fid) := by
  unfold enterCallee
  split
  · rename_i callee hcallee
    refine keeps_bind (keeps_of_quiet p (quiet_onTerms fun _ => ?_)) fun _ =>
      keeps_meetFormals p hcallee 0 args
    exact keeps_bind (Forest.keeps_find _) fun t => keeps_watch t call
  · exact keeps_pure _

/-- So does entering several. -/
theorem keeps_enterCallees (p : Program) [StepStable p R] (call : NodeId) (args : List NodeId)
    (fids : List FunctionId) : Keeps R (p.enterCallees call args fids) := by
  induction fids with
  | nil => exact keeps_pure _
  | cons fid rest ih =>
    rw [enterCallees_cons]
    exact keeps_bind (keeps_enterCallee p call args fid) fun _ => ih

/-- So does entering a call. -/
theorem keeps_enterCall (p : Program) [StepStable p R] (call fn : NodeId) (args : List NodeId) :
    Keeps R (p.enterCall call fn args) := by
  refine keeps_bind (keeps_of_quiet p (quiet_flowsSay _)) fun flow => ?_
  split
  · exact keeps_enterCallees p call args _
  · exact keeps_pure _

/-- So does widening the arguments of a function if widening each does. -/
theorem keeps_widenFunction {p : Program} [IsPreorder State R] {fid : FunctionId} {node : NodeId}
    (hquiet : ∀ s t, State.Quiet s t → R s t)
    (h : ∀ index formal, Keeps R (p.widenFormal fid node index formal)) :
    Keeps R (p.widenFunction fid node) := by
  have hformals : ∀ formals i, Keeps R (p.widenFormals fid node i formals) := by
    intro formals
    induction formals with
    | nil => exact fun i => keeps_pure _
    | cons formal rest ih =>
      intro i
      rw [widenFormals_cons]
      refine keeps_bind (h i formal) fun fell => ?_
      exact keeps_bind (ih (i + 1)) fun later => keeps_pure _
  refine keeps_bind ((quiet_onTerms fun _ => Forest.keeps_findAll _).mono hquiet) ?_
  exact fun formals => hformals formals 0

section Lowering

variable {p : Program} [IsPreorder State R] (hquiet : ∀ s t, State.Quiet s t → R s t)
  (hmeet : ∀ fid index flow, Keeps R (meetFormal fid index flow))

include hquiet hmeet in
private theorem keeps_lowerFormal (fid : FunctionId) (node : NodeId) (index : Nat) (flow : Flow) :
    Keeps R (p.lowerFormal fid node index flow) := by
  refine keeps_bind (hmeet fid index flow) fun fell => ?_
  split
  · exact (quiet_announceFormal p node index).mono hquiet
  · exact keeps_pure _

include hquiet hmeet in
private theorem keeps_widenFormal (fid : FunctionId) (node : NodeId) (index : Nat) (formal : TermId) :
    Keeps R (p.widenFormal fid node index formal) := by
  refine keeps_bind ((quiet_onTerms fun _ => keeps_widestOf _).mono hquiet) fun widest => ?_
  refine keeps_bind (hmeet fid index widest) fun fell => ?_
  cases fell with
  | false => exact keeps_pure _
  | true =>
    refine keeps_bind ((quiet_wakeTerm formal).mono hquiet) fun _ => ?_
    exact keeps_bind ((quiet_announceWidened p node).mono hquiet) fun _ => keeps_pure _

include hquiet hmeet in
/-- Apart from quiet steps, all that happens to a parameter is that it is met with a flow. -/
theorem stepStable_of_meetFormal : StepStable p R where
  quiet := hquiet _ _
  pass _ index _ s u t h := keeps_lowerFormal hquiet hmeet _ _ index _ s u t (passArgument_eq_some.1 h)
  widen _ := keeps_widenFunction hquiet (keeps_widenFormal hquiet hmeet _ _)

end Lowering

/-- Unless the parent is a call, announcing a changed flow is quiet. -/
theorem quiet_announceFlow {p : Program} {parent : NodeId}
    (h : ∀ fn args, p.kind parent ≠ .apply fn args) (child : NodeId) :
    Keeps State.Quiet (p.announceFlow parent child) := by
  have hwake : ∀ t, Keeps State.Quiet (do wakeTerm (← onTerms fun _ => Forest.find t)) := by
    intro t
    refine keeps_bind (quiet_onTerms fun _ => Forest.keeps_find _) fun r => ?_
    exact quiet_wakeTerm r
  cases hk : p.kind parent with
  | apply fn args => exact absurd hk (h fn args)
  | lambda params body fid formals widen =>
    simp only [announceFlow, hk]
    exact hwake _
  | letIn name definition body binding =>
    simp only [announceFlow, hk]
    split
    · exact hwake _
    · exact keeps_pure _
  | root body =>
    simp only [announceFlow, hk]
    split
    · exact quiet_announce parent
    · exact keeps_pure _
  | _ =>
    simp only [announceFlow, hk]
    exact keeps_pure _

/-- So does announcing a flow. -/
theorem keeps_announceFlow (p : Program) [StepStable p R] (parent child : NodeId) :
    Keeps R (p.announceFlow parent child) := by
  by_cases h : ∃ fn args, p.kind parent = .apply fn args
  · obtain ⟨fn, args, h⟩ := h
    rw [announceFlow_apply h]
    refine keeps_bind ?_ fun _ => keeps_enterCall p parent fn args
    split
    · exact keeps_of_quiet p (quiet_announce parent)
    · exact keeps_pure _
  · refine keeps_of_quiet p (quiet_announceFlow ?_ child)
    intro fn args hk
    exact h ⟨fn, args, hk⟩

/-- After the flow itself, an installation only accesses the state. -/
theorem install_eq_some {p : Program} {id : NodeId} {flow : Flow} {s t : State} {u : Unit} :
    p.install id flow s = some (u, t) ↔
      (match p.parent id with
        | some parent => announce parent >>= fun _ => p.announceFlow parent id
        | none => pure ()) { s with flows := s.flows.setNode id flow } = some (u, t) := by
  unfold install
  constructor
  · intro h
    obtain ⟨v, s₁, hset, h₁⟩ := bind_eq_some.1 h
    rw [setFlow_eq_some.1 hset] at h₁
    exact h₁
  · intro h
    exact bind_eq_some.2 ⟨(), _, setFlow_eq_some.2 rfl, h⟩

/-- What an installation leaves is related to the state with the flow installed. -/
theorem install_related {p : Program} [StepStable p R] {id : NodeId} {flow : Flow} {s t : State}
    {u : Unit} (h : p.install id flow s = some (u, t)) :
    R { s with flows := s.flows.setNode id flow } t := by
  rw [install_eq_some] at h
  revert h
  suffices hk : Keeps R (match p.parent id with
      | some parent => announce parent >>= fun _ => p.announceFlow parent id
      | none => pure ()) from hk _ u t
  split
  · exact keeps_bind (keeps_of_quiet p (quiet_announce _)) fun _ => keeps_announceFlow p _ id
  · exact keeps_pure _

/-- So does widening what escapes. -/
theorem keeps_widenEscapes (p : Program) [StepStable p R] : Keeps R p.widenEscapes :=
  composed_widenEscapes composes_keeps (fun _ => keeps_of_quiet p (quiet_flowsSay _))
    (StepStable.widen)

end Stable

end Program

/-! ## Advancing -/

/-- The flows fell, what was pending still is, and the forest was tidied. -/
structure State.Advances (s t : State) : Prop where
  forest : Forest.Tidied s.forest t.forest
  flows : t.flows ≤ s.flows
  pending : ∀ id, id ∈ s.work.pending → id ∈ t.work.pending

instance : IsPreorder State State.Advances where
  refl s := ⟨Std.Refl.refl s.forest, le_rfl, fun _ h => h⟩
  trans _ _ _ hst htu :=
    ⟨IsTrans.trans _ _ _ hst.forest htu.forest, htu.flows.trans hst.flows,
      fun id h => htu.pending id (hst.pending id h)⟩

/-- A quiet computation advances. -/
theorem State.Quiet.advances {s t : State} (h : State.Quiet s t) : State.Advances s t :=
  ⟨h.forest, h.flows.le, h.pending⟩

namespace Program

/-- So it keeps what advances. -/
theorem advances_of_quiet {m : StepM α} (h : Keeps State.Quiet m) : Keeps State.Advances m :=
  h.mono fun _ _ => State.Quiet.advances

private theorem advances_meetFormal (fid : FunctionId) (index : Nat) (flow : Flow) :
    Keeps State.Advances (meetFormal fid index flow) := by
  intro s fell t ht
  rcases meetFormal_eq_some ht with ⟨-, rfl, -⟩ | ⟨old, -, hold, -, rfl⟩
  · exact Std.Refl.refl t
  · exact ⟨Std.Refl.refl s.forest, Flows.setFormal_le hold inf_le_left, fun _ h => h⟩

instance (p : Program) : StepStable p State.Advances :=
  stepStable_of_meetFormal (fun _ _ => State.Quiet.advances) advances_meetFormal

end Program

/-! ## Lowering parameters -/

/-- The flows of nodes stayed, and those of parameters fell. -/
structure State.Lowers (s t : State) : Prop where
  flows : t.flows ≤ s.flows
  node : ∀ id, t.flows.ofNode id = s.flows.ofNode id

instance : IsPreorder State State.Lowers where
  refl _ := ⟨le_rfl, fun _ => rfl⟩
  trans _ _ _ hst htu := ⟨htu.flows.trans hst.flows, fun id => (htu.node id).trans (hst.node id)⟩

/-- Flows that stay as they are were lowered. -/
theorem State.Lowers.of_flows {s t : State} (h : t.flows = s.flows) : State.Lowers s t :=
  ⟨h.le, fun id => by rw [h]⟩

namespace Program

private theorem lowers_meetFormal (fid : FunctionId) (index : Nat) (flow : Flow) :
    Keeps State.Lowers (meetFormal fid index flow) := by
  intro s fell t ht
  rcases meetFormal_eq_some ht with ⟨-, rfl, -⟩ | ⟨old, -, hold, -, rfl⟩
  · exact Std.Refl.refl t
  · exact ⟨Flows.setFormal_le hold inf_le_left, fun id => Flows.ofNode_setFormal _ _ _ _ id⟩

instance (p : Program) : StepStable p State.Lowers :=
  stepStable_of_meetFormal (fun _ _ h => .of_flows h.flows) lowers_meetFormal

end Program

end TypeFlow
