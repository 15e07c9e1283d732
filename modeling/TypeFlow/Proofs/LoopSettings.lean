import TypeFlow.Program.Fixpoint
import TypeFlow.Proofs.Construction
import TypeFlow.Proofs.Steps

/-!
# Settings that only the loop reads

A step of the solver reads the tree and few of the settings.  How many nodes may be visited is read
by nothing but the loop, so programs that differ in the ceiling make the same steps.

Main definitions:

- `Program.under`: the program under other settings.
- `Program.withCeiling`: the program under another ceiling.

Main results:

- `Program.build_withCeiling`: the same program is prepared, but for the ceiling.
- `Program.visit_withCeiling`, `Program.check_withCeiling`, `Program.widenEscapes_under`: the steps
  are the same.
-/

namespace TypeFlow

namespace Program

/-- The program under other settings. -/
def under (p : Program) (settings : Settings) : Program := { p with settings := settings }

/-- The program under another ceiling. -/
def withCeiling (p : Program) (ceiling : Nat) : Program :=
  p.under { p.settings with maxIterations := ceiling }

section Under

variable (p : Program) (settings : Settings)

/-! ## Type steps -/

@[simp]
theorem typesOf_under (ids : List NodeId) : (p.under settings).typesOf ids = p.typesOf ids := by
  induction ids with
  | nil => rfl
  | cons id rest ih =>
    simp only [typesOf, ih]
    rfl

@[simp]
theorem unifyParameters_under (fn : TermId) (i : Nat) (formals : List TermId) (progress : Bool) :
    (p.under settings).unifyParameters fn i formals progress =
      p.unifyParameters fn i formals progress := by
  induction formals generalizing i progress with
  | nil => rfl
  | cons formal rest ih =>
    simp only [unifyParameters, ih]
    rfl

@[simp]
theorem unifyArguments_under (id : NodeId) (i : Nat) (args : List NodeId) (callee : TermId)
    (progress : Bool) :
    (p.under settings).unifyArguments id i args callee progress =
      p.unifyArguments id i args callee progress := by
  induction args generalizing i callee progress with
  | nil => rfl
  | cons arg rest ih =>
    simp only [unifyArguments, ih]
    rfl

@[simp]
theorem rejectExtra_under (id : NodeId) (labels : List String) (rec : TermId)
    (remaining : List String) (progress : Bool) :
    (p.under settings).rejectExtra id labels rec remaining progress =
      p.rejectExtra id labels rec remaining progress := by
  induction remaining generalizing progress with
  | nil => rfl
  | cons label rest ih =>
    simp only [rejectExtra, ih]
    rfl

@[simp]
theorem unifyParts_under (fields : List (String × NodeId)) (rec : TermId) (progress : Bool) :
    (p.under settings).unifyParts fields rec progress = p.unifyParts fields rec progress := by
  induction fields generalizing rec progress with
  | nil => rfl
  | cons field rest ih =>
    simp only [unifyParts, ih]
    rfl

@[simp]
theorem announceType_under (id : NodeId) :
    (p.under settings).announceType id = p.announceType id := by
  have hwithin : ∀ fuel id, (p.under settings).announceWithin fuel id = p.announceWithin fuel id := by
    intro fuel
    induction fuel with
    | zero => exact fun _ => rfl
    | succ fuel ih =>
      intro id
      simp only [announceWithin, ih]
      rfl
  exact hwithin _ _

/-- Of the settings, type steps read whether there are flows. -/
theorem typeStep_under (h : settings.flows = p.settings.flows) (flows : Flows) (id : NodeId) :
    (p.under settings).typeStep flows id = p.typeStep flows id := by
  have hlambda : ∀ body, (p.under settings).lambdaStep id body = p.lambdaStep id body := by
    intro body
    simp only [lambdaStep, unifyParameters_under]
    rfl
  have happly : ∀ fn args, (p.under settings).applyStep id fn args = p.applyStep id fn args := by
    intro fn args
    simp only [applyStep, callUnknown, typesOf_under, unifyArguments_under]
    rfl
  have hrecord : ∀ site labels parts,
      (p.under settings).recordStep id site labels parts = p.recordStep id site labels parts := by
    intro site labels parts
    simp only [recordStep, typesOf_under, rejectExtra_under, unifyParts_under]
    rfl
  have hcond : ∀ fid, (p.under settings).condStep flows id fid = p.condStep flows id fid := by
    intro fid
    simp only [condStep, under, h]
    rfl
  unfold typeStep
  simp only [hlambda, happly, hrecord, hcond]
  rfl

/-! ## Flow steps -/

@[simp]
theorem callResult_under (flows : Flows) (call : NodeId) (args : List NodeId) (flow : Flow) :
    (p.under settings).callResult flows call args flow = p.callResult flows call args flow := by
  have hresults : ∀ carry ret fids, (p.under settings).carryResults flows call carry ret fids =
      p.carryResults flows call carry ret fids := by
    intro carry ret fids
    induction fids with
    | nil => rfl
    | cons fid rest ih =>
      simp only [carryResults, ih]
      rfl
  have hwithin : ∀ fuel t flow, (p.under settings).carryWithin flows call fuel t flow =
      p.carryWithin flows call fuel t flow := by
    intro fuel
    induction fuel with
    | zero => exact fun _ _ => rfl
    | succ fuel ih =>
      intro t flow
      have hcarry : (p.under settings).carryWithin flows call fuel =
          p.carryWithin flows call fuel := funext fun t => funext fun flow => ih t flow
      simp only [carryWithin, hcarry, hresults]
  have hcarry : ∀ args, (p.under settings).carry flows call args = p.carry flows call args := by
    intro args
    induction args with
    | nil => rfl
    | cons arg rest ih =>
      simp only [carry, ih, hwithin]
      rfl
  simp only [callResult, hcarry]
  rfl

/-- Of the settings, recomputing a flow reads whether there are types and how deep records may
nest. -/
theorem evaluate_under (htypes : settings.types = p.settings.types)
    (hcutoff : settings.nestingCutoff = p.settings.nestingCutoff) (flows : Flows) (id : NodeId) :
    (p.under settings).evaluate flows id = p.evaluate flows id := by
  have hcall : ∀ fn args, (p.under settings).evaluateCall flows id fn args =
      p.evaluateCall flows id fn args := by
    intro fn args
    have hif : ((p.under settings).settings.types = true) = (p.settings.types = true) :=
      congrArg (· = true) htypes
    simp only [evaluateCall, callResult_under, hif]
    rfl
  have hrecord : ∀ site labels parts, (p.under settings).evaluateRecord flows site labels parts =
      p.evaluateRecord flows site labels parts := by
    intro site labels parts
    simp only [evaluateRecord, under, hcutoff]
  unfold evaluate
  simp only [hcall, hrecord]
  rfl

private theorem meetFormals_under (fid : FunctionId) (node : NodeId) (i : Nat) (args : List NodeId) :
    (p.under settings).meetFormals fid node i args = p.meetFormals fid node i args := by
  induction args generalizing i with
  | nil => rfl
  | cons arg rest ih =>
    rw [meetFormals_cons, meetFormals_cons, ih]
    rfl

@[simp]
theorem enterCallees_under (call : NodeId) (args : List NodeId) (fids : List FunctionId) :
    (p.under settings).enterCallees call args fids = p.enterCallees call args fids := by
  induction fids with
  | nil => rfl
  | cons fid rest ih =>
    rw [enterCallees_cons, enterCallees_cons, ih]
    simp only [enterCallee, meetFormals_under]
    rfl

@[simp]
theorem install_under (id : NodeId) (flow : Flow) :
    (p.under settings).install id flow = p.install id flow := by
  have hannounce : ∀ parent, (p.under settings).announceFlow parent id =
      p.announceFlow parent id := by
    intro parent
    simp only [announceFlow, enterCallees_under]
    rfl
  simp only [install, hannounce]
  rfl

/-! ## Widening -/

private theorem escapeFunction_under (walk : EscapeWalk) (fid : FunctionId) (seen : List Flow) :
    (p.under settings).escapeFunction walk fid seen = p.escapeFunction walk fid seen := by
  have hformals : ∀ node i formals, (p.under settings).widenFormals fid node i formals =
      p.widenFormals fid node i formals := by
    intro node i formals
    induction formals generalizing i with
    | nil => rfl
    | cons formal rest ih =>
      rw [widenFormals_cons, widenFormals_cons, ih]
      rfl
  have hfunction : ∀ node, (p.under settings).widenFunction fid node = p.widenFunction fid node := by
    intro node
    unfold widenFunction
    simp only [hformals]
    rfl
  unfold escapeFunction
  simp only [hfunction]
  rfl

/-- Widening reads no settings. -/
theorem widenEscapes_under : (p.under settings).widenEscapes = p.widenEscapes := by
  have hfunctions : ∀ walk fids seen, (p.under settings).escapeFunctions walk fids seen =
      p.escapeFunctions walk fids seen := by
    intro walk fids
    induction fids with
    | nil => exact fun seen => rfl
    | cons fid rest ih =>
      intro seen
      rw [escapeFunctions_cons, escapeFunctions_cons, escapeFunction_under]
      simp only [ih]
  have hfrom : ∀ fuel, (p.under settings).escapeFrom fuel = p.escapeFrom fuel := by
    intro fuel
    induction fuel with
    | zero => rfl
    | succ fuel ih =>
      funext flow seen
      unfold escapeFrom
      simp only [ih, hfunctions]
  unfold widenEscapes
  simp only [hfrom]

end Under

/-! ## The ceiling -/

section Ceiling

variable (p : Program) (ceiling : Nat)

private theorem typeStep_withCeiling (flows : Flows) (id : NodeId) :
    (p.withCeiling ceiling).typeStep flows id = p.typeStep flows id :=
  typeStep_under p { p.settings with maxIterations := ceiling } rfl flows id

private theorem evaluate_withCeiling (flows : Flows) (id : NodeId) :
    (p.withCeiling ceiling).evaluate flows id = p.evaluate flows id :=
  evaluate_under p { p.settings with maxIterations := ceiling } rfl rfl flows id

/-- A visit does not depend on the ceiling. -/
theorem visit_withCeiling (id : NodeId) : (p.withCeiling ceiling).visit id = p.visit id := by
  have hadvance : (p.withCeiling ceiling).advanceType id = p.advanceType id := by
    simp only [advanceType, typeStep_withCeiling]
    simp only [withCeiling, announceType_under]
  have htype : (p.withCeiling ceiling).stepType id = p.stepType id := by
    simp only [stepType, hadvance]
    rfl
  have hflow : (p.withCeiling ceiling).flowStep id = p.flowStep id := by
    simp only [flowStep, evaluate_withCeiling]
    simp only [withCeiling, install_under]
  simp only [visit, htype, stepFlow, hflow]
  rfl

/-- Neither does a check. -/
theorem check_withCeiling (phase : Phase) (converged : Bool) :
    (p.withCeiling ceiling).check phase converged = p.check phase converged := by
  have hnode : ∀ id, (p.withCeiling ceiling).checkNode phase id = p.checkNode phase id := by
    intro id
    simp only [checkNode, checkType, typeStep_withCeiling, checkFlow, evaluate_withCeiling]
    rfl
  have hnodes : ∀ ids found, (p.withCeiling ceiling).checkNodes phase ids found =
      p.checkNodes phase ids found := by
    intro ids
    induction ids with
    | nil => exact fun found => rfl
    | cons id rest ih =>
      intro found
      simp only [checkNodes, hnode, ih]
  simp only [check, hnodes]
  rfl

/-- Under another ceiling the same program is prepared, or there is the same error. -/
theorem build_withCeiling (e : Expr) (settings : Settings) (depth : Nat) :
    build e { settings with maxIterations := ceiling } depth =
      (build e settings depth).map fun r => (r.1.withCeiling ceiling, r.2) := by
  have h : ∀ settings : Settings, build e settings depth =
      (Builder.lowerProgram e (Builder.start settings)).bind fun r =>
        .ok (⟨r.2.nodes, r.2.functions, settings, depth⟩,
          ⟨r.2.forest, r.2.initialFlows, r.2.work⟩) := fun _ => rfl
  have hstart : Builder.start { settings with maxIterations := ceiling } =
      Builder.start settings := rfl
  rw [h, h, hstart]
  cases Builder.lowerProgram e (Builder.start settings) <;> rfl

end Ceiling

end Program

end TypeFlow
