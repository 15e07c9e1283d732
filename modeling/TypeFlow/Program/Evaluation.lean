import TypeFlow.Flow.Nesting
import TypeFlow.Program.CallResult

/-!
# Flow steps

A flow step recomputes the flow of a node from those around it, installs it if it fell, and
announces who reads it.  Calls also lower the parameters of the functions they may reach.

Main definitions:

- `Program.evaluate`: the flow of a node, recomputed.
- `Program.meetFormal`: lowers one parameter of a function.
- `Program.flowStep`: the step of a node.
-/

namespace TypeFlow

/-- A recomputed flow that is not below the one it replaces. -/
structure Rise where
  old : Flow
  new : Flow
  deriving DecidableEq

namespace Program

/-! ## Recomputing a flow -/

/-- The flow that a call to a function returns. -/
def resultOf (p : Program) (flows : Flows) (actuals : List Flow) (fid : FunctionId) : Flow :=
  match p.functionNode? fid with
  | none => .bottom
  | some node =>
    match p.kind node with
    | .lambda _ body _ _ _ => flows.ofNode body
    | .prim primitive _ _ => primitive.result actuals pairSite tripleSite
    | _ => .bottom

/-- The flow of a call before it is seen through its types: the meet over the functions it may
reach. -/
def reachedResult (p : Program) (flows : Flows) (actuals : List Flow) (fids : IdSet) : Flow :=
  if fids.reachesOutside then .bottom
  else fids.toList.foldl (fun flow fid => flow.meet (p.resultOf flows actuals fid)) .any

/-- The flow of a call. -/
def evaluateCall (p : Program) (flows : Flows) (id fn : NodeId) (args : List NodeId) :
    ForestM Flow :=
  match flows.ofNode fn with
  | .function fids _ =>
    let flow := p.reachedResult flows (args.map flows.ofNode) fids
    if flow.isAny then return .any
    else if p.settings.types then p.callResult flows id args flow
    else return flow
  | other => return other.fallen

/-- The flow of an identifier: that of the definition, or of the parameter, it is bound to. -/
def evaluateIdent (p : Program) (flows : Flows) (binder : NodeId) (position : Option Nat) : Flow :=
  match p.kind binder with
  | .letIn _ definition _ _ => flows.ofNode definition
  | kind =>
    match kind.function?, position with
    | some (fid, _), some i => (flows.ofFormals fid)[i]?.getD .bottom
    | _, _ => .bottom

/-- The flow of a field load. -/
def evaluateField (source : Flow) (label : String) : Flow :=
  match source with
  | .any => .any
  | .record _ (some fields) _ => (fields.find? label).getD .bottom
  | _ => .bottom

/-- The flow of a record literal. -/
def evaluateRecord (p : Program) (flows : Flows) (site : SiteId) (labels : List String)
    (parts : List NodeId) : Flow :=
  (Flow.recordAt site (.ofList (labels.zip (parts.map flows.ofNode)))).truncate
    p.settings.nestingCutoff site

/-- The flow of a node, recomputed from those around it. -/
def evaluate (p : Program) (flows : Flows) (id : NodeId) : ForestM Flow :=
  match p.kind id with
  | .const flow => return flow
  | .ident _ binder position _ => return p.evaluateIdent flows binder position
  | .lambda _ _ fid _ _ | .prim _ fid _ => return .function (.singleton fid) false
  | .letIn _ _ body _ | .root body => return flows.ofNode body
  | .record site labels parts => return p.evaluateRecord flows site labels parts
  | .field label source => return evaluateField (flows.ofNode source) label
  | .apply fn args => p.evaluateCall flows id fn args

/-! ## Access to the state -/

/-- Runs a computation on the terms, given the flows. -/
def onTerms {α : Type} (run : Flows → ForestM α) : StepM α :=
  fun ⟨forest, flows, work⟩ =>
    (run flows forest).map fun (a, forest) => (a, ⟨forest, flows, work⟩)

/-- What a function says of the flows. -/
def flowsSay {α : Type} (read : Flows → α) : StepM α := fun s => some (read s.flows, s)

/-- Announces a node. -/
def announce (id : NodeId) : StepM Unit :=
  modify fun ⟨forest, flows, work⟩ => ⟨forest, flows, work.push id⟩

/-- Announces the nodes registered with any class that a term leads to. -/
def wakeTerm (t : TermId) : StepM Unit :=
  modify fun ⟨forest, flows, work⟩ =>
    let work := forest.wake t work
    ⟨forest, flows, work⟩

/-- Replaces the flow of a node. -/
def setFlow (id : NodeId) (flow : Flow) : StepM Unit :=
  modify fun ⟨forest, flows, work⟩ => ⟨forest, flows.setNode id flow, work⟩

/-! ## Parameters -/

/-- Lowers one parameter of a function by a flow, and answers whether it fell. -/
def meetFormal (fid : FunctionId) (index : Nat) (flow : Flow) : StepM Bool :=
  fun ⟨forest, flows, work⟩ =>
    match (flows.ofFormals fid)[index]? with
    | none => some (false, ⟨forest, flows, work⟩)
    | some old =>
      let new := old.meet flow
      if new = old then some (false, ⟨forest, flows, work⟩)
      else some (true, ⟨forest, flows.setFormal fid index new, work⟩)

/-- Announces who reads a parameter of a function that a call lowered. -/
def announceFormal (p : Program) (node : NodeId) (index : Nat) : StepM Unit := do
  match (p.kind node).function? with
  | some (_, formals) =>
    let formals ← onTerms fun _ => Forest.findAll formals
    match formals[index]? with
    | some t => wakeTerm t
    | none => pure ()
  | none => pure ()
  match p.kind node with
  | .lambda _ body _ _ _ => announce body
  | .prim .cond _ _ => if index = 0 then announce node
  | _ => return

/-- Lowers the parameters of a function, from a position on, by the arguments of a call. -/
def meetFormals (p : Program) (fid : FunctionId) (node : NodeId) :
    Nat → List NodeId → StepM Unit
  | _, [] => return
  | i, arg :: rest => do
    let actual ← flowsSay (·.ofNode arg)
    if ← meetFormal fid i actual then p.announceFormal node i
    meetFormals p fid node (i + 1) rest

/-- Registers a call with each function it may reach and lowers their parameters. -/
def enterCallees (p : Program) (call : NodeId) (args : List NodeId) : List FunctionId → StepM Unit
  | [] => return
  | fid :: rest => do
    match p.functionNode? fid with
    | some node =>
      onTerms fun _ => do
        let callee ← Forest.find (p.node node).type
        watch callee call
      p.meetFormals fid node 0 args
    | none => pure ()
    enterCallees p call args rest

/-! ## Steps -/

/-- Announces who reads, through a parent, the changed flow of its child. -/
def announceFlow (p : Program) (parent child : NodeId) : StepM Unit := do
  match p.kind parent with
  | .lambda _ _ _ _ _ => wakeTerm (← onTerms fun _ => Forest.find (p.node parent).type)
  | .letIn _ definition _ _ =>
    if child = definition then
      wakeTerm (← onTerms fun _ => Forest.find (p.node definition).type)
  | .root body => if child = body then announce parent
  | .apply fn args =>
    if child = fn then announce parent
    match ← flowsSay (·.ofNode fn) with
    | .function fids _ => p.enterCallees parent args fids.toList
    | _ => return
  | _ => return

/-- Installs a flow and announces who reads it. -/
def install (p : Program) (id : NodeId) (flow : Flow) : StepM Unit := do
  setFlow id flow
  match p.parent id with
  | some parent =>
    announce parent
    p.announceFlow parent id
  | none => return

/-- Recomputes the flow of a node and installs what it fell to.  Answers the rise if the recomputed
flow is not below the old one, which then only falls to the meet of both. -/
def flowStep (p : Program) (id : NodeId) : StepM (Option Rise) := do
  let old ← flowsSay (·.ofNode id)
  let new ← onTerms fun flows => p.evaluate flows id
  if new = old then return none
  if old.covers new then
    p.install id new
    return none
  let repaired := old.meet new
  if repaired ≠ old then p.install id repaired
  return some ⟨old, new⟩

end Program

end TypeFlow
