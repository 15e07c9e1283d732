import TypeFlow.Program.Evaluation

/-!
# Escaping functions

Whoever holds the result of a program may call every function in it, with any arguments that the
types allow.  `Program.widenEscapes` lowers the parameters of those functions accordingly, and of
those that they in turn return.
-/

namespace TypeFlow

/-- The number of flows nested in those of all nodes. -/
def Flows.size (w : Flows) : Nat := w.nodes.foldl (fun n flow => n + flow.size) 0

namespace Program

/-- A walk over flows: whether it changed something, and the flows met so far, newest first. -/
abbrev EscapeWalk := Flow → List Flow → StepM (Bool × List Flow)

/-- Lowers the parameters of an escaping function, from a position on, to what their types
allow. -/
def widenFormals (p : Program) (fid : FunctionId) (node : NodeId) :
    Nat → List TermId → StepM Bool
  | _, [] => return false
  | i, formal :: rest => do
    let widest ← onTerms fun _ => widestOf formal
    let fell ← meetFormal fid i widest
    if fell then
      wakeTerm formal
      match p.kind node with
      | .lambda _ body _ _ _ => announce body
      | _ => announce node
    let later ← widenFormals p fid node (i + 1) rest
    return fell || later

/-- Follows several flows in turn. -/
def escapeEach (walk : EscapeWalk) : List Flow → List Flow → StepM (Bool × List Flow)
  | [], seen => return (false, seen)
  | flow :: rest, seen => do
    let (here, seen) ← walk flow seen
    let (later, seen) ← escapeEach walk rest seen
    return (here || later, seen)

/-- Widens several functions in turn and follows what those of the program's own return. -/
def escapeFunctions (p : Program) (walk : EscapeWalk) :
    List FunctionId → List Flow → StepM (Bool × List Flow)
  | [], seen => return (false, seen)
  | fid :: rest, seen => do
    let (here, seen) ← do
      match p.functionNode? fid with
      | none => pure (false, seen)
      | some node =>
        let formals := ((p.kind node).function?.map Prod.snd).getD []
        let formals ← onTerms fun _ => Forest.findAll formals
        let widened ← p.widenFormals fid node 0 formals
        match p.kind node with
        | .lambda _ body _ _ _ =>
          let (below, seen) ← walk (← flowsSay (·.ofNode body)) seen
          pure (widened || below, seen)
        | _ => pure (widened, seen)
    let (later, seen) ← escapeFunctions p walk rest seen
    return (here || later, seen)

/-- Widens every function that a flow exposes, through at most `fuel` nested flows. -/
def escapeFrom (p : Program) : Nat → EscapeWalk
  | 0, _, _ => failure
  | fuel + 1, flow, seen =>
    if seen.contains flow then return (false, seen)
    else
      match flow with
      | .function fids _ => p.escapeFunctions (escapeFrom p fuel) fids.toList (flow :: seen)
      | .record _ (some fields) _ => escapeEach (escapeFrom p fuel) fields.values (flow :: seen)
      | _ => return (false, flow :: seen)

/-- Widens every function that the program's result exposes, and answers whether any parameter
fell.  A walk never meets a flow twice and meets only parts of the flows of nodes. -/
def widenEscapes (p : Program) : StepM Bool := do
  let result ← flowsSay (·.ofNode rootId)
  let fuel ← flowsSay (·.size + 1)
  return (← p.escapeFrom fuel result []).1

end Program

end TypeFlow
