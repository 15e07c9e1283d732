import TypeFlow.Flow.Join
import TypeFlow.Forest.Projection
import TypeFlow.Program.Basic

/-!
# Call results seen through types

The flow of a call is the meet over all functions it may reach, which loses whatever a polymorphic
function merely passes on.  The types say which parts of the result are the caller's own inputs: the
flows of the arguments are noted at the classes of their types, and the result is sharpened
wherever it meets a noted class.

Main definitions:

- `Carried`: the flows noted at classes.
- `Program.carry`: notes the flow of an argument along its type.
- `Program.sharpen`: the result of a call sharpened along its type.
- `Program.callResult`: both, for one call.
-/

namespace TypeFlow

/-- A call that may reach such a set of functions may reach anything: the set is empty or has the
function outside the program. -/
def IdSet.reachesOutside (fids : IdSet) : Bool := fids.isEmpty || fids.contains FunctionId.unknown

/-- `known` and the flow combined, or the flow alone if the two have nothing in common. -/
def Flow.narrowedBy (flow known : Flow) : Flow :=
  let both := known.join flow
  if both.isAny then flow else both

/-- The flow of one field of a record flow.  Nothing was observed of what is missing, and of an
unknown layout everything is possible. -/
def Flow.fieldOr (flow : Flow) (label : String) : Flow :=
  match flow with
  | .record _ (some fields) _ => (fields.find? label).getD .any
  | .record _ none _ => .bottom
  | _ => .any

/-- What the arguments of a call carry. -/
structure Carried where
  /-- The flow at each class met, newest first. -/
  flows : List (TermId × Flow)
  /-- The pairs of class and flow met with the current argument. -/
  seen : List (TermId × Flow)

/-- A computation that notes what arguments carry. -/
abbrev CarryM := StateT Carried ForestM

namespace Program

/-- Notes a flow at a class, met with what was noted there before. -/
def noteFlow (t : TermId) (flow : Flow) : CarryM Unit :=
  modify fun s => { s with flows := (t, ((s.flows.lookup t).getD .any).meet flow) :: s.flows }

/-- Registers a node with every class that a term leads to. -/
def watch (t : TermId) (id : NodeId) : ForestM Unit := modify (·.addDeps t [id])

/-- The widest flow of a type. -/
def widestOf (t : TermId) : ForestM Flow := do
  match (← get).widest t with
  | some flow => return flow
  | none => failure

/-- What a function hands back to its callers so far. -/
def returned (p : Program) (flows : Flows) (fid : FunctionId) : ForestM Flow := do
  match p.functionNode? fid with
  | none => return .bottom
  | some node =>
    let t ← Forest.find (p.node node).type
    if ((← get).kind t).isError then return .bottom
    match p.kind node with
    | .lambda _ body _ _ _ => return flows.ofNode body
    | .prim _ _ _ =>
      match ← Forest.child t .ret with
      | some ret => widestOf ret
      | none => return .bottom
    | _ => return .bottom

/-- Notes what each of several functions returns at the class of their result, and registers the
call with every one of them. -/
def carryResults (p : Program) (flows : Flows) (call : NodeId)
    (carry : TermId → Flow → CarryM Unit) (ret : TermId) : List FunctionId → CarryM Unit
  | [] => return
  | fid :: rest => do
    match p.functionNode? fid with
    | some node =>
      let callee ← (Forest.find (p.node node).type : ForestM TermId)
      (watch callee call : ForestM Unit)
    | none => pure ()
    let flow ← (p.returned flows fid : ForestM Flow)
    carry ret flow
    carryResults p flows call carry ret rest

/-- Notes the fields of a record flow at the classes of the fields. -/
def carryFields (carry : TermId → Flow → CarryM Unit) (t : TermId) (flow : Flow) :
    List String → CarryM Unit
  | [] => return
  | label :: rest => do
    match ← (Forest.child t (.field label) : ForestM (Option TermId)) with
    | some child => carry child (flow.fieldOr label)
    | none => pure ()
    carryFields carry t flow rest

/-- Notes a flow along a type, through at most `fuel` nested classes. -/
def carryWithin (p : Program) (flows : Flows) (call : NodeId) : Nat → TermId → Flow → CarryM Unit
  | 0, _, _ => failure
  | fuel + 1, t, flow => do
    let t ← (Forest.find t : ForestM TermId)
    if (← get).seen.contains (t, flow) then return
    modify fun s => { s with seen := (t, flow) :: s.seen }
    let carry := carryWithin p flows call fuel
    match ← (do return (← get).kind t : ForestM Kind) with
    | .error _ => noteFlow t .bottom
    | .base own => noteFlow t own
    | .var | .link _ => noteFlow t flow
    | .nilable inner =>
      let part := flow.join .nonNil
      noteFlow t part
      carry inner part
    | .function _ _ _ _ =>
      match flow with
      | .function fids _ =>
        noteFlow t flow
        if fids.reachesOutside then return
        match ← (Forest.child t .ret : ForestM (Option TermId)) with
        | some ret => p.carryResults flows call carry ret fids.toList
        | none => return
      | _ => return
    | .record fields _ _ _ =>
      noteFlow t flow
      match flow with
      | .record _ _ _ => carryFields carry t flow fields.labels
      | _ => return

/-- Notes the flows of the arguments of a call along their types. -/
def carry (p : Program) (flows : Flows) (call : NodeId) : List NodeId → CarryM Unit
  | [] => return
  | arg :: rest => do
    modify fun s => { s with seen := [] }
    let t ← (Forest.find (p.node arg).type : ForestM TermId)
    (watch t call : ForestM Unit)
    p.carryWithin flows call p.depth t (flows.ofNode arg)
    carry p flows call rest

/-- A flow that is not taken apart, sharpened at a class. -/
def sharpenWhole (call : NodeId) (noted : List (TermId × Flow)) (flow : Flow) (t : TermId) :
    ForestM Flow := do
  match (← get).kind t with
  | .var | .link _ | .error _ =>
    match noted.lookup t with
    | some known =>
      if !known.isAny && known.covers flow then
        watch t call
        return known
      else return flow
    | none => return flow
  | .base own => return flow.narrowedBy ((noted.lookup t).getD own)
  | .nilable _ | .function _ _ _ _ => return flow
  | .record _ _ _ _ =>
    match noted.lookup t with
    | some known => return flow.narrowedBy known
    | none => return flow.narrowedBy (← widestOf t)

mutual

/-- A flow sharpened along a type with what was noted at its classes. -/
def sharpen (call : NodeId) (noted : List (TermId × Flow)) : Flow → TermId → ForestM Flow
  | .any, _ => return .any
  | .record sites (some fields) nil, t => do
    let t ← Forest.find t
    if ((← get).kind t).isRecord then
      return .record sites (some (← sharpenFields call noted fields t)) nil
    else sharpenWhole call noted (.record sites (some fields) nil) t
  | flow, t => do
    let t ← Forest.find t
    sharpenWhole call noted flow t
  termination_by structural flow => flow

/-- The fields of a record flow sharpened along those of a record type. -/
def sharpenFields (call : NodeId) (noted : List (TermId × Flow)) {bound : Option String} :
    Fields Flow bound → TermId → ForestM (Fields Flow bound)
  | .nil, _ => return .nil
  | .cons label h flow rest, t => do
    let flow ← do
      match ← Forest.child t (.field label) with
      | some child => sharpen call noted flow child
      | none => pure flow
    return .cons label h flow (← sharpenFields call noted rest t)
  termination_by structural fields => fields

end

/-- The flow of a call sharpened by what its arguments carry, and never above the flow the call
has. -/
def callResult (p : Program) (flows : Flows) (call : NodeId) (args : List NodeId) (flow : Flow) :
    ForestM Flow := do
  let ((), carried) ← (p.carry flows call args).run ⟨[], []⟩
  let me ← Forest.find (p.node call).type
  watch me call
  let sharpened ← sharpen call carried.flows flow me
  return (flow.narrowedBy sharpened).meet (flows.ofNode call)

end Program

end TypeFlow
