import TypeFlow.Flow.Join
import TypeFlow.Forest.Instance
import TypeFlow.Program.Basic

/-!
# Type steps

A type step unifies what the type of a node and the types of its neighbours require of each other.
Without a worklist it only probes.  After a step that changed something, the neighbours whose own
steps read what it changed are announced.

Main definitions:

- `Program.typeStep`: the step of a node.
- `Program.announceType`: the neighbours to revisit after it.
-/

namespace TypeFlow

namespace Program

open Unifier

/-! ## Access -/

/-- The class of a node's type. -/
def typeOf (p : Program) (id : NodeId) : UnifyM TermId := find (p.node id).type

/-- The classes of several nodes' types in turn. -/
def typesOf (p : Program) : List NodeId → UnifyM (List TermId)
  | [] => return []
  | id :: rest => do
    let t ← p.typeOf id
    return t :: (← typesOf p rest)

/-- The classes of a function's parameters. -/
def formalsOf (p : Program) (id : NodeId) : UnifyM (List TermId) :=
  match (p.kind id).function? with
  | some (_, formals) => onForest (Forest.findAll formals)
  | none => return []

/-- The classes pinned at a node, innermost first. -/
def pinnedAt (p : Program) (id : NodeId) : UnifyM (List TermId) :=
  onForest (Forest.findAll (p.node id).pinned)

/-- Unifies as deep as the program allows. -/
def unify (p : Program) (a b : TermId) : UnifyM Bool := Unifier.unify p.depth a b

/-- Unifies the type of a node with an error that its parts have. -/
def passError (p : Program) (id : NodeId) (error : TermId) (progress : Bool) : UnifyM Bool := do
  let me ← p.typeOf id
  let passed ← p.unify me error
  return passed || progress

/-- Announces a node. -/
def push (id : NodeId) : UnifyM Unit :=
  modify fun ⟨forest, work, met, image⟩ => ⟨forest, work.map (·.push id), met, image⟩

/-- Announces a node, if there is one. -/
def push? (id : Option NodeId) : UnifyM Unit :=
  match id with
  | some id => push id
  | none => return

/-- Announces several nodes in turn. -/
def pushAll (ids : List NodeId) : UnifyM Unit := ids.forM push

/-- Announces the nodes registered with one class. -/
def wakeClass (t : TermId) : UnifyM Unit := do pushAll (← view fun f => (f.deps t).toList)

/-! ## Steps -/

/-- An identifier is an instance of what it is bound to. -/
def identStep (p : Program) (id : NodeId) (binding : TermId) : UnifyM Bool := do
  let binding ← find binding
  let me ← p.typeOf id
  let pinned ← p.pinnedAt id
  instantiate p.depth binding me pinned

/-- Unifies the parameters in the slots of a function, from a position on, with those given. -/
def unifyParameters (p : Program) (fn : TermId) : Nat → List TermId → Bool → UnifyM Bool
  | _, [], progress => return progress
  | i, formal :: rest, progress => do
    let changed ← do
      match ← child fn (.arg i) with
      | some arg => p.unify arg formal
      | none => pure false
    unifyParameters p fn (i + 1) rest (progress || changed)

/-- The type of a function takes the types of its parameters to that of its body. -/
def lambdaStep (p : Program) (id body : NodeId) : UnifyM Bool := do
  let fn ← p.typeOf id
  if !(← kindOf fn).isFunction then return false
  let progress ← unifyParameters p fn 0 (← p.formalsOf id) false
  let result ← p.typeOf body
  match ← child fn .ret with
  | some slot =>
    let changed ← p.unify slot result
    return changed || progress
  | none => return progress

/-- What a call builds for a callee that is no function yet: a function of the call's arguments. -/
def callUnknown (p : Program) (id : NodeId) (callee : TermId) (args : List NodeId) :
    UnifyM Bool := do
  if ← isProbe then return true
  let actuals ← p.typesOf args
  let me ← p.typeOf id
  let shape ← fun ⟨forest, work, met, image⟩ =>
    let (t, forest) := forest.allocFunction true .empty actuals me
    some (t, ⟨forest, work, met, image⟩)
  let progress ← p.unify callee shape
  let callee ← find callee
  if (← kindOf callee).isError then p.passError id callee progress else return progress

/-- How far the arguments of a call got with the callee. -/
inductive CallOutcome
  /-- The call ends here with this answer. -/
  | finished (progress : Bool)
  | ongoing (callee : TermId) (progress : Bool)

/-- Unifies the arguments of a call, from a position on, with the callee's parameters. -/
def unifyArguments (p : Program) (id : NodeId) :
    Nat → List NodeId → TermId → Bool → UnifyM CallOutcome
  | _, [], callee, progress => return .ongoing callee progress
  | i, arg :: rest, callee, progress => do
    let changed ← do
      match ← child callee (.arg i) with
      | some formal =>
        let actual ← p.typeOf arg
        p.unify formal actual
      | none => pure false
    let progress := progress || changed
    if progress && (← isProbe) then return .finished true
    let callee ← find callee
    if (← kindOf callee).isError then return .finished (← p.passError id callee progress)
    unifyArguments p id (i + 1) rest callee progress

/-- A call takes the callee's parameters from its arguments and its type from the callee's
result. -/
def applyStep (p : Program) (id fn : NodeId) (args : List NodeId) : UnifyM Bool := do
  let callee ← p.typeOf fn
  let kind ← kindOf callee
  if kind.isError then p.passError id callee false
  else if !kind.isFunction then p.callUnknown id callee args
  else
    let me ← p.typeOf id
    let misfit := kind.arity? ≠ some args.length && !(← kindOf me).isError
    if misfit && (← isProbe) then return true
    let progress ← do
      if misfit then
        let error ← alloc (.error .arity)
        p.unify error me
      else pure false
    match ← p.unifyArguments id 0 args callee progress with
    | .finished progress => return progress
    | .ongoing callee progress =>
      let me ← p.typeOf id
      let changed ← do
        match ← child callee .ret with
        | some result => p.unify me result
        | none => pure false
      let progress := progress || changed
      let callee ← find callee
      if (← kindOf callee).isError then p.passError id callee progress else return progress

/-- Makes errors of the fields that a record literal is asked for but does not have.  Answers
nothing if a probe finds one. -/
def rejectExtra (p : Program) (id : NodeId) (labels : List String) (rec : TermId) :
    List String → Bool → UnifyM (Option Bool)
  | [], progress => return some progress
  | label :: rest, progress => do
    if labels.contains label then rejectExtra p id labels rec rest progress
    else
      match ← child rec (.field label) with
      | none => rejectExtra p id labels rec rest progress
      | some extra =>
        if (← kindOf extra).isError then rejectExtra p id labels rec rest progress
        else if ← isProbe then return none
        else
          let me ← p.typeOf id
          let missing ← alloc (.error (← view fun f => .missingField label (f.render me)))
          let changed ← p.unify extra missing
          rejectExtra p id labels rec rest (progress || changed)

/-- Unifies the fields of a record with the parts of its literal. -/
def unifyParts (p : Program) : List (String × NodeId) → TermId → Bool → UnifyM (TermId × Bool)
  | [], rec, progress => return (rec, progress)
  | (label, part) :: rest, rec, progress => do
    let rec' ← find rec
    let changed ← do
      match ← child rec' (.field label) with
      | some slot =>
        let t ← p.typeOf part
        p.unify slot t
      | none => pure false
    let progress := progress || changed
    if progress && (← isProbe) then return (rec', true)
    unifyParts p rest rec' progress

/-- A record literal has the types of its parts, and no other field can be loaded from it. -/
def recordStep (p : Program) (id : NodeId) (site : SiteId) (labels : List String)
    (parts : List NodeId) : UnifyM Bool := do
  let rec ← p.typeOf id
  let kind ← kindOf rec
  if kind.isError then return false
  if kind.isVar && (← isProbe) then return true
  let (rec, built) ← do
    if kind.isVar then
      let types ← p.typesOf parts
      let shape ← alloc (.record (.ofList (labels.zip types)) (.singleton site) false false)
      let _ ← p.unify shape rec
      pure (← p.typeOf id, true)
    else pure (rec, false)
  let kind ← kindOf rec
  if !kind.isRecord then return built
  match ← p.rejectExtra id labels rec kind.labels built with
  | none => return true
  | some progress =>
    let (rec, progress) ← p.unifyParts (labels.zip parts) rec progress
    if ← isProbe then return progress
    let rec ← find rec
    change (·.addDeps rec [id])
    return progress

/-- A field load has the type of the record's field.  A class without that field gains it, unless
it cannot be a record with such a field. -/
def fieldStep (p : Program) (id : NodeId) (label : String) (source : NodeId) : UnifyM Bool := do
  let me ← p.typeOf id
  if (← kindOf me).isError then return false
  let rec ← p.typeOf source
  let kind ← kindOf rec
  if kind.isNilable || (kind.baseFlow?.any Flow.mayNil) then
    if ← isProbe then return true
    let error ← alloc (.error (.nilRecord label))
    p.unify me error
  else
    if !(← isProbe) then change (·.addDeps rec [id])
    match ← child rec (.field label) with
    | some value => p.unify value me
    | none =>
      if ← isProbe then return true
      let kind ← kindOf rec
      if kind.isError then p.unify me rec
      else if kind.isOpen then addField rec label me
      else if kind.isVar || kind.isFunction then
        change fun f => f.addDeps me (f.deps rec).toList
        let shape ← alloc (.record (.ofList [(label, me)]) .empty true false)
        p.unify shape rec
      else
        let missing ← alloc (.error (← view fun f => .missingField label (f.render rec)))
        p.unify me missing

/-- The first error among several classes. -/
def firstError : List TermId → UnifyM (Option TermId)
  | [] => return none
  | t :: rest => do if (← kindOf t).isError then return some t else firstError rest

/-- A primitive passes errors of its arguments on. -/
def primitiveStep (p : Program) (id : NodeId) : UnifyM Bool := do
  let me ← p.typeOf id
  if (← kindOf me).isError then return false
  match ← firstError (← p.formalsOf id) with
  | some error => p.unify me error
  | none => return false

/-- A conditional has the types of the branches that can run.  Without flows both can. -/
def condStep (p : Program) (flows : Flows) (id : NodeId) (fid : FunctionId) : UnifyM Bool := do
  let me ← p.typeOf id
  match ← child me .ret with
  | none => return false
  | some result =>
    let formals ← p.formalsOf id
    let branch (i : Nat) : TermId := formals[i]?.getD me
    let live :=
      if p.settings.flows then
        Primitive.liveBranches ((flows.ofFormals fid).head?.getD .any)
      else ⟨true, true⟩
    match live with
    | ⟨false, false⟩ => return false
    | ⟨false, true⟩ => p.unify result (branch 2)
    | ⟨true, false⟩ => p.unify result (branch 1)
    | ⟨true, true⟩ =>
      let progress ← p.unify result (branch 1)
      let result ← find result
      let other ← find (branch 2)
      let changed ← p.unify result other
      return changed || progress

/-- The child classes in the given slots are the same in both classes. -/
def sameSlots (a b : TermId) : List Slot → UnifyM Bool
  | [] => return true
  | slot :: rest => do
    let x ← child a slot
    let y ← child b slot
    if x ≠ y then return false
    sameSlots a b rest

/-- A nilable class shares its children with its part that is not nil. -/
def isAligned (arg ret : TermId) : UnifyM Bool := do
  if !(← sameSlots arg ret (← kindOf arg).slots) then return false
  let kind ← kindOf arg
  return !kind.isOpen || (← kindOf ret).slots.all fun slot => (kind.child? slot).isSome

/-- Replaces the flow of a base class and announces a node if that changed it. -/
def setBase (t : TermId) (flow : Flow) (reader : Option NodeId) : UnifyM Unit := do
  if let .base old ← kindOf t then
    if old ≠ flow then
      change (·.setKind t (.base flow))
      push? reader

/-- The argument of `notNil` is its result or nil. -/
def notNilStep (p : Program) (id : NodeId) : UnifyM Bool := do
  let arg := (← p.formalsOf id).headD 0
  if (← kindOf arg).isError then return false
  let me ← p.typeOf id
  match ← child me .ret with
  | none => return false
  | some ret =>
    if arg = ret then return false
    if (← kindOf arg).isNilable then
      if (← child arg .inner) = some ret then return false
    let karg ← kindOf arg
    let kret ← kindOf ret
    match karg.baseFlow?, kret.baseFlow? with
    | some a, some r =>
      if a = r.orNil then return false
      if ← isProbe then return true
      let both := a.meet r
      setBase ret (both.join .nonNil) (p.parent id)
      setBase arg both.orNil (p.parent id)
      return true
    | _, _ =>
      let sameShape := (karg.isRecord && kret.isRecord) || (karg.isFunction && kret.isFunction)
      if ← (do if sameShape && karg.mayNil then isAligned arg ret else return false) then
        return false
      if ← isProbe then return true
      let kind ← kindOf arg
      if kind.isNilable && (← kindOf ret).isNilable then p.unify arg ret
      else
        let wrapped ← alloc (.nilable ret)
        let wrapped ← find wrapped
        p.unify wrapped arg

/-- The type step of a node.  Answers whether it changed anything, or would in a probe. -/
def typeStep (p : Program) (flows : Flows) (id : NodeId) : UnifyM Bool :=
  match p.kind id with
  | .const _ | .letIn _ _ _ _ => return false
  | .ident _ _ _ binding => p.identStep id binding
  | .lambda _ body _ _ _ => p.lambdaStep id body
  | .apply fn args => p.applyStep id fn args
  | .root body => do
    let me ← p.typeOf id
    let b ← p.typeOf body
    p.unify me b
  | .record site labels parts => p.recordStep id site labels parts
  | .field label source => p.fieldStep id label source
  | .prim .cond fid _ => p.condStep flows id fid
  | .prim .notNil _ _ => p.notNilStep id
  | .prim _ _ _ => p.primitiveStep id

/-! ## Neighbours -/

/-- The node is an occurrence of `notNil`. -/
def isNotNil (p : Program) (id : NodeId) : Bool := p.kind id matches .prim .notNil _ _

/-- Announces who reads the type of an identifier: its parent, whoever shares a pinned binding, and
the `notNil` it narrows. -/
def announceIdent (p : Program) (id : NodeId) (binding : TermId) : UnifyM Unit := do
  push? (p.parent id)
  match p.parent id with
  | none => return
  | some parent =>
    let binding ← find binding
    let pinned ← p.pinnedAt parent
    if ← occursInAny binding pinned then wake binding
    match p.kind parent with
    | .apply fn _ => if p.isNotNil fn then push fn
    | _ => return

/-- Announces the nodes registered with the parameters that occur in a function's type. -/
def announceFormals (me : TermId) : List TermId → UnifyM Unit
  | [] => return
  | formal :: rest => do
    if ← onForest (Forest.occursIn formal me) then wakeClass formal
    announceFormals me rest

/-- Announces the nodes whose steps read what a type step changed, down at most `fuel` nested field
loads. -/
def announceWithin (p : Program) : Nat → NodeId → UnifyM Unit
  | 0, _ => failure
  | fuel + 1, id =>
    match p.kind id with
    | .const _ | .root _ => return
    | .ident _ _ _ binding => p.announceIdent id binding
    | .lambda _ body _ _ _ => do
      push? (p.parent id)
      push body
      let me ← p.typeOf id
      announceFormals me (← p.formalsOf id)
    | .letIn _ definition body _ => do
      push? (p.parent id)
      push body
      push definition
      wakeClass (← p.typeOf definition)
    | .apply _ args => do
      push? (p.parent id)
      pushAll args
    | .record _ _ parts => do
      push? (p.parent id)
      pushAll parts
    | .field _ source => do
      push? (p.parent id)
      push source
      announceWithin p fuel source
    | .prim _ _ _ => do
      let me ← p.typeOf id
      if (← kindOf me).isError then push? (p.parent id)

/-- Announces the nodes whose steps read what a type step changed.  Nested field loads lead to ever
later nodes, so there are no more of them than nodes. -/
def announceType (p : Program) (id : NodeId) : UnifyM Unit := p.announceWithin (p.size + 1) id

end Program

end TypeFlow
