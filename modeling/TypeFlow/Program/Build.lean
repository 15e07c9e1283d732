import TypeFlow.Expr.Basic
import TypeFlow.Forest.Unify
import TypeFlow.Program.Basic

/-!
# Preparing a program

One walk over an expression gives every part a node, a first type term and its pinned terms, finds
the binder of every identifier and announces every node.  The body of a definition is prepared
before the definition itself, and sees its name without pinning it.

Main definitions:

- `Builder`: the program under construction.
- `Program.build`: the prepared program of an expression and its first state.
-/

namespace TypeFlow

/-- Why an expression is no program. -/
inductive BuildError
  /-- An identifier that nothing binds. -/
  | undefined (name : String)
  /-- A type that nests in a way that cannot be followed. -/
  | nesting
  deriving DecidableEq

/-- The text of an error. -/
def BuildError.message : BuildError → String
  | undefined name => "'" ++ name ++ "' is undefined"
  | nesting => "types nest too deep"

/-- A program under construction. -/
structure Builder where
  nodes : Array Node
  functions : Array NodeId
  nextSite : SiteId
  forest : Forest
  work : Worklist

/-- A step of the construction. -/
abbrev BuildM := StateT Builder (Except BuildError)

/-- Names bound by an enclosing node, with the terms they stand for. -/
structure Binder where
  node : NodeId
  names : List String
  types : List TermId
  isFunction : Bool

/-- Where an expression stands: its parent, the pinned terms and the binders around it, both
innermost first. -/
structure Place where
  parent : NodeId
  pinned : List TermId
  binders : List Binder

/-- What an identifier is bound to. -/
structure Binding where
  node : NodeId
  position : Option Nat
  type : TermId

/-- The binding of a name at a binder. -/
def Binder.binding? (b : Binder) (name : String) : Option Binding :=
  let i := b.names.idxOf name
  match b.types[i]? with
  | some type =>
    if i < b.names.length then some ⟨b.node, if b.isFunction then some i else none, type⟩ else none
  | none => none

/-- The terms a binder has under a name. -/
def Binder.typesOf (b : Binder) (name : String) : List TermId :=
  (b.names.zip b.types).filterMap fun (n, t) => if n = name then some t else none

namespace Builder

/-! ## Access -/

/-- Changes the forest. -/
def change (f : Forest → Forest) : BuildM Unit :=
  modify fun ⟨nodes, functions, nextSite, forest, work⟩ =>
    ⟨nodes, functions, nextSite, f forest, work⟩

/-- Changes the forest with a result. -/
def grow {α : Type} (f : Forest → α × Forest) : BuildM α :=
  modifyGet fun ⟨nodes, functions, nextSite, forest, work⟩ =>
    let (a, forest) := f forest
    (a, ⟨nodes, functions, nextSite, forest, work⟩)

/-- Runs a computation on the forest. -/
def onForest {α : Type} (run : ForestM α) : BuildM α :=
  fun ⟨nodes, functions, nextSite, forest, work⟩ =>
    match run forest with
    | some (a, forest) => .ok (a, ⟨nodes, functions, nextSite, forest, work⟩)
    | none => .error .nesting

/-- Unifies a variable with a term. -/
def unify (a b : TermId) : BuildM Unit :=
  fun ⟨nodes, functions, nextSite, forest, work⟩ =>
    match (Unifier.unify 1 a b).run ⟨forest, some work, [], []⟩ with
    | some (_, u) =>
      .ok ((), ⟨nodes, functions, nextSite, u.forest, u.work.getD .empty⟩)
    | none => .error .nesting

/-- A fresh term. -/
def alloc (kind : Kind) : BuildM TermId := grow (·.alloc kind)

/-- Fresh type variables. -/
def allocVars : Nat → BuildM (List TermId)
  | 0 => return []
  | n + 1 => do
    let t ← alloc .var
    return t :: (← allocVars n)

/-- A node, which is announced.  Its kind is filled in when its children are there. -/
def addNode (parent : Option NodeId) (pinned : List TermId) (type : TermId) : BuildM NodeId :=
  modifyGet fun ⟨nodes, functions, nextSite, forest, work⟩ =>
    let id := nodes.size
    (id, ⟨nodes.push ⟨.const .any, parent, pinned, type⟩, functions, nextSite, forest,
      work.push id⟩)

/-- Fills in the kind of a node. -/
def setKind (id : NodeId) (kind : NodeKind) : BuildM Unit :=
  modify fun b => { b with nodes := b.nodes.modify id fun n => { n with kind := kind } }

/-- Replaces the type of a node. -/
def setType (id : NodeId) (type : TermId) : BuildM Unit :=
  modify fun b => { b with nodes := b.nodes.modify id fun n => { n with type := type } }

/-- The term of a node's type. -/
def typeOf (id : NodeId) : BuildM TermId := do return ((← get).nodes[id]?.getD default).type

/-- The class of a node's type. -/
def find (id : NodeId) : BuildM TermId := do onForest (Forest.find (← typeOf id))

/-- The identity of the next function. -/
def nextFunction : BuildM FunctionId := do return (← get).functions.size + 1

/-- Registers a node as the next function. -/
def addFunction (id : NodeId) : BuildM Unit :=
  modify fun b => { b with functions := b.functions.push id }

/-- The next place where records are built. -/
def newSite : BuildM SiteId :=
  modifyGet fun b => (b.nextSite, { b with nextSite := b.nextSite + 1 })

/-! ## Types of primitives -/

/-- The record type of a tuple. -/
def tupleKind (site : SiteId) (parts : List TermId) : Kind :=
  .record (.ofList ((Primitive.tupleLabels parts.length).zip parts)) (.singleton site) false false

/-- Fresh terms for the parameters and the result of a primitive. -/
def primitiveParts : Primitive → BuildM (List TermId × TermId)
  | .cond => do
    let args ← allocVars 3
    return (args, ← alloc .var)
  | .pair => do
    let args ← allocVars 2
    return (args, ← alloc (tupleKind Program.pairSite args))
  | .triple => do
    let args ← allocVars 3
    return (args, ← alloc (tupleKind Program.tripleSite args))
  | .eq => do
    let a ← alloc .var
    return ([a, a], ← alloc (.base .bool))
  | .notNil => do
    let a ← alloc .var
    return ([a], ← alloc .var)
  | .mul | .add => do
    let a ← alloc (.base .int64)
    let b ← alloc (.base .int64)
    return ([a, b], ← alloc (.base .int64))
  | .eqZero => unary .int64 .bool
  | .isEmpty => unary .anyText .bool
  | .dec => unary .int64 .int64
  | .str => unary .int64 .anyText
  | .factor => unary .double .double
where
  /-- One parameter and a result of base types. -/
  unary (parameter result : Flow) : BuildM (List TermId × TermId) := do
    let a ← alloc (.base parameter)
    return ([a], ← alloc (.base result))

/-- The fresh type of one occurrence of a primitive, and the terms of its parameters. -/
def primitiveType (primitive : Primitive) (fid : FunctionId) : BuildM (TermId × List TermId) := do
  let (args, ret) ← primitiveParts primitive
  return (← grow (·.allocFunction false (.singleton fid) args ret), args)

/-! ## Parts of a program -/

/-- A constant. -/
def addConst (place : Place) (type : TermId) (flow : Flow) : BuildM NodeId := do
  let id ← addNode (some place.parent) place.pinned type
  setKind id (.const flow)
  return id

/-- A constant of a base type. -/
def addBase (place : Place) (flow : Flow) : BuildM NodeId := do
  addConst place (← alloc (.base flow)) flow

/-- Registers a node with several terms. -/
def register (id : NodeId) (types : List TermId) : BuildM Unit :=
  types.forM fun t => change (·.addDeps t [id])

/-- One occurrence of a primitive. -/
def addPrimitive (place : Place) (primitive : Primitive) : BuildM NodeId := do
  let fid ← nextFunction
  let (type, formals) ← primitiveType primitive fid
  let id ← addNode (some place.parent) place.pinned type
  register id formals
  if primitive = .notNil then
    match ← onForest (Forest.child type .ret) with
    | some ret => register id [ret]
    | none => pure ()
  addFunction id
  setKind id (.prim primitive fid formals)
  return id

/-- An identifier, registered with every binding of its name around it. -/
def addIdent (place : Place) (name : String) : BuildM NodeId := do
  let id ← addNode (some place.parent) place.pinned (← alloc .var)
  place.binders.reverse.forM fun b => register id (b.typesOf name)
  match place.binders.findSome? (·.binding? name) with
  | some b =>
    setKind id (.ident name b.node b.position b.type)
    return id
  | none => throw (.undefined name)

mutual

/-- Prepares an expression at its place and answers its node. -/
def lower : Expr → Place → BuildM NodeId
  | .nil, place => do
    let inner ← alloc .var
    addConst place (← alloc (.nilable inner)) .nil
  | .int c, place => addBase place (.int (.const c))
  | .float x, place => addBase place (.float (.const x))
  | .text s, place => addBase place (.text (some s) false)
  | .prim p, place => addPrimitive place p
  | .ident name, place => addIdent place name
  | .lambda params body widen, place => do
    let fid ← nextFunction
    let formals ← allocVars params.length
    let id ← addNode (some place.parent) place.pinned (← alloc .var)
    addFunction id
    let binders := ⟨id, params, formals, true⟩ :: place.binders
    let body ← lower body ⟨id, formals.reverse ++ place.pinned, binders⟩
    setKind id (.lambda params body fid formals widen)
    let ret ← find body
    let type ← grow (·.allocFunction widen (.singleton fid) formals ret)
    unify (← find id) type
    return id
  | .letIn name definition body, place => do
    let binding ← alloc .var
    let id ← addNode (some place.parent) place.pinned binding
    let binders := ⟨id, [name], [binding], false⟩ :: place.binders
    let body ← lower body ⟨id, place.pinned, binders⟩
    let definition ← lower definition ⟨id, binding :: place.pinned, binders⟩
    setKind id (.letIn name definition body binding)
    setType id (← typeOf body)
    unify binding (← find definition)
    return id
  | .apply fn args, place => do
    let id ← addNode (some place.parent) place.pinned (← alloc .var)
    let fn ← lower fn { place with parent := id }
    let args ← lowerList args { place with parent := id }
    setKind id (.apply fn args)
    return id
  | .record fields, place => do
    let site ← newSite
    let type ← alloc (.record .nil (.singleton site) false false)
    let id ← addNode (some place.parent) place.pinned type
    let parts ← lowerFields fields { place with parent := id } type
    setKind id (.record site (parts.map Prod.fst) (parts.map Prod.snd))
    return id
  | .field source label, place => do
    let id ← addNode (some place.parent) place.pinned (← alloc .var)
    let source ← lower source { place with parent := id }
    setKind id (.field label source)
    return id
  termination_by structural e => e

/-- Prepares expressions in turn. -/
def lowerList : List Expr → Place → BuildM (List NodeId)
  | [], _ => return []
  | e :: rest, place => do
    let id ← lower e place
    return id :: (← lowerList rest place)
  termination_by structural es => es

/-- Prepares the fields of a record literal in turn, adding each to the type of the record. -/
def lowerFields : List (String × Expr) → Place → TermId → BuildM (List (String × NodeId))
  | [], _, _ => return []
  | e :: rest, place, type => do
    let part ← lowerField e place type
    return part :: (← lowerFields rest place type)
  termination_by structural es => es

/-- Prepares one field of a record literal and adds it to the type of the record. -/
def lowerField : String × Expr → Place → TermId → BuildM (String × NodeId)
  | (label, e), place, type => do
    let id ← lower e place
    let t ← find id
    change (·.setChild type (.field label) t)
    return (label, id)
  termination_by structural e => e

end

/-- Prepares a whole program. -/
def lowerProgram (e : Expr) : BuildM Unit := do
  let type ← alloc .var
  let root ← addNode none [] type
  let body ← lower e ⟨root, [], []⟩
  setKind root (.root body)
  register root [type]

end Builder

/-- No flow was observed yet. -/
def Builder.initialFlows (b : Builder) : Flows where
  nodes := Array.replicate b.nodes.size .any
  formals := b.functions.map fun id =>
    match ((b.nodes[id]?.getD default).kind).function? with
    | some (_, formals) => formals.map fun _ => .any
    | none => []

/-- The prepared program of an expression and its first state, where every node is pending. -/
def Program.build (e : Expr) (settings : Settings) (depth : Nat := Unifier.depthLimit) :
    Except BuildError (Program × State) := do
  let start : Builder := ⟨#[], #[], 3, .empty, .empty settings.popOrder⟩
  let ((), b) ← (Builder.lowerProgram e).run start
  return (⟨b.nodes, b.functions, settings, depth⟩, ⟨b.forest, b.initialFlows, b.work⟩)

end TypeFlow
