import TypeFlow.Forest.Find
import TypeFlow.Primitive
import TypeFlow.Settings

/-!
# Prepared programs

A prepared program is a tree of nodes in one array, parents before their children.  It never changes
while it is analysed; what changes is kept in a `State`: the type terms, the flows and the pending
work.

Main definitions:

- `Node`, `Program`: the tree and its settings.
- `Flows`: the flow of every node, and of every parameter of every function.
- `State`: everything an analysis changes.
-/

namespace TypeFlow

/-- What a node of the tree is. -/
inductive NodeKind
  | const (flow : Flow)
  /-- A name, with the node that binds it, its position among the binder's parameters if the binder
  is a function, and the term of the binding. -/
  | ident (name : String) (binder : NodeId) (position : Option Nat) (binding : TermId)
  /-- A function with the terms of its parameters. -/
  | lambda (params : List String) (body : NodeId) (fid : FunctionId) (formals : List TermId)
      (widen : Bool)
  /-- A definition with the term its name stands for. -/
  | letIn (name : String) (definition body : NodeId) (binding : TermId)
  | apply (fn : NodeId) (args : List NodeId)
  /-- The whole program. -/
  | root (body : NodeId)
  | record (site : SiteId) (labels : List String) (parts : List NodeId)
  | field (label : String) (source : NodeId)
  /-- One occurrence of a primitive with the terms of its parameters. -/
  | prim (primitive : Primitive) (fid : FunctionId) (formals : List TermId)

instance : Inhabited NodeKind := ⟨.const .any⟩

/-- The children in evaluation order. -/
def NodeKind.children : NodeKind → List NodeId
  | lambda _ body _ _ _ | root body => [body]
  | letIn _ definition body _ => [definition, body]
  | apply fn args => fn :: args
  | record _ _ parts => parts
  | field _ source => [source]
  | const _ | ident _ _ _ _ | prim _ _ _ => []

/-- The function a node is, with the terms of its parameters. -/
def NodeKind.function? : NodeKind → Option (FunctionId × List TermId)
  | lambda _ _ fid formals _ | prim _ fid formals => some (fid, formals)
  | _ => none

/-- A node of the tree. -/
structure Node where
  kind : NodeKind
  parent : Option NodeId
  /-- The terms that enclosing binders have not finished with, innermost first. -/
  pinned : List TermId
  /-- The term of the node's type. -/
  type : TermId

instance : Inhabited Node := ⟨⟨default, none, [], 0⟩⟩

/-- A prepared program. -/
structure Program where
  nodes : Array Node
  /-- The node of each function, by its identity less one. -/
  functions : Array NodeId
  settings : Settings
  /-- How deep one unification may nest before it is given up. -/
  depth : Nat

namespace Program

/-- The node of the whole program. -/
def rootId : NodeId := 0

/-- The place where pairs are built. -/
def pairSite : SiteId := 1

/-- The place where triples are built. -/
def tripleSite : SiteId := 2

/-- The number of nodes. -/
def size (p : Program) : Nat := p.nodes.size

/-- A node.  Positions outside the tree are no node of interest. -/
def node (p : Program) (id : NodeId) : Node := p.nodes[id]?.getD default

/-- What a node is. -/
def kind (p : Program) (id : NodeId) : NodeKind := (p.node id).kind

/-- The parent of a node. -/
def parent (p : Program) (id : NodeId) : Option NodeId := (p.node id).parent

/-- The node of a function, unless the function is none of the program's. -/
def functionNode? (p : Program) (fid : FunctionId) : Option NodeId :=
  if fid = FunctionId.unknown then none else p.functions[fid - 1]?

end Program

/-- The flows found so far. -/
structure Flows where
  /-- The flow of each node. -/
  nodes : Array Flow
  /-- The flows of each function's parameters, by its identity less one. -/
  formals : Array (List Flow)

namespace Flows

/-- The flow of a node. -/
def ofNode (w : Flows) (id : NodeId) : Flow := w.nodes[id]?.getD .any

/-- The flows of a function's parameters. -/
def ofFormals (w : Flows) (fid : FunctionId) : List Flow := w.formals[fid - 1]?.getD []

/-- The flows with that of a node replaced. -/
def setNode (w : Flows) (id : NodeId) (flow : Flow) : Flows :=
  { w with nodes := w.nodes.setIfInBounds id flow }

/-- The flows with that of one parameter replaced. -/
def setFormal (w : Flows) (fid : FunctionId) (index : Nat) (flow : Flow) : Flows :=
  { w with formals := w.formals.modify (fid - 1) (·.set index flow) }

end Flows

/-- Everything an analysis changes. -/
structure State where
  forest : Forest
  flows : Flows
  work : Worklist

/-- A step of an analysis.  It has no result if a type nests in a way that cannot be followed. -/
abbrev StepM := StateT State Option

end TypeFlow
