import TypeFlow.Proofs.Construction

/-!
# What a construction is composed of

The construction of a program reaches its nodes and its forest through a few accesses.  A property
that these accesses have, and that passes through binds, is one of the construction of every
program.

Main definitions:

- `Builder.Accesses`: a property of the accesses that composed steps inherit.

Main results:

- `Builder.Accesses.lowerProgram`: the construction of a program has it.
-/

namespace TypeFlow

namespace Builder

/-- A property of steps that the accesses to a builder have and that passes through binds. -/
structure Accesses (P : (α : Type) → BuildM α → Prop) : Prop where
  pure : ∀ {α : Type} (a : α), P α (pure a)
  bind : ∀ {α β : Type} {m : BuildM α} {f : α → BuildM β},
    P α m → (∀ a, P β (f a)) → P β (m >>= f)
  throw : ∀ {α : Type} (e : BuildError), P α (throw e)
  change : ∀ f : Forest → Forest, P Unit (change f)
  grow : ∀ {α : Type} (f : Forest → α × Forest), P α (grow f)
  onForest : ∀ {α : Type} (run : ForestM α), P α (onForest run)
  unify : ∀ s t : TermId, P Unit (unify s t)
  addNode : ∀ (parent : Option NodeId) (pinned : List TermId) (type : TermId),
    P NodeId (addNode parent pinned type)
  setKind : ∀ (id : NodeId) (kind : NodeKind), P Unit (setKind id kind)
  setType : ∀ (id : NodeId) (type : TermId), P Unit (setType id type)
  typeOf : ∀ id : NodeId, P TermId (typeOf id)
  nextFunction : P FunctionId nextFunction
  addFunction : ∀ id : NodeId, P Unit (addFunction id)
  newSite : P SiteId newSite

namespace Accesses

variable {P : (α : Type) → BuildM α → Prop} (hP : Accesses P) {β : Type}

include hP

private theorem find (id : NodeId) : P _ (find id) :=
  hP.bind (hP.typeOf id) fun _ => hP.onForest _

private theorem forM {step : β → BuildM Unit} (h : ∀ x, P _ (step x)) (xs : List β) :
    P _ (xs.forM step) := by
  induction xs with
  | nil => exact hP.pure _
  | cons x rest ih => exact hP.bind (h x) fun _ => ih

/-! ## Parts of a program -/

private theorem alloc (kind : Kind) : P _ (alloc kind) := hP.grow _

private theorem allocVars (n : Nat) : P _ (allocVars n) := by
  induction n with
  | zero => exact hP.pure _
  | succ n ih => exact hP.bind (hP.alloc _) fun t => hP.bind ih fun ts => hP.pure _

private theorem primitiveParts (primitive : Primitive) : P _ (primitiveParts primitive) := by
  have hresult : ∀ (args : List TermId) (kind : Kind),
      P _ (do return (args, ← Builder.alloc kind) : BuildM (List TermId × TermId)) :=
    fun args kind => hP.bind (hP.alloc kind) fun r => hP.pure _
  have hunary : ∀ a b, P _ (Builder.primitiveParts.unary a b) :=
    fun a b => hP.bind (hP.alloc _) fun t => hresult [t] _
  cases primitive with
  | cond => exact hP.bind (hP.allocVars 3) fun args => hresult args _
  | pair => exact hP.bind (hP.allocVars 2) fun args => hresult args _
  | triple => exact hP.bind (hP.allocVars 3) fun args => hresult args _
  | eq => exact hP.bind (hP.alloc _) fun t => hresult [t, t] _
  | notNil => exact hP.bind (hP.alloc _) fun t => hresult [t] _
  | mul | add =>
    exact hP.bind (hP.alloc _) fun t => hP.bind (hP.alloc _) fun u => hresult [t, u] _
  | eqZero | isEmpty | dec | str | factor => exact hunary _ _

private theorem primitiveType (primitive : Primitive) (fid : FunctionId) :
    P _ (primitiveType primitive fid) := by
  refine hP.bind (hP.primitiveParts primitive) fun parts => ?_
  exact hP.bind (hP.grow _) fun type => hP.pure _

private theorem register (id : NodeId) (types : List TermId) : P _ (register id types) :=
  hP.forM (fun _ => hP.change _) types

private theorem addConst (place : Place) (type : TermId) (flow : Flow) :
    P _ (addConst place type flow) :=
  hP.bind (hP.addNode _ _ _) fun _ => hP.bind (hP.setKind _ _) fun _ => hP.pure _

private theorem addBase (place : Place) (flow : Flow) : P _ (addBase place flow) :=
  hP.bind (hP.alloc _) fun _ => hP.addConst _ _ _

private theorem addPrimitive (place : Place) (primitive : Primitive) :
    P _ (addPrimitive place primitive) := by
  refine hP.bind hP.nextFunction fun fid => ?_
  refine hP.bind (hP.primitiveType _ _) fun r => ?_
  refine hP.bind (hP.addNode _ _ _) fun id => ?_
  have hrest : P _ (do
      Builder.addFunction id
      Builder.setKind id (.prim primitive fid r.2)
      return id) :=
    hP.bind (hP.addFunction _) fun _ => hP.bind (hP.setKind _ _) fun _ => hP.pure _
  refine hP.bind (hP.register _ _) fun _ => ?_
  dsimp only
  split
  · refine hP.bind (hP.onForest _) fun ret => ?_
    cases ret with
    | none => exact hrest
    | some ret => exact hP.bind (hP.register _ _) fun _ => hrest
  · exact hrest

private theorem addIdent (place : Place) (name : String) : P _ (addIdent place name) := by
  refine hP.bind (hP.alloc _) fun t => hP.bind (hP.addNode _ _ _) fun id => ?_
  refine hP.bind (hP.forM (fun bd => hP.register _ _) _) fun _ => ?_
  split
  · exact hP.bind (hP.setKind _ _) fun _ => hP.pure _
  · exact hP.throw _

/-! ## Expressions -/

mutual

private theorem lowered : ∀ (e : Expr) (place : Place), P _ (lower e place)
  | .nil, place => hP.bind (hP.alloc _) fun inner =>
    hP.bind (hP.alloc _) fun type => hP.addConst _ _ _
  | .int c, place => hP.addBase _ _
  | .float x, place => hP.addBase _ _
  | .text s, place => hP.addBase _ _
  | .prim primitive, place => hP.addPrimitive _ _
  | .ident name, place => hP.addIdent _ _
  | .lambda params body widen, place => by
    refine hP.bind hP.nextFunction fun fid => ?_
    refine hP.bind (hP.allocVars _) fun formals => hP.bind (hP.alloc _) fun type => ?_
    refine hP.bind (hP.addNode _ _ _) fun id => hP.bind (hP.addFunction _) fun _ => ?_
    refine hP.bind (lowered body _) fun inner => hP.bind (hP.setKind _ _) fun _ => ?_
    refine hP.bind (hP.find _) fun ret => hP.bind (hP.grow _) fun signature => ?_
    refine hP.bind (hP.find _) fun root => hP.bind (hP.unify _ _) fun _ => ?_
    exact hP.pure _
  | .letIn name definition body, place => by
    refine hP.bind (hP.alloc _) fun binding => hP.bind (hP.addNode _ _ _) fun id => ?_
    refine hP.bind (lowered body _) fun inner => ?_
    refine hP.bind (lowered definition _) fun bound => ?_
    refine hP.bind (hP.setKind _ _) fun _ => hP.bind (hP.typeOf _) fun type => ?_
    refine hP.bind (hP.setType _ _) fun _ => hP.bind (hP.find _) fun root => ?_
    exact hP.bind (hP.unify _ _) fun _ => hP.pure _
  | .apply fn args, place => by
    refine hP.bind (hP.alloc _) fun type => hP.bind (hP.addNode _ _ _) fun id => ?_
    refine hP.bind (lowered fn _) fun callee => ?_
    refine hP.bind (loweredList args _) fun parts => ?_
    exact hP.bind (hP.setKind _ _) fun _ => hP.pure _
  | .record fields, place => by
    refine hP.bind hP.newSite fun site => hP.bind (hP.alloc _) fun type => ?_
    refine hP.bind (hP.addNode _ _ _) fun id => ?_
    refine hP.bind (loweredFields fields _ _) fun parts => ?_
    exact hP.bind (hP.setKind _ _) fun _ => hP.pure _
  | .field source label, place => by
    refine hP.bind (hP.alloc _) fun type => hP.bind (hP.addNode _ _ _) fun id => ?_
    refine hP.bind (lowered source _) fun inner => ?_
    exact hP.bind (hP.setKind _ _) fun _ => hP.pure _
  termination_by structural e => e

private theorem loweredList : ∀ (es : List Expr) (place : Place), P _ (lowerList es place)
  | [], _ => hP.pure _
  | e :: rest, _ => hP.bind (lowered e _) fun _ =>
    hP.bind (loweredList rest _) fun _ => hP.pure _
  termination_by structural es => es

private theorem loweredFields : ∀ (fields : List (String × Expr)) (place : Place) (type : TermId),
    P _ (lowerFields fields place type)
  | [], _, _ => hP.pure _
  | e :: rest, _, _ => hP.bind (loweredField e _ _) fun _ =>
    hP.bind (loweredFields rest _ _) fun _ => hP.pure _
  termination_by structural fields => fields

private theorem loweredField : ∀ (field : String × Expr) (place : Place) (type : TermId),
    P _ (lowerField field place type)
  | (_, e), _, _ => hP.bind (lowered e _) fun _ =>
    hP.bind (hP.find _) fun _ => hP.bind (hP.change _) fun _ => hP.pure _
  termination_by structural field => field

end

/-- Lowering a program is a composition of the accesses. -/
theorem lowerProgram (e : Expr) : P _ (lowerProgram e) := by
  refine hP.bind (hP.alloc _) fun type => hP.bind (hP.addNode _ _ _) fun root => ?_
  refine hP.bind (hP.lowered e _) fun body => hP.bind (hP.setKind _ _) fun _ => ?_
  exact hP.register _ _

end Accesses

end Builder

end TypeFlow
