import Mathlib.Data.List.Basic
import TypeFlow.Proofs.NewNodes

/-!
# Scopes

What a node can see is told by the way up from it to the root: every function on the way binds its
parameters, and so does every definition its name.  While a program is prepared the nodes around the
current one have no kinds yet, so the way is not there to be followed; a scope for every node, which
grows from parents to children, is carried along in its place.

Main definitions:

- `Expr.identifiers`: the identifiers of an expression and the names bound around each.
- `Program.Way`: the way up from a node.
- `NodeKind.pins`, `NodeKind.binder?`: what a node pins and binds in its children.
- `Scoped`: scopes that the nodes of a tree have.

Main results:

- `Builder.scoped_addNode`, `Builder.scoped_fill`: the steps of the construction keep scopes.
- `Program.Way.scoped`: pinned terms and scopes are told by the way up.
-/

namespace TypeFlow

/-! ## Identifiers -/

mutual

/-- The identifiers of an expression in the order of preparation, each with the names that are bound
around it.  The name of a definition is bound in its body, which comes first, and in the definition
itself. -/
def Expr.identifiers : Expr → List String → List (String × List String)
  | .ident name, bound => [(name, bound)]
  | .lambda params body _, bound => body.identifiers (params ++ bound)
  | .letIn name definition body, bound =>
    body.identifiers (name :: bound) ++ definition.identifiers (name :: bound)
  | .apply fn args, bound => fn.identifiers bound ++ Expr.identifiersOfArgs args bound
  | .record fields, bound => Expr.identifiersOfFields fields bound
  | .field source _, bound => source.identifiers bound
  | .nil, _ | .int _, _ | .float _, _ | .text _, _ | .prim _, _ => []
  termination_by structural e => e

/-- The identifiers of several expressions in turn. -/
def Expr.identifiersOfArgs : List Expr → List String → List (String × List String)
  | [], _ => []
  | e :: rest, bound => e.identifiers bound ++ Expr.identifiersOfArgs rest bound
  termination_by structural es => es

/-- The identifiers of several fields in turn. -/
def Expr.identifiersOfFields : List (String × Expr) → List String → List (String × List String)
  | [], _ => []
  | e :: rest, bound => Expr.identifiersOfField e bound ++ Expr.identifiersOfFields rest bound
  termination_by structural es => es

/-- The identifiers of one field. -/
def Expr.identifiersOfField : String × Expr → List String → List (String × List String)
  | (_, e), bound => e.identifiers bound
  termination_by structural e => e

end

/-- The name of the first identifier that nothing binds. -/
def firstUnbound (occurrences : List (String × List String)) : Option String :=
  (occurrences.find? fun o => o.1 ∉ o.2).map Prod.fst

/-- The first unbound occurrence of two lists is in the first one if that has any. -/
theorem firstUnbound_append (os os' : List (String × List String)) :
    firstUnbound (os ++ os') = (firstUnbound os).or (firstUnbound os') := by
  rw [firstUnbound, List.find?_append, Option.map_or]
  rfl

/-- One occurrence is unbound if its name is not bound. -/
theorem firstUnbound_singleton (name : String) (bound : List String) :
    firstUnbound [(name, bound)] = if name ∈ bound then none else some name := by
  unfold firstUnbound
  by_cases h : name ∈ bound
  · rw [if_pos h, List.find?_cons_of_neg (by simpa using h)]
    rfl
  · rw [if_neg h, List.find?_cons_of_pos (by simpa using h)]
    rfl

/-- Nothing is unbound if all occurrences are bound. -/
theorem firstUnbound_eq_none_iff {os : List (String × List String)} :
    firstUnbound os = none ↔ ∀ o ∈ os, o.1 ∈ o.2 := by
  rw [firstUnbound, Option.map_eq_none_iff, List.find?_eq_none]
  simp only [decide_eq_true_eq, not_not]

/-- The first unbound occurrence is preceded by bound ones only. -/
theorem firstUnbound_eq_some_iff {os : List (String × List String)} {name : String} :
    firstUnbound os = some name ↔ ∃ before o after, os = before ++ o :: after ∧
      (∀ o' ∈ before, o'.1 ∈ o'.2) ∧ o.1 ∉ o.2 ∧ o.1 = name := by
  simp only [firstUnbound, Option.map_eq_some_iff, List.find?_eq_some_iff_append,
    decide_eq_true_eq, Bool.not_eq_true', decide_eq_false_iff_not, not_not]
  constructor
  · rintro ⟨o, ⟨hunbound, before, after, hos, hbefore⟩, hname⟩
    exact ⟨before, o, after, hos, hbefore, hunbound, hname⟩
  · rintro ⟨before, o, after, hos, hbefore, hunbound, hname⟩
    exact ⟨o, ⟨hunbound, before, after, hos, hbefore⟩, hname⟩

/-! ## Binders -/

/-- A binder binds a name at its first position. -/
theorem Binder.binding?_eq_some_iff {b : Binder} {name : String} {found : Binding} :
    b.binding? name = some found ↔ name ∈ b.names ∧
      ∃ t, b.types[b.names.idxOf name]? = some t ∧
        found = ⟨b.node, if b.isFunction then some (b.names.idxOf name) else none, t⟩ := by
  unfold binding?
  rw [← List.idxOf_lt_length_iff]
  dsimp only
  cases b.types[b.names.idxOf name]? with
  | none => simp
  | some t =>
    dsimp only
    split
    · rename_i hlt
      rw [Option.some.injEq, and_iff_right hlt]
      exact ⟨fun h => ⟨t, rfl, h.symm⟩, fun ⟨_, ht, h⟩ => by cases ht; exact h.symm⟩
    · rename_i hlt
      exact ⟨(nomatch ·), fun h => absurd h.1 hlt⟩

/-- A binder with a term for each name binds its names and no others. -/
theorem Binder.binding?_eq_none_iff {b : Binder} (hlength : b.names.length = b.types.length)
    {name : String} : b.binding? name = none ↔ name ∉ b.names := by
  rw [← not_iff_not, not_not, ← Ne, Option.ne_none_iff_exists']
  constructor
  · rintro ⟨found, h⟩
    exact (binding?_eq_some_iff.1 h).1
  · intro hmem
    have hlt : b.names.idxOf name < b.types.length := hlength ▸ List.idxOf_lt_length_iff.2 hmem
    exact ⟨_, binding?_eq_some_iff.2 ⟨hmem, _, List.getElem?_eq_getElem hlt, rfl⟩⟩

/-- The types of a name are those in its positions. -/
theorem Binder.mem_typesOf {bd : Binder} {name : String} {i : Nat} {t : TermId}
    (hname : bd.names[i]? = some name) (ht : bd.types[i]? = some t) : t ∈ bd.typesOf name :=
  List.mem_filterMap.2
    ⟨(name, t), List.mem_of_getElem? (List.getElem?_zip_eq_some.2 ⟨hname, ht⟩), if_pos rfl⟩

/-- The types of a name are types of its binder. -/
theorem Binder.mem_types_of_mem_typesOf {bd : Binder} {name : String} {t : TermId}
    (h : t ∈ bd.typesOf name) : t ∈ bd.types := by
  obtain ⟨⟨n, u⟩, hmem, hsome⟩ := List.mem_filterMap.1 h
  dsimp only at hsome
  split at hsome
  · cases hsome
    exact (List.of_mem_zip hmem).2
  · cases hsome

/-! ## Nodes -/

/-- The terms that the node has pinned in a child: a function those of its parameters, the last
innermost, and a definition that of its name, but not in its body. -/
def NodeKind.pins (kind : NodeKind) (child : NodeId) : List TermId :=
  match kind with
  | .lambda _ _ _ formals _ => formals.reverse
  | .letIn _ definition _ binding => if child = definition then [binding] else []
  | _ => []

/-- The node binds the name to the term: a function at the first position of the name among its
parameters, and a definition at none. -/
inductive NodeKind.Binds (name : String) : NodeKind → Option Nat → TermId → Prop
  | parameter {params : List String} {body : NodeId} {fid : FunctionId} {formals : List TermId}
      {widen : Bool} {t : TermId} (hname : name ∈ params)
      (hterm : formals[params.idxOf name]? = some t) :
      Binds name (.lambda params body fid formals widen) (some (params.idxOf name)) t
  | definition {definition body : NodeId} {t : TermId} :
      Binds name (.letIn name definition body t) none t

/-- What the node binds, as the preparation notes it. -/
def NodeKind.binder? (kind : NodeKind) (id : NodeId) : Option Binder :=
  match kind with
  | .lambda params _ _ formals _ => some ⟨id, params, formals, true⟩
  | .letIn name _ _ binding => some ⟨id, [name], [binding], false⟩
  | _ => none

/-- A binding that was noted is one of the node. -/
theorem NodeKind.binds_of_binder? {kind : NodeKind} {id : NodeId} {bd : Binder} {name : String}
    {b : Binding} (hbd : kind.binder? id = some bd) (h : bd.binding? name = some b) :
    b.node = id ∧ kind.Binds name b.position b.type := by
  obtain ⟨hmem, t, ht, rfl⟩ := Binder.binding?_eq_some_iff.1 h
  cases kind with
  | lambda params body fid formals widen =>
    cases hbd
    exact ⟨rfl, .parameter hmem ht⟩
  | letIn x definition body binding =>
    cases hbd
    obtain rfl := List.mem_singleton.1 hmem
    obtain rfl := List.mem_singleton.1 (List.mem_of_getElem? ht)
    exact ⟨rfl, .definition⟩
  | _ => cases hbd

/-! ## Scopes -/

/-- A node has a scope that its children extend, and is registered with all that its scope has under
its name, if it is an identifier.  Every name in the scope stands for a term. -/
structure Seated (node : NodeId → Node) (f : Forest) (scope : NodeId → List Binder) (n : NodeId) :
    Prop where
  child : ∀ c ∈ (node n).kind.children,
    scope c = ((node n).kind.binder? n).toList ++ scope n ∧
      (node c).pinned = (node n).kind.pins c ++ (node n).pinned
  found : ∀ name binder position binding, (node n).kind = .ident name binder position binding →
    (scope n).findSome? (·.binding? name) = some ⟨binder, position, binding⟩
  registered : ∀ name binder position binding, (node n).kind = .ident name binder position binding →
    ∀ bd ∈ scope n, ∀ t ∈ bd.typesOf name, n ∈ f.deps (f.rep t)
  named : ∀ bd ∈ scope n, bd.names.length = bd.types.length

/-- All nodes have such scopes. -/
def Scoped (node : NodeId → Node) (f : Forest) (scope : NodeId → List Binder) : Prop :=
  ∀ n, Seated node f scope n

section Seated

variable {node node' : NodeId → Node} {f g : Forest} {scope scope' : NodeId → List Binder}
  {n : NodeId}

/-- A constant has no children and no binder. -/
theorem seated_const {flow : Flow} (h : (node n).kind = .const flow)
    (hnamed : ∀ bd ∈ scope n, bd.names.length = bd.types.length) : Seated node f scope n where
  child c hc := by
    rw [h] at hc
    cases hc
  found _ _ _ _ hident := by
    rw [h] at hident
    cases hident
  registered _ _ _ _ hident := by
    rw [h] at hident
    cases hident
  named := hnamed

/-- Nothing is changed for a node as long as it and its children stay what they are. -/
theorem Seated.mono (h : Seated node f scope n) (hkind : (node' n).kind = (node n).kind)
    (hsame : ∀ m, m = n ∨ m ∈ (node n).kind.children →
      scope' m = scope m ∧ (node' m).pinned = (node m).pinned)
    (hgrows : Forest.Grows f g) : Seated node' g scope' n := by
  obtain ⟨hscope, hpinned⟩ := hsame n (Or.inl rfl)
  constructor
  · intro c hc
    rw [hkind] at hc
    obtain ⟨hscope', hpinned'⟩ := hsame c (Or.inr hc)
    rw [hscope', hpinned', hkind, hscope, hpinned]
    exact h.child c hc
  · intro name binder position binding hident
    rw [hscope]
    exact h.found name binder position binding (hkind ▸ hident)
  · intro name binder position binding hident
    rw [hscope]
    exact fun bd hbd t ht =>
      hgrows.deps t n (h.registered name binder position binding (hkind ▸ hident) bd hbd t ht)
  · rw [hscope]
    exact h.named

end Seated

namespace Builder

variable {b d : Builder} {scope : NodeId → List Binder} {id : NodeId}

/-- A change of the forest leaves the scopes. -/
theorem scoped_grows (h : Scoped b.node b.forest scope) (hnodes : d.nodes = b.nodes)
    (hgrows : Forest.Grows b.forest d.forest) : Scoped d.node d.forest scope := by
  have hnode : d.node = b.node := by
    funext n
    rw [node, node, hnodes]
  rw [hnode]
  exact fun n => (h n).mono rfl (fun _ _ => ⟨rfl, rfl⟩) hgrows

/-- A new node may have any scope. -/
theorem scoped_addNode {N : Prop} {binders around : List Binder} {parent : Option NodeId}
    {pinned : List TermId} {type : TermId} (hb : b.Good N binders)
    (h : Scoped b.node b.forest scope)
    (hnamed : ∀ bd ∈ around, bd.names.length = bd.types.length)
    (hadd : addNode parent pinned type b = .ok (id, d)) :
    Scoped d.node d.forest (Function.update scope id around) := by
  obtain ⟨rfl, rfl⟩ := addNode_eq_ok.1 hadd
  have hnode := node_push b ⟨.const .any, parent, pinned, type⟩
  intro n
  by_cases hn : n < b.nodes.size
  · refine (h n).mono ?_ ?_ ((Forest.Extends.refl hb.rooted).grows hb.rooted)
    · exact congrArg Node.kind ((hnode n).trans (if_neg (Nat.ne_of_lt hn)))
    · intro m hm
      have hlt : m < b.nodes.size := by
        rcases hm with rfl | hm
        · exact hn
        · exact ((hb.fits n hn).child m hm).2.2
      exact ⟨Function.update_of_ne (Nat.ne_of_lt hlt) _ _,
        congrArg Node.pinned ((hnode m).trans (if_neg (Nat.ne_of_lt hlt)))⟩
  · refine seated_const ((congrArg Node.kind (hnode n)).trans (?_ : _ = NodeKind.const .any)) ?_
    · split
      · rfl
      · exact kind_of_size_le (Nat.le_of_not_lt hn)
    · rw [Function.update_apply]
      split
      · exact hnamed
      · exact (h n).named

/-- The kind of an open node is filled in. -/
theorem scoped_fill {kind : NodeKind} {type : TermId} (hrooted : b.forest.Rooted)
    (h : Scoped b.node b.forest scope) (hd : Filled id kind type b d)
    (hchild : ∀ c ∈ kind.children, scope c = (kind.binder? id).toList ++ scope id ∧
      (b.node c).pinned = kind.pins c ++ (b.node id).pinned)
    (hident : ∀ name binder position binding, kind = .ident name binder position binding →
      (scope id).findSome? (·.binding? name) = some ⟨binder, position, binding⟩ ∧
        ∀ bd ∈ scope id, ∀ t ∈ bd.typesOf name, id ∈ b.forest.deps (b.forest.rep t)) :
    Scoped d.node d.forest scope := by
  have hpinned : ∀ m, (d.node m).pinned = (b.node m).pinned := by
    intro m
    rw [hd.node]
    split
    · rename_i e
      rw [e]
    · rfl
  intro n
  by_cases hn : n = id
  · subst hn
    have hkind : (d.node n).kind = kind := by rw [hd.node, if_pos rfl]
    refine ⟨?_, ?_, ?_, (h n).named⟩ <;> rw [hkind]
    · intro c hc
      rw [hpinned, hpinned]
      exact hchild c hc
    · exact fun name binder position binding e => (hident name binder position binding e).1
    · rw [hd.forest]
      exact fun name binder position binding e => (hident name binder position binding e).2
  · refine (h n).mono ?_ (fun m _ => ⟨rfl, hpinned m⟩) ?_
    · rw [hd.node, if_neg hn]
    · rw [hd.forest]
      exact (Forest.Extends.refl hrooted).grows hrooted

end Builder

/-! ## The way up -/

/-- The way up from a node: all nodes above it, innermost first, with the child that leads to it. -/
inductive Program.Way (p : Program) : NodeId → List (NodeId × NodeId) → Prop
  | root {n : NodeId} (h : p.parent n = none) : Way p n []
  | up {n m : NodeId} {way : List (NodeId × NodeId)} (h : p.parent n = some m)
      (hway : Way p m way) : Way p n ((m, n) :: way)

/-- There is only one way up. -/
theorem Program.Way.unique {p : Program} {n : NodeId} {way way' : List (NodeId × NodeId)}
    (h : p.Way n way) (h' : p.Way n way') : way = way' := by
  induction h generalizing way' with
  | root hnone =>
    cases h' with
    | root => rfl
    | up hsome => rw [hnone] at hsome; cases hsome
  | up hsome _ ih =>
    cases h' with
    | root hnone => rw [hsome] at hnone; cases hnone
    | up hsome' hway' =>
      rw [hsome] at hsome'
      cases hsome'
      rw [ih hway']

section Way

variable {p : Program} {f : Forest} {scope : NodeId → List Binder} {n : NodeId}
  {way : List (NodeId × NodeId)}

/-- Below earlier nodes there is a way up. -/
theorem Program.exists_way (hup : ∀ n m, p.parent n = some m → m < n ∧ n ∈ (p.kind m).children)
    (n : NodeId) : ∃ way, p.Way n way := by
  induction n using Nat.strong_induction_on with
  | _ n ih =>
    cases hparent : p.parent n with
    | none => exact ⟨[], .root hparent⟩
    | some m =>
      obtain ⟨way, hway⟩ := ih m (hup n m hparent).1
      exact ⟨_, .up hparent hway⟩

/-- What is pinned at a node and what it can see was pinned and bound on its way up. -/
theorem Program.Way.scoped (h : p.Way n way) (hn : n < p.size) (hs : Scoped p.node f scope)
    (hup : ∀ n m, p.parent n = some m → m < n ∧ n ∈ (p.kind m).children)
    (htop : ∀ n, n < p.size → p.parent n = none → scope n = [] ∧ (p.node n).pinned = []) :
    (p.node n).pinned = way.flatMap (fun a => (p.kind a.1).pins a.2) ∧
      scope n = way.filterMap fun a => (p.kind a.1).binder? a.1 := by
  rw [List.filterMap_eq_flatMap_toList]
  induction h with
  | root hnone => exact (htop _ hn hnone).symm
  | up hsome _ ih =>
    obtain ⟨hlt, hmem⟩ := hup _ _ hsome
    obtain ⟨hscope, hpinned⟩ := (hs _).child _ hmem
    obtain ⟨ihpinned, ihscope⟩ := ih (hlt.trans hn)
    rw [List.flatMap_cons, List.flatMap_cons, ← ihpinned, ← ihscope]
    exact ⟨hpinned, hscope⟩

end Way

end TypeFlow
