import Mathlib.Order.Defs.Unbundled
import TypeFlow.Analysis.Basic

/-!
# The construction of a program

What a successful preparation of a program leaves is found by following its steps.  This module
takes the construction apart into its parts.

Main results:

- `Builder.bind_eq_ok`: a result of two steps in turn comes from one of the first.
- `Program.build_eq_ok`: a prepared program and its first state are those of a finished
  construction.
- `Expr.analyze_eq_ok`: an analysis is a run from the first state.
-/

namespace TypeFlow

namespace Builder

variable {α β : Type}

/-- The construction before its first step. -/
def start (settings : Settings) : Builder := ⟨#[], #[], 3, .empty, .empty settings.popOrder⟩

/-- A result of two steps in turn is one of the second, after one of the first. -/
theorem bind_eq_ok {m : BuildM α} {f : α → BuildM β} {b d : Builder} {y : β} :
    (m >>= f) b = .ok (y, d) ↔ ∃ x c, m b = .ok (x, c) ∧ f x c = .ok (y, d) := by
  have h : (m >>= f) b = (m b).bind fun r => f r.1 r.2 := rfl
  rw [h]
  constructor
  · intro h
    cases hm : m b with
    | error e =>
      rw [hm] at h
      cases h
    | ok r =>
      rw [hm] at h
      exact ⟨r.1, r.2, rfl, h⟩
  · rintro ⟨x, c, hm, hf⟩
    rw [hm]
    exact hf

/-- A builder that only answers is left alone. -/
theorem pure_eq_ok {x y : α} {b d : Builder} :
    (pure x : BuildM α) b = .ok (y, d) ↔ x = y ∧ b = d := by
  have h : (pure x : BuildM α) b = .ok (x, b) := rfl
  rw [h, Except.ok.injEq, Prod.mk.injEq]

/-! ## Access -/

/-- A node of a program under construction. -/
def node (b : Builder) (id : NodeId) : Node := b.nodes[id]?.getD default

/-- A change of the forest changes nothing else. -/
theorem change_eq_ok {f : Forest → Forest} {b d : Builder} {u : Unit} :
    change f b = .ok (u, d) ↔ d = { b with forest := f b.forest } := by
  have h : change f b = .ok ((), { b with forest := f b.forest }) := rfl
  rw [h, Except.ok.injEq, Prod.mk.injEq, eq_comm (a := d)]
  exact and_iff_right rfl

/-- Neither does growing it, which answers what is new. -/
theorem grow_eq_ok {f : Forest → α × Forest} {b d : Builder} {x : α} :
    grow f b = .ok (x, d) ↔ (f b.forest).1 = x ∧ d = { b with forest := (f b.forest).2 } := by
  have h : grow f b = .ok ((f b.forest).1, { b with forest := (f b.forest).2 }) := rfl
  rw [h, Except.ok.injEq, Prod.mk.injEq, eq_comm (a := d)]

/-- Neither does a computation on the forest. -/
theorem onForest_eq_ok {run : ForestM α} {b d : Builder} {x : α} :
    onForest run b = .ok (x, d) ↔
      ∃ forest, run b.forest = some (x, forest) ∧ d = { b with forest := forest } := by
  obtain ⟨nodes, functions, nextSite, forest, work⟩ := b
  unfold onForest
  cases hrun : run forest with
  | none => simp [hrun]
  | some r =>
    obtain ⟨x', forest'⟩ := r
    simp only [hrun, Except.ok.injEq, Prod.mk.injEq, Option.some.injEq]
    constructor
    · rintro ⟨rfl, rfl⟩
      exact ⟨forest', ⟨rfl, rfl⟩, rfl⟩
    · rintro ⟨g, ⟨rfl, rfl⟩, rfl⟩
      exact ⟨rfl, rfl⟩

/-- Unifying two types at first runs the unification with what is queued. -/
theorem unify_eq_ok {s t : TermId} {b d : Builder} {u : Unit} (h : unify s t b = .ok (u, d)) :
    ∃ r v, Unifier.unify 1 s t ⟨b.forest, some b.work, [], []⟩ = some (r, v) ∧
      d = { b with forest := v.forest, work := v.work.getD .empty } := by
  obtain ⟨nodes, functions, nextSite, forest, work⟩ := b
  unfold unify at h
  cases hrun : (Unifier.unify 1 s t).run ⟨forest, some work, [], []⟩ with
  | none =>
    simp only [hrun] at h
    cases h
  | some r =>
    simp only [hrun, Except.ok.injEq, Prod.mk.injEq] at h
    exact ⟨r.1, r.2, hrun, h.2.symm⟩

/-- A new node comes last. -/
theorem addNode_eq_ok {parent : Option NodeId} {pinned : List TermId} {type : TermId}
    {b d : Builder} {id : NodeId} :
    addNode parent pinned type b = .ok (id, d) ↔ b.nodes.size = id ∧
      d = { b with
        nodes := b.nodes.push ⟨.const .any, parent, pinned, type⟩
        work := b.work.push b.nodes.size } := by
  have h : addNode parent pinned type b = .ok (b.nodes.size, { b with
      nodes := b.nodes.push ⟨.const .any, parent, pinned, type⟩
      work := b.work.push b.nodes.size }) := rfl
  rw [h, Except.ok.injEq, Prod.mk.injEq, eq_comm (a := d)]

/-- Setting what a node is changes that node only. -/
theorem setKind_eq_ok {id : NodeId} {kind : NodeKind} {b d : Builder} {u : Unit} :
    setKind id kind b = .ok (u, d) ↔
      d = { b with nodes := b.nodes.modify id fun n => { n with kind := kind } } := by
  have h : setKind id kind b =
      .ok ((), { b with nodes := b.nodes.modify id fun n => { n with kind := kind } }) := rfl
  rw [h, Except.ok.injEq, Prod.mk.injEq, eq_comm (a := d)]
  exact and_iff_right rfl

/-- So does setting its type. -/
theorem setType_eq_ok {id : NodeId} {type : TermId} {b d : Builder} {u : Unit} :
    setType id type b = .ok (u, d) ↔
      d = { b with nodes := b.nodes.modify id fun n => { n with type := type } } := by
  have h : setType id type b =
      .ok ((), { b with nodes := b.nodes.modify id fun n => { n with type := type } }) := rfl
  rw [h, Except.ok.injEq, Prod.mk.injEq, eq_comm (a := d)]
  exact and_iff_right rfl

/-- The type of a node is looked up without a change. -/
theorem typeOf_eq_ok {id : NodeId} {b d : Builder} {t : TermId} :
    typeOf id b = .ok (t, d) ↔ (b.node id).type = t ∧ b = d := by
  have h : typeOf id b = .ok ((b.node id).type, b) := rfl
  rw [h, Except.ok.injEq, Prod.mk.injEq]

/-- Finding the class of a node's type tidies the forest up. -/
theorem find_eq_ok {id : NodeId} {b d : Builder} {t : TermId} :
    find id b = .ok (t, d) ↔ ∃ forest, Forest.find (b.node id).type b.forest = some (t, forest) ∧
      d = { b with forest := forest } := by
  unfold find
  rw [bind_eq_ok]
  constructor
  · rintro ⟨type, c, htype, hfind⟩
    obtain ⟨rfl, rfl⟩ := typeOf_eq_ok.1 htype
    exact onForest_eq_ok.1 hfind
  · intro h
    exact ⟨_, b, typeOf_eq_ok.2 ⟨rfl, rfl⟩, onForest_eq_ok.2 h⟩

/-- The next function id counts the functions that there are. -/
theorem nextFunction_eq_ok {b d : Builder} {fid : FunctionId} :
    nextFunction b = .ok (fid, d) ↔ b.functions.size + 1 = fid ∧ b = d := by
  have h : nextFunction b = .ok (b.functions.size + 1, b) := rfl
  rw [h, Except.ok.injEq, Prod.mk.injEq]

/-- A function is added last. -/
theorem addFunction_eq_ok {id : NodeId} {b d : Builder} {u : Unit} :
    addFunction id b = .ok (u, d) ↔ d = { b with functions := b.functions.push id } := by
  have h : addFunction id b = .ok ((), { b with functions := b.functions.push id }) := rfl
  rw [h, Except.ok.injEq, Prod.mk.injEq, eq_comm (a := d)]
  exact and_iff_right rfl

/-- Each site is given out once. -/
theorem newSite_eq_ok {b d : Builder} {site : SiteId} :
    newSite b = .ok (site, d) ↔ b.nextSite = site ∧ d = { b with nextSite := b.nextSite + 1 } := by
  have h : newSite b = .ok (b.nextSite, { b with nextSite := b.nextSite + 1 }) := rfl
  rw [h, Except.ok.injEq, Prod.mk.injEq, eq_comm (a := d)]

/-! ## Relations kept -/

/-- Whenever the step has a result, the relation holds between what was built before and after. -/
def Keeps (R : Builder → Builder → Prop) (m : BuildM α) : Prop :=
  ∀ b x d, m b = .ok (x, d) → R b d

section Relations

variable {R : Builder → Builder → Prop}

/-- Answering keeps any reflexive relation of builders. -/
theorem keeps_pure [Std.Refl R] (x : α) : Keeps R (pure x : BuildM α) := by
  intro b y d h
  rw [(pure_eq_ok.1 h).2]
  exact Std.Refl.refl d

/-- Steps of a builder one after the other keep a transitive relation. -/
theorem keeps_bind [IsTrans Builder R] {m : BuildM α} {f : α → BuildM β} (hm : Keeps R m)
    (hf : ∀ x, Keeps R (f x)) : Keeps R (m >>= f) := by
  intro b y d h
  obtain ⟨x, c, hc, hd⟩ := bind_eq_ok.1 h
  exact IsTrans.trans _ _ _ (hm b x c hc) (hf x c y d hd)

end Relations

end Builder

/-- An answer that is left after mapping is one mapped. -/
theorem ok_of_map {ε α β : Type} {x : Except ε α} {f : α → β} {y : β}
    (h : x.toOption.map f = some y) : ∃ a, x = .ok a ∧ f a = y := by
  cases x with
  | error => cases h
  | ok a => exact ⟨a, rfl, Option.some.inj h⟩

/-- A program is prepared by a construction that reaches its end. -/
theorem Program.build_eq_ok {e : Expr} {settings : Settings} {depth : Nat} {p : Program}
    {s : State} :
    Program.build e settings depth = .ok (p, s) ↔
      ∃ b, Builder.lowerProgram e (Builder.start settings) = .ok ((), b) ∧
        p = ⟨b.nodes, b.functions, settings, depth⟩ ∧ s = ⟨b.forest, b.initialFlows, b.work⟩ := by
  have h : Program.build e settings depth =
      (Builder.lowerProgram e (Builder.start settings)).bind fun r =>
        .ok (⟨r.2.nodes, r.2.functions, settings, depth⟩,
          ⟨r.2.forest, r.2.initialFlows, r.2.work⟩) := rfl
  rw [h]
  constructor
  · intro h
    cases hb : Builder.lowerProgram e (Builder.start settings) with
    | error e =>
      rw [hb] at h
      cases h
    | ok r =>
      rw [hb] at h
      cases h
      exact ⟨r.2, rfl, rfl, rfl⟩
  · rintro ⟨b, hb, rfl, rfl⟩
    rw [hb]
    rfl

/-- An analysis is a run of a prepared program from its first state. -/
theorem Expr.analyze_eq_ok {e : Expr} {settings : Settings} {a : Analysis} :
    e.analyze settings = .ok a ↔
      ∃ s, Program.build e settings = .ok (a.program, s) ∧
        a.program.run s = some (a.stats, a.state) := by
  unfold analyze
  constructor
  · intro h
    cases hbuild : Program.build e settings with
    | error cause =>
      rw [hbuild] at h
      cases h
    | ok r =>
      rw [hbuild] at h
      dsimp only at h
      cases hrun : r.1.run r.2 with
      | none =>
        rw [hrun] at h
        cases h
      | some found =>
        rw [hrun] at h
        cases h
        exact ⟨r.2, rfl, hrun⟩
  · rintro ⟨s, hbuild, hrun⟩
    rw [hbuild]
    dsimp only
    rw [hrun]

end TypeFlow
