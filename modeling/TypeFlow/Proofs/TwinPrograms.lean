import TypeFlow.Proofs.Accesses
import TypeFlow.Proofs.BuildAccesses
import TypeFlow.Proofs.FirstStates

/-!
# Programs that differ in the order of work

No step of the construction looks at the pending work, so programs prepared from one expression
under settings that differ in the order of work are the same but for that order.

Main definitions:

- `Unifier.Twins`, `Builder.Twins`: all but the pending work is the same.
- `Builder.Agrees`: a step of the construction does not look at the pending work.

Main results:

- `Unifier.accesses_alike_twins`: no access to a unifier looks at the pending work.
- `Program.build_withOrder`: two prepared programs that differ in the order of work.
-/

namespace TypeFlow

namespace Unifier

/-- All but the pending work is the same. -/
structure Twins (s t : Unifier) : Prop where
  forest : s.forest = t.forest
  probe : s.work.isNone = t.work.isNone
  met : s.met = t.met
  image : s.image = t.image

/-- No access to a unifier looks at the pending work. -/
theorem accesses_alike_twins : Accesses fun α => Alike (α := α) Twins where
  toComposes := composes_alike
  view read := by
    intro s s' a a' t t' hs h h'
    obtain ⟨rfl, rfl⟩ := view_eq_some.1 h
    obtain ⟨rfl, rfl⟩ := view_eq_some.1 h'
    exact ⟨congrArg read hs.forest, hs⟩
  change f := by
    intro s s' a a' t t' hs h h'
    rw [change_eq_some.1 h, change_eq_some.1 h']
    exact ⟨rfl, congrArg f hs.forest, hs.probe, hs.met, hs.image⟩
  onForest run := by
    intro s s' a a' t t' hs h h'
    obtain ⟨forest, hrun, rfl⟩ := onForest_eq_some.1 h
    obtain ⟨forest', hrun', rfl⟩ := onForest_eq_some.1 h'
    rw [hs.forest, hrun', Option.some.injEq, Prod.mk.injEq] at hrun
    exact ⟨hrun.1.symm, hrun.2.symm, hs.probe, hs.met, hs.image⟩
  add new := by
    intro s s' a a' t t' hs h h'
    cases h
    cases h'
    rw [hs.forest]
    exact ⟨rfl, rfl, hs.probe, hs.met, hs.image⟩
  isProbe := by
    intro s s' a a' t t' hs h h'
    obtain ⟨rfl, rfl⟩ := isProbe_eq_some.1 h
    obtain ⟨rfl, rfl⟩ := isProbe_eq_some.1 h'
    exact ⟨hs.probe, hs⟩
  wake r := by
    intro s s' a a' t t' hs h h'
    rw [wake_eq_some.1 h, wake_eq_some.1 h']
    refine ⟨rfl, hs.forest, ?_, hs.met, hs.image⟩
    rw [Option.isNone_map, Option.isNone_map]
    exact hs.probe
  push id := by
    intro s s' a a' t t' hs h h'
    rw [Program.push_eq_some.1 h, Program.push_eq_some.1 h']
    refine ⟨rfl, hs.forest, ?_, hs.met, hs.image⟩
    rw [Option.isNone_map, Option.isNone_map]
    exact hs.probe
  readMemo read := by
    intro s s' a a' t t' hs h h'
    cases h
    cases h'
    exact ⟨by rw [hs.met, hs.image], hs⟩
  changeMemo met image := by
    intro s s' a a' t t' hs h h'
    rw [← modify_eq_some.1 h, ← modify_eq_some.1 h']
    exact ⟨rfl, hs.forest, hs.probe, congrArg met hs.met, congrArg image hs.image⟩

end Unifier

namespace Builder

/-- All but the pending work is the same. -/
structure Twins (b d : Builder) : Prop where
  nodes : b.nodes = d.nodes
  functions : b.functions = d.functions
  nextSite : b.nextSite = d.nextSite
  forest : b.forest = d.forest

/-- From twins a step has, if any, the same result and leaves twins. -/
def Agrees {α : Type} (m : BuildM α) : Prop :=
  ∀ b b' x x' d d', Twins b b' → m b = .ok (x, d) → m b' = .ok (x', d') → x = x' ∧ Twins d d'

/-- No access to a builder looks at the pending work. -/
theorem accesses_agrees : Accesses fun α => Agrees (α := α) where
  pure x := by
    intro b b' y y' d d' hb h h'
    obtain ⟨rfl, rfl⟩ := pure_eq_ok.1 h
    obtain ⟨rfl, rfl⟩ := pure_eq_ok.1 h'
    exact ⟨rfl, hb⟩
  bind hm hf := by
    intro b b' y y' d d' hb h h'
    obtain ⟨x, c, hc, hd⟩ := bind_eq_ok.1 h
    obtain ⟨x', c', hc', hd'⟩ := bind_eq_ok.1 h'
    obtain ⟨rfl, htwins⟩ := hm b b' x x' c c' hb hc hc'
    exact hf x c c' y y' d d' htwins hd hd'
  throw e := by
    intro b b' x x' d d' hb h
    cases h
  change f := by
    intro b b' x x' d d' hb h h'
    rw [change_eq_ok.1 h, change_eq_ok.1 h']
    exact ⟨rfl, hb.nodes, hb.functions, hb.nextSite, congrArg f hb.forest⟩
  grow f := by
    intro b b' x x' d d' hb h h'
    obtain ⟨rfl, rfl⟩ := grow_eq_ok.1 h
    obtain ⟨rfl, rfl⟩ := grow_eq_ok.1 h'
    rw [hb.forest]
    exact ⟨rfl, hb.nodes, hb.functions, hb.nextSite, rfl⟩
  onForest run := by
    intro b b' x x' d d' hb h h'
    obtain ⟨forest, hrun, rfl⟩ := onForest_eq_ok.1 h
    obtain ⟨forest', hrun', rfl⟩ := onForest_eq_ok.1 h'
    rw [hb.forest, hrun', Option.some.injEq, Prod.mk.injEq] at hrun
    exact ⟨hrun.1.symm, hb.nodes, hb.functions, hb.nextSite, hrun.2.symm⟩
  unify s t := by
    intro b b' x x' d d' hb h h'
    obtain ⟨r, v, hunify, rfl⟩ := unify_eq_ok h
    obtain ⟨r', v', hunify', rfl⟩ := unify_eq_ok h'
    have htwins :
        Unifier.Twins ⟨b.forest, some b.work, [], []⟩ ⟨b'.forest, some b'.work, [], []⟩ :=
      ⟨hb.forest, rfl, rfl, rfl⟩
    obtain ⟨-, hv⟩ := Unifier.accesses_alike_twins.unify 1 s t _ _ _ _ _ _ htwins hunify hunify'
    exact ⟨rfl, hb.nodes, hb.functions, hb.nextSite, hv.forest⟩
  addNode parent pinned type := by
    intro b b' x x' d d' hb h h'
    obtain ⟨rfl, rfl⟩ := addNode_eq_ok.1 h
    obtain ⟨rfl, rfl⟩ := addNode_eq_ok.1 h'
    rw [hb.nodes]
    exact ⟨rfl, rfl, hb.functions, hb.nextSite, hb.forest⟩
  setKind id kind := by
    intro b b' x x' d d' hb h h'
    rw [setKind_eq_ok.1 h, setKind_eq_ok.1 h', hb.nodes]
    exact ⟨rfl, rfl, hb.functions, hb.nextSite, hb.forest⟩
  setType id type := by
    intro b b' x x' d d' hb h h'
    rw [setType_eq_ok.1 h, setType_eq_ok.1 h', hb.nodes]
    exact ⟨rfl, rfl, hb.functions, hb.nextSite, hb.forest⟩
  typeOf id := by
    intro b b' x x' d d' hb h h'
    obtain ⟨rfl, rfl⟩ := typeOf_eq_ok.1 h
    obtain ⟨rfl, rfl⟩ := typeOf_eq_ok.1 h'
    rw [node, node, hb.nodes]
    exact ⟨rfl, hb⟩
  nextFunction := by
    intro b b' x x' d d' hb h h'
    obtain ⟨rfl, rfl⟩ := nextFunction_eq_ok.1 h
    obtain ⟨rfl, rfl⟩ := nextFunction_eq_ok.1 h'
    rw [hb.functions]
    exact ⟨rfl, hb⟩
  addFunction id := by
    intro b b' x x' d d' hb h h'
    rw [addFunction_eq_ok.1 h, addFunction_eq_ok.1 h', hb.functions]
    exact ⟨rfl, hb.nodes, rfl, hb.nextSite, hb.forest⟩
  newSite := by
    intro b b' x x' d d' hb h h'
    obtain ⟨rfl, rfl⟩ := newSite_eq_ok.1 h
    obtain ⟨rfl, rfl⟩ := newSite_eq_ok.1 h'
    rw [hb.nextSite]
    exact ⟨rfl, hb.nodes, hb.functions, rfl, hb.forest⟩

end Builder

/-! ## Programs -/

namespace Program

/-- Programs prepared under settings that differ in the order of work are the same but for it. -/
theorem build_withOrder {e : Expr} {settings : Settings} {order : PopOrder} {depth : Nat}
    {p p' : Program} {s s' : State} (h : build e settings depth = .ok (p, s))
    (h' : build e { settings with popOrder := order } depth = .ok (p', s')) :
    p' = p.withOrder order ∧ s'.forest = s.forest ∧ s'.flows = s.flows := by
  obtain ⟨b, hb, rfl, rfl⟩ := build_eq_ok.1 h
  obtain ⟨b', hb', rfl, rfl⟩ := build_eq_ok.1 h'
  have htwins : Builder.Twins (Builder.start settings)
      (Builder.start { settings with popOrder := order }) := ⟨rfl, rfl, rfl, rfl⟩
  obtain ⟨-, ht⟩ := Builder.accesses_agrees.lowerProgram e _ _ _ _ _ _ htwins hb hb'
  refine ⟨?_, ht.forest.symm, ?_⟩
  · rw [← ht.nodes, ← ht.functions]
    rfl
  · unfold Builder.initialFlows
    rw [ht.nodes, ht.functions]

end Program

end TypeFlow
