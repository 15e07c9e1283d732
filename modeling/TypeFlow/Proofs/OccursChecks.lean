import TypeFlow.Proofs.Walks

/-!
# Occurs checks

Where wrappers only wrap variables, an occurs check decides whether a type leads to a class.  All types
that are searched share the classes met so far, and a class that was met before was searched without
success.  The look-ups on the way tidy up and leave every class as it was.

Main definitions:

- `Forest.WrapsVariables`: every wrapper wraps a variable.
- `Forest.Unmoved`: every class is as it was.

Main results:

- `Forest.unmoved_of_upkeeps`: where wrappers wrap variables, tidying up leaves every class as it was.
- `Forest.occurs_decided`: an occurs check decides what types lead to.
-/

namespace TypeFlow

namespace Forest

variable {f g h : Forest}

/-! ## Classes that stay as they were -/

/-- Every wrapper wraps a variable. -/
def WrapsVariables (f : Forest) : Prop :=
  ∀ w inner, f.kind w = .nilable inner → f.kind (f.rep inner) = .var

/-- Every term has the same representative and every class the same kind, up to children that are given
by other terms of their classes, with the same nodes registered and the same mark. -/
structure Unmoved (f g : Forest) : Prop where
  size : g.size = f.size
  unions : g.unions = f.unions
  rep : ∀ t, g.rep t = f.rep t
  kind : ∀ c, (f.kind c).isLink = false → (f.kind c).Same f.rep (g.kind c)
  deps : ∀ t, g.deps t = f.deps t
  isInput : ∀ t, g.isInput t = f.isInput t

private theorem WrapsVariables.calm (hwraps : f.WrapsVariables) {c : TermId}
    (hc : (f.kind c).isLink = false) : f.Calm c := ⟨hc, hwraps c⟩

private theorem WrapsVariables.ends (hf : f.Rooted) (hwraps : f.WrapsVariables) (t : TermId) : f.Ends t :=
  (hwraps.calm (not_isLink_rep hf t)).ends

/-- Tidying up leaves wrappers of variables such. -/
theorem WrapsVariables.of_upkeeps (hf : f.Rooted) (hup : f.Upkeeps g) (hwraps : f.WrapsVariables) :
    g.WrapsVariables := by
  intro w inner hw
  have hlink : (f.kind w).isLink = false := by rw [← (hup.steady hf).isLink, hw]; rfl
  exact (hup.calm hf (hwraps.calm hlink)).2.wraps inner hw

/-- A wrapper of a variable has nothing to take over. -/
theorem Upkeep.deps_eq (hwraps : f.WrapsVariables) (hup : f.Upkeep g) (t : TermId) :
    g.deps t = f.deps t := by
  cases hup with
  | shorten hlink => exact deps_setKind _ _ _ _
  | remember hchild => exact deps_setChild _ _ _ _ _
  | @absorb w inner hw =>
    unfold Forest.absorb
    rw [hwraps w inner hw]
    exact deps_setKind _ _ _ _

/-- Where wrappers wrap variables, tidying up leaves every class as it was. -/
theorem unmoved_of_upkeeps (hf : f.Rooted) (hwraps : f.WrapsVariables) (hup : f.Upkeeps g) :
    f.Unmoved g where
  size := hup.size
  unions := hup.unions
  rep := (hup.steady hf).rep
  kind _ hc := hup.same hf (hwraps.calm hc)
  deps t := by
    induction hup with
    | refl => rfl
    | tail hg hstep ih =>
      rw [hstep.deps_eq (hwraps.of_upkeeps hf hg), ih]
  isInput := hup.isInput

/-- Classes that stay as they were lead to the same classes. -/
theorem Unmoved.reaches (hfg : f.Unmoved g) {a b : TermId} (hab : f.Reaches a b) : g.Reaches a b := by
  induction hab with
  | refl => exact .refl
  | @tail b c _ hedge ih =>
    obtain ⟨slot, x, hx, rfl⟩ := hedge
    have hsame := (hfg.kind b (Kind.isLink_of_child? hx)).child? slot
    rw [hx, Option.map_some, Option.map_eq_some_iff] at hsame
    obtain ⟨y, hy, hxy⟩ := hsame
    exact ih.tail ⟨slot, y, hy, by rw [hfg.rep, hxy]⟩

/-! ## What occurs checks decide -/

/-- A search through several types returns, and finds a class exactly if one of them leads to it. -/
theorem occursInAny_iff (hf : f.Rooted) (hwraps : f.WrapsVariables) (t : TermId)
    (types : List TermId) : Returns (occursInAny t types) f fun b g =>
      (b = true ↔ f.ReachedFrom types (f.rep t)) ∧ f.Unmoved g := by
  refine (occursInAny_answers hf (hwraps.ends hf t) fun c _ => hwraps.ends hf c).imp
    fun b g hrun hup => ?_
  have hunmoved := unmoved_of_upkeeps hf hwraps hup
  refine ⟨⟨fun hb => ?_, fun hreached => ?_⟩, hunmoved⟩
  · subst hb
    exact occursInAny_finds hf hrun
  · cases b with
    | true => rfl
    | false =>
      obtain ⟨x, hx, hreach⟩ := hreached
      have hmet : g.ReachedFrom types (f.rep t) :=
        ⟨x, hx, (hunmoved.rep x).symm ▸ hunmoved.reaches hreach⟩
      exact absurd rfl (occursInAny_explored hf hrun hmet).2

/-- Where every wrapper wraps a variable, however types run in circles, an occurs check answers whether a
type leads to the class of a term, or whether one of several types does, in whatever order they are
searched.  It leaves every class as it was. -/
theorem occurs_decided (hf : f.Rooted) (hwraps : f.WrapsVariables) (t within : TermId)
    (vars : List TermId) :
    (∃ b g, occursIn t within f = some (b, g) ∧
      (b = true ↔ f.Reaches (f.rep within) (f.rep t)) ∧ f.Unmoved g) ∧
    ∃ b g, occursInAny t vars f = some (b, g) ∧
      (b = true ↔ ∃ v ∈ vars, f.Reaches (f.rep v) (f.rep t)) ∧ f.Unmoved g ∧
      ∀ vars', vars'.Perm vars → (occursInAny t vars' f).map Prod.fst = some b := by
  constructor
  · obtain ⟨b, g, hrun, hb, hunmoved⟩ := occursInAny_iff hf hwraps t [within]
    refine ⟨b, g, hrun, hb.trans ?_, hunmoved⟩
    exact ⟨fun ⟨v, hv, hreach⟩ => List.mem_singleton.1 hv ▸ hreach,
      fun hreach => ⟨within, List.mem_singleton_self _, hreach⟩⟩
  · obtain ⟨b, g, hrun, hb, hunmoved⟩ := occursInAny_iff hf hwraps t vars
    refine ⟨b, g, hrun, hb, hunmoved, fun vars' hperm => ?_⟩
    obtain ⟨b', g', hrun', hb', -⟩ := occursInAny_iff hf hwraps t vars'
    have hsame : f.ReachedFrom vars' (f.rep t) ↔ f.ReachedFrom vars (f.rep t) := by
      simp only [ReachedFrom, hperm.mem_iff]
    rw [hrun', Option.map_some, Option.some.injEq, Bool.eq_iff_iff, hb', hb, hsame]

/-- A list whose one node is its own rest, with values that are wrapped, and a function from it to a
variable that is given by a link. -/
def listReader : Forest :=
  ⟨#[⟨.var, .empty, false⟩, ⟨.nilable 0, .empty, false⟩,
    ⟨.record (.ofList [("n", 2), ("v", 1)]) (.singleton 5) false false, .empty, false⟩,
    ⟨.function [2, 1] 5 .empty false, .empty, false⟩, ⟨.var, .empty, false⟩,
    ⟨.link 4, .empty, false⟩], 1⟩

/-- The function leads to its result, though the list, which is searched before, does not. -/
theorem occurs_decided_reader :
    (∃ g, occursIn 4 2 listReader = some (false, g) ∧ ¬listReader.Reaches 2 4 ∧
      listReader.Unmoved g) ∧
    ∃ g, occursInAny 5 [2, 3] listReader = some (true, g) ∧
      (∃ v ∈ [2, 3], listReader.Reaches (listReader.rep v) 4) ∧ listReader.Unmoved g ∧
      (occursInAny 5 [3, 2] listReader).map Prod.fst = some true := by
  have hrooted : listReader.Rooted := rooted_of_earlier (by decide)
  have hwrapped : ∀ w < listReader.size, (listReader.kind w).isNilable = true →
      ∀ x ∈ (listReader.kind w).children, listReader.kind (listReader.rep x) = .var := by decide
  have hwraps : listReader.WrapsVariables := fun w inner hw =>
    hwrapped w (lt_size_of_kind (by rw [hw]; exact Kind.noConfusion)) (by rw [hw]; rfl) inner
      (by rw [hw]; exact List.mem_singleton_self inner)
  obtain ⟨⟨b, g, hrun, hb, hunmoved⟩, -⟩ := occurs_decided hrooted hwraps 4 2 []
  obtain ⟨-, b', g', hrun', hb', hunmoved', hperm⟩ := occurs_decided hrooted hwraps 5 2 [2, 3]
  have hanswer : (occursIn 4 2 listReader).map Prod.fst = some false := by decide +kernel
  have hanswer' : (occursInAny 5 [2, 3] listReader).map Prod.fst = some true := by decide +kernel
  rw [hrun] at hanswer
  rw [hrun'] at hanswer'
  obtain rfl : b = false := Option.some.inj hanswer
  obtain rfl : b' = true := Option.some.inj hanswer'
  exact ⟨⟨g, hrun, fun hreach => Bool.false_ne_true (hb.2 hreach), hunmoved⟩, g', hrun', hb'.1 rfl,
    hunmoved', hperm [3, 2] (.swap 2 3 [])⟩

end Forest

end TypeFlow
