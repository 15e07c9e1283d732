import TypeFlow.Proofs.ClosingUnifications
import TypeFlow.Proofs.EndingUnifications
import TypeFlow.Proofs.ForestHistories

/-!
# Unification computes closures

The unification of two types that are made of variables, base types and functions returns, however
their classes lead to each other.  It makes an error exactly if the closure of the two types holds two
kinds that clash, and if it makes none the classes afterwards are those of the closure.

Main results:

- `Forest.unification_closes`: unification returns, and closes the pair or finds the clash.
-/

namespace TypeFlow

namespace Forest

open Unifier (Call Closing Erred)

variable {f : Forest} {a b : TermId}

/-- A unification that returned met a clash, or its classes are those of the closure, which holds no
clash. -/
theorem unify_erred_or_closed {work : Worklist} {depth : Nat} {r : Bool} {u : Unifier} (hf : f.Sound)
    (ha : a < f.size) (hb : b < f.size) (hsimple : f.Simple a) (hsimple' : f.Simple b)
    (h : Unifier.unify depth a b (Call.start f (some work)) = some (r, u)) :
    Erred f a b u ∨ ¬f.GainsError u.forest ∧ ¬f.Clashing a b ∧
      ∀ x y, u.forest.rep x = u.forest.rep y ↔ f.Unified a b x y := by
  have hs : Closing f a b (Call.start f (some work)) := .start hf hsimple hsimple' work
  have hjoined := (Unifier.unify_proceeds hs.sound ha hb h).2 hs.commits
  have hclosed : ∀ {u : Unifier}, Closing f a b u → u.forest.rep a = u.forest.rep b →
      (∀ p ∈ u.met, u.forest.rep p.1 = u.forest.rep p.2) →
      ¬f.GainsError u.forest ∧ ¬f.Clashing a b ∧
        ∀ x y, u.forest.rep x = u.forest.rep y ↔ f.Unified a b x y := fun hu hab hmerged =>
    ⟨hu.not_gainsError, hu.not_clashing hmerged hab, fun x y => hu.rep_eq_iff hmerged hab⟩
  obtain ⟨ra, s₁, hfind, h⟩ := bind_eq_some.1 h
  obtain ⟨rb, s₂, hfind', h⟩ := bind_eq_some.1 h
  obtain ⟨hlooks, -, ⟨rfl, rfl⟩, hra, hrb⟩ := Unifier.find_both hs.sound ha hb hfind hfind'
  obtain ⟨hs₂, hadvances⟩ := hs.looks hlooks
  have hmet : s₂.met = [] := hlooks.met
  rcases ite_eq_some.1 h with ⟨-, h⟩ | ⟨-, h⟩
  · obtain ⟨-, rfl⟩ := pure_eq_some.1 h
    refine Or.inr (hclosed hs₂ hjoined fun p hp => ?_)
    rw [hmet] at hp
    cases hp
  obtain ⟨v, s₃, hmodify, h⟩ := bind_eq_some.1 h
  obtain rfl : s₂ = s₃ := by
    rw [← modify_eq_some.1 hmodify, ← hmet]
  refine (Unifier.unifyWithin_closes depth _ _ _ _ _ hs₂ (hs.concerns_rep concerns_left)
    (hs.concerns_rep concerns_right) ?_ hra.lt hrb.lt h).imp_right ?_
  · exact (hs.unified_rep a).symm.trans (Unified.pair.trans (hs.unified_rep b))
  · rintro ⟨hu, hadvances', -⟩
    refine hclosed hu hjoined fun p hp => ?_
    rcases hadvances'.merged p hp with hp | hrep
    · rw [hmet] at hp
      cases hp
    · exact hrep

/-- In a forest that is in order, the unification of two types that are made of variables, base types
and functions returns if it may nest once for every pair of terms.  It makes an error exactly if the
closure of the pair holds two kinds that clash, and otherwise two terms are of one class exactly if the
closure relates them. -/
theorem unification_closes (hf : f.Sound) (ha : a < f.size) (hb : b < f.size)
    (hsimple : f.Simple a) (hsimple' : f.Simple b) (work : Worklist) :
    (∀ depth, f.size * f.size < depth →
      ∃ r u, Unifier.unify depth a b (Call.start f (some work)) = some (r, u)) ∧
    ∀ depth r u, Unifier.unify depth a b (Call.start f (some work)) = some (r, u) →
      (f.GainsError u.forest ↔ f.Clashing a b) ∧
        (¬f.GainsError u.forest → ∀ x y, x < f.size → y < f.size →
          (u.forest.rep x = u.forest.rep y ↔ f.Unified a b x y)) := by
  refine ⟨fun depth hdepth => ?_, fun depth r u h => ?_⟩
  · obtain ⟨r, u, h, -⟩ := Unifier.unify_returns hf ha hb hsimple hsimple' work hdepth
    exact ⟨r, u, h⟩
  · rcases unify_erred_or_closed hf ha hb hsimple hsimple' h with
      ⟨hgains, hclash⟩ | ⟨hgains, hclash, hiff⟩
    · exact ⟨⟨fun _ => hclash, fun _ => hgains⟩, fun hnone => absurd hgains hnone⟩
    · exact ⟨⟨fun hgained => absurd hgained hgains, fun hclashing => absurd hclashing hclash⟩,
        fun _ x y _ _ => hiff x y⟩

/-- A function that takes and returns itself, and one that returns itself and takes a function from
itself to itself: nothing clashes, and all three functions become one. -/
theorem unification_closes_cycles : ∃ f r u,
    performAll [.var, .function false .empty [0] 0, .call (.unify 0 1) 3 (some .empty), .var,
      .function false .empty [2] 2, .function false .empty [3] 2,
      .call (.unify 2 4) 3 (some .empty)] empty = some f ∧
      (1 < f.size ∧ 4 < f.size ∧ f.Simple 1 ∧ f.Simple 4) ∧
      Unifier.unify 26 1 4 (Call.start f (some .empty)) = some (r, u) ∧
      ¬f.Clashing 1 4 ∧ f.rep 1 ≠ f.rep 3 ∧ u.forest.rep 1 = u.forest.rep 3 ∧
      f.Unified 1 4 1 3 := by
  have hrun : ((performAll [.var, .function false .empty [0] 0, .call (.unify 0 1) 3 (some .empty),
      .var, .function false .empty [2] 2, .function false .empty [3] 2,
      .call (.unify 2 4) 3 (some .empty)] empty).bind fun f =>
        (Unifier.unify 26 1 4 (Call.start f (some .empty))).map fun u =>
          ((f.reach 1 ++ f.reach 4).all fun c => (f.kind c).isSimple, f.size, u.2.forest.size,
            decide (f.rep 1 = f.rep 3), decide (u.2.forest.rep 1 = u.2.forest.rep 3))) =
        some (true, 5, 5, false, true) := by
    decide +kernel
  obtain ⟨f, hf, hrun⟩ := Option.bind_eq_some_iff.1 hrun
  obtain ⟨⟨r, u⟩, hunify, hfacts⟩ := Option.map_eq_some_iff.1 hrun
  simp only [Prod.mk.injEq, List.all_eq_true, List.mem_append, decide_eq_true_eq,
    decide_eq_false_iff_not] at hfacts
  obtain ⟨hkinds, hsize, hsize', hapart, hone⟩ := hfacts
  have hsound := performAll_sound hf
  have ha : 1 < f.size := by rw [hsize]; decide
  have hb : 4 < f.size := by rw [hsize]; decide
  have hsimple : f.Simple 1 := fun c hc => hkinds c (Or.inl ((mem_reach hsound ha).2 hc))
  have hsimple' : f.Simple 4 := fun c hc => hkinds c (Or.inr ((mem_reach hsound hb).2 hc))
  obtain ⟨-, hcloses⟩ := unification_closes hsound ha hb hsimple hsimple' .empty
  obtain ⟨herror, hclasses⟩ := hcloses 26 r u hunify
  have hnone : ¬f.GainsError u.forest := by
    rintro ⟨t, hnew, hlt, -⟩
    rw [hsize] at hnew
    rw [hsize'] at hlt
    omega
  exact ⟨f, r, u, hf, ⟨ha, hb, hsimple, hsimple'⟩, hunify, fun h => hnone (herror.2 h), hapart, hone,
    (hclasses hnone 1 3 ha (by rw [hsize]; decide)).1 hone⟩

end Forest

end TypeFlow
