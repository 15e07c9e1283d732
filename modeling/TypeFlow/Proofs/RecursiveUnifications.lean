import TypeFlow.Proofs.EndingUnifications
import TypeFlow.Proofs.ForestHistories

/-!
# Unifications of recursive types

Where no type of a forest is a wrapper, any two terms are unified, whatever functions and records lead
to themselves and whatever clashes on the way: the unification returns once it may nest for every pair
of terms there are, and what it returns is the same however much deeper it may nest.  Without a
worklist it does not nest at all.

Main results:

- `Unifier.unifyWithin_outlasts`: a unification that returns also does so if it may nest deeper.
- `Unifier.unify_probe_returns`: without wrappers a unification that only probes returns at once.
- `Forest.recursive_unification_ends`: without wrappers every unification returns.
-/

namespace TypeFlow

namespace Unifier

/-! ## Deeper nesting -/

section Outlasting

variable {rec rec' : TermId → TermId → UnifyM Bool} (hrec : ∀ a b, Outlasts (rec' a b) (rec a b))

include hrec in
private theorem unifySlots_outlasts (slots : List Slot) (this that : TermId) (progress : Bool) :
    Outlasts (unifySlots rec' slots this that progress) (unifySlots rec slots this that progress) := by
  induction slots generalizing this that progress with
  | nil => exact outlasts_refl _
  | cons slot rest ih =>
    unfold unifySlots
    refine outlasts_then fun lhs? => ?_
    cases lhs? with
    | none => exact ih this that progress
    | some lhs =>
      have hrest : ∀ changed, Outlasts (do
          let this ← find this
          let that ← find that
          if (← kindOf this).isError || (← kindOf that).isError then
            return (this, that, progress || changed)
          unifySlots rec' rest this that (progress || changed)) (do
          let this ← find this
          let that ← find that
          if (← kindOf this).isError || (← kindOf that).isError then
            return (this, that, progress || changed)
          unifySlots rec rest this that (progress || changed)) := fun changed =>
        outlasts_then fun this => outlasts_then fun that => outlasts_then fun _ =>
          outlasts_then fun _ => outlasts_ite (outlasts_refl _) (ih this that (progress || changed))
      refine outlasts_then fun rhs? => ?_
      cases rhs? with
      | some rhs => exact outlasts_bind (hrec lhs rhs) hrest
      | none =>
        cases slot with
        | field label =>
          exact outlasts_then fun _ =>
            outlasts_ite (outlasts_then hrest) (outlasts_then hrest)
        | _ => exact outlasts_then hrest

include hrec in
private theorem unifyChildren_outlasts (a b : TermId) :
    Outlasts (unifyChildren rec' a b) (unifyChildren rec a b) :=
  outlasts_then fun slots =>
    outlasts_bind (unifySlots_outlasts hrec slots a b false) fun _ => outlasts_refl _

include hrec in
private theorem unifyNilable_outlasts (wrapper that : TermId) :
    Outlasts (unifyNilable rec' wrapper that) (unifyNilable rec wrapper that) := by
  refine outlasts_then fun _ => outlasts_ite (outlasts_refl _) (outlasts_then fun inner? => ?_)
  cases inner? with
  | none => exact outlasts_refl _
  | some inner => exact outlasts_then fun _ => outlasts_ite (hrec inner that) (outlasts_refl _)

include hrec in
/-- One layer of unification returns wherever it did if the next layer does. -/
theorem unifyStep_outlasts (a b : TermId) : Outlasts (unifyStep rec' a b) (unifyStep rec a b) := by
  refine outlasts_then fun a => outlasts_then fun b => outlasts_ite (outlasts_refl _) ?_
  refine outlasts_then fun _ => outlasts_then fun _ => ?_
  refine outlasts_ite (outlasts_refl _) (outlasts_ite (outlasts_refl _)
    (outlasts_ite (outlasts_refl _) ?_))
  refine outlasts_ite (unifyNilable_outlasts hrec a b)
    (outlasts_ite (unifyNilable_outlasts hrec b a) (outlasts_then fun _ => ?_))
  refine outlasts_ite (outlasts_refl _) (outlasts_then fun _ => outlasts_then fun _ => ?_)
  exact outlasts_ite (outlasts_refl _)
    (outlasts_ite (outlasts_refl _) (unifyChildren_outlasts hrec a b))

end Outlasting

/-- A unification that returns also does so if it may nest deeper. -/
theorem unifyWithin_outlasts {depth depth' : Nat} (hdepth : depth ≤ depth') (a b : TermId) :
    Outlasts (unifyWithin depth' a b) (unifyWithin depth a b) := by
  induction depth generalizing depth' a b with
  | zero => exact outlasts_failure _
  | succ depth ih =>
    obtain ⟨depth', rfl⟩ : ∃ d, depth' = d + 1 := ⟨depth' - 1, by omega⟩
    exact unifyStep_outlasts (fun a b => ih (by omega) a b) a b

private theorem unify_outlasts {depth depth' : Nat} (hdepth : depth ≤ depth') (a b : TermId) :
    Outlasts (unify depth' a b) (unify depth a b) :=
  outlasts_then fun a => outlasts_then fun b => outlasts_ite (outlasts_refl _)
    (outlasts_then fun _ => unifyWithin_outlasts hdepth a b)

/-! ## Probes -/

section Probing

variable {s : Unifier}

/-- Where nothing is wrapped, every class is looked up, and nothing is wrapped afterwards. -/
theorem find_unwrapped_returns (hrooted : s.forest.Rooted) (hplain : s.forest.Unwrapped) (t : TermId) :
    Returns (find t) s fun _ u =>
      u.work = s.work ∧ u.forest.Rooted ∧ u.forest.Unwrapped := by
  have hends : s.forest.Ends t := .intro fun inner hinner => by
    have hrep := hplain (s.forest.rep t)
    rw [hinner] at hrep
    cases hrep
  obtain ⟨⟨r, g⟩, hfind⟩ := Option.isSome_iff_exists.1 ((Forest.find_isSome_iff hrooted t).2 hends)
  obtain ⟨hclasses, htypes⟩ := Forest.keeps_find t s.forest r g hfind hrooted
  exact ⟨r, { s with forest := g }, onForest_eq_some.2 ⟨g, hfind, rfl⟩, rfl, hclasses.rooted,
    (htypes.unwrapped hplain).1⟩

/-- A probe goes no further. -/
theorem returns_probe {α : Type} {k : Bool → UnifyM α} {P : α → Unifier → Prop}
    (hwork : s.work = none) (h : Returns (k true) s P) : Returns (isProbe >>= k) s P := by
  obtain ⟨a, t, hat, ha⟩ := h
  exact ⟨a, t, bind_eq_some.2 ⟨true, s, isProbe_eq_some.2 ⟨by rw [hwork]; rfl, rfl⟩, hat⟩, ha⟩

private theorem merge_probe_returns (hwork : s.work = none) (loser winner : TermId) :
    Returns (merge loser winner) s fun _ _ => True := by
  unfold merge
  split
  · exact returns_pure trivial
  · exact returns_probe hwork (returns_pure trivial)

private theorem unifyNilable_probe_returns {rec : TermId → TermId → UnifyM Bool} (hwork : s.work = none)
    (wrapper that : TermId) : Returns (unifyNilable rec wrapper that) s fun _ _ => True :=
  returns_probe hwork (returns_pure trivial)

private theorem unifyStep_probe_returns {rec : TermId → TermId → UnifyM Bool} (hwork : s.work = none)
    (hrooted : s.forest.Rooted) (hplain : s.forest.Unwrapped) (a b : TermId) :
    Returns (unifyStep rec a b) s fun _ _ => True := by
  unfold unifyStep
  refine returns_bind (find_unwrapped_returns hrooted hplain a) ?_
  rintro x s₁ - ⟨hwork₁, hrooted₁, hplain₁⟩
  refine returns_bind (find_unwrapped_returns hrooted₁ hplain₁ b) ?_
  rintro y s₂ - ⟨hwork₂, -, -⟩
  have hwork₂ : s₂.work = none := hwork₂.trans (hwork₁.trans hwork)
  refine returns_ite (fun _ => returns_pure trivial) fun _ => returns_view (returns_view ?_)
  refine returns_ite (fun _ => merge_probe_returns hwork₂ _ _) fun _ => ?_
  refine returns_ite (fun _ => merge_probe_returns hwork₂ x y) fun _ => ?_
  refine returns_ite (fun _ => merge_probe_returns hwork₂ y x) fun _ => ?_
  refine returns_ite (fun _ => unifyNilable_probe_returns hwork₂ x y) fun _ => ?_
  refine returns_ite (fun _ => unifyNilable_probe_returns hwork₂ y x) fun _ => ?_
  refine returns_bind (P := fun _ t => t = s₂) ⟨_, _, rfl, rfl⟩ ?_
  rintro met t - rfl
  refine returns_ite (fun _ => returns_pure trivial) fun _ => ?_
  refine returns_bind (P := fun _ t => t.work = none) ⟨(), _, rfl, hwork₂⟩ ?_
  intro _ t _ hwork₃
  exact returns_probe hwork₃ (returns_pure trivial)

/-- Where nothing is wrapped, a unification that only probes does not nest. -/
theorem unify_probe_returns (hwork : s.work = none) (hrooted : s.forest.Rooted)
    (hplain : s.forest.Unwrapped) (a b : TermId) :
    Returns (unify 1 a b) s fun _ _ => True := by
  unfold unify
  refine returns_bind (find_unwrapped_returns hrooted hplain a) ?_
  rintro x s₁ - ⟨hwork₁, hrooted₁, hplain₁⟩
  refine returns_bind (find_unwrapped_returns hrooted₁ hplain₁ b) ?_
  rintro y s₂ - ⟨hwork₂, hrooted₂, hplain₂⟩
  have hwork₂ : s₂.work = none := hwork₂.trans (hwork₁.trans hwork)
  refine returns_ite (fun _ => returns_pure trivial) fun _ => ?_
  refine returns_bind (P := fun _ t => t = { s₂ with met := [] }) ⟨(), _, rfl, rfl⟩ ?_
  rintro v t - rfl
  exact unifyStep_probe_returns (s := { s₂ with met := [] }) hwork₂ hrooted₂ hplain₂ x y

end Probing

end Unifier

namespace Forest

open Unifier (Call)

variable {f : Forest} {a b : TermId}

/-- In a forest without wrappers any two terms are unified, with a worklist or without: there is a
result, and a unification has it that may nest once for every pair of terms or deeper. -/
theorem recursive_unification_ends (hf : f.Sound) (hplain : f.Unwrapped) (ha : a < f.size)
    (hb : b < f.size) (work : Option Worklist) :
    ∃ r u, ∀ depth, f.size * f.size < depth →
      Unifier.unify depth a b (Call.start f work) = some (r, u) := by
  suffices h : ∃ r u, Unifier.unify (f.size * f.size + 1) a b (Call.start f work) = some (r, u) by
    obtain ⟨r, u, h⟩ := h
    exact ⟨r, u, fun depth hdepth => Unifier.unify_outlasts hdepth a b _ _ h⟩
  cases work with
  | none =>
    obtain ⟨r, u, h, -⟩ := Unifier.unify_probe_returns (s := Call.start f none) rfl hf.rooted hplain a b
    exact ⟨r, u, Unifier.unify_outlasts (by omega) a b _ _ h⟩
  | some work =>
    obtain ⟨r, u, h, -⟩ := Unifier.unify_plain_returns hf ha hb (fun c _ => hplain c)
      (fun c _ => hplain c) work (Nat.lt_succ_self _)
    exact ⟨r, u, h⟩

/-- Two records that each lead to themselves, one with a number where the other has a function of itself:
their unification meets the clash midway and makes one recursive record of the two. -/
theorem recursive_unification_ends_records : ∃ f r u r' u',
    performAll [.var, .base (.int (.const 1)),
      .record (.cons "next" trivial 0 (.cons "val" (by decide) 1 .nil)) .empty false,
      .call (.unify 0 2) 3 (some .empty), .var, .function false .empty [3] 3,
      .record (.cons "next" trivial 3 (.cons "val" (by decide) 4 .nil)) .empty false,
      .call (.unify 3 5) 3 (some .empty)] empty = some f ∧
      (f.Unwrapped ∧ 2 < f.size ∧ 5 < f.size) ∧ (f.Edge 2 2 ∧ f.Edge 5 5 ∧ f.Edge 5 4 ∧ f.Edge 4 5) ∧
      (∀ depth, f.size * f.size < depth →
        Unifier.unify depth 2 5 (Call.start f (some .empty)) = some (r, u)) ∧
      (∀ depth, f.size * f.size < depth →
        Unifier.unify depth 2 5 (Call.start f none) = some (r', u')) ∧
      (r = true ∧ r' = true) ∧ u.forest.rep 2 = u.forest.rep 5 ∧
      (u.forest.kind (u.forest.rep 1)).isError = true := by
  have hrun : ((performAll [.var, .base (.int (.const 1)),
      .record (.cons "next" trivial 0 (.cons "val" (by decide) 1 .nil)) .empty false,
      .call (.unify 0 2) 3 (some .empty), .var, .function false .empty [3] 3,
      .record (.cons "next" trivial 3 (.cons "val" (by decide) 4 .nil)) .empty false,
      .call (.unify 3 5) 3 (some .empty)] empty).bind fun f =>
        (Unifier.unify 37 2 5 (Call.start f (some .empty))).bind fun u =>
          (Unifier.unify 37 2 5 (Call.start f none)).map fun u' =>
            ((f.size, (List.range f.size).all fun t => !(f.kind t).isNilable),
              [(2, Slot.field "next"), (5, Slot.field "next"), (5, Slot.field "val"),
                (4, Slot.ret)].map fun e => ((f.kind e.1).child? e.2).map f.rep,
              (u.1, u'.1), decide (u.2.forest.rep 2 = u.2.forest.rep 5),
              (u.2.forest.kind (u.2.forest.rep 1)).isError)) =
        some ((6, true), [some 2, some 5, some 4, some 5], (true, true), true, true) := by
    decide +kernel
  obtain ⟨f, hf, hrun⟩ := Option.bind_eq_some_iff.1 hrun
  obtain ⟨⟨r, u⟩, hcommit, hrun⟩ := Option.bind_eq_some_iff.1 hrun
  obtain ⟨⟨r', u'⟩, hprobe, hfacts⟩ := Option.map_eq_some_iff.1 hrun
  simp only [Prod.mk.injEq, List.map_cons, List.map_nil, List.cons.injEq, and_true, List.all_eq_true,
    List.mem_range, Bool.not_eq_true', decide_eq_true_eq] at hfacts
  obtain ⟨⟨hsize, hkinds⟩, ⟨hedge, hedge', hval, hret⟩, hr, hone, herror⟩ := hfacts
  have hplain : f.Unwrapped := fun t => by
    by_cases ht : t < f.size
    · exact hkinds t ht
    · rw [not_not.1 fun h => ht (lt_size_of_kind h)]
      rfl
  have ha : 2 < f.size := by rw [hsize]; decide
  have hb : 5 < f.size := by rw [hsize]; decide
  have hends := recursive_unification_ends (performAll_sound hf) hplain ha hb
  have hdepth : f.size * f.size < 37 := by rw [hsize]; decide
  obtain ⟨r₁, u₁, hcommits⟩ := hends (some .empty)
  obtain ⟨r₂, u₂, hprobes⟩ := hends none
  cases hcommit.symm.trans (hcommits 37 hdepth)
  cases hprobe.symm.trans (hprobes 37 hdepth)
  have hlead : ∀ {a b : TermId} {slot : Slot}, ((f.kind a).child? slot).map f.rep = some b →
      f.Edge a b := fun h => ⟨_, Option.map_eq_some_iff.1 h⟩
  exact ⟨f, r, u, r', u', hf, ⟨hplain, ha, hb⟩, ⟨hlead hedge, hlead hedge', hlead hval, hlead hret⟩,
    hcommits, hprobes, hr, hone, herror⟩

end Forest

end TypeFlow
