import TypeFlow.Proofs.Unifications

/-!
# What unifications do to a forest

A unification reads and changes the forest and announces nodes through a few accesses.  A property
that these accesses have, and that passes through binds, is one of whatever a unification does apart
from its memory of the pairs that it met.

Main definitions:

- `Unifier.Edits`: a property of the accesses to the forest that composed computations inherit.

Main results:

- `Unifier.Edits.merge`, `Unifier.Edits.balanceLabels`: merging classes and settling labels have it.
- `Unifier.Edits.unifyChildren`: so has the unification of all children if that of two terms has.
-/

namespace TypeFlow

namespace Unifier

/-- A property of computations that the accesses to the forest have and that passes through binds. -/
structure Edits (P : (α : Type) → UnifyM α → Prop) : Prop extends Composes P where
  view : ∀ {α : Type} (read : Forest → α), P α (view read)
  change : ∀ f : Forest → Forest, P Unit (change f)
  onForest : ∀ {α : Type} (run : ForestM α), P α (onForest run)
  add : ∀ new : Forest → TermId × Forest,
    P TermId fun s => some ((new s.forest).1, { s with forest := (new s.forest).2 })
  isProbe : P Bool isProbe
  wake : ∀ t : TermId, P Unit (wake t)

namespace Edits

/-! ## Composition -/

variable {P : (α : Type) → UnifyM α → Prop} {α β : Type}

/-- Either branch is made of edits. -/
theorem ite (_ : Edits P) {c : Prop} [Decidable c] {m m' : UnifyM α} (h : P α m)
    (h' : P α m') : P α (if c then m else m') := by
  split
  · exact h
  · exact h'

variable (hP : Edits P)

include hP

/-- What follows something that is done in one case only comes either way. -/
theorem either {c : Prop} [Decidable c] {m rest : UnifyM α} (hrest : P α rest)
    (hthen : P α rest → P α m) : P α (if c then m else rest) :=
  hP.ite (hthen hrest) hrest

/-- What follows depends on whether something was answered. -/
theorem bind_option {m : UnifyM (Option α)} {f : Option α → UnifyM β} (hm : P _ m)
    (hnone : P β (f none)) (hsome : ∀ a, P β (f (some a))) : P β (m >>= f) := by
  refine hP.bind hm fun a? => ?_
  cases a? with
  | none => exact hnone
  | some a => exact hsome a

/-- A probe ends where something else would be done. -/
theorem guard {a : α} {m : UnifyM α} (hm : P α m) :
    P α (Unifier.isProbe >>= fun probing => if probing then Pure.pure a else m) :=
  hP.bind hP.isProbe fun _ => hP.ite (hP.pure _) hm

/-! ## Merging -/

/-- Looking a class up is made of edits. -/
theorem find (t : TermId) : P _ (find t) := hP.onForest _

/-- So is looking up a child. -/
theorem child (t : TermId) (slot : Slot) : P _ (child t slot) := hP.onForest _

/-- So is reading a kind. -/
theorem kindOf (t : TermId) : P _ (kindOf t) := hP.view _

/-- So is making a term. -/
theorem alloc (kind : Kind) : P _ (alloc kind) := hP.add (·.alloc kind)

/-- So is copying one. -/
theorem copy (t : TermId) : P _ (copy t) := hP.add fun f => f.add (f.terms[t]?.getD default)

private theorem redirect (loser winner : TermId) : P _ (redirect loser winner) :=
  hP.ite (hP.pure _) (hP.bind (hP.change _) fun _ => hP.pure _)

private theorem settle (loser winner : TermId) : P _ (settle loser winner) := by
  unfold Unifier.settle
  refine hP.ite (hP.pure _) (hP.guard (hP.bind (hP.view _) fun input => ?_))
  refine hP.either ?_ fun hrest => hP.bind (hP.change _) fun _ => hrest
  exact hP.bind (hP.wake _) fun _ => hP.bind (hP.wake _) fun _ => hP.redirect _ _

/-- So is the clash of two classes. -/
theorem clash (a b : TermId) (cause : TypeError) : P _ (clash a b cause) := by
  refine hP.bind (hP.alloc _) fun t => hP.bind (hP.settle _ _) fun _ => ?_
  refine hP.bind (hP.find _) fun error => hP.bind (hP.find _) fun b => ?_
  exact hP.bind (hP.settle _ _) fun _ => hP.pure _

/-- So is their merge. -/
theorem merge (loser winner : TermId) : P _ (merge loser winner) := by
  unfold Unifier.merge
  refine hP.ite (hP.pure _) (hP.guard (hP.bind (hP.kindOf _) fun kind => ?_))
  refine hP.ite (hP.settle _ _) (hP.bind (hP.kindOf _) fun other => ?_)
  split
  · exact hP.bind (hP.view _) fun cause => hP.clash _ _ _
  · exact hP.bind (hP.change _) fun _ => hP.settle _ _

/-! ## Children -/

/-- So is adding a field. -/
theorem addField (t : TermId) (label : String) (value : TermId) : P _ (addField t label value) := by
  refine hP.bind (hP.kindOf _) fun kind => hP.ite ?_ (hP.pure _)
  refine hP.bind (hP.change _) fun _ => hP.bind (hP.change _) fun _ => ?_
  exact hP.bind (hP.wake _) fun _ => hP.pure _

/-- So is dropping one. -/
theorem dropField (t : TermId) (label : String) : P _ (dropField t label) := by
  refine hP.bind (hP.wake _) fun _ => hP.bind (hP.kindOf _) fun kind => ?_
  split
  · exact hP.ite (hP.bind (hP.change _) fun _ => hP.pure _) (hP.pure _)
  · exact hP.pure _

private theorem balanceLabels (this that : TermId) (labels : List String) (progress : Bool) :
    P _ (balanceLabels this that labels progress) := by
  induction labels generalizing progress with
  | nil => exact hP.pure _
  | cons label rest ih =>
    refine hP.bind (hP.kindOf _) fun kind => hP.ite (ih _) ?_
    refine hP.bind (hP.kindOf _) fun kind => hP.ite ?_ (hP.bind (hP.dropField _ _) fun _ => ih _)
    refine hP.bind_option (hP.child _ _) (hP.bind (hP.pure _) fun _ => ih _) fun rhs => ?_
    exact hP.bind (hP.addField _ _ _) fun _ => ih _

private theorem mergeHalves (this that : TermId) (progress : Bool) :
    P _ (mergeHalves this that progress) := by
  refine hP.bind (hP.kindOf _) fun kind => hP.bind (hP.kindOf _) fun kind' => ?_
  refine hP.ite ?_ (hP.bind (hP.merge _ _) fun _ => hP.pure _)
  exact hP.bind (hP.wake _) fun _ => hP.bind (hP.redirect _ _) fun _ => hP.pure _

/-- So is merging two classes whose children were unified. -/
theorem mergeChildren (this that : TermId) (progress : Bool) :
    P _ (mergeChildren this that progress) := by
  refine hP.bind (hP.kindOf _) fun kind => hP.bind (hP.kindOf _) fun kind' => ?_
  refine hP.ite (hP.bind (hP.pure _) fun _ => hP.mergeHalves _ _ _) ?_
  refine hP.bind (hP.kindOf _) fun kind'' => hP.bind (hP.balanceLabels _ _ _ _) fun _ => ?_
  exact hP.mergeHalves _ _ _

section Unifying

variable {rec : TermId → TermId → UnifyM Bool} (hrec : ∀ a b, P _ (rec a b))

include hrec

private theorem unifySlots (slots : List Slot) (this that : TermId) (progress : Bool) :
    P _ (unifySlots rec slots this that progress) := by
  induction slots generalizing this that progress with
  | nil => exact hP.pure _
  | cons slot rest ih =>
    refine hP.bind_option (hP.child _ _) (ih _ _ _) fun lhs => ?_
    refine hP.bind (hP.child _ _) fun found => ?_
    extract_lets next
    have hnext : ∀ changed, P _ (next changed) := by
      intro changed
      refine hP.bind (hP.find _) fun this => hP.bind (hP.find _) fun that => ?_
      refine hP.bind (hP.kindOf _) fun k => hP.bind (hP.kindOf _) fun k' => ?_
      exact hP.ite (hP.pure _) (ih _ _ _)
    split
    · exact hP.bind (hrec _ _) hnext
    · refine hP.bind (hP.kindOf _) fun kind => ?_
      exact hP.ite (hP.bind (hP.addField _ _ _) hnext) (hP.bind (hP.pure _) hnext)
    · exact hP.bind (hP.pure _) hnext

/-- So is unifying two classes of one shape if unifying their children is. -/
theorem unifyChildren (a b : TermId) : P _ (unifyChildren rec a b) :=
  hP.bind (hP.view _) fun _ => hP.bind (hP.unifySlots hrec _ _ _ _) fun _ => hP.mergeChildren _ _ _

/-- So is unifying a wrapper with what it may wrap. -/
theorem unifyNilable (wrapper that : TermId) : P _ (unifyNilable rec wrapper that) := by
  refine hP.guard (hP.bind_option (hP.child _ _) (hP.pure _) fun inner => ?_)
  refine hP.bind (hP.kindOf _) fun kind => hP.ite (hrec _ _) ?_
  refine hP.bind (hP.copy _) fun c => hP.bind (hP.change _) fun _ => ?_
  refine hP.bind (hP.wake _) fun _ => hP.bind (hP.merge _ _) fun merged => ?_
  refine hP.bind (hP.find _) fun nilable => hP.bind (hP.wake _) fun _ => ?_
  exact hP.bind (hP.redirect _ _) fun joined => hP.pure _

end Unifying

end Edits

end Unifier

end TypeFlow
