import TypeFlow.Proofs.Edits

/-!
# Pairs of classes that were met

A unification remembers the pairs of classes whose children it unifies, and takes it that they are
merged where it meets them again.  They are merged in the end: once two terms are unified, every pair
that was met on the way is one class.

Main definitions:

- `Unifier.Advances`: no class fell apart, and the pairs met since are merged.

Main results:

- `Unifier.Advances.of_edits`: what touches the forest only meets no pair.
- `Unifier.unifySlots_advances`: the pairs met in the children of two classes are merged.
- `Unifier.unifyWithin_advances`: so are those that a unification meets.
-/

namespace TypeFlow

open Forest (IsClass)

namespace Unifier

variable {α : Type} {s t u : Unifier} {r : Bool}

/-- Classes were merged, and so were the pairs whose children were unified since. -/
structure Advances (s u : Unifier) : Prop where
  rep : ∀ x y, s.forest.rep x = s.forest.rep y → u.forest.rep x = u.forest.rep y
  met : ∀ p ∈ s.met, p ∈ u.met
  merged : ∀ p ∈ u.met, p ∈ s.met ∨ u.forest.rep p.1 = u.forest.rep p.2

/-- The memory of the pairs met is left alone. -/
def SameMet (s u : Unifier) : Prop := u.met = s.met

instance : IsPreorder Unifier SameMet where
  refl _ := rfl
  trans _ _ _ h h' := h'.trans h

/-- What is composed of edits meets no pair. -/
theorem edits_sameMet : Edits fun α => Keeps (α := α) SameMet where
  toComposes := composes_keeps
  view read s a u h := by
    obtain ⟨-, rfl⟩ := view_eq_some.1 h
    rfl
  change f s a u h := by
    obtain rfl := change_eq_some.1 h
    rfl
  onForest run s a u h := by
    obtain ⟨g, -, rfl⟩ := onForest_eq_some.1 h
    rfl
  add new s a u h := by
    cases h
    rfl
  isProbe s a u h := by
    obtain ⟨-, rfl⟩ := isProbe_eq_some.1 h
    rfl
  wake t s a u h := by
    obtain rfl := wake_eq_some.1 h
    rfl

namespace Advances

/-- Doing nothing advances. -/
theorem refl (s : Unifier) : Advances s s := ⟨fun _ _ => id, fun _ => id, fun _ => Or.inl⟩

/-- Computations one after the other advance. -/
theorem trans (h : Advances s t) (h' : Advances t u) : Advances s u where
  rep x y hxy := h'.rep x y (h.rep x y hxy)
  met p hp := h'.met p (h.met p hp)
  merged p hp := by
    rcases h'.merged p hp with hp | hrep
    · exact (h.merged p hp).imp_right (h'.rep _ _)
    · exact Or.inr hrep

/-- No pair was met since, and merged terms stay merged. -/
theorem of_met (hmet : u.met = s.met)
    (hrep : ∀ x y, s.forest.rep x = s.forest.rep y → u.forest.rep x = u.forest.rep y) :
    Advances s u :=
  ⟨hrep, fun _ hp => hmet ▸ hp, fun _ hp => Or.inl (hmet ▸ hp)⟩

/-- What touches the forest only meets no pair. -/
theorem of_edits {m : UnifyM α} {a : α} (hs : s.Sound) (hp : Proceeds s u)
    (hm : Keeps SameMet m) (h : m s = some (a, u)) : Advances s u :=
  .of_met (hm s a u h) (hp.evolves hs).grows.rep

/-- A pair was met, and merged in the end. -/
theorem of_meet {a b : TermId} (h : Advances { s with met := (a, b) :: s.met } u)
    (hrep : u.forest.rep a = u.forest.rep b) : Advances s u where
  rep := h.rep
  met p hp := h.met p (List.mem_cons_of_mem _ hp)
  merged p hp := by
    rcases h.merged p hp with hp | hp
    · rcases List.mem_cons.1 hp with rfl | hp
      · exact Or.inr hrep
      · exact Or.inl hp
    · exact Or.inr hp

/-- Classes may be looked up first. -/
theorem rep_rep (h : Advances s u) (hs : s.forest.Rooted) (x : TermId) :
    u.forest.rep (s.forest.rep x) = u.forest.rep x :=
  h.rep _ _ (Forest.rep_rep hs x)

end Advances

/-- Looking classes up advances. -/
theorem Looks.advances (hs : s.Sound) (h : Looks s u) : Advances s u :=
  .of_met h.met ((h.proceeds hs).evolves hs).grows.rep

/-- The computation merges every pair that it meets. -/
def Advancing (rec : TermId → TermId → UnifyM Bool) : Prop :=
  ∀ a b s r u, s.Sound → s.work.isNone = false → a < s.forest.size → b < s.forest.size →
    rec a b s = some (r, u) → Advances s u

section Unify

variable {rec : TermId → TermId → UnifyM Bool} (hrec : Proceeding rec) (hvars : VarsMeet rec)
  (hadvancing : Advancing rec)

include hadvancing in
private theorem SlotStep.advances {slot : Slot} {that lhs : TermId} {rhs? : Option TermId} {changed : Bool}
    (hs : s.Sound) (hwork : s.work.isNone = false) (hlhs : lhs < s.forest.size)
    (hrhs : ∀ rhs, rhs? = some rhs → s.forest.IsClass rhs)
    (h : SlotStep rec slot that lhs rhs? changed s u) : Advances s u := by
  cases h with
  | unified hr h => exact hadvancing _ _ _ _ _ hs hwork hlhs (hrhs _ hr).lt h
  | added hr hslot hopen h =>
    exact .of_edits hs (addField_proceeds hs hwork hlhs h).1 (edits_sameMet.addField _ _ _) h
  | kept hr hclosed hchanged h => exact h ▸ .refl s

include hrec hadvancing in
/-- The pairs met in the children of two classes are merged. -/
theorem unifySlots_advances {slots : List Slot} {this that : TermId} {progress : Bool}
    {result : TermId × TermId × Bool} (hs : s.Sound) (hwork : s.work.isNone = false)
    (hthis : s.forest.IsClass this) (hthat : s.forest.IsClass that)
    (h : unifySlots rec slots this that progress s = some (result, u)) : Advances s u := by
  induction slots generalizing this that progress s with
  | nil =>
    obtain ⟨-, rfl⟩ := pure_eq_some.1 h
    exact .refl s
  | cons slot rest ih =>
    rcases unifySlots_cons h with ⟨s₁, hchild, h⟩ | ⟨lhs, s₁, rhs?, s₂, changed, s₃, this₁, s₄, that₁,
      s₅, hchild, hchild', hstep, hfind, hfind', h⟩
    · obtain ⟨hlooks₁, -⟩ := child_looks hs hchild
      have hp₁ := hlooks₁.proceeds hs
      have hsteady₁ := hlooks₁.steady hs
      exact (hlooks₁.advances hs).trans (ih hp₁.sound (by rw [hp₁.probe, hwork])
        (hthis.of_steady hsteady₁) (hthat.of_steady hsteady₁) h)
    obtain ⟨hlooks₁, hlhs⟩ := child_looks hs hchild
    have hp₁ := hlooks₁.proceeds hs
    obtain ⟨hlooks₂, hrhs⟩ := child_looks hp₁.sound hchild'
    have hp₂ := hp₁.trans (hlooks₂.proceeds hp₁.sound)
    have hwork₂ : s₂.work.isNone = false := by rw [hp₂.probe, hwork]
    have hlhs₂ := (hlhs lhs rfl).of_steady (hlooks₂.steady hp₁.sound)
    have hp₃ := hp₂.trans (hstep.proceeds hrec hp₂.sound hwork₂ hlhs₂.lt hrhs)
    obtain ⟨hlooks₅, -, ⟨rfl, rfl⟩, hthis₅, hthat₅⟩ :=
      find_both hp₃.sound (hp₃.lt hs hthis.lt) (hp₃.lt hs hthat.lt) hfind hfind'
    have hp₅ := hp₃.trans (hlooks₅.proceeds hp₃.sound)
    have hadv₅ := (((hlooks₁.trans hlooks₂).advances hs).trans
      (hstep.advances hadvancing hp₂.sound hwork₂ hlhs₂.lt hrhs)).trans (hlooks₅.advances hp₃.sound)
    rcases h with ⟨-, -, rfl⟩ | h
    · exact hadv₅
    · exact hadv₅.trans (ih hp₅.sound (by rw [hp₅.probe, hwork]) hthis₅ hthat₅ h)

include hrec hvars hadvancing in
private theorem unifyChildren_advances {a b : TermId} (hs : s.Sound) (hwork : s.work.isNone = false)
    (ha : s.forest.IsClass a) (hb : s.forest.IsClass b) (hca : s.forest.Calm a)
    (hcb : s.forest.Calm b) (hka : s.forest.kind a ≠ .var) (hkb : s.forest.kind b ≠ .var)
    (hshape : (s.forest.kind a).shape = (s.forest.kind b).shape)
    (h : unifyChildren rec a b s = some (r, u)) : Advances s u := by
  obtain ⟨progress, s₁, hslots, hp₁, hp₂, -⟩ :=
    unifyChildren_halves hrec hvars hs hwork ha hb hca hcb hka hkb hshape h
  refine (unifySlots_advances hrec hadvancing hs hwork ha hb hslots).trans ?_
  replace h := of_bind_view h
  obtain ⟨result, s₂, hslots', h⟩ := bind_eq_some.1 h
  cases hslots.symm.trans hslots'
  exact .of_edits hp₁.sound hp₂ (edits_sameMet.mergeChildren _ _ _) h

include hrec hvars hadvancing in
private theorem Layer.advances {a b : TermId} (hs : s.Sound) (hwork : s.work.isNone = false)
    (ha : s.forest.IsClass a) (hb : s.forest.IsClass b) (hca : s.forest.Calm a)
    (hcb : s.forest.Calm b) (h : Layer rec a b r s u) : Advances s u := by
  obtain ⟨hp, hjoined⟩ := h.proceeds hrec hvars hs ha hb hca hcb
  have hgrows := (hp.evolves hs).grows.rep
  have hmet : Proceeds s { s with met := (a, b) :: s.met } := .of_memory hs hs.image
  cases h with
  | same heq hr hu => exact hu ▸ .refl s
  | leaves hne hslots hslots' h => exact .of_met (edits_sameMet.merge _ _ _ _ _ h) hgrows
  | joined hne hpair hcase h => exact .of_met (edits_sameMet.merge _ _ _ _ _ h) hgrows
  | wrapped hne hpair hnilable hplain hknown h =>
    refine .of_met ?_ hgrows
    rcases hpair with ⟨rfl, rfl⟩ | ⟨rfl, rfl⟩
    · exact (unifyNilable_proceeds hs hb hca hnilable hknown hplain h).2.1
    · exact (unifyNilable_proceeds hs ha hcb hnilable hknown hplain h).2.1
  | met hne hmet hr hu => exact hu ▸ .refl s
  | probed hne hwork' => exact absurd hwork' (by rw [hwork]; exact Bool.noConfusion)
  | clashed hne hwork' hvar hvar' hshape h =>
    obtain ⟨hp', hrep⟩ := clash_proceeds hmet.sound hwork ha hb.lt h
    exact .of_meet (.of_edits hmet.sound hp' (edits_sameMet.clash _ _ _) h) hrep
  | paired hne hwork' hfresh hvar hvar' hshape h =>
    obtain ⟨-, hrep⟩ := unifyChildren_proceeds hrec hvars hmet.sound hwork ha hb hca hcb hvar hvar'
      hshape h
    exact .of_meet (unifyChildren_advances hrec hvars hadvancing hmet.sound hwork ha hb hca hcb hvar
      hvar' hshape h) hrep

include hrec hvars hadvancing in
/-- One layer of unification merges the pairs that it meets if the next one does. -/
theorem unifyStep_advances : Advancing (unifyStep rec) := by
  intro a b s r u hs hwork ha hb h
  obtain ⟨ra, s₁, rb, s₂, hfind, hfind', hlayer⟩ := unifyStep_layer h
  obtain ⟨hlooks, hcalm, ⟨rfl, rfl⟩, hra, hrb⟩ := find_both hs ha hb hfind hfind'
  have hp := hlooks.proceeds hs
  exact (hlooks.advances hs).trans (hlayer.advances hrec hvars hadvancing hp.sound
    (by rw [hp.probe, hwork]) hra hrb hcalm.1 hcalm.2)

end Unify

/-- A unification merges every pair that it meets. -/
theorem unifyWithin_advances (depth : Nat) : Advancing (unifyWithin depth) := by
  induction depth with
  | zero => exact fun _ _ _ _ _ _ _ _ _ h => (failure_eq_some.1 h).elim
  | succ depth ih =>
    exact unifyStep_advances (unifyWithin_proceeding depth) (unifyWithin_varsMeet depth) ih

end Unifier

end TypeFlow
