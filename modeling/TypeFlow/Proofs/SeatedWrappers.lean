import TypeFlow.Proofs.SeatedChildren

/-!
# Wrappers of the definition

A wrapper of a variable that occurs nowhere else says no more of its use than that this takes nil in.  So what has
its place is free, like what stands for a variable, and is an instance as soon as it takes nil in.  A variable joins
a copy of the wrapper, what is known gains nil, and what another wrapper wraps stands for the variable.

Main results:

- `Unifier.instantiateWrapper_fills`: a variable that joins a copy of a wrapper is an instance.
- `Unifier.instantiateNilable_seats`: what is no wrapper becomes an instance when it gains nil.
- `Unifier.instantiateWrappers_seats`: so does a wrapper when the variable is instantiated for what it wraps.
-/

namespace TypeFlow

namespace Kind

variable {k : Kind}

/-- What is known and no error has nil among its values when that is put in. -/
theorem mayNil_orNil_of_known (hlink : k.isLink = false) (hvar : k ≠ .var) (herror : k.isError = false) :
    k.orNil.mayNil = true := by
  cases k with
  | base flow => exact flow.mayNil_orNil
  | var => exact absurd rfl hvar
  | link => cases hlink
  | error => cases herror
  | _ => rfl

/-- A wrapper has nil among its values. -/
theorem mayNil_of_isNilable (h : k.isNilable = true) : k.mayNil = true := by
  obtain ⟨x, rfl⟩ := Kind.isNilable_eq_true.1 h
  rfl

/-- A wrapper has one slot. -/
theorem slots_of_isNilable (h : k.isNilable = true) : k.slots = [.inner] := by
  obtain ⟨x, rfl⟩ := Kind.isNilable_eq_true.1 h
  rfl

end Kind

namespace Forest

variable {f : Forest} {C : TermId → Prop} {t : TermId} {k : Kind}

/-- What a class that takes nil in shows does so as well. -/
theorem TakesNil.shows (hf : f.Rooted) (h : f.TakesNil t) (hk : f.Shows C t k) :
    k.mayNil = true ∨ k.isError = true := by
  cases hk with
  | known _ hk =>
    rw [← hk]
    exact h
  | wrapper => exact Or.inl rfl
  | @wrapped _ v k _ _ hk' hvar =>
    cases herror : k.isError with
    | true =>
      obtain ⟨cause, rfl⟩ := Kind.isError_iff.1 herror
      exact Or.inr rfl
    | false => exact Or.inl (Kind.mayNil_orNil_of_known (hk'.isLink hf) hvar herror)

end Forest

open Forest (IsClass Template Zone)

namespace Unifier

variable {f : Forest} {d : TermId} {pinned : List TermId} {A : TermId → Prop} {zone zone' : TermId → Zone}
  {s u : Unifier} {a b c : TermId} {r : Bool}

/-- What is free stays so while a class is merged into another one that is free. -/
theorem Laid.merge (hs : Laid f d pinned zone s) (hb : s.forest.IsClass b) (hc : s.forest.IsClass c)
    (hkb : s.forest.kind b = .var) (hzb : zone b = .free) (hzc : zone c = .free)
    (h : Unifier.merge b c s = some (r, u)) : Works f d pinned A zone s zone u := by
  have hp : Proceeds s u := (merge_proceeds hs.sound hb hc (fun _ => by rw [hkb]; rfl)
    (fun n m hn => by rw [hkb] at hn; cases hn) h).1
  have hacts := (acts_merge (R := (zone · = .free)) hzb hzc s r u ⟨hs.zoned.free, hs.unborn⟩ h).1
  refine hs.confined hacts hp fun p hmem => ?_
  rw [edits_sameMet.merge b c s r u h] at hmem
  exact (hp.evolves hs.sound).grows.rep _ _ (hs.met p hmem)

section Use

variable (hf : f.Template d pinned) (hs : Laid f d pinned zone s) (ha : f.Reaches d a)
  (hnilable : (f.kind a).isNilable = true) (hb : s.forest.IsClass b) (hzone : zone b = .free)

include hs ha hnilable hb hzone

include hf in
/-- A variable that joins a copy of a wrapper is an instance of that. -/
theorem instantiateWrapper_fills (hvacant : Vacant f d zone s a) (hkb : s.forest.kind b = .var) (h : (do
      let c ← freshCopy pinned a
      let progress ← merge b c
      setImage a b
      return progress) s = some (r, u)) :
    ∃ zone', Works f d pinned (f.Reaches a) zone s zone' u ∧ Seated f zone' u True a b := by
  have hvar : f.kind a ≠ .var := fun hvar => by rw [hvar] at hnilable; cases hnilable
  obtain ⟨hnew, hbarred⟩ := hvacant a .refl (.of_known hvar)
  have hsame := hs.stands.same a ha
  have hclass : s.forest.IsClass a := ⟨hs.lt_of_reaches hf ha, by
    rw [hsame.isLink, (hf.tree.reaches ha).calm.root]⟩
  obtain ⟨c, s₁, hcopy, h⟩ := bind_eq_some.1 h
  obtain ⟨progress, s₂, hmerge, h⟩ := bind_eq_some.1 h
  obtain ⟨w, s₃, hset, h⟩ := bind_eq_some.1 h
  obtain ⟨-, rfl⟩ := pure_eq_some.1 h
  obtain rfl := modify_eq_some.1 hset
  obtain ⟨-, hsteady, -, -, hrefreshed⟩ := freshCopy_proceeds hs.sound hclass.lt hcopy
  obtain ⟨zone₁, hworks₁, hdrawn⟩ := freshCopyWithin_original hf hs ha ⟨hvar, Or.inl rfl, hclass, hsame, fun _ => rfl⟩
    hbarred hnew (fun slot x hx => hvacant.of_reaches (.single ⟨slot, x, hx, rfl⟩)) (of_bind_view hcopy)
  rw [Forest.place_of_wrapper hnilable] at hdrawn
  have hb₁ := hb.of_steady hsteady
  have hkb₁ := (hrefreshed b hb.lt (Forest.calm_of_not_nilable hb.root (by rw [hkb]; rfl))).eq_var.2 hkb
  have hzone₁ : zone₁ b = .free := (hworks₁.zone_eq hb.lt (by rw [hzone]; exact Zone.noConfusion)).trans hzone
  have hkc : (s₁.forest.kind c).isNilable = true := by rw [hdrawn.same.isNilable, hnilable]
  have hne : b ≠ c := fun e => by
    rw [← e, hkb₁] at hkc
    cases hkc
  have hs₁ := hworks₁.laid
  have hworks₂ : Works f d pinned (f.Reaches a) zone₁ s₁ zone₁ s₂ :=
    hs₁.merge hb₁ hdrawn.isClass hkb₁ hzone₁ hdrawn.seat hmerge
  have henters := merge_enters hs₁.sound hs₁.commits hb₁ hdrawn.isClass hkb₁ hne hmerge
  have hnil : s₁.forest.TakesNil c := Or.inl (by
    rw [hdrawn.isClass.rep_eq, Kind.mayNil_of_isNilable hkc])
  have hrep : s₂.forest.rep c = s₂.forest.rep b := by
    rw [henters.rep, henters.rep, hdrawn.isClass.rep_eq, hb₁.rep_eq, if_neg (Ne.symm hne), if_pos rfl]
  have hworks := hworks₁.trans hs hworks₂
  exact ⟨zone₁, hworks.trans hs (hworks₂.laid.setImage (hworks₂.laid.lt_of_reaches hf ha)
    (Nat.lt_of_lt_of_le hb.lt hworks.size) (fun _ => .refl) fun _ hvar' => absurd hvar' hvar),
    .nilable hnilable ((hworks₂.nils c hnil).of_rep hrep)⟩

omit ha in
/-- What is no wrapper is an instance of one when it has gained nil. -/
theorem instantiateNilable_seats (hvar : s.forest.kind b ≠ .var) (hplain : (s.forest.kind b).isError = false)
    (h : instantiateNilable b s = some (r, u)) :
    ∃ zone', Works f d pinned (f.Reaches a) zone s zone' u ∧ Seated f zone' u True a b := by
  replace h := of_bind_view h
  rcases ite_eq_some.1 h with ⟨hnil, h⟩ | ⟨-, h⟩
  · obtain ⟨-, rfl⟩ := pure_eq_some.1 h
    exact ⟨zone, .refl hs, .nilable hnilable (Or.inl (by rwa [hb.rep_eq]))⟩
  replace h := of_commits hs.commits h
  obtain ⟨v, s₁, hset, h⟩ := bind_eq_some.1 h
  obtain ⟨v', s₂, hwake, h⟩ := bind_eq_some.1 h
  obtain ⟨-, rfl⟩ := pure_eq_some.1 h
  obtain rfl := change_eq_some.1 hset
  obtain rfl := wake_eq_some.1 hwake
  have hrefines : (s.forest.kind b).Refines (s.forest.kind b).orNil :=
    ⟨hb.root, by rw [Kind.isLink_orNil, hb.root], Kind.accrues_orNil hb.root,
      fun x hx => by rwa [Kind.children_orNil] at hx⟩
  refine ⟨zone, hs.takeOver hb (hs.not_reaches_of_free hzone) (by rw [hzone]; trivial) hrefines ?_ _ (by simp),
    .nilable hnilable (Or.inl ?_)⟩
  · rw [hzone]
    exact fun x hx => hs.zoned.free b hzone x (by rwa [Kind.children_orNil] at hx)
  · have hsteady := Forest.refine_steady hs.sound.forest.rooted hrefines
    dsimp only
    rw [hsteady.rep, hb.rep_eq, Forest.kind_setKind, if_pos ⟨rfl, hb.lt⟩]
    exact Kind.mayNil_orNil_of_known hb.root hvar hplain

include hf in
omit hb in
/-- The variable of a wrapper is instantiated for what another one wraps. -/
private theorem instantiateWrapped_works {inst : TermId → TermId → UnifyM Bool} (hinst : Visits f d pinned inst)
    (hcalm : s.forest.Calm b) (hwrapper : (s.forest.kind b).isNilable = true)
    {outcome : SlotOutcome} (h : instantiateSlots inst pinned a [.inner] b false false s = some (outcome, u)) :
    ∃ zone', Works f d pinned (f.Reaches a) zone s zone' u ∧
      (outcome = .finished ∨ ∃ that progress, outcome = .ongoing that progress false) := by
  obtain ⟨v, hv⟩ := Kind.isNilable_eq_true.1 hnilable
  have hx : (f.kind a).child? .inner = some v := by rw [hv]; rfl
  have hedge : f.Reaches a (f.rep v) := .single ⟨.inner, v, hx, rfl⟩
  have hreach := ha.trans hedge
  have hvar := (hf.tree.reaches ha).wraps hx
  have hnot := Forest.not_single_of_wrapped ha hx hvar
  have hvacant : Vacant f d zone s (f.rep v) := fun x hx hsingle => absurd (hx.eq_of_var hvar ▸ hsingle) hnot
  obtain ⟨lhs?, s₁, hchild, h⟩ := bind_eq_some.1 h
  obtain rfl : lhs? = some (f.rep v) := by
    obtain ⟨x', hx', hxx⟩ := hs.stands.child_to ha hx
    rw [child_eq hs.sound hchild, hx', Option.map_some, hxx]
  have hlooks := (child_looks hs.sound hchild).1
  have hworks₁ : Works f d pinned (fun _ => False) zone s zone s₁ := hs.looks hf hlooks
  have hs₁ := hworks₁.laid
  obtain ⟨y, hy⟩ : ∃ y, (s₁.forest.kind b).child? .inner = some y := by
    obtain ⟨y, hy⟩ := Kind.isNilable_eq_true.1 hwrapper
    obtain ⟨y', hy', -⟩ := Kind.Same.exists_child? (Eq.symm (hlooks.upkeeps.same hs.sound.forest.rooted hcalm))
      (by rw [hy]; rfl : (s.forest.kind b).child? .inner = some y)
    exact ⟨y', hy'⟩
  obtain ⟨rhs?, s₂, hchild', h⟩ := bind_eq_some.1 h
  obtain ⟨hlooks₂, hclass⟩ := child_looks hs₁.sound hchild'
  obtain rfl : rhs? = some (s₁.forest.rep y) := by rw [child_eq hs₁.sound hchild', hy, Option.map_some]
  have hworks₂ : Works f d pinned (fun _ => False) zone s zone s₂ := hworks₁.trans hs (hs₁.looks hf hlooks₂)
  have hs₂ := hworks₂.laid
  have hroot := hs₂.stands.rep _ hreach
  obtain ⟨changed, s₃, hrun, h⟩ := bind_eq_some.1 h
  obtain ⟨zone', hworks₃, -⟩ := hinst zone s₂ (f.rep v) _ changed s₃ hs₂ (by rwa [hroot]) (hclass _ rfl).lt
    (by rw [hroot, Forest.place_of_not_single hnot]; exact hs₁.zoned.free.rep (hs₁.zoned.free.child hzone hy))
    (by rw [hroot]; exact hvacant.works hf hs hworks₂ hreach fun _ _ _ => id) hrun
  rw [hroot] at hworks₃
  have hs₃ := hworks₃.laid
  obtain ⟨changed?, s₃, hpure, h⟩ := bind_eq_some.1 h
  obtain ⟨rfl, rfl⟩ := pure_eq_some.1 hpure
  obtain ⟨that, s₄, hfind, h⟩ := bind_eq_some.1 h
  have hworks₄ : Works f d pinned (fun _ => False) zone' s₃ zone' s₄ := hs₃.looks hf (find_looks hs₃.sound hfind).2
  refine ⟨zone', ?_⟩
  have hworks : Works f d pinned (f.Reaches a) zone s zone' s₄ := (hworks₂.mono fun _ => False.elim).trans hs
    ((hworks₃.mono fun w hw => hedge.trans hw).trans hs₂ (hworks₄.mono fun _ => False.elim))
  replace h := of_bind_view h
  rcases ite_eq_some.1 h with ⟨-, h⟩ | ⟨-, h⟩
  · obtain ⟨rfl, rfl⟩ := pure_eq_some.1 h
    exact ⟨hworks, Or.inl rfl⟩
  obtain ⟨probing, s₅, hprobe, h⟩ := bind_eq_some.1 h
  obtain ⟨-, rfl⟩ := isProbe_eq_some.1 hprobe
  rcases ite_eq_some.1 h with ⟨-, h⟩ | ⟨-, h⟩
  · obtain ⟨rfl, rfl⟩ := pure_eq_some.1 h
    exact ⟨hworks, Or.inl rfl⟩
  · obtain ⟨rfl, rfl⟩ := pure_eq_some.1 h
    exact ⟨hworks, Or.inr ⟨that, _, rfl⟩⟩

include hf in
/-- A wrapper is an instance of another one when the variable of that is instantiated for what it wraps. -/
theorem instantiateWrappers_seats {inst : TermId → TermId → UnifyM Bool} (hinst : Visits f d pinned inst)
    (hcalm : s.forest.Calm b) (hwrapper : (s.forest.kind b).isNilable = true)
    (h : instantiateChildren inst pinned a b s = some (r, u)) :
    ∃ zone', Works f d pinned (f.Reaches a) zone s zone' u ∧ Seated f zone' u True a b := by
  have hvar : f.kind a ≠ .var := fun hvar => by rw [hvar] at hnilable; cases hnilable
  suffices hworks : ∃ zone', Works f d pinned (f.Reaches a) zone s zone' u from
    hworks.imp fun zone' hworks => ⟨hworks, .nilable hnilable (hworks.nils b (Or.inl (by
      rw [hb.rep_eq, Kind.mayNil_of_isNilable hwrapper])))⟩
  replace h := of_bind_view h
  replace h := of_bind_view h
  rw [(hs.stands.same a ha).slots, Kind.slots_of_isNilable hnilable, Kind.slots_of_isNilable hwrapper] at h
  obtain ⟨v, s₁, himage, h⟩ := bind_eq_some.1 h
  obtain rfl := modify_eq_some.1 himage
  have hset : Works f d pinned (f.Reaches a) zone s zone { s with image := (a, b) :: s.image } :=
    hs.setImage (hs.lt_of_reaches hf ha) hb.lt (fun _ => .refl) fun _ hvar' => absurd hvar' hvar
  obtain ⟨outcome, s₂, hslots, h⟩ := bind_eq_some.1 h
  obtain ⟨zone', hworks, houtcome⟩ := instantiateWrapped_works hf hset.laid ha hnilable hzone hinst hcalm hwrapper
    hslots
  have hworks := hset.trans hs hworks
  refine ⟨zone', ?_⟩
  rcases houtcome with rfl | ⟨that, progress, rfl⟩
  · obtain ⟨-, rfl⟩ := pure_eq_some.1 h
    exact hworks
  -- There is nothing to be dropped, and wrappers have nothing to hand over.
  replace h := of_bind_view h
  replace h := of_bind_view h
  obtain ⟨progress?, s₃, hpure, h⟩ := bind_eq_some.1 h
  obtain ⟨rfl, rfl⟩ := pure_eq_some.1 hpure
  obtain ⟨refined, s₃, hrefine, h⟩ := bind_eq_some.1 h
  obtain ⟨-, rfl⟩ := pure_eq_some.1 h
  replace hrefine := of_bind_view hrefine
  replace hrefine := of_bind_view hrefine
  have hkind : (s₂.forest.kind a).isNilable = true := by
    rw [(hworks.laid.stands.same a ha).isNilable, hnilable]
  obtain ⟨x, hx⟩ := Kind.isNilable_eq_true.1 hkind
  rw [hx] at hrefine
  obtain ⟨-, rfl⟩ := pure_eq_some.1 hrefine
  exact hworks

end Use

end Unifier

end TypeFlow
