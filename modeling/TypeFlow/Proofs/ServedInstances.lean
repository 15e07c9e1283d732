import TypeFlow.Proofs.FreshInstances
import TypeFlow.Proofs.ServedCopies

/-!
# Instances for uses

A type scheme that is instantiated for a use in its region ends up with an instance there: generic classes
that have an image are unified with it, types that are alike are instances already, a variable of the use
gets a copy, a base type is met with that of the scheme, and functions have instances of their children in
the same slots.  What does not match becomes an error, which is an instance of anything.

Main definitions:

- `Unifier.Fitting`: a computation makes a term of the region an instance.
- `Unifier.Instanced`: a function has instances in all but some of its slots.

Main results:

- `Unifier.instantiateStep_provides`: one layer of instantiation makes the use an instance.
- `Unifier.instantiateWithin_fitting`: so does the instantiation of any class of a scheme.
-/

namespace TypeFlow

private theorem Kind.isSimple_of_isFunction {k : Kind} (hk : k.isFunction = true) : k.isSimple = true := by
  cases k <;> first | rfl | cases hk

open Forest (ChangesIn Instantiable IsClass Steady)

namespace Unifier

variable {f : Forest} {d : TermId} {pinned : List TermId} {V : TermId → Prop} {n depth : Nat}
  {s t u : Unifier} {a b c x y : TermId} {slot : Slot} {r : Bool}

/-! ## Instances that are recorded -/

/-- A term of which as much is known is recorded as an instance. -/
theorem Serving.record (hf : f.Instantiable d pinned V) (hu : Serving f V u)
    (hserves : Serves f V s.forest.size s u) (hb : b < u.forest.size) (hV : V b)
    (hmatures : (f.kind a).Matures (fun x y => Fits f u (f.rep x) y) (u.forest.kind (u.forest.rep b)))
    (hold : f.Generic a → ∀ c, u.image.lookup a = some c → u.forest.rep c = u.forest.rep b)
    (hsettled : Settled f V u (f.Below a))
    (hspares : ∀ x, ¬f.Reaches a x → u.image.lookup x = s.image.lookup x) :
    Provides f V s a b { u with image := (a, b) :: u.image } := by
  obtain ⟨hu', hserves'⟩ := hu.setImage hb hold
  have hfits : Fits f { u with image := (a, b) :: u.image } a b :=
    .of_matures (fun _ => ⟨b, lookup_cons_eq_some.2 (Or.inl ⟨rfl, rfl⟩), rfl⟩)
      (hmatures.mono fun x y h => h.of_image (hserves' 0))
  refine ⟨hu', hserves.trans hu.sound (hserves' _), hfits, .of_fits hf hu' hV hfits ?_, fun x hx => ?_⟩
  · exact hsettled.serves hu.realm.region (hserves' 0) fun x hx => lookup_cons_of_ne hx.2
  · exact (lookup_cons_of_ne fun e => hx (by rw [e]; exact .refl)).trans (hspares x hx)

private theorem isClass_setKind {k : Kind} (hb : f.IsClass b) (hk : k.isLink = false) :
    (f.setKind b k).IsClass b ∧ (f.setKind b k).kind b = k := by
  have hkind : (f.setKind b k).kind b = k := (Forest.kind_setKind _ _ _ _).trans (if_pos ⟨rfl, hb.lt⟩)
  refine ⟨⟨?_, by rwa [hkind]⟩, hkind⟩
  rw [Forest.size_setKind]
  exact hb.lt

/-! ## Uses that are known -/

section Known

variable (hf : f.Instantiable d pinned V) (hs : Serving f V s) (ha : f.Reaches d a)
  (hb : s.forest.IsClass b) (hV : V b) (hnew : s.image.lookup a = none)
  (hsettled : Settled f V s (f.Reaches a))

include hf hs hb hV hnew hsettled

/-- A term is recorded while nothing else is done. -/
theorem provides_setImage
    (hmatures : (f.kind a).Matures (fun x y => Fits f s (f.rep x) y) (s.forest.kind b)) :
    Provides f V s a b { s with image := (a, b) :: s.image } := by
  rw [← hb.rep_eq] at hmatures
  refine Serving.record hf hs (.refl hs.sound) hb.lt hV hmatures (fun _ c hc => ?_)
    hsettled.below fun _ _ => rfl
  rw [hnew] at hc
  cases hc

include ha

/-- A use that does not match becomes an error. -/
theorem reject_provides (h : reject (unifyWithin depth) a b s = some (r, u)) : Provides f V s a b u := by
  replace h := of_bind_view (of_commits hs.commits h)
  obtain ⟨error, s₁, halloc, h⟩ := bind_eq_some.1 h
  obtain ⟨progress, s₂, hunify, h⟩ := bind_eq_some.1 h
  obtain ⟨v, s₃, hset, h⟩ := bind_eq_some.1 h
  obtain ⟨-, rfl⟩ := pure_eq_some.1 h
  obtain rfl := modify_eq_some.1 hset
  obtain ⟨hs₁, hserves₁, herror, hVerror, hkind, himage₁⟩ := hs.alloc hf halloc
  have hVb := (hserves₁ 0).changes.stays b (by rwa [hb.rep_eq])
  have hb₁ := Nat.lt_of_lt_of_le hb.lt (hserves₁ 0).changes.size
  obtain ⟨hs₂, hserves₂, hrep, himage₂⟩ := hs₁.unify hf hb₁ herror.lt hVb (by rwa [herror.rep_eq]) hunify
  have hserves := (hserves₁ s.forest.size).trans hs₁.sound (hserves₂ _)
  have hmatures := (hserves₂ 0).matures error (by rwa [herror.rep_eq])
  rw [herror.rep_eq, hkind, ← hrep] at hmatures
  have himage := himage₂.trans himage₁
  refine Serving.record hf hs₂ hserves (Nat.lt_of_lt_of_le hb₁ (hserves₂ 0).changes.size) hV
    (.of_isError (hf.scheme.reaches ha).isLink (hmatures.accrues.isError rfl)) (fun _ c hc => ?_) ?_
    fun _ _ => by rw [himage]
  · rw [himage, hnew] at hc
    cases hc
  · exact hsettled.below.serves hs.realm.region hserves fun _ _ => by rw [himage]

/-- A base type takes over what the scheme says of it. -/
theorem instantiateBase_provides {p q : Flow} (hp : f.kind a = .base p) (hq : s.forest.kind b = .base q)
    (h : instantiateBase (unifyWithin depth) a b p q s = some (r, u)) : Provides f V s a b u := by
  have hmatures : ∀ {E : TermId → TermId → Prop} {q' : Flow}, p.covers q' = true → p.sameKind q' = true →
      (f.kind a).Matures E (.base q') := by
    intro E q' hcovers hsame
    rw [hp]
    exact .of_turnsInto (.base hcovers) (.base hsame)
  unfold instantiateBase at h
  rcases ite_eq_some.1 h with ⟨-, h⟩ | ⟨hsame, h⟩
  · exact reject_provides hf hs ha hb hV hnew hsettled h
  rw [Bool.not_eq_true, Bool.not_eq_false'] at hsame
  rcases ite_eq_some.1 h with ⟨hmeet, h⟩ | ⟨-, h⟩
  · obtain ⟨v, s₁, hset, h⟩ := bind_eq_some.1 h
    obtain ⟨-, rfl⟩ := pure_eq_some.1 h
    obtain rfl := modify_eq_some.1 hset
    exact provides_setImage hf hs hb hV hnew hsettled (hq ▸ hmatures (Flow.covers_iff.2 hmeet) hsame)
  replace h := of_commits hs.commits h
  obtain ⟨v₁, s₁, hset, h⟩ := bind_eq_some.1 h
  obtain ⟨v₂, s₂, hwake, h⟩ := bind_eq_some.1 h
  obtain ⟨v₃, s₃, himage, h⟩ := bind_eq_some.1 h
  obtain ⟨-, rfl⟩ := pure_eq_some.1 h
  obtain rfl := change_eq_some.1 hset
  obtain rfl := wake_eq_some.1 hwake
  obtain rfl := modify_eq_some.1 himage
  have hmeet := Flow.sameKind_meet_of_sameKind hsame
  have hrefines : (s.forest.kind b).Refines (.base (p.meet q)) := by
    rw [hq]
    exact ⟨rfl, rfl, .base (Flow.covers_meet_right p q), fun _ hx => hx⟩
  obtain ⟨hu, hserves⟩ := hs.takeOver hf hb hV hrefines (by
    rw [hq]
    exact .of_turnsInto (.base (Flow.covers_meet_right p q)) (.base (by rwa [← Flow.sameKind_congr hsame])))
    rfl (by rw [hq]; rfl) (s.work.map ((s.forest.setKind b (.base (p.meet q))).wake b)) (by simp)
  obtain ⟨hb', hkind⟩ := isClass_setKind hb (k := .base (p.meet q)) rfl
  refine Serving.record hf hu (hserves _) hb'.lt hV ?_
    (fun hgeneric => absurd hgeneric (Forest.not_generic_of_base hp))
    (hsettled.below.serves hs.realm.region (hserves 0) fun _ _ => rfl) fun _ _ => rfl
  dsimp only
  rw [hb'.rep_eq, hkind]
  exact hmatures (Flow.covers_meet_left p q) hmeet

/-- A variable joins a copy. -/
theorem instantiateVar_provides (hclear : Clear f s a) (hvar : s.forest.kind b = .var) (h : (do
      let c ← freshCopy pinned a
      let progress ← merge b c
      setImage a b
      return progress) s = some (r, u)) : Provides f V s a b u := by
  have hroot := (hf.isClass hs.changes ha).rep_eq
  obtain ⟨c, s₁, hcopy, h⟩ := bind_eq_some.1 h
  obtain ⟨progress, s₂, hmerge, h⟩ := bind_eq_some.1 h
  obtain ⟨v, s₃, hset, h⟩ := bind_eq_some.1 h
  obtain ⟨-, rfl⟩ := pure_eq_some.1 h
  obtain rfl := modify_eq_some.1 hset
  obtain ⟨hp, -, hVc⟩ :=
    freshCopy_supplies V s a c s₁ hf hs (by rwa [hroot]) (by rwa [hroot]) (by rwa [hroot]) hcopy
  rw [hroot] at hp
  obtain ⟨-, hsteady, -, hclass, hrefreshed⟩ :=
    freshCopy_proceeds hs.sound (hf.isClass hs.changes ha).lt hcopy
  have hc := hclass (by rwa [hroot])
  have hvar₁ := (hrefreshed b hb.lt (Forest.calm_of_not_nilable hb.root (by rw [hvar]; rfl))).eq_var.2 hvar
  have hb₁ := hb.of_steady hsteady
  obtain ⟨hs₂, hserves₂, hrep, himage⟩ := hp.serving.merge hf hb₁ hc hV hVc hvar₁ hmerge
  have hregion := hp.serving.realm.region
  have hfits := (hp.fits.serves hregion (hserves₂ 0) (by rwa [hc.rep_eq])).of_rep hrep.symm
  have himages : ∀ x, s₂.image.lookup x = s₁.image.lookup x := fun x => by rw [himage]
  refine Serving.record hf hs₂ (hp.serves.trans hp.serving.sound (hserves₂ _))
    (Nat.lt_of_lt_of_le hb₁.lt (hserves₂ 0).changes.size) hV hfits.matures (fun hgeneric c' hc' => ?_)
    (hp.settled.below.serves hregion (hserves₂ 0) fun x _ => himages x)
    fun x hx => (himages x).trans (hp.spares x hx)
  obtain ⟨c'', hc'', hrep''⟩ := hfits.image hgeneric
  cases hc'.symm.trans hc''
  exact hrep''

end Known

/-! ## Functions -/

/-- The computation makes a term of the region an instance. -/
def Fitting (f : Forest) (d : TermId) (V : TermId → Prop) (inst : TermId → TermId → UnifyM Bool) : Prop :=
  ∀ s x y r u, Serving f V s → f.Reaches d (s.forest.rep x) → y < s.forest.size → V (s.forest.rep y) →
    Clear f s (s.forest.rep x) → Settled f V s (f.Reaches (s.forest.rep x)) → inst x y s = some (r, u) →
    Provides f V s (s.forest.rep x) y u

/-- A function of the region has instances of the children of one of the scheme, up to the slots. -/
structure Instanced (f : Forest) (V : TermId → Prop) (a b : TermId) (slots : List Slot) (s : Unifier) :
    Prop where
  isClass : s.forest.IsClass b
  region : V b
  shape : (s.forest.kind b).shape = (f.kind a).shape
  done : ∀ slot x y, slot ∉ slots → (f.kind a).child? slot = some x →
    (s.forest.kind b).child? slot = some y → Fits f s (f.rep x) y

namespace Instanced

variable {slots rest : List Slot}

/-- It is a function of the same arity for good, unless it becomes an error. -/
theorem turns (hk : (f.kind a).isFunction = true) (hu : u.Sound) (hserves : Serves f V n s u)
    (h : Instanced f V a b slots s) (hdone : ∀ slot x y, slot ∉ rest → (f.kind a).child? slot = some x →
      (s.forest.kind b).child? slot = some y → Fits f u (f.rep x) y) :
    (u.forest.kind (u.forest.rep b)).isError = true ∨ Instanced f V a (u.forest.rep b) rest u := by
  have hV : V (s.forest.rep b) := by
    rw [h.isClass.rep_eq]
    exact h.region
  have hmatures := hserves.matures b hV
  rw [h.isClass.rep_eq] at hmatures
  have hk' := Kind.isFunction_of_shape hk h.shape
  refine (hmatures.accrues.function_cases hk').imp_right fun ⟨_, hshape⟩ => ?_
  have hlt := Nat.lt_of_lt_of_le h.isClass.lt hserves.changes.size
  refine ⟨Forest.isClass_rep hu.forest hlt, hserves.changes.stays b hV, hshape.trans h.shape,
    fun slot x z hslot hx hz => ?_⟩
  obtain ⟨y, hy, hyz⟩ := hmatures.exists_child? hk' hz
  exact (hdone slot x y hslot hx hy).of_rep hyz

/-- What is done stays so. -/
theorem done_serves (hs : Serving f V s) (hserves : Serves f V n s u) (h : Instanced f V a b slots s)
    (hslot : slot ∉ slots) (hx : (f.kind a).child? slot = some x)
    (hy : (s.forest.kind b).child? slot = some y) : Fits f u (f.rep x) y :=
  (h.done slot x y hslot hx hy).serves hs.realm.region hserves
    (hs.realm.region.rep (hs.realm.region.child h.region hy))

private theorem looks (hk : (f.kind a).isFunction = true) (hs : Serving f V s) (hlooks : Looks s u)
    (h : Instanced f V a b slots s) : Instanced f V a b slots u := by
  obtain ⟨hu, hserves⟩ := hs.looks hlooks
  have hk' := Kind.isFunction_of_shape hk h.shape
  have hclass := h.isClass.of_steady (hlooks.steady hs.sound)
  have hsame := hlooks.upkeeps.same hs.sound.forest.rooted (Forest.calm_of_not_nilable h.isClass.root
    (Kind.isNilable_of_isSimple (Kind.isSimple_of_isFunction hk')))
  rcases h.turns hk hu.sound (hserves 0) fun slot x y => h.done_serves hs (hserves 0) with herror | h'
  · rw [hclass.rep_eq, hsame.isError, Kind.isError_of_isSimple (Kind.isSimple_of_isFunction hk')] at herror
    cases herror
  · rwa [hclass.rep_eq] at h'

end Instanced

/-- A slot of the use gets an instance of the child that the scheme has there. -/
theorem instantiateSlot_provides {inst : TermId → TermId → UnifyM Bool} (hinst : Fitting f d V inst)
    (hf : f.Instantiable d pinned V) (ha : f.Reaches d a) (hk : (f.kind a).isFunction = true)
    {rest : List Slot} (hs : Serving f V s) (hb : Instanced f V a b (slot :: rest) s)
    (hx : (f.kind a).child? slot = some x) (hclear : Clear f s (f.rep x))
    (hsettled : Settled f V s (f.Below a)) {s₁ s₂ : Unifier} {lhs? rhs? : Option TermId}
    (hchild : child a slot s = some (lhs?, s₁)) (hchild' : child b slot s₁ = some (rhs?, s₂)) :
    ∃ y, rhs? = some y ∧ ∀ changed b' t u, inst (f.rep x) y s₂ = some (changed, t) →
      find b t = some (b', u) → b' = u.forest.rep b ∧ Serving f V u ∧ Serves f V s.forest.size s u ∧
        Settled f V u (f.Below a) ∧ (∀ w, ¬f.Reaches (f.rep x) w → u.image.lookup w = s.image.lookup w) ∧
        ((u.forest.kind b').isError = true ∨ Instanced f V a b' rest u) := by
  have hreach : f.Reaches d (f.rep x) := ha.tail ⟨slot, x, hx, rfl⟩
  have hlooks₁ := (child_looks hs.sound hchild).1
  obtain ⟨hs₁, hserves₁⟩ := hs.looks hlooks₁
  have hb₁ := hb.looks hk hs hlooks₁
  have hrhs := child_eq hs₁.sound hchild'
  have hlooks₂ := (child_looks hs₁.sound hchild').1
  obtain ⟨hs₂, hserves₂⟩ := hs₁.looks hlooks₂
  obtain ⟨y, hy⟩ : ∃ y, (s₁.forest.kind b).child? slot = some y := by
    refine Option.isSome_iff_exists.1 ?_
    rw [Kind.isSome_child?_of_shape (Kind.isRecord_of_isFunction hk) hb₁.shape, hx]
    rfl
  rw [hy, Option.map_some] at hrhs
  refine ⟨s₁.forest.rep y, hrhs, fun changed b' t u hrun hfind => ?_⟩
  have hroot := (hf.isClass hs₂.changes hreach).rep_eq
  have hVy := hs₁.realm.region.rep (hs₁.realm.region.child hb₁.region hy)
  have hlt := Forest.rep_lt_size hs₁.sound.forest.rooted (hs₁.sound.forest.child_lt hy)
  have himage₂ := hlooks₂.image.trans hlooks₁.image
  have hsettled₂ : Settled f V s₂ (f.Below a) := (hsettled.looks hs hlooks₁).looks hs₁ hlooks₂
  have hp := hinst s₂ (f.rep x) (s₁.forest.rep y) changed t hs₂ (by rwa [hroot])
    (Nat.lt_of_lt_of_le hlt (hserves₂ 0).changes.size) (hs₂.realm.region.rep hVy)
    (by rw [hroot]; exact hclear.of_image himage₂)
    (by rw [hroot]; exact hsettled₂.mono fun w => (hf.scheme.reaches ha).below_child hx) hrun
  rw [hroot] at hp
  have ht := hp.serving
  obtain ⟨rfl, hlooks⟩ := find_looks ht.sound hfind
  obtain ⟨hu, hserves⟩ := ht.looks hlooks
  have hsize := (hserves₁ 0).changes.size.trans (hserves₂ 0).changes.size
  have hserves₁u := (hserves₂ s.forest.size).trans hs₂.sound
    ((hp.serves.mono hsize).trans ht.sound (hserves _))
  rw [← (hlooks.steady ht.sound).rep b]
  refine ⟨rfl, hu, (hserves₁ _).trans hs₁.sound hserves₁u, (hp.keeps hs₂ hsettled₂).looks ht hlooks, fun w hw => ?_,
    hb₁.turns hk hu.sound hserves₁u fun slot' x' y' hslot' hx' hy' => ?_⟩
  · rw [hlooks.image, hp.spares w hw, himage₂]
  · by_cases e : slot' = slot
    · rw [e] at hx' hy'
      cases hx.symm.trans hx'
      cases hy.symm.trans hy'
      exact (hp.fits.serves ht.realm.region (hserves 0) (ht.realm.region.rep hVy)).of_rep
        (hserves₁u.changes.rep_rep hs₁.sound.forest.rooted y)
    · exact hb₁.done_serves hs₁ hserves₁u (by simp [e, hslot']) hx' hy'

/-- Functions get instances of their children in turn. -/
theorem instantiateSlots_provides {inst : TermId → TermId → UnifyM Bool} (hinst : Fitting f d V inst)
    (hf : f.Instantiable d pinned V) (ha : f.Reaches d a) (hk : (f.kind a).isFunction = true)
    {slots : List Slot} (hnodup : slots.Nodup) (hslots : slots ⊆ (f.kind a).slots) (hs : Serving f V s)
    (hb : Instanced f V a b slots s)
    (hclear : ∀ slot ∈ slots, ∀ x, (f.kind a).child? slot = some x → Clear f s (f.rep x))
    (hsettled : Settled f V s (f.Below a)) {progress : Bool} {r : SlotOutcome}
    (h : instantiateSlots inst pinned a slots b progress false s = some (r, u)) :
    Serving f V u ∧ Serves f V s.forest.size s u ∧ Settled f V u (f.Below a) ∧
      (∀ x, ¬f.Below a x → u.image.lookup x = s.image.lookup x) ∧
      (r = .finished ∧ (u.forest.kind (u.forest.rep b)).isError = true ∨ ∃ progress',
        r = .ongoing (u.forest.rep b) progress' false ∧ Instanced f V a (u.forest.rep b) [] u) := by
  induction slots generalizing b s progress with
  | nil =>
    obtain ⟨rfl, rfl⟩ := pure_eq_some.1 h
    rw [hb.isClass.rep_eq]
    exact ⟨hs, .refl hs.sound, hsettled, fun _ _ => rfl, Or.inr ⟨progress, rfl, hb⟩⟩
  | cons slot rest ih =>
    obtain ⟨hslot, hnodup⟩ := List.nodup_cons.1 hnodup
    obtain ⟨x, hx⟩ := Option.isSome_iff_exists.1 (Kind.mem_slots.1 (hslots List.mem_cons_self))
    have hapart : ∀ w, ¬f.Below a w → ¬f.Reaches (f.rep x) w := fun w hw hreach =>
      hw ((hf.scheme.reaches ha).below_child hx hreach)
    obtain ⟨lhs?, s₁, hchild, h⟩ := bind_eq_some.1 h
    obtain rfl := hs.child_eq hf ha hx hchild
    obtain ⟨rhs?, s₂, hchild', h⟩ := bind_eq_some.1 h
    obtain ⟨y, rfl, hprovides⟩ :=
      instantiateSlot_provides hinst hf ha hk hs hb hx (hclear slot List.mem_cons_self x hx) hsettled hchild
        hchild'
    obtain ⟨changed, s₃, hrun, h⟩ := bind_eq_some.1 h
    obtain ⟨changed?, s₄, hpure, h⟩ := bind_eq_some.1 h
    obtain ⟨rfl, rfl⟩ := pure_eq_some.1 hpure
    obtain ⟨b', s₄, hfind, h⟩ := bind_eq_some.1 h
    obtain ⟨rfl, hs₄, hserves₄, hsettled₄, himage₄, hturns⟩ := hprovides _ _ _ _ hrun hfind
    replace h := of_bind_view h
    rcases ite_eq_some.1 h with ⟨herror, h⟩ | ⟨herror, h⟩
    · obtain ⟨rfl, rfl⟩ := pure_eq_some.1 h
      exact ⟨hs₄, hserves₄, hsettled₄, fun w hw => himage₄ w (hapart w hw), Or.inl ⟨rfl, herror⟩⟩
    have hb₄ := hturns.resolve_left herror
    obtain ⟨probing, s₅, hprobe, h⟩ := bind_eq_some.1 h
    obtain ⟨rfl, rfl⟩ := isProbe_eq_some.1 hprobe
    rw [hs₄.commits, Bool.and_false, if_neg Bool.false_ne_true] at h
    obtain ⟨hu, hserves, hsettled', hspares, hr⟩ := ih hnodup (fun _ h => hslots (List.mem_cons_of_mem _ h))
      hs₄ hb₄ (fun slot' hslot' x' hx' => (hclear slot' (List.mem_cons_of_mem _ hslot') x' hx').of_sibling
        (hf.scheme.reaches ha) (fun e => hslot (by rwa [e])) hx hx' himage₄) hsettled₄ h
    rw [hserves.changes.rep_rep hs₄.sound.forest.rooted b] at hr
    exact ⟨hu, hserves₄.trans hs₄.sound (hserves.mono hserves₄.changes.size), hsettled', fun w hw =>
      (hspares w hw).trans (himage₄ w (hapart w hw)), hr⟩

private theorem refinedKind?_eq_none {args args' : List TermId} {ret ret' : TermId} {fids fids' : IdSet}
    {nil nil' : Bool} : refinedKind? (.function args ret fids nil) (.function args' ret' fids' nil') = none ↔
      fids.union fids' = fids' ∧ (nil || nil') = nil' := by
  simp [refinedKind?]

/-- A function of which as much is known has nothing to take over. -/
theorem refinedKind?_of_accrues {k k' : Kind} (h : k.Accrues k') (hk : k.isFunction = true)
    (hk' : k'.isFunction = true) : refinedKind? k k' = none := by
  cases h with
  | function _ hfids hnil =>
    refine refinedKind?_eq_none.2 ⟨IdSet.union_eq_right.2 hfids, ?_⟩
    rw [Bool.or_eq_right_iff_imp]
    exact hnil
  | error => cases hk'
  | _ => cases hk

/-- A function of the use takes over all that the scheme says of its function. -/
theorem accrues_refinedKind? {k k' : Kind} (hk : k.isFunction = true) (hshape : k'.shape = k.shape) :
    k.Accrues ((refinedKind? k k').getD k') := by
  cases k with
  | function args ret fids nil =>
    cases k' with
    | function args' ret' fids' nil' =>
      have hlength : args'.length = args.length := by simpa [Kind.shape] using hshape
      cases hrefined : refinedKind? (.function args ret fids nil) (.function args' ret' fids' nil') with
      | none =>
        obtain ⟨hfids, hnil⟩ := refinedKind?_eq_none.1 hrefined
        refine .function hlength (fun x hx => ?_) fun h => ?_
        · rw [← hfids]
          exact IdSet.mem_union.2 (Or.inl hx)
        · rw [← hnil, h, Bool.true_or]
      | some k =>
        simp only [refinedKind?, Option.ite_none_right_eq_some, Option.some.injEq] at hrefined
        rw [← hrefined.2]
        exact .function hlength (fun x hx => IdSet.mem_union.2 (Or.inl hx)) (by simp +contextual)
    | _ => cases hshape
  | _ => cases hk

/-- A function stays one of the same children. -/
theorem refinedKind?_function (k : Kind) (args : List TermId) (ret : TermId) (fids : IdSet) (nil : Bool) :
    ∃ fids' nil', (refinedKind? k (.function args ret fids nil)).getD (.function args ret fids nil) =
      .function args ret fids' nil' := by
  cases k with
  | function args' ret' fids' nil' =>
    unfold refinedKind?
    dsimp only
    split
    · exact ⟨_, _, rfl⟩
    · exact ⟨_, _, rfl⟩
  | _ => exact ⟨_, _, rfl⟩

/-- A function with instances of all children is an instance when it has taken over the rest. -/
theorem refine_provides (hf : f.Instantiable d pinned V) (ha : f.Reaches d a)
    (hk : (f.kind a).isFunction = true) (hs : Serving f V s) (hb : Instanced f V a b [] s)
    (himage : f.Generic a → ∃ c, s.image.lookup a = some c ∧ s.forest.rep c = s.forest.rep b)
    (h : refine a b s = some (r, u)) :
    Serving f V u ∧ (∀ n, Serves f V n s u) ∧ u.image = s.image ∧ Fits f u a b := by
  have hsame := hf.same hs.changes ha
  have hka := hsame.isFunction.trans hk
  have hkb := Kind.isFunction_of_shape hk hb.shape
  have haccrues := (hsame.accrues (hf.scheme.reaches ha).isLink).trans
    (accrues_refinedKind? hka (hb.shape.trans hsame.shape.symm))
  -- Only function ids and the mark for nil are taken over.
  obtain ⟨args, ret, fids, nil, hkind⟩ :
      ∃ args ret fids nil, s.forest.kind b = .function args ret fids nil := by
    cases hkind : s.forest.kind b <;> rw [hkind] at hkb <;> cases hkb
    exact ⟨_, _, _, _, rfl⟩
  obtain ⟨fids', nil', hrefined⟩ := refinedKind?_function (s.forest.kind a) args ret fids nil
  rw [hkind, hrefined] at haccrues
  have hfits : ∀ {t : Unifier}, Serves f V 0 s t → t.forest.IsClass b →
      t.forest.kind b = .function args ret fids' nil' →
      (∀ slot x y, (f.kind a).child? slot = some x → (s.forest.kind b).child? slot = some y →
        Fits f t (f.rep x) y) → Fits f t a b := by
    intro t hserves hclass hkind' hchildren
    refine .intro (hserves.keeps_image himage) ?_ (fun p q hp => ?_)
      fun _ slot x y hx hy => hchildren slot x y hx ?_
    · rwa [hclass.rep_eq, hkind']
    · rw [hp] at hk
      cases hk
    · rw [hclass.rep_eq, hkind'] at hy
      rw [hkind]
      cases slot <;> exact hy
  replace h := of_bind_view h
  replace h := of_bind_view h
  have hdone := fun slot x y => hb.done slot x y List.not_mem_nil
  rw [← hkind] at hrefined
  cases hrefined' : refinedKind? (s.forest.kind a) (s.forest.kind b) with
  | none =>
    rw [hrefined', Option.getD_none] at hrefined
    simp only [hrefined'] at h
    obtain ⟨-, rfl⟩ := pure_eq_some.1 h
    exact ⟨hs, fun _ => .refl hs.sound, rfl, hfits (.refl hs.sound) hb.isClass hrefined hdone⟩
  | some k =>
    rw [hrefined', Option.getD_some] at hrefined
    subst hrefined
    simp only [hrefined'] at h
    replace h := of_commits hs.commits h
    obtain ⟨v, s₁, hset, h⟩ := bind_eq_some.1 h
    obtain ⟨v', s₂, hwake, h⟩ := bind_eq_some.1 h
    obtain ⟨-, rfl⟩ := pure_eq_some.1 h
    obtain rfl := change_eq_some.1 hset
    obtain rfl := wake_eq_some.1 hwake
    have hrefines := (refinedKind?_refines hrefined').1
    obtain ⟨hu, hserves⟩ := hs.takeOver hf hb.isClass hb.region hrefines (by
      refine ⟨hrefines.accrues, fun p q hp => ?_, fun _ slot x y hx hy => ?_⟩
      · rw [hkind] at hp
        cases hp
      · rw [hkind] at hx
        cases slot <;> cases hx.symm.trans hy <;> rfl) rfl (by rw [hkind]; rfl)
      (s.work.map ((s.forest.setKind b (.function args ret fids' nil')).wake b)) (by simp)
    obtain ⟨hb', hkind'⟩ := isClass_setKind hb.isClass (k := .function args ret fids' nil') rfl
    refine ⟨hu, hserves, rfl, hfits (hserves 0) hb' hkind' fun slot x y hx hy => ?_⟩
    exact hb.done_serves hs (hserves 0) List.not_mem_nil hx hy

/-- A function of the use gets instances of the children, and takes over the rest. -/
theorem instantiateChildren_provides {inst : TermId → TermId → UnifyM Bool} (hinst : Fitting f d V inst)
    (hf : f.Instantiable d pinned V) (hs : Serving f V s) (ha : f.Reaches d a) (hb : s.forest.IsClass b)
    (hV : V b) (hk : (f.kind a).isFunction = true) (hshape : (s.forest.kind b).shape = (f.kind a).shape)
    (hnew : s.image.lookup a = none) (hclear : Clear f s a) (hsettled : Settled f V s (f.Reaches a))
    (h : instantiateChildren inst pinned a b s = some (r, u)) : Provides f V s a b u := by
  have hscheme := hf.scheme.reaches ha
  replace h := of_bind_view h
  replace h := of_bind_view h
  rw [(hf.same hs.changes ha).slots, Kind.slots_of_shape hk hshape] at h
  rcases ite_eq_some.1 h with ⟨hempty, h⟩ | ⟨-, h⟩
  · cases hkind : f.kind a <;> rw [hkind] at hk hempty <;> cases hk
    simp [Kind.slots] at hempty
  obtain ⟨v, s₁, hset, h⟩ := bind_eq_some.1 h
  obtain rfl := modify_eq_some.1 hset
  rw [decide_eq_false (not_not.2 rfl)] at h
  obtain ⟨outcome, s₂, hrun, h⟩ := bind_eq_some.1 h
  obtain ⟨hs₁, hserves₁⟩ := hs.setImage (a := a) hb.lt fun _ c hc => by
    rw [hnew] at hc
    cases hc
  have hsettled₁ := hsettled.below.serves hs.realm.region (hserves₁ 0)
    fun x hx => lookup_cons_of_ne hx.2
  obtain ⟨hs₂, hserves₂, hsettled₂, hspares, hr⟩ := instantiateSlots_provides hinst hf ha hk
    (Kind.nodup_slots _) (fun _ h => h) hs₁ ⟨hb, hV, hshape, fun slot x y hslot hx =>
      absurd (Kind.mem_slots.2 (Option.isSome_of_eq_some hx)) hslot⟩
    (fun slot _ x hx => hclear.of_function hscheme rfl hx) hsettled₁ hrun
  have hserves₂ := (hserves₁ _).trans hs₁.sound hserves₂
  have himage : s₂.image.lookup a = some b :=
    (hspares a fun h => h.2 rfl).trans (lookup_cons_eq_some.2 (Or.inl ⟨rfl, rfl⟩))
  have hspares : ∀ x, ¬f.Reaches a x → s₂.image.lookup x = s.image.lookup x := fun x hx =>
    (hspares x fun h => hx h.1).trans (lookup_cons_of_ne fun e => hx (by rw [e]; exact .refl))
  rcases hr with ⟨rfl, herror⟩ | ⟨progress, rfl, hb₂⟩
  · obtain ⟨-, rfl⟩ := pure_eq_some.1 h
    have hfits : Fits f s₂ a b := .of_matures (fun _ => ⟨b, himage, rfl⟩) (.of_isError hscheme.isLink herror)
    exact ⟨hs₂, hserves₂, hfits, hsettled₂.of_fits hf hs₂ hV hfits, hspares⟩
  · replace h := of_bind_view h
    replace h := of_bind_view h
    rw [Bool.false_and, Bool.false_and, if_neg Bool.false_ne_true] at h
    obtain ⟨progress?, s₃, hpure, h⟩ := bind_eq_some.1 h
    obtain ⟨rfl, rfl⟩ := pure_eq_some.1 hpure
    obtain ⟨refined, s₄, hrefine, h⟩ := bind_eq_some.1 h
    obtain ⟨-, rfl⟩ := pure_eq_some.1 h
    obtain ⟨hu, hserves₄, himage₄, hfits⟩ := refine_provides hf ha hk hs₂ hb₂
      (fun _ => ⟨b, himage, (Forest.rep_rep hs₂.sound.forest.rooted b).symm⟩) hrefine
    have hrep : s₄.forest.rep (s₂.forest.rep b) = s₄.forest.rep b :=
      (hserves₄ 0).changes.rep_rep hs₂.sound.forest.rooted b
    have himages : ∀ x, s₄.image.lookup x = s₂.image.lookup x := fun x => by rw [himage₄]
    have hsettled₄ := hsettled₂.serves hs₂.realm.region (hserves₄ 0) fun x _ => himages x
    exact ⟨hu, hserves₂.trans hs₂.sound (hserves₄ _), hfits.of_rep hrep,
      hsettled₄.of_fits hf hu hV (hfits.of_rep hrep), fun x hx => (himages x).trans (hspares x hx)⟩

/-! ## Any use -/

/-- Types of the scheme and of the region come to an end. -/
theorem Serving.endsIn (hf : f.Instantiable d pinned V) (hs : Serving f V s) :
    s.forest.EndsIn fun t => V t ∨ f.Reaches d (s.forest.rep t) where
  region := by
    rintro t (hV | hreach) x hx
    · exact Or.inl (hs.realm.region t hV x hx)
    refine Or.inr ?_
    cases hk : (s.forest.kind t).isLink with
    | true =>
      obtain ⟨w, hw⟩ := Kind.isLink_eq_true.1 hk
      rw [hw] at hx
      rwa [List.mem_singleton.1 hx, ← Forest.rep_link hs.sound.forest.rooted hw]
    | false =>
      rw [Forest.rep_of_not_link hk] at hreach
      obtain ⟨slot, hslot⟩ := (Kind.mem_children hk).1 hx
      obtain ⟨y, hy, hxy⟩ := hf.child_of hs.changes hreach hslot
      rw [hxy]
      exact hreach.tail ⟨slot, y, hy, rfl⟩
  ends t ht := by
    refine .intro fun inner hinner => ?_
    have hnilable : (s.forest.kind (s.forest.rep t)).isNilable = false := by
      rcases ht with hV | hreach
      · exact hs.plain t (hs.realm.region.rep hV)
      · rw [(hf.same hs.changes hreach).isNilable]
        exact Kind.isNilable_of_isSimple (hf.scheme.reaches hreach).isSimple
    rw [hinner] at hnilable
    cases hnilable

/-- A use that is known is met by its shape, if it is not a base type for one of the scheme. -/
theorem instantiateKnown_provides {inst : TermId → TermId → UnifyM Bool} (hinst : Fitting f d V inst)
    (hf : f.Instantiable d pinned V) (hs : Serving f V s) (ha : f.Reaches d a) (hb : s.forest.IsClass b)
    (hV : V b) (hnew : s.image.lookup a = none) (hclear : Clear f s a)
    (hsettled : Settled f V s (f.Reaches a)) (hknown : f.kind a ≠ .var)
    (hbase : (s.forest.kind a).baseFlow? = none ∨ (s.forest.kind b).baseFlow? = none) (h : (do
      if (s.forest.kind a).isNilable && !(s.forest.kind b).isNilable then instantiateNilable b
      else if (s.forest.kind b).isNilable && !(s.forest.kind a).isNilable then instantiateInner inst a b
      else if (s.forest.kind a).shape ≠ (s.forest.kind b).shape then reject (unifyWithin depth) a b
      else instantiateChildren inst pinned a b : UnifyM Bool) s = some (r, u)) : Provides f V s a b u := by
  have hscheme := hf.scheme.reaches ha
  have hsame := hf.same hs.changes ha
  have hplain := hs.plain b (by rwa [hb.rep_eq])
  rw [hb.rep_eq] at hplain
  rw [hsame.isNilable, Kind.isNilable_of_isSimple hscheme.isSimple, hplain, Bool.false_and,
    if_neg Bool.false_ne_true, if_neg Bool.false_ne_true] at h
  rcases ite_eq_some.1 h with ⟨-, h⟩ | ⟨hshape, h⟩
  · exact reject_provides hf hs ha hb hV hnew hsettled h
  have hshape := (not_not.1 hshape).symm.trans hsame.shape
  refine instantiateChildren_provides hinst hf hs ha hb hV ?_ hshape hnew hclear hsettled h
  cases hscheme with
  | var hvar => exact absurd hvar hknown
  | function h => exact h
  | base hflow =>
    rw [hsame.baseFlow?, hflow] at hbase
    rw [hflow] at hshape
    cases hkind : s.forest.kind b <;> rw [hkind] at hshape hbase <;> cases hshape
    simp [Kind.baseFlow?] at hbase

/-- Pinned types that have been looked up come to an end still. -/
theorem Serves.opens (hs : s.Sound) (hu : Serving f V u) (h : Serves f V s.forest.size s u)
    (hopens : s.forest.Opens pinned) : u.forest.Opens pinned := by
  refine ⟨fun t ht => Nat.lt_of_lt_of_le (hopens.1 t ht) h.changes.size, fun c hc => ?_⟩
  by_cases hV : V c
  · refine .intro fun inner hinner => ?_
    have hplain := hu.plain c (hu.realm.region.rep hV)
    rw [hinner] at hplain
    cases hplain
  · obtain ⟨t, ht, hreach⟩ := hc
    have hVt : ¬V (s.forest.rep t) := fun hVt =>
      hV (hu.realm.region.reaches (h.changes.stays t hVt) hreach)
    rw [h.changes.rep t hVt] at hreach
    have hlt := Forest.rep_lt_size hs.forest.rooted (hopens.1 t ht)
    exact h.changes.ends c (hopens.2 c ⟨t, ht, h.changes.ways _ c hlt hreach hV⟩)

/-- What is an instance is so under any name. -/
theorem Provides.of_rep (h : Provides f V s a b u) (hrep : u.forest.rep b = u.forest.rep c) :
    Provides f V s a c u :=
  ⟨h.serving, h.serves, h.fits.of_rep hrep, h.settled, h.spares⟩

section Step

variable (hf : f.Instantiable d pinned V) (hs : Serving f V s) (ha : f.Reaches d a)
  (hb : s.forest.IsClass b) (hV : V b)

include hf hs ha hb hV

omit ha in
/-- What was instantiated for a generic class before is unified with the use. -/
theorem unifyPrior_provides {prior : TermId} (hprior : s.image.lookup a = some prior)
    (hgeneric : f.Generic a) (hsettled : Settled f V s (f.Reaches a)) (h : (do
      let prior ← find prior
      unifyWithin depth prior b) s = some (r, u)) : Provides f V s a b u := by
  obtain ⟨prior', s₁, hfind, h⟩ := bind_eq_some.1 h
  obtain ⟨rfl, hlooks⟩ := find_looks hs.sound hfind
  obtain ⟨hs₁, hserves₁⟩ := hs.looks hlooks
  have hb₁ := hb.of_steady (hlooks.steady hs.sound)
  have hlt := Forest.rep_lt_size hs.sound.forest.rooted (hs.sound.image_lt hprior)
  obtain ⟨hVprior, hfits⟩ := hsettled a prior .refl hgeneric hprior
  have hVprior := hs.realm.region.rep hVprior
  obtain ⟨hu, hserves₂, hrep, himage⟩ := hs₁.unify hf (Nat.lt_of_lt_of_le hlt (hserves₁ 0).changes.size)
    hb₁.lt (hs₁.realm.region.rep hVprior) (by rwa [hb₁.rep_eq]) h
  have hserves := (hserves₁ s.forest.size).trans hs₁.sound (hserves₂ _)
  have himage := himage.trans hlooks.image
  refine ⟨hu, hserves, (hfits.serves hs.realm.region hserves hVprior).of_rep ?_,
    hsettled.serves hs.realm.region hserves fun _ _ => by rw [himage], fun x _ => by rw [himage]⟩
  rw [← hrep]
  exact (hserves.changes.rep_rep hs.sound.forest.rooted prior).symm

/-- A use whose type is alike is an instance. -/
theorem alike_provides (halike : onForest (Forest.alike a b) s = some (true, t)) :
    ¬f.Generic a ∧ Serving f V t ∧ Serves f V s.forest.size s t ∧ Fits f t a b ∧ t.image = s.image := by
  have hlooks := looks_onForest (Forest.keepsUp_alike _ _) hs.sound halike
  obtain ⟨g, hrun, rfl⟩ := onForest_eq_some.1 halike
  obtain ⟨ht, hserves⟩ := hs.looks hlooks
  have hroot := (hf.isClass hs.changes ha).rep_eq
  obtain ⟨R, hR, hlikeness⟩ := Forest.isLikeness_of_alike hs.sound.forest.rooted (hs.endsIn hf)
    (Or.inr (by rwa [hroot])) (Or.inl hV) hrun
  rw [hroot, hb.rep_eq] at hR
  obtain ⟨hclosed, hfits⟩ := ht.fits_of_likeness hf hlikeness ha hV hR
  exact ⟨hclosed, ht, hserves _, hfits, rfl⟩

omit hb hV in
/-- A class of the scheme is neither an error nor pinned. -/
theorem shared_eq_false {shared : Bool} (h : (kindOf a >>= fun k =>
    if k.isError then pure true else occursInAny a pinned) s = some (shared, t)) :
    shared = false ∧ t.forest.Opens pinned := by
  have hscheme := hf.scheme.reaches ha
  have hfalse : shared = false := by
    replace h := of_bind_view h
    rw [(hf.same hs.changes ha).isError, Kind.isError_of_isSimple hscheme.isSimple,
      if_neg Bool.false_ne_true] at h
    obtain ⟨g, hrun, rfl⟩ := onForest_eq_some.1 h
    refine Bool.eq_false_iff.2 fun htrue => ?_
    subst htrue
    have hpinned := Forest.occursInAny_finds hs.sound.forest.rooted hrun
    rw [(hf.isClass hs.changes ha).rep_eq] at hpinned
    exact hf.unreached_of hs.changes ha hs.realm.region hpinned
  subst hfalse
  have hlooks := shared_looks hs.sound h
  refine ⟨rfl, fun t ht => ?_, fun c hc => ?_⟩
  · rw [hlooks.upkeeps.size]
    exact Nat.lt_of_lt_of_le (hf.inRange t ht) hs.changes.size
  · have hcalm := calm_of_shared hs.sound h c hc
    rw [← Forest.rep_of_not_link hcalm.root] at hcalm
    exact hcalm.ends

/-- A class that is neither alike to a use nor pinned gets an instance by what is known of the two. -/
theorem instantiateKinds_provides {inst : TermId → TermId → UnifyM Bool} (hinst : Fitting f d V inst)
    (hclear : Clear f s a) (hnew : s.image.lookup a = none) (hsettled : Settled f V s (f.Reaches a)) (h : (do
      let kthis ← kindOf a
      let kthat ← kindOf b
      if kthis.isVar then
        setImage a b
        return false
      if kthat.isVar then
        if ← isProbe then return true
        let c ← freshCopy pinned a
        let progress ← merge b c
        setImage a b
        return progress
      match kthis.baseFlow?, kthat.baseFlow? with
      | some p, some q => instantiateBase (unifyWithin depth) a b p q
      | _, _ =>
        if kthis.isNilable && !kthat.isNilable then instantiateNilable b
        else if kthat.isNilable && !kthis.isNilable then instantiateInner inst a b
        else if kthis.shape ≠ kthat.shape then reject (unifyWithin depth) a b
        else instantiateChildren inst pinned a b : UnifyM Bool) s = some (r, u)) : Provides f V s a b u := by
  have hsame := hf.same hs.changes ha
  replace h := of_bind_view h
  replace h := of_bind_view h
  rcases ite_eq_some.1 h with ⟨hvar, h⟩ | ⟨hknown, h⟩
  · obtain ⟨v, s₁, hset, h⟩ := bind_eq_some.1 h
    obtain ⟨-, rfl⟩ := pure_eq_some.1 h
    obtain rfl := modify_eq_some.1 hset
    rw [hsame.isVar, Kind.isVar_iff] at hvar
    exact provides_setImage hf hs hb hV hnew hsettled (.of_var hvar)
  rw [hsame.isVar, Kind.isVar_iff] at hknown
  rcases ite_eq_some.1 h with ⟨hvar, h⟩ | ⟨-, h⟩
  · exact instantiateVar_provides hf hs ha hb hV hnew hsettled hclear (Kind.isVar_iff.1 hvar)
      (of_commits hs.commits h)
  cases hp : (s.forest.kind a).baseFlow? with
  | none =>
    simp only [hp] at h
    exact instantiateKnown_provides hinst hf hs ha hb hV hnew hclear hsettled hknown (Or.inl hp) h
  | some p =>
    cases hq : (s.forest.kind b).baseFlow? with
    | none =>
      simp only [hp, hq] at h
      exact instantiateKnown_provides hinst hf hs ha hb hV hnew hclear hsettled hknown (Or.inr hq) h
    | some q =>
      simp only [hp, hq] at h
      rw [hsame.baseFlow?] at hp
      exact instantiateBase_provides hf hs ha hb hV hnew hsettled (Kind.baseFlow?_eq_some.1 hp)
        (Kind.baseFlow?_eq_some.1 hq) h

end Step

/-- One layer of instantiation makes the use an instance if the next one does.  If the class had no image and
a change is reported, then pinned types have been looked up. -/
theorem instantiateStep_provides {inst : TermId → TermId → UnifyM Bool} (hinst : Fitting f d V inst)
    (hf : f.Instantiable d pinned V) (hs : Serving f V s) (ha : f.Reaches d (s.forest.rep x))
    (hy : y < s.forest.size) (hV : V (s.forest.rep y)) (hclear : Clear f s (s.forest.rep x))
    (hsettled : Settled f V s (f.Reaches (s.forest.rep x)))
    (h : instantiateStep inst (unifyWithin depth) pinned x y s = some (r, u)) :
    Provides f V s (s.forest.rep x) y u ∧
      (s.image.lookup (s.forest.rep x) = none → r = true → u.forest.Opens pinned) := by
  have hx : x < s.forest.size := by
    by_contra hx
    have hlt := Nat.lt_of_lt_of_le (hf.lt_of_reaches ha) hs.changes.size
    rw [Forest.rep_of_size_le (Nat.le_of_not_lt hx)] at hlt
    exact hx hlt
  obtain ⟨a, s₁, hfind, h⟩ := bind_eq_some.1 h
  obtain ⟨b, s₂, hfind', h⟩ := bind_eq_some.1 h
  obtain ⟨hlooks, -, ⟨rfl, rfl⟩, -, hb⟩ := find_both hs.sound hx hy hfind hfind'
  generalize s.forest.rep x = a at ha hclear hsettled h ⊢
  obtain ⟨hs₂, hserves₂⟩ := hs.looks hlooks
  have hclear₂ := hclear.of_image hlooks.image
  have hsettled₂ := hsettled.looks hs hlooks
  have hafter : ∀ {u}, Provides f V s₂ a (s.forest.rep y) u → Provides f V s a y u := fun {u} h =>
    (h.after (hserves₂ _) hs₂.sound hlooks.image).of_rep <|
      ((hserves₂ s.forest.size).trans hs₂.sound
        (h.serves.mono (hserves₂ 0).changes.size)).changes.rep_rep hs.sound.forest.rooted y
  obtain ⟨image, s₃, himage, h⟩ := bind_eq_some.1 h
  obtain ⟨rfl, rfl⟩ := imageOf_eq_some.1 himage
  cases hprior : s₂.image.lookup a with
  | some prior =>
    simp only [hprior] at h
    refine ⟨hafter (unifyPrior_provides hf hs₂ hb hV hprior (hclear₂.generic hprior) hsettled₂ h),
      fun hnone => ?_⟩
    rw [← hlooks.image, hprior] at hnone
    cases hnone
  | none =>
    simp only [hprior] at h
    obtain ⟨same, s₃, halike, h⟩ := bind_eq_some.1 h
    cases same with
    | true =>
      obtain ⟨hclosed, hs₃, hserves₃, hfits, himage₃⟩ := alike_provides hf hs₂ ha hb hV halike
      obtain ⟨v, s₄, hset, h⟩ := bind_eq_some.1 h
      obtain ⟨rfl, rfl⟩ := pure_eq_some.1 h
      obtain rfl := modify_eq_some.1 hset
      have hlt := Nat.lt_of_lt_of_le hb.lt hserves₃.changes.size
      exact ⟨hafter (Serving.record hf hs₃ hserves₃ hlt hV hfits.matures (absurd · hclosed)
        (Settled.of_closed hclosed).below fun _ _ => by rw [himage₃]),
        fun _ h => by cases h⟩
    | false =>
      have hlooks₃ := looks_onForest (Forest.keepsUp_alike _ _) hs₂.sound halike
      obtain ⟨hs₃, hserves₃⟩ := hs₂.looks hlooks₃
      have hb₃ := hb.of_steady (hlooks₃.steady hs₂.sound)
      have hnew₃ : s₃.image.lookup a = none := by rw [hlooks₃.image, hprior]
      have hsettled₃ := hsettled₂.looks hs₂ hlooks₃
      rw [if_neg Bool.false_ne_true] at h
      replace h := of_bind_view h
      rcases ite_eq_some.1 h with ⟨herror, h⟩ | ⟨-, h⟩
      · obtain ⟨v, s₄, hset, h⟩ := bind_eq_some.1 h
        obtain ⟨rfl, rfl⟩ := pure_eq_some.1 h
        obtain rfl := modify_eq_some.1 hset
        have hp := provides_setImage hf hs₃ hb₃ hV hnew₃ hsettled₃
          (.of_isError (hf.scheme.reaches ha).isLink herror)
        exact ⟨hafter (hp.after (hserves₃ _) hs₃.sound hlooks₃.image), fun _ h => by cases h⟩
      obtain ⟨shared, s₄, hshared, h⟩ := bind_eq_some.1 h
      have hlooks₄ := shared_looks hs₃.sound hshared
      obtain ⟨rfl, hopens⟩ := shared_eq_false hf hs₃ ha hshared
      obtain ⟨hs₄, hserves₄⟩ := hs₃.looks hlooks₄
      have hclear₄ := (hclear₂.of_image hlooks₃.image).of_image hlooks₄.image
      have hb₄ := hb₃.of_steady (hlooks₄.steady hs₃.sound)
      have hsettled₄ := hsettled₃.looks hs₃ hlooks₄
      have hp := instantiateKinds_provides hf hs₄ ha hb₄ hV hinst hclear₄ (by rw [hlooks₄.image, hnew₃])
        hsettled₄ h
      have hp₃ := hp.after (hserves₄ _) hs₄.sound hlooks₄.image
      exact ⟨hafter (hp₃.after (hserves₃ _) hs₃.sound hlooks₃.image),
        fun _ _ => hp.serves.opens hs₄.sound hp.serving hopens⟩

/-- The instantiation of any class of a scheme makes the use an instance. -/
theorem instantiateWithin_fitting (hf : f.Instantiable d pinned V) (depth : Nat) :
    Fitting f d V (instantiateWithin pinned depth) := by
  induction depth with
  | zero => exact fun s x y r u _ _ _ _ _ _ h => (failure_eq_some.1 h).elim
  | succ depth ih =>
    exact fun s x y r u hs ha hy hV hclear hsettled h =>
      (instantiateStep_provides ih hf hs ha hy hV hclear hsettled h).1

end Unifier

end TypeFlow
