import TypeFlow.Proofs.FencedInstantiations
import TypeFlow.Proofs.WakeUps

/-!
# Definitions are spared

A definition is used many times, each time at another instance of its type.  What an instantiation
does to the use, and to the pinned types that all uses share, must not get into the definition.
Errors do get there, and so do the types of what is shared, and a wrapper takes in what is shared.
All other classes of the definition are what they were.

Main definitions:

- `Forest.ReachedFrom`: one of several terms leads to a class.
- `Forest.Apart`: a class that an instantiation has nothing to do with.

Main results:

- `Forest.definitions_spared`: an instantiation changes no class that is apart from the use and the
  pinned types, and the use does not get at the definition.
-/

namespace TypeFlow

namespace Forest

open Unifier (Call)

variable {f : Forest} {ts : List TermId} {t c : TermId}

/-- One of several terms leads to the class. -/
def ReachedFrom (f : Forest) (ts : List TermId) (c : TermId) : Prop :=
  ∃ t ∈ ts, f.Reaches (f.rep t) c

/-- A class that none of the terms leads to, neither an error nor a wrapper of a class that one of
them leads to. -/
structure Apart (f : Forest) (ts : List TermId) (c : TermId) : Prop where
  isClass : f.IsClass c
  unreached : ¬f.ReachedFrom ts c
  isError : (f.kind c).isError = false
  wraps : ∀ inner, f.kind c = .nilable inner → ¬f.ReachedFrom ts (f.rep inner)

/-- The terms of classes that are apart from others. -/
def ApartTerm (f : Forest) (ts : List TermId) (t : TermId) : Prop :=
  t < f.size ∧ f.Apart ts (f.rep t)

/-- A region leads to its own classes only. -/
theorem Region.reaches {R : TermId → Prop} (h : f.Region R) {a b : TermId} (ha : R a)
    (hab : f.Reaches a b) : R b := by
  induction hab with
  | refl => exact ha
  | tail _ hedge ih =>
    obtain ⟨slot, x, hx, rfl⟩ := hedge
    exact h.rep (h.child ih hx)

/-- What has a child that is apart is apart. -/
theorem Apart.of_child {x : TermId} (hc : f.IsClass c)
    (hx : x ∈ (f.kind c).children) (h : f.Apart ts (f.rep x)) : f.Apart ts c where
  isClass := hc
  unreached := by
    rintro ⟨t, ht, hreach⟩
    exact h.unreached ⟨t, ht, hreach.tail ((edge_iff hc.root).2 ⟨x, hx, rfl⟩)⟩
  isError := by
    cases hk : f.kind c with
    | error cause =>
      rw [hk] at hx
      cases hx
    | _ => rfl
  wraps inner hinner := by
    rw [hinner] at hx
    rw [← List.mem_singleton.1 hx]
    exact h.unreached

/-- There is a fence around all that is apart from the terms, if wrappers wrap variables. -/
theorem fence_apart (hf : f.Sound) (hspare : f.Spare) (ts : List TermId) :
    f.Fence (fun _ => True) (f.ApartTerm ts) where
  region _ _ _ _ := trivial
  outside t ht x hx := by
    refine ⟨trivial, fun hin => ht.2 ?_⟩
    have hlt : t < f.size := by
      refine lt_size_of_kind fun hvar => ?_
      rw [hvar] at hx
      cases hx
    refine ⟨hlt, ?_⟩
    cases hk : (f.kind t).isLink with
    | false =>
      rw [rep_of_not_link hk]
      exact .of_child ⟨hlt, hk⟩ hx hin.2
    | true =>
      obtain ⟨u, hu⟩ := Kind.isLink_eq_true.1 hk
      rw [hu] at hx
      rw [rep_link hf.rooted hu, ← List.mem_singleton.1 hx]
      exact hin.2
  inside _ _ := trivial
  link t u ht hu := by
    refine ⟨hf.inRange t u (by rw [hu]; exact List.mem_singleton_self u), ?_⟩
    rw [← rep_link hf.rooted hu]
    exact ht.2
  wraps t inner ht hinner := by
    have hvar := hspare t inner hinner
    have hlt : inner < f.size := hf.inRange t inner (by rw [hinner]; exact List.mem_singleton_self _)
    have hapart := ht.2
    rw [rep_of_not_link (by rw [hinner]; rfl)] at hapart
    refine ⟨⟨hlt, isClass_rep hf hlt, ?_, by rw [hvar]; rfl, fun x hx => ?_⟩, hvar⟩
    · exact hapart.wraps inner hinner
    · rw [hvar] at hx
      cases hx
  isError t ht := by
    cases hk : f.kind t with
    | error cause =>
      have herror := ht.2.isError
      rw [rep_of_not_link (by rw [hk]; rfl), hk] at herror
      cases herror
    | _ => rfl

private theorem not_apartTerm (ht : t ∈ ts) : ¬f.ApartTerm ts t :=
  fun h => h.2.unreached ⟨t, ht, .refl⟩

private theorem Apart.apartTerm (h : f.Apart ts c) : f.ApartTerm ts c :=
  ⟨h.isClass.lt, h.isClass.rep_eq.symm ▸ h⟩

/-- A class that is spared is a class still. -/
theorem IsClass.of_spared {g : Forest} (h : f.IsClass c) (hsize : f.size ≤ g.size)
    (hs : Spared f g c) : g.IsClass c :=
  ⟨Nat.lt_of_lt_of_le h.lt hsize, by rw [hs.isLink, h.root]⟩

variable {depth : Nat} {definition use : TermId} {pinned : List TermId} {w : Worklist} {r : Bool}
  {u : Unifier}

/-- An instantiation goes round the fence around all that is apart from the use and the pinned
types. -/
theorem instantiate_bypasses (hf : f.Sound) (hspare : f.Spare) (hdefinition : definition < f.size)
    (huse : use < f.size) (hpinned : ∀ p ∈ pinned, p < f.size)
    (h : Unifier.instantiate depth definition use pinned (Call.start f (some w)) = some (r, u)) :
    ∃ H, Unifier.Bypasses pinned (f.ApartTerm (use :: pinned)) (Call.start f (some w)) H u ∧
      ¬H use := by
  have hs : Unifier.Fenced pinned (f.ApartTerm (use :: pinned)) (Call.start f (some w)) :=
    ⟨Call.sound_start hf _, fence_apart hf hspare _, fun _ ht => ht.1,
      fun p hp => absurd hp List.not_mem_nil,
      fun p hp => ⟨hpinned p hp, not_apartTerm (List.mem_cons_of_mem _ hp)⟩⟩
  have hout : Unifier.Outside (f.ApartTerm (use :: pinned)) (Call.start f (some w)) use :=
    ⟨huse, not_apartTerm List.mem_cons_self⟩
  obtain ⟨v, s, hmodify, h⟩ := bind_eq_some.1 h
  obtain rfl := modify_eq_some.1 hmodify
  obtain ⟨H, hbypasses⟩ :=
    Unifier.instantiateWithin_bypassing pinned depth _ _ _ _ _ _ hs hdefinition hout h
  exact ⟨H, hbypasses, (hbypasses.outside hs.sound hout).out⟩

/-- In a forest that is in order, whose wrappers wrap variables, an instantiation leaves every class
a class of its own, with the same marks, nodes and children, that neither the use nor a pinned type
leads to, unless it is an error or a wrapper of a class that one of these leads to.  So if nothing
is pinned, and the definition leads to no error and to no class that the use leads to, then all
classes of the definition are what they were and the use leads to none of them afterwards. -/
theorem definitions_spared (hf : f.Sound) (hspare : f.Spare) (hdefinition : definition < f.size)
    (huse : use < f.size) (hpinned : ∀ p ∈ pinned, p < f.size)
    (h : Unifier.instantiate depth definition use pinned (Call.start f (some w)) = some (r, u)) :
    (∀ c, f.Apart (use :: pinned) c → u.forest.IsClass c ∧ Spared f u.forest c) ∧
      (pinned = [] →
        (∀ c, f.Reaches (f.rep definition) c →
          ¬f.Reaches (f.rep use) c ∧ (f.kind c).isError = false) →
        ∀ c, f.Reaches (f.rep definition) c →
          (u.forest.IsClass c ∧ Spared f u.forest c) ∧
            ¬u.forest.Reaches (u.forest.rep use) c) := by
  obtain ⟨H, hbypasses, huse'⟩ := instantiate_bypasses hf hspare hdefinition huse hpinned h
  have hsize : f.size ≤ u.forest.size :=
    (hbypasses.proceeds.evolves (Call.sound_start hf _)).grows.size
  have hspared : ∀ c, f.Apart (use :: pinned) c → u.forest.IsClass c ∧ Spared f u.forest c := by
    intro c hc
    have hs := hbypasses.spared c hc.apartTerm
    exact ⟨hc.isClass.of_spared hsize hs, hs⟩
  refine ⟨hspared, fun hnone hdisjoint c hc => ?_⟩
  subst hnone
  have hunreached : ∀ x, f.Reaches (f.rep definition) x → ¬f.ReachedFrom [use] x := by
    rintro x hx ⟨t, ht, hreach⟩
    rw [List.mem_singleton.1 ht] at hreach
    exact (hdisjoint x hx).1 hreach
  have hclass : f.IsClass c := by
    have hroot := hc.rep_eq hf.rooted (rep_rep hf.rooted definition)
    refine ⟨hc.lt_size hf (rep_lt_size hf.rooted hdefinition), ?_⟩
    rw [← hroot]
    exact not_isLink_rep hf.rooted c
  have hapart : f.Apart [use] c := by
    refine ⟨hclass, hunreached c hc, (hdisjoint c hc).2, fun inner hinner => ?_⟩
    exact hunreached _ (hc.tail ⟨.inner, inner, by rw [hinner]; rfl, rfl⟩)
  refine ⟨hspared c hapart, fun hreach => ?_⟩
  have hregion := hbypasses.fenced.realm.region
  exact hregion.reaches (hregion.rep huse') hreach (hbypasses.grows c hapart.apartTerm)

/-- A record of a function from a nilable type to what it wraps is used where the field's type is not
known.  That becomes a function too, but one of a variable of its own. -/
theorem definitions_spared_record : ∃ f r u,
    performAll [.var, .nilable 0, .function false (.singleton 1) [1] 0,
      .record (.cons "f" trivial 2 .nil) .empty false, .var,
      .record (.cons "f" trivial 4 .nil) .empty false] empty = some f ∧
      Unifier.instantiate 5 3 5 [] (Call.start f (some .empty)) = some (r, u) ∧
      (u.forest.kind (u.forest.rep 4)).isFunction = true ∧ f.Reaches (f.rep 3) 0 ∧
      (u.forest.IsClass 0 ∧ Spared f u.forest 0) ∧ ¬u.forest.Reaches (u.forest.rep 5) 0 := by
  have hrun : ((performAll [.var, .nilable 0, .function false (.singleton 1) [1] 0,
      .record (.cons "f" trivial 2 .nil) .empty false, .var,
      .record (.cons "f" trivial 4 .nil) .empty false] empty).bind fun f =>
        (Unifier.instantiate 5 3 5 [] (Call.start f (some .empty))).map fun u =>
          (f.size, (List.range f.size).all fun t =>
              (f.kind t).children.all fun x => !(f.kind t).isNilable || (f.kind (f.rep x)).isVar,
            f.reach 3, (f.reach 3).all fun c => !(f.reach 5).contains c && !(f.kind c).isError,
            (u.2.forest.kind (u.2.forest.rep 4)).isFunction)) =
        some (6, true, [3, 2, 1, 0], true, true) := by
    decide +kernel
  obtain ⟨f, hf, hrun⟩ := Option.bind_eq_some_iff.1 hrun
  obtain ⟨⟨r, u⟩, hinstantiate, hfacts⟩ := Option.map_eq_some_iff.1 hrun
  simp only [Prod.mk.injEq, List.all_eq_true, List.mem_range, Bool.or_eq_true, Bool.and_eq_true,
    Bool.not_eq_true'] at hfacts
  obtain ⟨hsize, hwraps, hreach, hdisjoint, hfunction⟩ := hfacts
  have hsound := performAll_sound hf
  have hdefinition : 3 < f.size := by rw [hsize]; decide
  have huse : 5 < f.size := by rw [hsize]; decide
  have hspare : f.Spare := by
    intro t inner hinner
    have ht : t < f.size := lt_size_of_kind (by rw [hinner]; exact Kind.noConfusion)
    rcases hwraps t ht inner (by rw [hinner]; exact List.mem_singleton_self inner) with h | h
    · rw [hinner] at h
      cases h
    · exact Kind.isVar_iff.1 h
  have hzero : f.Reaches (f.rep 3) 0 :=
    (mem_reach hsound hdefinition).1 (by rw [hreach]; decide)
  obtain ⟨-, hspared⟩ := definitions_spared hsound hspare hdefinition huse
    (fun p hp => absurd hp List.not_mem_nil) hinstantiate
  have hapart : ∀ c, f.Reaches (f.rep 3) c → ¬f.Reaches (f.rep 5) c ∧ (f.kind c).isError = false := by
    intro c hc
    obtain ⟨hout, herror⟩ := hdisjoint c ((mem_reach hsound hdefinition).2 hc)
    refine ⟨fun hc' => ?_, herror⟩
    rw [List.contains_iff_mem.2 ((mem_reach hsound huse).2 hc')] at hout
    cases hout
  obtain ⟨hkept, hunreached⟩ := hspared rfl hapart 0 hzero
  exact ⟨f, r, u, hf, hinstantiate, hfunction, hzero, hkept, hunreached⟩

end Forest

end TypeFlow
