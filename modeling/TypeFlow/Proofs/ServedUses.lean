import TypeFlow.Proofs.FaithfulCopies
import TypeFlow.Proofs.RipeningUnifications
import TypeFlow.Proofs.TypeSchemes

/-!
# Uses that are served

While a type scheme is instantiated for a use, changes are made in a region only: that of the use and of
all that is new.  The scheme stays what it is, and ever more is known of the classes of the region.  So
what once fits a part of the scheme fits it for good: what is generic has an image that is the class of the
use, and of anything but a variable as much is known as in the scheme.

Main definitions:

- `Unifier.Serving`: the state while a use gets an instance.
- `Unifier.Serves`: what was done to the region, and that images of what is generic were kept.
- `Unifier.Fits`: a term of the use is an instance of a class of the scheme.

Main results:

- `Unifier.Serving.unify`: unifying terms of the region serves the use.
- `Unifier.Serving.takeOver`: so does letting more be known of a class.
- `Unifier.Fits.serves`: what fits does so for good.
-/

namespace TypeFlow

namespace Kind

variable {R : TermId → TermId → Prop} {k k' : Kind}

private theorem Resembles.ne_var (h : k.Resembles R k') : k ≠ .var := by
  rintro rfl
  cases h

private theorem Resembles.isLink (h : k.Resembles R k') : k'.isLink = false := by
  cases h <;> rfl

private theorem Resembles.shape (h : k.Resembles R k') (hk : k.isRecord = false) : k'.shape = k.shape := by
  cases h with
  | function hargs => simp [Kind.shape, hargs.length_eq]
  | record => cases hk
  | _ => rfl

/-- As much is known of what looks the same, unless it is a record. -/
theorem Matures.of_resembles (h : k.Resembles R k') (hk : k.isRecord = false) : k.Matures R k' := by
  cases h with
  | base =>
    refine ⟨.refl rfl, fun p q hp hq => ?_, fun hk => by cases hk⟩
    cases hp
    cases hq
    exact Flow.sameKind_self _
  | error => exact .of_isError rfl rfl
  | nilable => exact .of_accrues (.nilable rfl) rfl rfl
  | function hargs hret =>
    refine ⟨.function hargs.length_eq.symm (fun _ hx => hx) id, fun _ _ hp => Kind.noConfusion hp,
      fun _ slot x y hx hy => ?_⟩
    cases slot with
    | arg i =>
      obtain ⟨hi, rfl⟩ := List.getElem?_eq_some_iff.1 hx
      obtain ⟨hi', rfl⟩ := List.getElem?_eq_some_iff.1 hy
      exact (List.forall₂_iff_get.1 hargs).2 i hi hi'
    | ret =>
      cases hx
      cases hy
      exact hret
    | _ => cases hx
  | record => cases hk

end Kind

open Forest (IsClass Steady ChangesIn Instantiable)

namespace Unifier

variable {f : Forest} {d : TermId} {pinned : List TermId} {V : TermId → Prop} {n : Nat}
  {s t u : Unifier} {a b c x y : TermId} {r : Bool}

/-! ## The state while a use is served -/

/-- A use gets an instance of a scheme in a region: nothing else was changed, nothing in the region is
wrapped, and all pairs that were met are merged. -/
structure Serving (f : Forest) (V : TermId → Prop) (s : Unifier) : Prop where
  sound : s.Sound
  commits : s.work.isNone = false
  changes : ChangesIn V f.size f s.forest
  realm : s.forest.Realm V
  plain : ∀ t, V (s.forest.rep t) → (s.forest.kind (s.forest.rep t)).isNilable = false
  nodup : s.met.Nodup
  met : ∀ p ∈ s.met, p.1 < s.forest.size ∧ p.2 < s.forest.size
  merged : ∀ p ∈ s.met, s.forest.rep p.1 = s.forest.rep p.2

/-- More is known of the region, which alone was changed, and images of what is generic are of the classes
that they were of. -/
structure Serves (f : Forest) (V : TermId → Prop) (n : Nat) (s u : Unifier) : Prop where
  changes : ChangesIn V n s.forest u.forest
  matures : ∀ x, V (s.forest.rep x) → (s.forest.kind (s.forest.rep x)).Matures
    (fun y z => u.forest.rep y = u.forest.rep z) (u.forest.kind (u.forest.rep x))
  image : ∀ x c, f.Generic x → s.image.lookup x = some c →
    ∃ c', u.image.lookup x = some c' ∧ u.forest.rep c' = u.forest.rep c

/-- Being of one class is an equivalence. -/
theorem rep_equivalence (f : Forest) : Equivalence fun y z => f.rep y = f.rep z :=
  ⟨fun _ => rfl, Eq.symm, Eq.trans⟩

namespace Serves

/-- Doing nothing serves any use. -/
theorem refl (hs : s.Sound) : Serves f V n s s :=
  ⟨.refl _, fun x _ => .refl (rep_equivalence _) (Forest.not_isLink_rep hs.forest.rooted x),
    fun _ c _ h => ⟨c, h, rfl⟩⟩

/-- Computations one after the other serve it. -/
theorem trans (ht : t.Sound) (h : Serves f V n s t) (h' : Serves f V n t u) : Serves f V n s u where
  changes := h.changes.trans ht.forest.rooted h'.changes
  matures x hx := ((h.matures x hx).mono h'.changes.grows).trans (rep_equivalence _)
    (h'.matures x (h.changes.stays x hx))
  image x c hx hc := by
    obtain ⟨c', hc', hrep⟩ := h.image x c hx hc
    obtain ⟨c'', hc'', hrep'⟩ := h'.image x c' hx hc'
    exact ⟨c'', hc'', hrep'.trans (h'.changes.grows _ _ hrep)⟩

/-- What serves it as to some terms serves it as to fewer. -/
theorem mono {m : Nat} (h : Serves f V n s u) (hmn : m ≤ n) : Serves f V m s u :=
  ⟨h.changes.mono hmn, h.matures, h.image⟩

/-- A class stays that of the image. -/
theorem keeps_image (h : Serves f V n s u)
    (himage : f.Generic a → ∃ c, s.image.lookup a = some c ∧ s.forest.rep c = s.forest.rep b)
    (hgeneric : f.Generic a) : ∃ c, u.image.lookup a = some c ∧ u.forest.rep c = u.forest.rep b := by
  obtain ⟨c, hc, hrep⟩ := himage hgeneric
  obtain ⟨c', hc', hrep'⟩ := h.image a c hgeneric hc
  exact ⟨c', hc', hrep'.trans (h.changes.grows _ _ hrep)⟩

end Serves

/-- All that is joined is one class once the pairs met are merged. -/
theorem rep_of_joined (hmerged : ∀ p ∈ s.met, s.forest.rep p.1 = s.forest.rep p.2)
    (h : s.Joined x y) : s.forest.rep x = s.forest.rep y := by
  induction h with
  | rel x y h => exact h.elim id (hmerged (x, y))
  | refl x => rfl
  | symm x y _ ih => exact ih.symm
  | trans x y z _ _ ih ih' => exact ih.trans ih'

namespace Serving

section

variable (hs : Serving f V s)

include hs

/-- The region is tame. -/
theorem tame : Tame V s.forest.size s where
  sound := hs.sound
  commits := hs.commits
  size := le_rfl
  fresh := hs.realm.new
  errors c hc hclass := absurd hclass.lt (Nat.not_lt.2 hc)
  plain c hc hclass := by
    have hplain := hs.plain c
    rw [hclass.rep_eq] at hplain
    exact hplain hc
  closed c slot x hc _ hx := hs.realm.region.rep (hs.realm.region.child hc hx)
  nodup := hs.nodup
  met := hs.met

/-- All terms of a class of the region belong to it. -/
theorem saturated (hf : f.Instantiable d pinned V) (h : V (s.forest.rep x)) : V x := by
  by_contra hx
  have hout : ¬V (f.rep x) := fun h => hx (hf.saturated x h)
  rw [hs.changes.rep x hout] at h
  exact hout h

/-- More is known of the region after a computation that only changed that. -/
theorem of_ripens (hr : Ripens V s.forest.size s u) (hchanges : ∀ n, ChangesIn V n s.forest u.forest)
    (hrealm : u.forest.Realm V) (himage : u.image = s.image) :
    Serving f V u ∧ ∀ n, Serves f V n s u := by
  have hmerged : ∀ p ∈ u.met, u.forest.rep p.1 = u.forest.rep p.2 := fun p hp =>
    (hr.advances.merged p hp).elim (fun hp => hr.advances.rep _ _ (hs.merged p hp)) id
  refine ⟨⟨hr.tame.sound, hr.tame.commits, hs.changes.trans hs.sound.forest.rooted (hchanges _), hrealm,
    fun t ht => ?_, hr.tame.nodup, fun p hp => ?_, hmerged⟩, fun n => ⟨hchanges n, fun x hx =>
    (hr.kinds x hx).mono fun _ _ => rep_of_joined hmerged, fun x c _ hc => ⟨c, himage ▸ hc, rfl⟩⟩⟩
  · by_cases hlt : t < u.forest.size
    · exact hr.tame.plain _ ht (Forest.isClass_rep hr.tame.sound.forest hlt)
    · rw [Forest.rep_of_size_le (Nat.le_of_not_lt hlt), Forest.kind_of_size_le (Nat.le_of_not_lt hlt)]
      rfl
  · obtain ⟨h₁, h₂⟩ := hr.tame.met p hp
    exact ⟨Nat.lt_of_lt_of_le h₁ hr.size, Nat.lt_of_lt_of_le h₂ hr.size⟩

/-- Looking classes up serves the use. -/
theorem looks (hlooks : Looks s u) : Serving f V u ∧ ∀ n, Serves f V n s u := by
  have hrooted := hs.sound.forest.rooted
  refine hs.of_ripens (hs.tame.ripens_looks hlooks) (fun n => .of_upkeeps hrooted hlooks.upkeeps)
    ⟨hlooks.upkeeps.region hrooted hs.realm.region, fun t ht => hs.realm.new t ?_⟩ hlooks.image
  rwa [← hlooks.upkeeps.size]

variable (hf : f.Instantiable d pinned V)

include hf

/-- Changes of terms of the region serve the use if more is known of it. -/
theorem acts (hr : Ripens V s.forest.size s u) (hacts : ActsIn V s u) :
    Serving f V u ∧ ∀ n, Serves f V n s u := by
  have hrooted := hr.tame.sound.forest.rooted
  refine hs.of_ripens hr (fun n => .of_off hs.sound.forest.rooted hs.realm.region
    (fun t => hs.saturated hf) hrooted hacts.realm.region (fun t ht => Forest.kind_congr (hacts.off t ht))
    hr.size hr.advances.rep fun t ht => ?_) hacts.realm hacts.image
  by_cases hlt : t < u.forest.size
  · exact hr.tame.plain _ ht (Forest.isClass_rep hr.tame.sound.forest hlt)
  · rw [Forest.rep_of_size_le (Nat.le_of_not_lt hlt), Forest.kind_of_size_le (Nat.le_of_not_lt hlt)]
    rfl

/-- Unifying terms of the region serves the use. -/
theorem unify {depth : Nat} (hx : x < s.forest.size) (hy : y < s.forest.size)
    (hVx : V (s.forest.rep x)) (hVy : V (s.forest.rep y))
    (h : unifyWithin depth x y s = some (r, u)) :
    Serving f V u ∧ (∀ n, Serves f V n s u) ∧ u.forest.rep x = u.forest.rep y ∧ u.image = s.image := by
  obtain ⟨hr, hjoined⟩ := unifyWithin_ripens depth x y s r u hs.tame hx hy hVx hVy h
  obtain ⟨hacts, -⟩ :=
    acts_unifyWithin depth (hs.saturated hf hVx) (hs.saturated hf hVy) s r u hs.realm h
  obtain ⟨hu, hserves⟩ := hs.acts hf hr hacts
  exact ⟨hu, hserves, rep_of_joined hu.merged hjoined, hacts.image⟩

/-- So does merging a variable into another class of the region. -/
theorem merge {loser winner : TermId} (hl : s.forest.IsClass loser) (hw : s.forest.IsClass winner)
    (hVl : V loser) (hVw : V winner) (hvar : s.forest.kind loser = .var)
    (h : Unifier.merge loser winner s = some (r, u)) :
    Serving f V u ∧ (∀ n, Serves f V n s u) ∧ u.forest.rep loser = u.forest.rep winner ∧
      u.image = s.image := by
  have hr := merge_leaf_ripens hs.tame hl hw hVl hVw (by rw [hvar]; rfl) h
  obtain ⟨hacts, -⟩ := acts_merge hVl hVw s r u hs.realm h
  obtain ⟨hu, hserves⟩ := hs.acts hf hr hacts
  refine ⟨hu, hserves, (merge_proceeds hs.sound hl hw (fun _ => ?_) (fun n m hn => ?_) h).2 hs.commits,
    hacts.image⟩
  · rw [hvar]
    rfl
  · rw [hvar] at hn
    cases hn

/-- So does letting more be known of a class, and announcing it. -/
theorem takeOver {k : Kind} (hb : s.forest.IsClass b) (hVb : V b)
    (hrefines : (s.forest.kind b).Refines k)
    (hmatures : (s.forest.kind b).Matures (fun y z => s.forest.rep y = s.forest.rep z) k)
    (hplain : k.isNilable = false) (hchildren : k.children = (s.forest.kind b).children)
    (work : Option Worklist) (hwork : work.isNone = s.work.isNone) :
    Serving f V ⟨s.forest.setKind b k, work, s.met, s.image⟩ ∧
      ∀ n, Serves f V n s ⟨s.forest.setKind b k, work, s.met, s.image⟩ := by
  have hregion := hs.realm.region
  have hk : ∀ x ∈ k.children, V x := fun x hx => hregion b hVb x (hchildren ▸ hx)
  have hr := hs.tame.ripens_setKind hrefines (hmatures.mono fun _ _ => joined_of_rep) <|
    hs.tame.setKind hb hrefines hb.lt hplain fun slot y hy =>
      hregion.rep (hk y (Kind.mem_children_of_child? hy))
  obtain ⟨hacts, -⟩ := acts_setKind hVb hk s () _ hs.realm (change_eq_some.2 rfl)
  obtain ⟨hu, hserves⟩ := hs.acts hf hr hacts
  exact ⟨⟨⟨hu.sound.forest, hu.sound.image⟩, hwork.trans hs.commits, hu.changes, hu.realm, hu.plain,
    hu.nodup, hu.met, hu.merged⟩, fun n => ⟨(hserves n).changes, (hserves n).matures, (hserves n).image⟩⟩

/-- A new error belongs to the region. -/
theorem alloc {cause : TypeError} (h : Unifier.alloc (.error cause) s = some (c, u)) :
    Serving f V u ∧ (∀ n, Serves f V n s u) ∧ u.forest.IsClass c ∧ V c ∧
      u.forest.kind c = .error cause ∧ u.image = s.image := by
  obtain ⟨hr, hc, hVc, herror⟩ := hs.tame.ripens_alloc h
  obtain ⟨hacts, -⟩ := answers_alloc (fun x hx => absurd hx List.not_mem_nil) s c u hs.realm h
  obtain ⟨hu, hserves⟩ := hs.acts hf hr hacts
  exact ⟨hu, hserves, hc, hVc, herror, hacts.image⟩

end

/-- An image may be recorded, that of what is generic if it is of the class that it had for an image. -/
theorem setImage (hs : Serving f V s) (hc : c < s.forest.size)
    (hold : f.Generic a → ∀ c', s.image.lookup a = some c' → s.forest.rep c' = s.forest.rep c) :
    Serving f V { s with image := (a, c) :: s.image } ∧
      ∀ n, Serves f V n s { s with image := (a, c) :: s.image } := by
  refine ⟨{ hs with sound := ⟨hs.sound.forest, fun p hp => ?_⟩ }, fun n => ⟨.refl _, fun x _ =>
    .refl (rep_equivalence _) (Forest.not_isLink_rep hs.sound.forest.rooted x), fun x c' hx hc' => ?_⟩⟩
  · rcases List.mem_cons.1 hp with rfl | hp
    · exact hc
    · exact hs.sound.image p hp
  · by_cases h : x = a
    · subst h
      exact ⟨c, lookup_cons_eq_some.2 (Or.inl ⟨rfl, rfl⟩), (hold hx c' hc').symm⟩
    · exact ⟨c', lookup_cons_eq_some.2 (Or.inr ⟨h, hc'⟩), rfl⟩

end Serving

/-! ## Instances -/

/-- The class of the term is an instance of a class of the scheme: that of the image of what is generic, and
one of which as much is known, with instances of the children of a function. -/
inductive Fits (f : Forest) (s : Unifier) : TermId → TermId → Prop
  | intro {a b : TermId}
    (himage : f.Generic a → ∃ c, s.image.lookup a = some c ∧ s.forest.rep c = s.forest.rep b)
    (haccrues : (f.kind a).Accrues (s.forest.kind (s.forest.rep b)))
    (hbase : ∀ p q, f.kind a = .base p → s.forest.kind (s.forest.rep b) = .base q → p.sameKind q = true)
    (hchildren : (f.kind a).isFunction = true → ∀ slot x y, (f.kind a).child? slot = some x →
      (s.forest.kind (s.forest.rep b)).child? slot = some y → Fits f s (f.rep x) y) : Fits f s a b

namespace Fits

/-- What is known of an instance, with instances of its children, makes it one. -/
theorem of_matures (himage : f.Generic a → ∃ c, s.image.lookup a = some c ∧ s.forest.rep c = s.forest.rep b)
    (h : (f.kind a).Matures (fun x y => Fits f s (f.rep x) y) (s.forest.kind (s.forest.rep b))) :
    Fits f s a b :=
  .intro himage h.accrues h.base h.children

/-- As much is known of an instance as of the class, with instances of its children. -/
theorem matures (h : Fits f s a b) :
    (f.kind a).Matures (fun x y => Fits f s (f.rep x) y) (s.forest.kind (s.forest.rep b)) := by
  obtain ⟨-, haccrues, hbase, hchildren⟩ := h
  exact ⟨haccrues, hbase, hchildren⟩

/-- An instance of what is generic is the class of its image. -/
theorem image (h : Fits f s a b) (hgeneric : f.Generic a) :
    ∃ c, s.image.lookup a = some c ∧ s.forest.rep c = s.forest.rep b := by
  obtain ⟨himage, -⟩ := h
  exact himage hgeneric

/-- All terms of a class are instances, or none. -/
theorem of_rep (h : Fits f s a b) (hrep : s.forest.rep b = s.forest.rep c) : Fits f s a c := by
  obtain ⟨himage, haccrues, hbase, hchildren⟩ := h
  rw [hrep] at himage haccrues hbase hchildren
  exact ⟨himage, haccrues, hbase, hchildren⟩

/-- What fits does so for good. -/
theorem serves (hregion : s.forest.Region V) (hserves : Serves f V n s u) (h : Fits f s a b)
    (hV : V (s.forest.rep b)) : Fits f u a b := by
  induction h with
  | @intro a b himage haccrues hbase _ ih =>
    have hmatures : (f.kind a).Matures (fun x y => Fits f u (f.rep x) y)
        (s.forest.kind (s.forest.rep b)) := by
      refine ⟨haccrues, hbase, fun hk slot x y hx hy => ih hk slot x y hx hy ?_⟩
      exact hregion.rep (hregion.child hV hy)
    exact .of_matures (hserves.keeps_image himage)
      (hmatures.comp (fun x y z hxy => hxy.of_rep) (hserves.matures b hV))

/-- So does what fits anywhere, if only images are recorded. -/
theorem of_image {image : List (TermId × TermId)} (hserves : Serves f V n s { s with image := image })
    (h : Fits f s a b) : Fits f { s with image := image } a b := by
  induction h with
  | intro himage haccrues hbase _ ih => exact .intro (hserves.keeps_image himage) haccrues hbase ih

end Fits

/-- A class of the scheme is not alike to one of the region unless as much is known of that. -/
theorem Serving.matures_of_likeness (hf : f.Instantiable d pinned V) (hs : Serving f V s)
    {R : TermId → TermId → Prop} (hR : s.forest.IsLikeness R) (ha : f.Reaches d a) (hV : V b)
    (h : R a b) : f.kind a ≠ .var ∧ s.forest.rep b = b ∧
      (s.forest.kind b).shape = (f.kind a).shape ∧
      (f.kind a).Matures (fun x y => R (s.forest.rep x) (s.forest.rep y)) (s.forest.kind b) := by
  have hscheme := hf.scheme.reaches ha
  have hsame := hf.same hs.changes ha
  have hrecord := hsame.isRecord.trans (Kind.isRecord_of_isSimple hscheme.isSimple)
  have hresembles := (hR a b h).resolve_left fun e => hf.apart a ha (e ▸ hV)
  refine ⟨fun hvar => hresembles.ne_var (hf.eq_var_of hs.changes ha hvar),
    Forest.rep_of_not_link hresembles.isLink, (hresembles.shape hrecord).trans hsame.shape, ?_⟩
  refine (Kind.Matures.of_same hscheme.isLink (fun x y => id) hsame).comp (fun x y z hxy hyz => ?_)
    (.of_resembles hresembles hrecord)
  rwa [hxy]

/-- Types that are alike are instances, and there are no variables in them. -/
theorem Serving.fits_of_likeness (hf : f.Instantiable d pinned V) (hs : Serving f V s)
    {R : TermId → TermId → Prop} (hR : s.forest.IsLikeness R) (ha : f.Reaches d a) (hV : V b)
    (h : R a b) : ¬f.Generic a ∧ Fits f s a b := by
  have hscheme := hf.scheme.reaches ha
  induction hscheme generalizing b with
  | var hvar => exact absurd hvar (hs.matures_of_likeness hf hR ha hV h).1
  | base hflow =>
    obtain ⟨hknown, hroot, -, hmatures⟩ := hs.matures_of_likeness hf hR ha hV h
    rw [← hroot] at hmatures
    have hclosed := Forest.not_generic_of_base hflow
    refine ⟨hclosed, .intro (absurd · hclosed) hmatures.accrues hmatures.base fun hk => ?_⟩
    rw [hflow] at hk
    cases hk
  | @function a hk _ _ ih =>
    obtain ⟨hknown, hroot, hshape, hmatures⟩ := hs.matures_of_likeness hf hR ha hV h
    have hchild : ∀ slot x y, (f.kind a).child? slot = some x → (s.forest.kind b).child? slot = some y →
        ¬f.Generic (f.rep x) ∧ Fits f s (f.rep x) y := by
      intro slot x y hx hy
      have hxy := hmatures.children hk slot x y hx hy
      rw [hf.rep_child hs.changes ha hx] at hxy
      have hVy := hs.realm.region.rep (hs.realm.region.child hV hy)
      obtain ⟨hclosed, hfits⟩ := ih slot x hx (ha.tail ⟨slot, x, hx, rfl⟩) hVy hxy
      exact ⟨hclosed, hfits.of_rep (Forest.rep_rep hs.sound.forest.rooted y)⟩
    have hclosed : ¬f.Generic a := by
      rintro ⟨v, hreach, hvar⟩
      rcases Relation.ReflTransGen.cases_head hreach with rfl | ⟨_, ⟨slot, x, hx, rfl⟩, hreach⟩
      · exact hknown hvar
      obtain ⟨y, hy⟩ : ∃ y, (s.forest.kind b).child? slot = some y := by
        refine Option.isSome_iff_exists.1 ?_
        rw [Kind.isSome_child?_of_shape (Kind.isRecord_of_isFunction hk) hshape, hx]
        rfl
      exact (hchild slot x y hx hy).1 ⟨v, hreach, hvar⟩
    rw [← hroot] at hmatures hchild
    exact ⟨hclosed, .intro (absurd · hclosed) hmatures.accrues hmatures.base
      fun _ slot x y hx hy => (hchild slot x y hx hy).2⟩

end Unifier

end TypeFlow
