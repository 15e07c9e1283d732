import TypeFlow.Proofs.ServedUses

/-!
# Copies that serve a use

The part of a type scheme that a use has no type for yet is copied.  The copy is new, so it belongs to the
region of the use, but a function that is being copied has children of the scheme still.  It is left out of
the region until each of its slots has the copy of the child.

Main definitions:

- `Unifier.Clear`: nothing of a class of the scheme has an image unless it is generic.
- `Unifier.Settled`: images of what is generic are instances of it.
- `Unifier.Provides`: a class of the scheme got an instance.
- `Unifier.Filled`: a function is copied up to some of its slots.

Main results:

- `Unifier.freshCopy_supplies`: the copy of a class of a scheme is an instance of it.
-/

namespace TypeFlow

/-- What has no slots has no children. -/
theorem Kind.child?_of_slots_eq_nil {k : Kind} (h : k.slots = []) (slot : Slot) : k.child? slot = none := by
  refine Option.not_isSome_iff_eq_none.1 fun hslot => ?_
  have hmem := Kind.mem_slots.2 hslot
  rw [h] at hmem
  exact List.not_mem_nil hmem

namespace Forest

variable {f g : Forest} {V W : TermId → Prop} {n : Nat} {c : TermId}

/-! ## New terms in a region -/

/-- Where one class was changed and is no wrapper, wrappers come to an end still. -/
theorem Ends.of_ne (hrep : ∀ t, g.rep t = f.rep t) (hkind : ∀ t, t ≠ c → g.kind t = f.kind t)
    (hc : (g.kind c).isNilable = false) {t : TermId} (ht : f.Ends t) : g.Ends t := by
  induction ht with
  | @intro t _ ih =>
    refine .intro fun inner hinner => ih inner ?_
    have hne : g.rep t ≠ c := fun e => by
      rw [e] at hinner
      rw [hinner] at hc
      cases hc
    rwa [hkind _ hne, hrep] at hinner

/-- Where one class was changed, what does not lead to it leads to nothing else. -/
theorem reaches_of_ne (hrep : ∀ t, g.rep t = f.rep t) (hkind : ∀ t, t ≠ c → g.kind t = f.kind t)
    {a b : TermId} (ha : ¬f.Reaches a c) (h : g.Reaches a b) : f.Reaches a b := by
  induction h with
  | refl => exact .refl
  | @tail x b _ hedge ih =>
    obtain ⟨slot, y, hy, rfl⟩ := hedge
    have hne : x ≠ c := fun e => ha (e ▸ ih)
    rw [hkind x hne] at hy
    exact ih.tail ⟨slot, y, hy, (hrep y).symm⟩

/-- No term leads to one that is still to come. -/
theorem not_reaches_new (hf : f.Sound) (hc : f.size ≤ c) (a : TermId) (ha : a < f.size) : ¬f.Reaches a c :=
  fun h => absurd (h.lt_size hf ha) (Nat.not_lt.2 hc)

/-- What is no term yet represents itself only. -/
theorem eq_of_rep_eq (hf : f.Rooted) (hc : f.size ≤ c) {t : TermId} (h : f.rep t = c) : t = c := by
  by_cases ht : t < f.size
  · exact absurd (rep_lt_size hf ht) (Nat.not_lt.2 (h ▸ hc))
  · rwa [rep_of_size_le (Nat.le_of_not_lt ht)] at h

/-- What is no function has no slots in a scheme. -/
theorem Scheme.slots_eq_nil {a : TermId} (h : f.Scheme a) (hk : (f.kind a).isFunction = false) :
    (f.kind a).slots = [] := by
  cases h with
  | var h | base h => rw [h]; rfl
  | function h => rw [hk] at h; cases h

/-- A class leads to another one. -/
def Below (f : Forest) (a b : TermId) : Prop := f.Reaches a b ∧ b ≠ a

/-- A scheme leads to all that a child leads to, but the child does not lead back. -/
theorem Scheme.below_child {a b x : TermId} {slot : Slot} (h : f.Scheme a)
    (hx : (f.kind a).child? slot = some x) (hb : f.Reaches (f.rep x) b) : f.Below a b :=
  ⟨.head ⟨slot, x, hx, rfl⟩ hb, fun e => h.acyclic hx (e ▸ hb)⟩

/-- What is no function leads to nothing else in a scheme. -/
theorem Scheme.not_below {a b : TermId} (h : f.Scheme a) (hk : (f.kind a).isFunction = false) :
    ¬f.Below a b := by
  rintro ⟨hreach, hne⟩
  rcases Relation.ReflTransGen.cases_head hreach with rfl | ⟨_, ⟨slot, x, hx, -⟩, -⟩
  · exact hne rfl
  · rw [Kind.child?_of_slots_eq_nil (h.slots_eq_nil hk)] at hx
    cases hx

namespace ChangesIn

/-- What was changed in a region was changed in a greater one. -/
theorem widen (hVW : ∀ t, V t → W t) (h : ChangesIn V n f g) : ChangesIn W n f g where
  size := h.size
  grows := h.grows
  rep t ht := h.rep t (mt (hVW _) ht)
  stays t ht := by
    by_cases hV : V (f.rep t)
    · exact hVW _ (h.stays t hV)
    · rwa [h.rep t hV]
  ways a b ha hab hb := h.ways a b ha hab (mt (hVW b) hb)
  ends := h.ends
  same a ha hW := h.same a ha (mt (hVW a) hW)

/-- A term that is still to come may be left out of the region. -/
theorem without (hf : f.Sound) (hg : g.Sound) (hn : n ≤ f.size) (h : ChangesIn V n f g)
    (hc : g.size ≤ c) : ChangesIn (fun t => V t ∧ t ≠ c) n f g where
  size := h.size
  grows := h.grows
  rep t ht := by
    by_cases hV : V (f.rep t)
    · obtain rfl := eq_of_rep_eq hf.rooted (h.size.trans hc) (not_not.1 fun hne => ht ⟨hV, hne⟩)
      rw [rep_of_size_le hc, rep_of_size_le (h.size.trans hc)]
    · exact h.rep t hV
  stays t ht := by
    refine ⟨h.stays t ht.1, fun e => ht.2 ?_⟩
    obtain rfl := eq_of_rep_eq hg.rooted hc e
    exact rep_of_size_le (h.size.trans hc)
  ways a b ha hab hb := by
    refine h.ways a b ha hab fun hV => hb ⟨hV, ?_⟩
    have hlt := hab.lt_size hg (Nat.lt_of_lt_of_le ha (hn.trans h.size))
    exact Nat.ne_of_lt (Nat.lt_of_lt_of_le hlt hc)
  ends := h.ends
  same a ha hV := by
    refine h.same a ha fun hVa => hV ⟨hVa, ?_⟩
    exact Nat.ne_of_lt (Nat.lt_of_lt_of_le ha ((hn.trans h.size).trans hc))

/-- A term that is left out of the region and that nothing led to may be changed, but not into a
wrapper. -/
theorem of_ne {g' : Forest} (h : ChangesIn V n f g) (hsteady : Steady g g')
    (hkind : ∀ t, t ≠ c → g'.kind t = g.kind t) (hnilable : (g'.kind c).isNilable = false)
    (hc : ∀ a, a < n → ¬f.Reaches a c) (hV : ¬V c) : ChangesIn V n f g' where
  size := h.size.trans hsteady.size
  grows x y hxy := by rw [hsteady.rep, hsteady.rep, h.grows x y hxy]
  rep t ht := by rw [hsteady.rep, h.rep t ht]
  stays t ht := by rw [hsteady.rep]; exact h.stays t ht
  ways a b ha hab hb :=
    h.ways a b ha (reaches_of_ne hsteady.rep hkind (fun hac => hc a ha (h.ways a c ha hac hV)) hab) hb
  ends t ht := (h.ends t ht).of_ne hsteady.rep hkind hnilable
  same a ha hVa hlink hwrap := by
    rw [funext hsteady.rep, hkind a fun e => hc a ha (e ▸ .refl)]
    exact h.same a ha hVa hlink hwrap

end ChangesIn

end Forest

open Forest (ChangesIn Instantiable IsClass Steady)

namespace Unifier

variable {f g : Forest} {d : TermId} {pinned : List TermId} {V : TermId → Prop} {n : Nat}
  {s t u : Unifier} {a b c x y : TermId} {slot : Slot}

/-! ## Terms under construction -/

/-- A new term is left out of the region at first. -/
theorem Serving.add (hs : Serving f V s) (hf : f.Instantiable d pinned V) {term : Term}
    (hlink : term.kind.isLink = false) (hnilable : term.kind.isNilable = false)
    (hrange : ∀ x ∈ term.kind.children, x < s.forest.size) :
    Serving f (fun t => V t ∧ t ≠ s.forest.size) { s with forest := (s.forest.add term).2 } ∧
      Serves f (fun t => V t ∧ t ≠ s.forest.size) s.forest.size s
        { s with forest := (s.forest.add term).2 } := by
  have hsteady := Forest.steady_add hs.sound.forest.rooted hlink
  have hsound := hs.sound.forest.add hlink hrange
  have hkind : ∀ t, t ≠ s.forest.size → (s.forest.add term).2.kind t = s.forest.kind t := fun t ht =>
    (Forest.kind_add _ _ _).trans (if_neg ht)
  have hnew : (s.forest.add term).2.kind s.forest.size = term.kind :=
    (Forest.kind_add _ _ _).trans (if_pos rfl)
  have hsize := hs.changes.size
  have hV : ¬(V s.forest.size ∧ s.forest.size ≠ s.forest.size) := fun h => h.2 rfl
  rw [← hnew] at hnilable
  refine ⟨⟨⟨hsound, fun p hp => ?_⟩, hs.commits, ?_, ⟨fun t ht x hx => ?_, fun t ht => ?_⟩, fun t ht => ?_,
    hs.nodup, fun p hp => ?_, fun p hp => ?_⟩, ?_, fun x hx => ?_, fun x c _ hc => ⟨c, hc, rfl⟩⟩
  · exact Nat.lt_of_lt_of_le (hs.sound.image p hp) hsteady.size
  · exact (hs.changes.without hf.sound hs.sound.forest le_rfl le_rfl).of_ne hsteady hkind hnilable
      (Forest.not_reaches_new hf.sound hsize) hV
  · rw [hkind t ht.2] at hx
    exact ⟨hs.realm.region t ht.1 x hx, Nat.ne_of_lt (hs.sound.forest.inRange t x hx)⟩
  · rw [Forest.size_add] at ht
    exact ⟨hs.realm.new t (Nat.le_of_succ_le ht), Nat.ne_of_gt ht⟩
  · dsimp only at ht ⊢
    rw [hsteady.rep] at ht ⊢
    rw [hkind _ ht.2]
    exact hs.plain t ht.1
  · obtain ⟨h₁, h₂⟩ := hs.met p hp
    exact ⟨Nat.lt_of_lt_of_le h₁ hsteady.size, Nat.lt_of_lt_of_le h₂ hsteady.size⟩
  · dsimp only
    rw [hsteady.rep, hsteady.rep, hs.merged p hp]
  · exact (ChangesIn.refl s.forest).of_ne hsteady hkind hnilable
      (Forest.not_reaches_new hs.sound.forest le_rfl) hV
  · dsimp only
    rw [hsteady.rep, hkind _ hx.2]
    exact .refl (rep_equivalence _) (Forest.not_isLink_rep hs.sound.forest.rooted x)

/-- A term that is still to come may be left out of the region. -/
theorem Serving.region_without (hs : Serving f V s) (hc : s.forest.size ≤ c) :
    s.forest.Region fun t => V t ∧ t ≠ c := fun t ht x hx =>
  ⟨hs.realm.region t ht.1 x hx, Nat.ne_of_lt (Nat.lt_of_lt_of_le (hs.sound.forest.inRange t x hx) hc)⟩

section Graft

variable (hsteady : Steady u.forest g) (hkind : ∀ t, t ≠ c → g.kind t = u.forest.kind t)
  (hnilable : (g.kind c).isNilable = false) (hV : ¬V c)

include hsteady hkind hnilable hV

/-- A term that is left out of the region may be changed. -/
theorem Serving.of_ne (hu : Serving f V u) (hf : f.Sound) (hsound : g.Sound) (hsize : g.size = u.forest.size)
    (hc : f.size ≤ c) : Serving f V { u with forest := g } where
  sound := ⟨hsound, fun p hp => hsize ▸ hu.sound.image p hp⟩
  commits := hu.commits
  changes := hu.changes.of_ne hsteady hkind hnilable (Forest.not_reaches_new hf hc) hV
  realm := hu.realm.of_kind (fun t ht => hkind t fun e => hV (e ▸ ht)) hsize
  plain t ht := by
    dsimp only at ht ⊢
    rw [hsteady.rep] at ht ⊢
    rw [hkind _ fun e => hV (e ▸ ht)]
    exact hu.plain t ht
  nodup := hu.nodup
  met p hp := hsize ▸ hu.met p hp
  merged p hp := by
    dsimp only
    rw [hsteady.rep, hsteady.rep, hu.merged p hp]

private theorem Serves.of_ne (h : Serves f V n s u) (hc : ∀ a, a < n → ¬s.forest.Reaches a c) :
    Serves f V n s { u with forest := g } where
  changes := h.changes.of_ne hsteady hkind hnilable hc hV
  matures x hx := by
    have hne : u.forest.rep x ≠ c := fun e => hV (e ▸ h.changes.stays x hx)
    dsimp only
    rw [hsteady.rep, hkind _ hne]
    refine (h.matures x hx).mono fun y z hyz => ?_
    rw [hsteady.rep, hsteady.rep, hyz]
  image x c' hx hc' := by
    obtain ⟨c'', hc'', hrep⟩ := h.image x c' hx hc'
    refine ⟨c'', hc'', ?_⟩
    dsimp only
    rw [hsteady.rep, hsteady.rep, hrep]

end Graft

/-- A term that is complete belongs to the region. -/
theorem Serving.complete (hu : Serving f (fun t => V t ∧ t ≠ c) u)
    (hnilable : (u.forest.kind c).isNilable = false)
    (hchildren : ∀ x ∈ (u.forest.kind c).children, V x) : Serving f V u where
  sound := hu.sound
  commits := hu.commits
  changes := hu.changes.widen fun t ht => ht.1
  realm :=
    { region := fun t ht x hx => by
        by_cases e : t = c
        · exact hchildren x (e ▸ hx)
        · exact (hu.realm.region t ⟨ht, e⟩ x hx).1
      new := fun t ht => (hu.realm.new t ht).1 }
  plain t ht := by
    by_cases e : u.forest.rep t = c
    · rwa [e]
    · exact hu.plain t ⟨ht, e⟩
  nodup := hu.nodup
  met := hu.met
  merged := hu.merged

/-- Nothing was known of it. -/
theorem Serves.complete (h : Serves f (fun t => V t ∧ t ≠ c) n s u) (hc : s.forest.size ≤ c) :
    Serves f V n s u where
  changes := h.changes.widen fun t ht => ht.1
  matures x hx := by
    by_cases e : s.forest.rep x = c
    · exact .of_var (Forest.kind_of_size_le (e ▸ hc))
    · exact h.matures x ⟨hx, e⟩
  image := h.image

/-! ## Instances of classes -/

/-- No class of the scheme has an image yet unless it is generic. -/
def Clear (f : Forest) (s : Unifier) (a : TermId) : Prop :=
  ∀ x, f.Reaches a x → ¬f.Generic x → s.image.lookup x = none

/-- The images that some classes of the scheme have, if they are generic, are instances in the region. -/
def Settled (f : Forest) (V : TermId → Prop) (s : Unifier) (part : TermId → Prop) : Prop :=
  ∀ x c, part x → f.Generic x → s.image.lookup x = some c → V c ∧ Fits f s x c

/-- The term is an instance of the class of the scheme now, images of what that leads to are instances, and
other classes have the images that they had. -/
structure Provides (f : Forest) (V : TermId → Prop) (s : Unifier) (a b : TermId) (u : Unifier) : Prop where
  serving : Serving f V u
  serves : Serves f V s.forest.size s u
  fits : Fits f u a b
  settled : Settled f V u (f.Reaches a)
  spares : ∀ x, ¬f.Reaches a x → u.image.lookup x = s.image.lookup x

private theorem Clear.child (h : Clear f s a) (hx : (f.kind a).child? slot = some x) : Clear f s (f.rep x) :=
  fun y hy => h y (.head ⟨slot, x, hx, rfl⟩ hy)

/-- Whether a class is clear depends on images only. -/
theorem Clear.of_image (h : Clear f s a) (himage : t.image = s.image) : Clear f t a :=
  fun x hx hclosed => himage ▸ h x hx hclosed

/-- What has an image is generic. -/
theorem Clear.generic (h : Clear f s a) (hc : s.image.lookup a = some c) : f.Generic a := by
  by_contra hclosed
  rw [h a .refl hclosed] at hc
  cases hc

/-- A function does not occur in itself, so its image is not one of what its children lead to. -/
theorem Clear.of_function (hscheme : f.Scheme a) (h : Clear f s a) (himage : t.image = (a, c) :: s.image)
    (hx : (f.kind a).child? slot = some x) : Clear f t (f.rep x) := by
  intro y hy hclosed
  rw [himage, lookup_cons_of_ne (hscheme.below_child hx hy).2]
  exact h.child hx y hy hclosed

/-- What children share is generic, so nothing else of one has an image when another one has. -/
theorem Clear.of_sibling {slot' : Slot} (hscheme : f.Scheme a) (hne : slot ≠ slot')
    (hx : (f.kind a).child? slot = some x) (hy : (f.kind a).child? slot' = some y) (h : Clear f s (f.rep y))
    (himage : ∀ w, ¬f.Reaches (f.rep x) w → t.image.lookup w = s.image.lookup w) : Clear f t (f.rep y) :=
  fun w hw hclosed =>
    (himage w fun hreach => hclosed (hscheme.apart hne hx hy hreach hw)).trans (h w hw hclosed)

namespace Settled

variable {part part' : TermId → Prop}

/-- What is settled is so in part. -/
theorem mono (hpart : ∀ x, part' x → part x) (h : Settled f V s part) : Settled f V s part' :=
  fun x c hx => h x c (hpart x hx)

/-- So is what lies below it. -/
theorem below (h : Settled f V s (f.Reaches a)) : Settled f V s (f.Below a) := h.mono fun _ hx => hx.1

/-- Images that were kept are still instances. -/
theorem serves (hregion : s.forest.Region V) (hserves : Serves f V n s u)
    (himage : ∀ x, part x → u.image.lookup x = s.image.lookup x) (h : Settled f V s part) :
    Settled f V u part := by
  intro x c hx hgeneric hc
  obtain ⟨hV, hfits⟩ := h x c hx hgeneric (by rwa [← himage x hx])
  exact ⟨hV, hfits.serves hregion hserves (hregion.rep hV)⟩

/-- Looking classes up leaves images settled. -/
theorem looks (hs : Serving f V s) (hlooks : Looks s u) (h : Settled f V s part) : Settled f V u part :=
  h.serves hs.realm.region ((hs.looks hlooks).2 0) fun _ _ => by rw [hlooks.image]

/-- A term that is still to come is no image. -/
theorem without (hs : s.Sound) (hc : s.forest.size ≤ c) (h : Settled f V s part) :
    Settled f (fun t => V t ∧ t ≠ c) s part := by
  intro x c' hx hgeneric hc'
  obtain ⟨hV, hfits⟩ := h x c' hx hgeneric hc'
  exact ⟨⟨hV, Nat.ne_of_lt (Nat.lt_of_lt_of_le (hs.image_lt hc') hc)⟩, hfits⟩

/-- What a class leads to is settled when it has an instance itself and all else is settled. -/
theorem of_fits (hf : f.Instantiable d pinned V) (hu : Serving f V u) (hV : V b) (hfits : Fits f u a b)
    (h : Settled f V u (f.Below a)) : Settled f V u (f.Reaches a) := by
  intro x c hx hgeneric hc
  by_cases e : x = a
  · subst e
    obtain ⟨c', hc', hrep⟩ := hfits.image hgeneric
    cases hc.symm.trans hc'
    refine ⟨hu.saturated hf ?_, hfits.of_rep hrep.symm⟩
    rw [hrep]
    exact hu.realm.region.rep hV
  · exact h x c ⟨hx, e⟩ hgeneric hc

/-- Nothing is asked of what is not generic. -/
theorem of_closed (hclosed : ¬f.Generic a) : Settled f V s (f.Reaches a) :=
  fun _ _ hx hgeneric => absurd (hgeneric.of_reaches hx) hclosed

end Settled

/-- What was settled stays so when another class gets an instance. -/
theorem Provides.keeps {part : TermId → Prop} (hs : Serving f V s) (h : Provides f V s a b u)
    (hsettled : Settled f V s part) : Settled f V u part := by
  intro x c hx hgeneric hc
  by_cases hreach : f.Reaches a x
  · exact h.settled x c hreach hgeneric hc
  · obtain ⟨hV, hfits⟩ := hsettled x c hx hgeneric (by rwa [← h.spares x hreach])
    exact ⟨hV, hfits.serves hs.realm.region h.serves (hs.realm.region.rep hV)⟩

/-- A child of a class of the scheme is looked up. -/
theorem Serving.child_eq (hs : Serving f V s) (hf : f.Instantiable d pinned V) (ha : f.Reaches d a)
    (hx : (f.kind a).child? slot = some x) {child? : Option TermId}
    (h : child a slot s = some (child?, u)) : child? = some (f.rep x) := by
  obtain ⟨y, hy, hyx⟩ := hf.child_to hs.changes ha hx
  rw [Unifier.child_eq hs.sound h, hy, Option.map_some, hyx]

/-- The region may be changed before. -/
theorem Provides.after (hserves : Serves f V s.forest.size s t) (ht : t.Sound) (himage : t.image = s.image)
    (h : Provides f V t a b u) : Provides f V s a b u where
  serving := h.serving
  serves := hserves.trans ht (h.serves.mono hserves.changes.size)
  fits := h.fits
  settled := h.settled
  spares x hx := (h.spares x hx).trans (by rw [himage])

/-- A class is an instance of a class of the scheme that it was made from. -/
theorem fits_of_same {r : TermId → TermId} (hlink : (f.kind a).isLink = false)
    (himage : u.image.lookup a = some c) (hclass : u.forest.IsClass c)
    (hsame : (f.kind a).Same r (u.forest.kind c))
    (hchildren : (f.kind a).isFunction = true → ∀ slot x y, (f.kind a).child? slot = some x →
      (u.forest.kind c).child? slot = some y → Fits f u (f.rep x) y) : Fits f u a c := by
  have hmatures := Kind.Matures.of_same hlink (fun x y (h : r x = r y) => h) hsame
  rw [← hclass.rep_eq] at hmatures hchildren
  exact .intro (fun _ => ⟨c, himage, rfl⟩) hmatures.accrues hmatures.base hchildren

/-- A function of the scheme is copied up to the slots. -/
structure Filled (f : Forest) (V : TermId → Prop) (a c : TermId) (slots : List Slot) (s : Unifier) :
    Prop where
  isClass : s.forest.IsClass c
  same : (f.kind a).Same (fun _ => 0) (s.forest.kind c)
  done : ∀ slot x y, slot ∉ slots → (f.kind a).child? slot = some x →
    (s.forest.kind c).child? slot = some y → V y ∧ Fits f s (f.rep x) y

/-- What is done stays so while the region is changed. -/
theorem Filled.serves {slots : List Slot} (hf : f.Instantiable d pinned V) (ha : f.Reaches d a)
    (hs : Serving f V s) (hu : Serving f V u) (hserves : Serves f V s.forest.size s u) (hV : ¬V c)
    (h : Filled f V a c slots s) : Filled f V a c slots u := by
  have hsame := hserves.changes.same c h.isClass.lt hV h.isClass.root (by
    rw [h.same.isNilable]
    exact Kind.isNilable_of_isSimple (hf.scheme.reaches ha).isSimple)
  refine ⟨⟨Nat.lt_of_lt_of_le h.isClass.lt hserves.changes.size, hsame.isLink.trans h.isClass.root⟩,
    h.same.trans hsame.forget, fun slot x z hslot hx hz => ?_⟩
  have hchild := hsame.child? slot
  rw [hz, Option.map_some, eq_comm, Option.map_eq_some_iff] at hchild
  obtain ⟨y, hy, hyz⟩ := hchild
  obtain ⟨hVy, hfits⟩ := h.done slot x y hslot hx hy
  have hVrep := hs.realm.region.rep hVy
  refine ⟨hu.saturated hf ?_, (hfits.serves hs.realm.region hserves hVrep).of_rep hyz⟩
  rw [← hyz]
  exact hserves.changes.stays y hVrep

/-- The copy of a child is put into its slot. -/
theorem Filled.graft {rest : List Slot} (hf : f.Instantiable d pinned V) (ha : f.Reaches d a)
    (hu : Serving f V u) (hV : ¬V c) (hc : f.size ≤ c)
    (h : Filled f V a c (slot :: rest) u) (hx : (f.kind a).child? slot = some x)
    (hlt : y < u.forest.size) (hVy : V y) (hy : Fits f u (f.rep x) y) :
    Serving f V { u with forest := u.forest.setChild c slot y } ∧
      (∀ n s, (∀ a, a < n → ¬s.forest.Reaches a c) → Serves f V n s u →
        Serves f V n s { u with forest := u.forest.setChild c slot y }) ∧
      Filled f V a c rest { u with forest := u.forest.setChild c slot y } := by
  have hsteady := Forest.setChild_steady hu.sound.forest.rooted c slot y
  have hkind : ∀ t, t ≠ c → (u.forest.setChild c slot y).kind t = u.forest.kind t := fun t ht => by
    rw [Forest.kind_setChild, if_neg (Ne.symm ht)]
  have hnew : (u.forest.setChild c slot y).kind c = (u.forest.kind c).setChild slot y := by
    rw [Forest.kind_setChild, if_pos rfl]
  obtain ⟨z, hz⟩ : ∃ z, (u.forest.kind c).child? slot = some z := by
    refine Option.isSome_iff_exists.1 (Kind.mem_slots.1 ?_)
    rw [h.same.slots]
    exact Kind.mem_slots.2 (Option.isSome_of_eq_some hx)
  have hsame : (f.kind a).Same (fun _ => 0) ((u.forest.kind c).setChild slot y) :=
    (Kind.mapChildren_setChild (y := y) hz rfl).trans h.same
  have hnilable : ((u.forest.setChild c slot y).kind c).isNilable = false := by
    rw [hnew, hsame.isNilable]
    exact Kind.isNilable_of_isSimple (hf.scheme.reaches ha).isSimple
  have hserves : ∀ n s, (∀ a, a < n → ¬s.forest.Reaches a c) → Serves f V n s u →
      Serves f V n s { u with forest := u.forest.setChild c slot y } := fun n s hn hs =>
    hs.of_ne hsteady hkind hnilable hV hn
  refine ⟨hu.of_ne hsteady hkind hnilable hV hf.sound
    (Forest.setChild_sound hu.sound.forest c slot hlt) (Forest.size_setChild _ _ _ _) hc, hserves,
    ⟨⟨?_, ?_⟩, ?_, fun slot' x' y' hslot' hx' hy' => ?_⟩⟩
  · rw [Forest.size_setChild]
    exact h.isClass.lt
  · dsimp only
    rw [hnew, Kind.isLink_setChild, h.isClass.root]
  · dsimp only
    rw [hnew]
    exact hsame
  -- Instances of children are not affected.
  have hkeep : ∀ {w b}, V b → Fits f u w b → Fits f { u with forest := u.forest.setChild c slot y } w b :=
    fun hVb hfits => hfits.serves hu.realm.region
      (hserves 0 u (fun a ha => absurd ha (Nat.not_lt_zero a)) (.refl hu.sound)) (hu.realm.region.rep hVb)
  dsimp only at hy'
  rw [hnew] at hy'
  rcases Kind.child?_of_setChild hy' with ⟨rfl, rfl⟩ | ⟨hne, hy'⟩
  · rw [hx] at hx'
    cases hx'
    exact ⟨hVy, hkeep hVy hy⟩
  · obtain ⟨hVy', hfits⟩ := h.done slot' x' y' (by simp [hne, hslot']) hx' hy'
    exact ⟨hVy', hkeep hVy' hfits⟩

/-! ## Copying -/

/-- Whatever region the scheme leads out of, the answer is an instance in it. -/
def Supplies (f : Forest) (d : TermId) (pinned : List TermId) (duplicate : TermId → UnifyM TermId) : Prop :=
  ∀ V s x c u, f.Instantiable d pinned V → Serving f V s → f.Reaches d (s.forest.rep x) →
    Clear f s (s.forest.rep x) → Settled f V s (f.Reaches (s.forest.rep x)) → duplicate x s = some (c, u) →
    Provides f V s (s.forest.rep x) c u ∧ c < u.forest.size ∧ V c

/-- A function is copied when its children are. -/
theorem copySlots_supplies {duplicate : TermId → UnifyM TermId} (hduplicate : Supplies f d pinned duplicate)
    (hf : f.Instantiable d pinned V) (ha : f.Reaches d a) (hV : ¬V c) (hc : f.size ≤ c)
    (hs : s.Sound) (hnew : s.forest.size ≤ c) {slots : List Slot} {v : Unit} (hnodup : slots.Nodup)
    (hslots : slots ⊆ (f.kind a).slots) (ht : Serving f V t) (hserves : Serves f V s.forest.size s t)
    (hfilled : Filled f V a c slots t)
    (hclear : ∀ slot ∈ slots, ∀ x, (f.kind a).child? slot = some x → Clear f t (f.rep x))
    (hsettled : Settled f V t (f.Below a)) (h : copySlots duplicate a c slots t = some (v, u)) :
    Serving f V u ∧ Serves f V s.forest.size s u ∧ Filled f V a c [] u ∧ Settled f V u (f.Below a) ∧
      ∀ x, ¬f.Below a x → u.image.lookup x = t.image.lookup x := by
  have hscheme := hf.scheme.reaches ha
  induction slots generalizing t with
  | nil =>
    obtain ⟨-, rfl⟩ := pure_eq_some.1 h
    exact ⟨ht, hserves, hfilled, hsettled, fun _ _ => rfl⟩
  | cons slot rest ih =>
    obtain ⟨hslot, hnodup⟩ := List.nodup_cons.1 hnodup
    obtain ⟨x, hx⟩ := Option.isSome_iff_exists.1 (Kind.mem_slots.1 (hslots List.mem_cons_self))
    obtain ⟨child?, t₁, hchild, h⟩ := bind_eq_some.1 h
    have hlooks := (child_looks ht.sound hchild).1
    obtain rfl := ht.child_eq hf ha hx hchild
    obtain ⟨y, t₂, hcopy, h⟩ := bind_eq_some.1 h
    obtain ⟨v', t₃, hgraft, h⟩ := bind_eq_some.1 h
    obtain rfl := change_eq_some.1 hgraft
    obtain ⟨ht₁, hserves₁⟩ := ht.looks hlooks
    have hfilled₁ := hfilled.serves hf ha ht ht₁ (hserves₁ _) hV
    have hreach : f.Reaches d (f.rep x) := ha.tail ⟨slot, x, hx, rfl⟩
    have hroot := (hf.isClass ht₁.changes hreach).rep_eq
    have hclear₁ : Clear f t₁ (f.rep x) := (hclear slot List.mem_cons_self x hx).of_image hlooks.image
    have hsettled₁ := hsettled.looks ht hlooks
    obtain ⟨hp, hlt, hVy⟩ := hduplicate V t₁ (f.rep x) y t₂ hf ht₁ (by rwa [hroot]) (by rwa [hroot])
      (by rw [hroot]; exact hsettled₁.mono fun w => hscheme.below_child hx) hcopy
    rw [hroot] at hp
    have hfilled₂ := hfilled₁.serves hf ha ht₁ hp.serving hp.serves hV
    have hserves₂ := (hserves.trans ht.sound (hserves₁ _)).trans ht₁.sound
      (hp.serves.mono (hserves.changes.size.trans (hserves₁ 0).changes.size))
    obtain ⟨ht₃, hserves₃, hfilled₃⟩ := hfilled₂.graft hf ha hp.serving hV hc hx hlt hVy hp.fits
    have hsettled₃ := (hp.keeps ht₁ hsettled₁).serves hp.serving.realm.region
      (hserves₃ 0 t₂ (fun a ha => absurd ha (Nat.not_lt_zero a)) (.refl hp.serving.sound)) fun _ _ => rfl
    have himage₂ : ∀ w, ¬f.Reaches (f.rep x) w → t₂.image.lookup w = t.image.lookup w := fun w hw =>
      (hp.spares w hw).trans (by rw [hlooks.image])
    have hrest : ∀ slot' ∈ rest, ∀ x', (f.kind a).child? slot' = some x' → Clear f t₂ (f.rep x') :=
      fun slot' hslot' x' hx' => (hclear slot' (List.mem_cons_of_mem _ hslot') x' hx').of_sibling
        hscheme (fun e => hslot (by rwa [e])) hx hx' himage₂
    obtain ⟨hu, hserves', hfilled', hsettled', hspares⟩ := ih hnodup
      (fun _ h => hslots (List.mem_cons_of_mem _ h)) ht₃
      (hserves₃ _ s (Forest.not_reaches_new hs.forest hnew) hserves₂) hfilled₃ hrest hsettled₃ h
    exact ⟨hu, hserves', hfilled', hsettled', fun w hw => (hspares w hw).trans
      (himage₂ w fun h => hw (hscheme.below_child hx h))⟩

section Copy

variable (hf : f.Instantiable d pinned V) (hs : Serving f V s) (ha : f.Reaches d a) {term : Term}
  (hterm : term.kind = s.forest.kind a)

include hf hs ha hterm

/-- A variable or a base type is copied at once. -/
theorem copyLeaf_provides (hk : (f.kind a).isFunction = false) (hnew : s.image.lookup a = none) :
    Provides f V s a s.forest.size
      { s with forest := (s.forest.add term).2, image := (a, s.forest.size) :: s.image } := by
  have hscheme := hf.scheme.reaches ha
  have hsame := hf.same hs.changes ha
  rw [← hterm] at hsame
  have hlink := hsame.isLink.trans hscheme.isLink
  have hnilable := hsame.isNilable.trans (Kind.isNilable_of_isSimple hscheme.isSimple)
  have hchildren : term.kind.children = [] := by
    refine List.eq_nil_iff_forall_not_mem.2 fun x hx => ?_
    obtain ⟨slot, hslot⟩ := (Kind.mem_children hlink).1 hx
    rw [Kind.child?_of_slots_eq_nil (hsame.slots.trans (hscheme.slots_eq_nil hk))] at hslot
    cases hslot
  have hkind : (s.forest.add term).2.kind s.forest.size = term.kind :=
    (Forest.kind_add _ _ _).trans (if_pos rfl)
  obtain ⟨ht, hserves⟩ := hs.add hf hlink hnilable (by simp [hchildren])
  have ht' := ht.complete (by rwa [hkind]) (by simp [hkind, hchildren])
  have hlt : s.forest.size < (s.forest.add term).2.size := by
    rw [Forest.size_add]
    exact Nat.lt_succ_self _
  obtain ⟨hu, hserves'⟩ := ht'.setImage (a := a) hlt fun _ c' hc' => by
    rw [hnew] at hc'
    cases hc'
  have hfits : Fits f { s with forest := (s.forest.add term).2, image := (a, s.forest.size) :: s.image }
      a s.forest.size := by
    refine fits_of_same hscheme.isLink (lookup_cons_eq_some.2 (Or.inl ⟨rfl, rfl⟩)) ⟨hlt, ?_⟩
      (by rwa [← hkind] at hsame) fun h => ?_
    · dsimp only
      rwa [hkind]
    · rw [hk] at h
      cases h
  exact ⟨hu, (hserves.complete le_rfl).trans ht'.sound (hserves' _), hfits,
    .of_fits hf hu (hs.realm.new _ le_rfl) hfits fun x c hx => absurd hx (hscheme.not_below hk),
    fun x hx => lookup_cons_of_ne fun e => hx (e ▸ .refl)⟩

/-- A class is copied when its children are. -/
theorem copyChildren_provides {duplicate : TermId → UnifyM TermId}
    (hduplicate : Supplies f d pinned duplicate) (hclear : Clear f s a)
    (hnew : s.image.lookup a = none) (hsettled : Settled f V s (f.Reaches a)) {v : Unit}
    (h : copySlots duplicate a s.forest.size (f.kind a).slots
      { s with forest := (s.forest.add term).2, image := (a, s.forest.size) :: s.image } = some (v, u)) :
    Provides f V s a s.forest.size u ∧ s.forest.size < u.forest.size := by
  have hscheme := hf.scheme.reaches ha
  have hsame := hf.same hs.changes ha
  rw [← hterm] at hsame
  have hlink := hsame.isLink.trans hscheme.isLink
  have hnilable := hsame.isNilable.trans (Kind.isNilable_of_isSimple hscheme.isSimple)
  have hkind : (s.forest.add term).2.kind s.forest.size = term.kind :=
    (Forest.kind_add _ _ _).trans (if_pos rfl)
  have hV : ¬(V s.forest.size ∧ s.forest.size ≠ s.forest.size) := fun h => h.2 rfl
  obtain ⟨ht, hserves⟩ := hs.add hf hlink hnilable (by rw [hterm]; exact hs.sound.forest.inRange a)
  have hlt : s.forest.size < (s.forest.add term).2.size := by
    rw [Forest.size_add]
    exact Nat.lt_succ_self _
  obtain ⟨ht', hserves'⟩ := ht.setImage (a := a) hlt fun _ c' hc' => by
    rw [hnew] at hc'
    cases hc'
  have hfilled : Filled f (fun t => V t ∧ t ≠ s.forest.size) a s.forest.size (f.kind a).slots
      { s with forest := (s.forest.add term).2, image := (a, s.forest.size) :: s.image } := by
    refine ⟨⟨hlt, ?_⟩, ?_, fun slot x y hslot hx =>
      absurd (Kind.mem_slots.2 (Option.isSome_of_eq_some hx)) hslot⟩
    · dsimp only
      rwa [hkind]
    · dsimp only
      rw [hkind]
      exact hsame.forget
  have hserves₁ := hserves.trans ht.sound (hserves' _)
  have hsettled₁ := (hsettled.without hs.sound le_rfl).below.serves
    (hs.region_without le_rfl) hserves₁ fun x hx => lookup_cons_of_ne hx.2
  obtain ⟨hu, hserves'', hfilled', hsettled', hspares⟩ := copySlots_supplies hduplicate
    (hf.without hs.changes.size) ha hV hs.changes.size hs.sound le_rfl (Kind.nodup_slots _) (fun _ h => h)
    ht' hserves₁ hfilled (fun slot _ x hx => hclear.of_function hscheme rfl hx) hsettled₁ h
  have hnilable' : (u.forest.kind s.forest.size).isNilable = false := by
    rw [hfilled'.same.isNilable]
    exact Kind.isNilable_of_isSimple hscheme.isSimple
  have hdone := fun slot x y => hfilled'.done slot x y List.not_mem_nil
  have hu' := hu.complete hnilable' fun y hy => by
    obtain ⟨slot, hslot⟩ := (Kind.mem_children hfilled'.isClass.root).1 hy
    obtain ⟨x, hx⟩ : ∃ x, (f.kind a).child? slot = some x := by
      refine Option.isSome_iff_exists.1 (Kind.mem_slots.1 ?_)
      rw [← hfilled'.same.slots]
      exact Kind.mem_slots.2 (Option.isSome_of_eq_some hslot)
    exact (hdone slot x y hx hslot).1.1
  have himage : u.image.lookup a = some s.forest.size :=
    (hspares a fun h => h.2 rfl).trans (lookup_cons_eq_some.2 (Or.inl ⟨rfl, rfl⟩))
  have hfits := fits_of_same hscheme.isLink himage hfilled'.isClass hfilled'.same
    fun _ slot x y hx hy => (hdone slot x y hx hy).2
  refine ⟨⟨hu', hserves''.complete le_rfl, hfits, ?_, fun x hx => ?_⟩, hfilled'.isClass.lt⟩
  · refine .of_fits hf hu' (hs.realm.new _ le_rfl) hfits fun x c hx hgeneric hc => ?_
    obtain ⟨hVc, hfits⟩ := hsettled' x c hx hgeneric hc
    exact ⟨hVc.1, hfits⟩
  · exact (hspares x fun h => hx h.1).trans (lookup_cons_of_ne fun e => hx (e ▸ .refl))

end Copy

/-- The copy of a class is an instance of it. -/
theorem freshCopyWithin_supplies (fuel : Nat) : Supplies f d pinned (freshCopyWithin pinned fuel) := by
  induction fuel with
  | zero => exact fun V s x c u _ _ _ _ _ h => (failure_eq_some.1 h).elim
  | succ fuel ih =>
    intro V s x c u hf hs ha hclear hsettled h
    have hlt := Nat.lt_of_lt_of_le (hf.lt_of_reaches ha) hs.changes.size
    obtain ⟨t, hlooks, -, -, hlayer⟩ := freshCopyWithin_layer hs.sound (Forest.lt_size_of_rep_lt hlt) h
    have hout := hf.unreached_of hs.changes ha hs.realm.region
    generalize s.forest.rep x = a at ha hclear hsettled hlt hlayer hout ⊢
    obtain ⟨ht, hserves⟩ := hs.looks hlooks
    have hclear := hclear.of_image hlooks.image
    have hsettled := hsettled.looks hs hlooks
    cases hlayer with
    | known hknown hu =>
      -- Only what is generic may have an image.
      subst hu
      obtain ⟨hV, hfits⟩ := hsettled a c .refl (hclear.generic hknown) hknown
      exact ⟨⟨ht, hserves _, hfits, hsettled, fun _ _ => by rw [hlooks.image]⟩, ht.sound.image_lt hknown, hV⟩
    | shared _ hpinned => exact absurd hpinned hout
    | copied hnew _ hterm hc hslots =>
      subst hc
      have hV : V t.forest.size := ht.realm.new _ le_rfl
      rw [(hf.same ht.changes ha).slots] at hslots
      cases hk : (f.kind a).isFunction with
      | true =>
        obtain ⟨hp, hlt'⟩ := copyChildren_provides hf ht ha hterm ih hclear hnew hsettled hslots
        exact ⟨hp.after (hserves _) ht.sound hlooks.image, hlt', hV⟩
      | false =>
        rw [(hf.scheme.reaches ha).slots_eq_nil hk] at hslots
        obtain ⟨-, rfl⟩ := pure_eq_some.1 hslots
        have hp := copyLeaf_provides hf ht ha hterm hk hnew
        refine ⟨hp.after (hserves _) ht.sound hlooks.image, ?_, hV⟩
        rw [Forest.size_add]
        exact Nat.lt_succ_self _

/-- The copy of a class of a scheme is an instance of it. -/
theorem freshCopy_supplies : Supplies f d pinned (freshCopy pinned) :=
  fun V s x c u hf hs ha hclear hsettled h =>
    freshCopyWithin_supplies _ V s x c u hf hs ha hclear hsettled (of_bind_view h)

end Unifier

end TypeFlow
