import TypeFlow.Proofs.ConfinedUnifications
import TypeFlow.Proofs.FencedCopies

/-!
# Instantiations beside a fence

The use, the pinned types and all images lie outside the fence around a definition.  What a use is
unified with lies outside too: it is pinned, an error, an image or a complete copy.  So an
instantiation goes round the fence.

Main definitions:

- `Unifier.Fenced`: there is a fence around a definition.
- `Unifier.Bypasses`: what goes round the fence.

Main results:

- `Unifier.freshCopy_bypasses`: so does making a copy.
- `Unifier.instantiateStep_bypasses`: so does one layer of an instantiation if the next one does.
- `Unifier.instantiateWithin_bypassing`: so does the instantiation of any definition.
-/

namespace TypeFlow

open Forest (Steady Fence Spared Region Tidies)

namespace Unifier

variable {s t u : Unifier} {H H' H'' : TermId → Prop} {pinned : List TermId}

/-! ## Going round the fence -/

/-- There is a fence around a definition, and images and pinned types lie outside. -/
structure Fenced (pinned : List TermId) (H : TermId → Prop) (s : Unifier) : Prop where
  sound : s.Sound
  fence : s.forest.Fence (fun _ => True) H
  lt : ∀ t, H t → t < s.forest.size
  image : ∀ p ∈ s.image, ¬H p.2
  pinned : ∀ p ∈ pinned, p < s.forest.size ∧ ¬H p

/-- The terms inside the fence were spared.  Some new terms may have got inside. -/
structure Bypasses (pinned : List TermId) (H : TermId → Prop) (s : Unifier) (H' : TermId → Prop)
    (u : Unifier) : Prop where
  proceeds : Proceeds s u
  fenced : Fenced pinned H' u
  grows : ∀ t, H t → H' t
  new : ∀ t, H' t → H t ∨ s.forest.size ≤ t
  spared : ∀ t, H t → Spared s.forest u.forest t

/-- The term is one outside the fence. -/
structure Outside (H : TermId → Prop) (s : Unifier) (t : TermId) : Prop where
  lt : t < s.forest.size
  out : ¬H t

namespace Fenced

variable (hs : Fenced pinned H s)

include hs

/-- What lies outside is a region that the terms to come belong to. -/
theorem realm : s.forest.Realm fun t => ¬H t where
  region t ht x hx := (hs.fence.outside t ⟨trivial, ht⟩ x hx).2
  new t ht hin := Nat.lt_irrefl _ (Nat.lt_of_lt_of_le (hs.lt t hin) ht)

private theorem image_outside {x c : TermId} (h : s.image.lookup x = some c) : Outside H s c := by
  obtain ⟨l₁, l₂, hlist, -⟩ := List.lookup_eq_some_iff.1 h
  refine ⟨hs.sound.image_lt h, hs.image (x, c) ?_⟩
  rw [hlist]
  exact List.mem_append_right _ List.mem_cons_self

/-- The fence stays up in a later forest in which nothing outside leads in. -/
theorem bypasses (hp : Proceeds s u) (himage : ∀ p ∈ u.image, ¬H p.2)
    (hregion : u.forest.Region fun t => ¬H t) (hspared : ∀ t, H t → Spared s.forest u.forest t) :
    Bypasses pinned H s H u := by
  have he := hp.evolves hs.sound
  refine ⟨hp, ⟨hp.sound, ?_, fun t ht => hp.lt hs.sound (hs.lt t ht), himage, fun p hmem => ?_⟩,
    fun _ => id, fun _ => Or.inl, hspared⟩
  · exact hs.fence.of_spared hs.sound.forest.rooted he (fun _ _ _ _ => trivial)
      (fun t ht x hx => ⟨trivial, hregion t ht.2 x hx⟩) hspared
  · obtain ⟨hlt, hout⟩ := hs.pinned p hmem
    exact ⟨hp.lt hs.sound hlt, hout⟩

private theorem refl : Bypasses pinned H s H s :=
  hs.bypasses (.refl hs.sound) hs.image hs.realm.region fun _ _ => .of_eq rfl

/-- What acts outside goes round the fence. -/
theorem of_actsIn (hp : Proceeds s u) (h : ActsIn (fun t => ¬H t) s u) :
    Bypasses pinned H s H u := by
  refine hs.bypasses hp (fun p hmem => ?_) h.realm.region fun t ht => ?_
  · rw [h.image] at hmem
    exact hs.image p hmem
  · exact .of_eq (h.off t (not_not.2 ht))

private theorem of_confined {α : Type} {P : α → Prop} {m : UnifyM α} {a : α}
    (hm : Confined (fun t => ¬H t) P m) (hp : Proceeds s u) (h : m s = some (a, u)) :
    Bypasses pinned H s H u :=
  hs.of_actsIn hp (hm s a u hs.realm h).1

/-- So does looking classes up, wherever they are. -/
theorem of_looks (h : Looks s u) : Bypasses pinned H s H u := by
  obtain ⟨hfence, hspared⟩ :=
    (Tidies.of_upkeeps h.upkeeps).fence hs.sound.forest.rooted hs.fence
  refine hs.bypasses (h.proceeds hs.sound) (fun p hmem => ?_) (fun t ht x hx => ?_) hspared
  · rw [h.image] at hmem
    exact hs.image p hmem
  · exact (hfence.outside t ⟨trivial, ht⟩ x hx).2

private theorem setImage {x c : TermId} {v : Unit} (hc : Outside H s c)
    (h : setImage x c s = some (v, u)) : Bypasses pinned H s H u := by
  obtain ⟨hp, hforest⟩ := setImage_proceeds hs.sound hc.lt h
  obtain rfl := modify_eq_some.1 h
  refine hs.bypasses hp (fun p hmem => ?_) hs.realm.region fun _ _ => .of_eq rfl
  rcases List.mem_cons.1 hmem with rfl | hmem
  · exact hc.out
  · exact hs.image p hmem

end Fenced

namespace Bypasses

private theorem trans (h : Bypasses pinned H s H' t) (h' : Bypasses pinned H' t H'' u) (hs : s.Sound) :
    Bypasses pinned H s H'' u where
  proceeds := h.proceeds.trans h'.proceeds
  fenced := h'.fenced
  grows x hx := h'.grows x (h.grows x hx)
  new x hx := (h'.new x hx).elim (h.new x) fun hle =>
    Or.inr (Nat.le_trans (h.proceeds.evolves hs).grows.size hle)
  spared x hx := (h.spared x hx).trans h.fenced.sound.forest.rooted
    (h'.proceeds.evolves h.fenced.sound) (h'.spared x (h.grows x hx))

/-- What lies outside a fence stays outside. -/
theorem outside {x : TermId} (h : Bypasses pinned H s H' u) (hs : s.Sound) (hx : Outside H s x) :
    Outside H' u x :=
  ⟨h.proceeds.lt hs hx.lt, fun hin => (h.new x hin).elim hx.out (Nat.not_le.2 hx.lt)⟩

end Bypasses

/-- The computation goes round the fence wherever the first term lies, if the second is outside. -/
def Bypassing (pinned : List TermId) (inst : TermId → TermId → UnifyM Bool) : Prop :=
  ∀ H s a b r u, Fenced pinned H s → a < s.forest.size → Outside H s b →
    inst a b s = some (r, u) → ∃ H', Bypasses pinned H s H' u

/-! ## Copies -/

/-- The copy of a type around its pinned parts lies outside. -/
theorem freshCopy_bypasses {x c : TermId} (hs : Fenced pinned H s) (hx : x < s.forest.size)
    (h : freshCopy pinned x s = some (c, u)) : Bypasses pinned H s H u ∧ Outside H u c := by
  obtain ⟨hp, -⟩ := freshCopy_proceeds hs.sound hx h
  replace h := of_bind_view h
  have hrange : s.forest.Region (· < s.forest.size) := fun t _ => hs.sound.forest.inRange t
  have hcopying : Copying s.forest.size H pinned (fun _ => False) s := by
    refine ⟨hs.sound, le_rfl, ⟨hrange, fun t ht x hx => ?_, hs.lt, hs.fence.link, hs.fence.wraps,
      hs.fence.isError⟩, fun c hc => ?_, fun c hc _ slot x hx => ?_, hs.image, hs.pinned⟩
    · exact ⟨hrange t ht.1 x hx, (hs.fence.outside t ⟨trivial, ht.2⟩ x hx).2⟩
    · rw [Forest.kind_of_size_le hc]
      rfl
    · rw [Forest.kind_of_size_le hc] at hx
      cases hx
  obtain ⟨hcopying', hcopied, hc, hout⟩ := freshCopyWithin_duplicates _ _ _ _ _ _ hcopying hx h
  refine ⟨hs.bypasses hp hcopying'.image (fun t ht x hx => ?_) hcopied.spared, hc, hout⟩
  by_cases hlt : t < s.forest.size
  · exact (hcopying'.fence.outside t ⟨hlt, ht⟩ x hx).2
  · have hle := Nat.le_of_not_lt hlt
    obtain ⟨slot, hslot⟩ := (Kind.mem_children (hcopying'.root t hle)).1 hx
    exact hcopying'.done t hle id slot x hslot

/-- A part without nil that is made of a class inside is inside. -/
theorem fence_add_inside {f : Forest} {term : Term} {this : TermId} (hf : f.Sound)
    (hfence : f.Fence (fun _ => True) H) (hlt : ∀ t, H t → t < f.size) (hthis : H this)
    (hroot : (f.kind this).isLink = false) (hterm : term.kind = (f.kind this).withoutNil) :
    (f.add term).2.Fence (fun _ => True) fun t => H t ∨ t = f.size := by
  have hlink : term.kind.isLink = false := by rw [hterm, Kind.isLink_withoutNil, hroot]
  have hsteady := Forest.steady_add hf.rooted hlink
  have hold : ∀ t, H t → (f.add term).2.kind t = f.kind t := fun t ht => by
    rw [Forest.kind_add, if_neg (Nat.ne_of_lt (hlt t ht))]
  have hnew : (f.add term).2.kind f.size = term.kind := by
    rw [Forest.kind_add, if_pos rfl]
  refine ⟨fun _ _ _ _ => trivial, fun t ht x hx => ⟨trivial, ?_⟩, fun _ _ => trivial,
    fun t u ht hu => ?_, fun t inner ht hinner => ?_, fun t ht => ?_⟩
  · rw [Forest.kind_add, if_neg fun e => ht.2 (Or.inr e)] at hx
    have hout := hfence.outside t ⟨trivial, fun hin => ht.2 (Or.inl hin)⟩ x hx
    exact fun hin => hin.elim hout.2 (Nat.ne_of_lt (hf.inRange t x hx))
  · rcases ht with ht | rfl
    · rw [hold t ht] at hu
      exact Or.inl (hfence.link t u ht hu)
    · rw [hnew] at hu
      rw [hu] at hlink
      cases hlink
  · obtain ⟨hin, hvar⟩ : H inner ∧ f.kind (f.rep inner) = .var := by
      rcases ht with ht | rfl
      · rw [hold t ht] at hinner
        exact hfence.wraps t inner ht hinner
      · rw [hnew, hterm] at hinner
        refine hfence.wraps this inner hthis ?_
        cases hk : f.kind this <;> rw [hk] at hinner <;> cases hinner
        rfl
    refine ⟨Or.inl hin, ?_⟩
    rw [hsteady.rep, hold _ (hfence.rep hin), hvar]
  · rcases ht with ht | rfl
    · rw [hold t ht, hfence.isError t ht]
    · have herror := hfence.isError this hthis
      rw [hnew, hterm]
      cases hk : f.kind this <;> rw [hk] at herror <;> first | rfl | cases herror

/-- So the part of a definition without nil is made beside the fence or inside. -/
theorem source_bypasses {this source : TermId} (hs : Fenced pinned H s)
    (hthis : s.forest.IsClass this) (hsource : Source this source s u) :
    ∃ H', Bypasses pinned H s H' u := by
  have himage : ∀ p ∈ u.image, ¬H p.2 := fun p hp => hs.image p (hsource.image ▸ hp)
  rcases hsource.forest with hforest | ⟨term, hterm, hforest⟩
  · refine ⟨H, hs.bypasses hsource.proceeds himage ?_ fun t _ => .of_eq (by rw [hforest])⟩
    rw [hforest]
    exact hs.realm.region
  have hspared : ∀ t, H t → Spared s.forest u.forest t := fun t ht => by
    rw [hforest]
    exact .of_eq (Forest.terms_add_of_ne (Nat.ne_of_lt (hs.lt t ht)) term)
  by_cases hin : H this
  · have hfence := fence_add_inside hs.sound.forest hs.fence hs.lt hin hthis.root hterm
    refine ⟨fun t => H t ∨ t = s.forest.size, hsource.proceeds,
      ⟨hsource.proceeds.sound, hforest ▸ hfence, fun t ht => ?_, fun p hp hin => ?_, fun p hp => ?_⟩,
      fun t => Or.inl, fun t ht => ht.imp_right fun e => e.ge, hspared⟩
    · rw [hforest, Forest.size_add]
      exact Nat.lt_succ_of_le (ht.elim (fun ht => (hs.lt t ht).le) Nat.le_of_eq)
    · rw [hsource.image] at hp
      exact hin.elim (hs.image p hp) (Nat.ne_of_lt (hs.sound.image p hp))
    · obtain ⟨hlt, hout⟩ := hs.pinned p hp
      exact ⟨hsource.proceeds.lt hs.sound hlt, fun hin => hin.elim hout (Nat.ne_of_lt hlt)⟩
  · refine ⟨H, hs.bypasses hsource.proceeds himage ?_ hspared⟩
    rw [hforest]
    refine (Forest.add_keepsTo ?_ fun x hx => ?_ : Forest.KeepsTo _ _ _) hs.realm.region |>.1
    · exact hs.realm.new _ le_rfl
    · rw [hterm, Kind.children_withoutNil] at hx
      exact hs.realm.region this hin x hx

/-! ## Uses -/

/-- The computation acts in any region that its two terms belong to. -/
def Confining (rec : TermId → TermId → UnifyM Bool) : Prop :=
  ∀ (R : TermId → Prop) a b, R a → R b → Acts R (rec a b)

private theorem confining_unifyWithin (depth : Nat) : Confining (unifyWithin depth) :=
  fun _ _ _ ha hb => acts_unifyWithin depth ha hb

variable {R : TermId → Prop} {this that : TermId} {r : Bool}

private theorem acts_instantiateNilable (hthat : R that) : Acts R (instantiateNilable that) := by
  refine confined_bind (acts_view _) fun k _ => confined_ite (acts_pure _) (confined_guard trivial ?_)
  refine confined_bind (acts_change (fun f => Forest.setKind_keepsTo hthat fun hf x hx => ?_)
    fun f => Forest.size_setKind _ _ _) fun _ _ => confined_bind (acts_wake _) fun _ _ => acts_pure _
  rw [Kind.children_orNil] at hx
  exact hf that hthat x hx

private theorem acts_refine (this : TermId) (hthat : R that) : Acts R (refine this that) := by
  refine confined_bind (acts_view _) fun k _ => confined_bind (confined_kindOf hthat) fun k' hk' => ?_
  cases hrefined : refinedKind? k k' with
  | none => exact acts_pure _
  | some kind =>
    refine confined_guard trivial (confined_bind (acts_setKind hthat fun x hx => hk' x ?_) fun _ _ =>
      confined_bind (acts_wake _) fun _ _ => acts_pure _)
    exact (refinedKind?_refines hrefined).1.children x hx

private theorem acts_dropExtra (this : TermId) (hthat : R that) (labels : List String) (progress : Bool) :
    Acts R (dropExtra this that labels progress) := by
  induction labels generalizing progress with
  | nil => exact acts_pure _
  | cons label rest ih =>
    refine confined_bind (acts_view _) fun k _ => confined_ite (ih _) ?_
    -- Whether the field is kept or not, the other labels follow.
    have hnext : ∀ keep : Bool, Acts R (if keep then dropExtra this that rest progress else do
        if ← isProbe then return none
        else
          let changed ← dropField that label
          dropExtra this that rest (progress || changed)) := by
      intro keep
      refine confined_ite (ih _) (confined_guard trivial ?_)
      exact confined_bind (acts_dropField label hthat) fun changed _ => ih _
    refine confined_bind (confined_child _ hthat) fun child? _ => ?_
    cases child? with
    | none => exact confined_bind (acts_pure _) fun keep _ => hnext keep
    | some x =>
      exact confined_bind (acts_view _) fun k _ => confined_bind (acts_pure _) fun keep _ => hnext keep

/-- An instantiation ends by recording what the definition became. -/
theorem setImage_pure_bypasses {x c : TermId} {b : Bool} (hs : Fenced pinned H s)
    (hc : Outside H s c) (h : (setImage x c >>= fun _ => pure b) s = some (r, u)) :
    Bypasses pinned H s H u := by
  obtain ⟨v, s₁, hset, h⟩ := bind_eq_some.1 h
  obtain ⟨-, rfl⟩ := pure_eq_some.1 h
  exact hs.setImage hc hset

/-- An error is made outside. -/
theorem alloc_error_bypasses {cause : TypeError} {x : TermId} (hs : Fenced pinned H s)
    (h : alloc (.error cause) s = some (x, u)) : Bypasses pinned H s H u ∧ Outside H u x := by
  obtain ⟨hp, -, hclass, -⟩ := alloc_error_proceeds hs.sound h
  obtain ⟨hacts, hout⟩ :=
    answers_alloc (fun x hx => absurd hx List.not_mem_nil) s x u hs.realm h
  exact ⟨hs.of_actsIn hp hacts, hclass.lt, hout⟩

private theorem find_outside {x y : TermId} (hs : Fenced pinned H s) (hx : Outside H s x)
    (h : find x s = some (y, u)) : Outside H u y ∧ Looks s u := by
  obtain ⟨-, hout⟩ := answers_find hx.out s y u hs.realm h
  exact ⟨⟨(isClass_of_find hs.sound hx.lt h).lt, hout⟩, (find_looks hs.sound h).2⟩

private theorem addField_bypasses {x value : TermId} {label : String} {b : Bool} (hs : Fenced pinned H s)
    (hwork : s.work.isNone = false) (hx : Outside H s x) (hvalue : Outside H s value)
    (h : addField x label value s = some (b, u)) : Bypasses pinned H s H u :=
  hs.of_confined (acts_addField label hx.out hvalue.out)
    (addField_proceeds hs.sound hwork hvalue.lt h).1 h

/-- What is an error or occurs in a pinned type lies outside. -/
theorem shared_outside {b : Bool} (hs : Fenced pinned H s) (hthis : s.forest.IsClass this)
    (h : (kindOf this >>= fun k =>
      if k.isError then pure true else occursInAny this pinned) s = some (b, u)) :
    b = true → ¬H this := by
  intro hb
  replace h := of_bind_view h
  rcases ite_eq_some.1 h with ⟨herror, -⟩ | ⟨-, h⟩
  · intro hin
    rw [hs.fence.isError this hin] at herror
    cases herror
  · obtain ⟨f, hrun, -⟩ := onForest_eq_some.1 h
    obtain ⟨-, hout⟩ := Forest.occursInAny_tidies hs.sound.forest.rooted hs.fence.region
      hs.fence.outside (fun _ _ => trivial) trivial (fun p hp => ⟨trivial, (hs.pinned p hp).2⟩) hrun
    rw [← hthis.rep_eq]
    exact (hout hb).2

section Use

variable {inst rec : TermId → TermId → UnifyM Bool} (hinst : Bypassing pinned inst)
  (hconfining : Confining rec) (hrec : Proceeding rec)

include hconfining hrec in
private theorem rec_bypasses (hs : Fenced pinned H s) (hthis : Outside H s this) (hthat : Outside H s that)
    (h : rec this that s = some (r, u)) : Bypasses pinned H s H u :=
  hs.of_confined (hconfining _ _ _ hthis.out hthat.out)
    (hrec _ _ _ _ _ hs.sound hthis.lt hthat.lt h) h

include hconfining hrec in
private theorem reject_bypasses (hs : Fenced pinned H s) (hthat : Outside H s that)
    (h : reject rec this that s = some (r, u)) : Bypasses pinned H s H u := by
  obtain rfl | ⟨-, h⟩ := unless_probe h
  · exact hs.refl
  replace h := of_bind_view h
  obtain ⟨error, s₁, halloc, h⟩ := bind_eq_some.1 h
  obtain ⟨progress, s₂, hunify, h⟩ := bind_eq_some.1 h
  obtain ⟨h₁, herror⟩ := alloc_error_bypasses hs halloc
  have h₂ := h₁.trans (rec_bypasses hconfining hrec h₁.fenced (h₁.outside hs.sound hthat) herror hunify)
    hs.sound
  exact h₂.trans (setImage_pure_bypasses h₂.fenced (h₂.outside hs.sound hthat) h) hs.sound

include hconfining hrec in
private theorem instantiateBase_bypasses {a b : Flow} (hs : Fenced pinned H s) (hthat : Outside H s that)
    (hclass : s.forest.IsClass that) (hb : s.forest.kind that = .base b)
    (h : instantiateBase rec this that a b s = some (r, u)) : Bypasses pinned H s H u := by
  unfold instantiateBase at h
  rcases ite_eq_some.1 h with ⟨-, h⟩ | ⟨-, h⟩
  · exact reject_bypasses hconfining hrec hs hthat h
  rcases ite_eq_some.1 h with ⟨-, h⟩ | ⟨-, h⟩
  · exact setImage_pure_bypasses hs hthat h
  obtain rfl | ⟨hwork, h⟩ := unless_probe h
  · exact hs.refl
  obtain ⟨v₁, s₁, hset, h⟩ := bind_eq_some.1 h
  obtain ⟨v₂, s₂, hwake, h⟩ := bind_eq_some.1 h
  obtain ⟨hacts, -⟩ :=
    acts_setKind hthat.out (fun x hx => absurd hx List.not_mem_nil) s v₁ s₁ hs.realm hset
  obtain ⟨hacts', -⟩ := acts_wake that s₁ v₂ s₂ hacts.realm hwake
  have hrefines : (s.forest.kind that).Refines (.base (a.meet b)) := by
    rw [hb]
    exact ⟨rfl, rfl, .base (Flow.covers_meet_right a b), fun _ hx => hx⟩
  have hp := refine_proceeds hs.sound hwork hclass hrefines
  have h₂ : Bypasses pinned H s H s₂ := by
    refine hs.of_actsIn ?_ (hacts.trans hacts')
    rw [wake_eq_some.1 hwake, change_eq_some.1 hset]
    exact hp
  exact h₂.trans (setImage_pure_bypasses h₂.fenced (h₂.outside hs.sound hthat) h) hs.sound

include hinst in
/-- The inner type of a nilable use takes the part of the definition without nil. -/
theorem instantiateInner_bypasses (hs : Fenced pinned H s) (hthis : s.forest.IsClass this)
    (hthat : Outside H s that) (h : instantiateInner inst this that s = some (r, u)) :
    ∃ H', Bypasses pinned H s H' u := by
  obtain rfl | ⟨-, h⟩ := unless_probe h
  · exact ⟨H, hs.refl⟩
  obtain ⟨source, s₁, hsource, h⟩ := source_of_mayNil hs.sound hthis h
  obtain ⟨H₁, h₁⟩ := source_bypasses hs hthis hsource
  obtain ⟨inner?, s₂, hchild, h⟩ := bind_eq_some.1 h
  obtain ⟨hlooks, hinner⟩ := child_looks h₁.fenced.sound hchild
  have hthat₁ := h₁.outside hs.sound hthat
  have h₂ := h₁.fenced.of_looks hlooks
  obtain ⟨-, hout⟩ := confined_child _ hthat₁.out s₁ _ s₂ h₁.fenced.realm hchild
  cases inner? with
  | none =>
    obtain ⟨-, rfl⟩ := pure_eq_some.1 h
    exact ⟨H₁, h₁.trans h₂ hs.sound⟩
  | some inner =>
    obtain ⟨progress, s₃, hrun, h⟩ := bind_eq_some.1 h
    have hsource₂ := hsource.isClass.of_steady (hlooks.steady h₁.fenced.sound)
    obtain ⟨H₃, h₃⟩ := hinst _ _ _ _ _ _ h₂.fenced hsource₂.lt
      ⟨(hinner inner rfl).lt, hout inner rfl⟩ hrun
    have h₃ := (h₁.trans h₂ hs.sound).trans h₃ hs.sound
    rcases ite_eq_some.1 h with ⟨-, h⟩ | ⟨-, h⟩
    · exact ⟨H₃, h₃.trans (setImage_pure_bypasses h₃.fenced (h₃.outside hs.sound hthat) h) hs.sound⟩
    · obtain ⟨-, rfl⟩ := pure_eq_some.1 h
      exact ⟨H₃, h₃⟩

include hinst in
/-- A field that the use lacks is copied for it, or becomes an error of both. -/
theorem instantiateMissing_bypasses {lhs : TermId} {label : String} {r : Option Bool}
    (hs : Fenced pinned H s) (hlhs : lhs < s.forest.size) (hthat : Outside H s that)
    (h : instantiateMissing inst pinned this that lhs label s = some (r, u)) :
    ∃ H', Bypasses pinned H s H' u := by
  replace h := of_bind_view h
  rcases ite_eq_some.1 h with ⟨-, h⟩ | ⟨-, h⟩
  · obtain rfl | ⟨hwork, h⟩ := unless_probe h
    · exact ⟨H, hs.refl⟩
    obtain ⟨c, s₁, hcopy, h⟩ := bind_eq_some.1 h
    obtain ⟨added, s₂, hadd, h⟩ := bind_eq_some.1 h
    obtain ⟨-, rfl⟩ := pure_eq_some.1 h
    obtain ⟨h₁, hc⟩ := freshCopy_bypasses hs hlhs hcopy
    exact ⟨H, h₁.trans (addField_bypasses h₁.fenced (by rw [h₁.proceeds.probe, hwork])
      (h₁.outside hs.sound hthat) hc hadd) hs.sound⟩
  replace h := of_bind_view h
  rcases ite_eq_some.1 h with ⟨-, h⟩ | ⟨-, h⟩
  · obtain rfl | ⟨hwork, h⟩ := unless_probe h
    · exact ⟨H, hs.refl⟩
    replace h := of_bind_view h
    obtain ⟨error, s₁, halloc, h⟩ := bind_eq_some.1 h
    obtain ⟨changed, s₂, hrun, h⟩ := bind_eq_some.1 h
    obtain ⟨added, s₃, hadd, h⟩ := bind_eq_some.1 h
    obtain ⟨-, rfl⟩ := pure_eq_some.1 h
    obtain ⟨h₁, herror⟩ := alloc_error_bypasses hs halloc
    obtain ⟨H₂, h₂⟩ := hinst _ _ _ _ _ _ h₁.fenced (h₁.proceeds.lt hs.sound hlhs) herror hrun
    have h₂' := h₁.trans h₂ hs.sound
    exact ⟨H₂, h₂'.trans (addField_bypasses h₂'.fenced (by rw [h₂'.proceeds.probe, hwork])
      (h₂'.outside hs.sound hthat) (h₂.outside h₁.fenced.sound herror) hadd) hs.sound⟩
  · obtain ⟨-, rfl⟩ := pure_eq_some.1 h
    exact ⟨H, hs.refl⟩

include hinst in
/-- The children of a definition are instantiated in turn. -/
theorem instantiateSlots_bypasses {slots : List Slot} {progress missing : Bool} {r : SlotOutcome}
    (hs : Fenced pinned H s) (hthat : Outside H s that)
    (h : instantiateSlots inst pinned this slots that progress missing s = some (r, u)) :
    ∃ H', Bypasses pinned H s H' u ∧ ∀ that' p m, r = .ongoing that' p m → Outside H' u that' := by
  induction slots generalizing H that progress missing s with
  | nil =>
    obtain ⟨rfl, rfl⟩ := pure_eq_some.1 h
    refine ⟨H, hs.refl, fun that' p m e => ?_⟩
    cases e
    exact hthat
  | cons slot rest ih =>
    obtain ⟨lhs?, s₁, hchild, h⟩ := bind_eq_some.1 h
    obtain ⟨hlooks₁, hlhs⟩ := child_looks hs.sound hchild
    have h₁ := hs.of_looks hlooks₁
    have hthat₁ := h₁.outside hs.sound hthat
    cases lhs? with
    | none =>
      obtain ⟨H', h', hout⟩ := ih h₁.fenced hthat₁ h
      exact ⟨H', h₁.trans h' hs.sound, hout⟩
    | some lhs =>
      obtain ⟨rhs?, s₂, hchild', h⟩ := bind_eq_some.1 h
      obtain ⟨hlooks₂, hrhs⟩ := child_looks h₁.fenced.sound hchild'
      obtain ⟨-, hrhsOut⟩ := confined_child _ hthat₁.out s₁ _ s₂ h₁.fenced.realm hchild'
      have h₂ := h₁.trans (h₁.fenced.of_looks hlooks₂) hs.sound
      have hthat₂ := h₂.outside hs.sound hthat
      have hlhs₂ := (hlhs lhs rfl).of_steady (hlooks₂.steady h₁.fenced.sound)
      -- Whatever happens to the children, the use is looked up again afterwards.
      obtain ⟨s₃, H₃, h₃, hend | ⟨changed, h⟩⟩ : ∃ s₃ H₃, Bypasses pinned H s₂ H₃ s₃ ∧
          ((r = .finished ∧ s₃ = u) ∨ ∃ changed : Bool, (do
            let that ← find that
            if (← kindOf that).isError then return SlotOutcome.finished
            if (progress || changed) && (← isProbe) then return SlotOutcome.finished
            instantiateSlots inst pinned this rest that (progress || changed)
              (missing || rhs?.isNone)) s₃ = some (r, u)) := by
        cases rhs? with
        | some rhs =>
          obtain ⟨changed, s₃, hrun, h⟩ := bind_eq_some.1 h
          obtain ⟨changed?, s₄, hpure, h⟩ := bind_eq_some.1 h
          obtain ⟨rfl, rfl⟩ := pure_eq_some.1 hpure
          obtain ⟨H₃, h₃⟩ := hinst _ _ _ _ _ _ h₂.fenced hlhs₂.lt
            ⟨(hrhs rhs rfl).lt, hrhsOut rhs rfl⟩ hrun
          exact ⟨s₃, H₃, h₃, Or.inr ⟨changed, h⟩⟩
        | none =>
          cases slot with
          | field label =>
            obtain ⟨changed?, s₃, hmissing, h⟩ := bind_eq_some.1 h
            obtain ⟨H₃, h₃⟩ := instantiateMissing_bypasses hinst h₂.fenced hlhs₂.lt hthat₂ hmissing
            refine ⟨s₃, H₃, h₃, ?_⟩
            cases changed? with
            | none =>
              obtain ⟨rfl, rfl⟩ := pure_eq_some.1 h
              exact Or.inl ⟨rfl, rfl⟩
            | some changed => exact Or.inr ⟨changed, h⟩
          | _ =>
            obtain ⟨changed?, s₃, hpure, h⟩ := bind_eq_some.1 h
            obtain ⟨rfl, rfl⟩ := pure_eq_some.1 hpure
            exact ⟨s₂, H, h₂.fenced.refl, Or.inr ⟨false, h⟩⟩
      · obtain ⟨rfl, rfl⟩ := hend
        exact ⟨H₃, h₂.trans h₃ hs.sound, fun that' p m e => by cases e⟩
      have h₃ := h₂.trans h₃ hs.sound
      have hthat₃ := h₃.outside hs.sound hthat
      obtain ⟨that', s₄, hfind, h⟩ := bind_eq_some.1 h
      obtain ⟨hthat', hlooks₄⟩ := find_outside h₃.fenced hthat₃ hfind
      have h₄ := h₃.trans (h₃.fenced.of_looks hlooks₄) hs.sound
      replace h := of_bind_view h
      rcases ite_eq_some.1 h with ⟨-, h⟩ | ⟨-, h⟩
      · obtain ⟨rfl, rfl⟩ := pure_eq_some.1 h
        exact ⟨H₃, h₄, fun that' p m e => by cases e⟩
      obtain ⟨probing, s₅, hprobe, h⟩ := bind_eq_some.1 h
      obtain ⟨rfl, rfl⟩ := isProbe_eq_some.1 hprobe
      rcases ite_eq_some.1 h with ⟨-, h⟩ | ⟨-, h⟩
      · obtain ⟨rfl, rfl⟩ := pure_eq_some.1 h
        exact ⟨H₃, h₄, fun that' p m e => by cases e⟩
      · obtain ⟨H', h', hout⟩ := ih h₄.fenced hthat' h
        exact ⟨H', h₄.trans h' hs.sound, hout⟩

include hinst in
private theorem instantiateChildren_bypasses (hs : Fenced pinned H s) (hthat : Outside H s that)
    (h : instantiateChildren inst pinned this that s = some (r, u)) :
    ∃ H', Bypasses pinned H s H' u := by
  replace h := of_bind_view h
  replace h := of_bind_view h
  rcases ite_eq_some.1 h with ⟨-, h⟩ | ⟨-, h⟩
  · exact ⟨H, setImage_pure_bypasses hs hthat h⟩
  obtain ⟨v, s₁, hset, h⟩ := bind_eq_some.1 h
  have h₁ := hs.setImage hthat hset
  obtain ⟨outcome, s₂, hrun, h⟩ := bind_eq_some.1 h
  obtain ⟨H₂, h₂, hout⟩ :=
    instantiateSlots_bypasses hinst h₁.fenced (h₁.outside hs.sound hthat) hrun
  have h₂ := h₁.trans h₂ hs.sound
  cases outcome with
  | finished =>
    obtain ⟨-, rfl⟩ := pure_eq_some.1 h
    exact ⟨H₂, h₂⟩
  | ongoing that' progress missing =>
    have hthat' := hout _ _ _ rfl
    obtain ⟨s₃, h₃, rfl | ⟨progress, h⟩⟩ : ∃ s₃, Bypasses pinned H₂ s₂ H₂ s₃ ∧
        (s₃ = u ∨ ∃ progress : Bool, (do
          let refined ← refine this that'
          return progress || refined) s₃ = some (r, u)) := by
      replace h := of_bind_view h
      replace h := of_bind_view h
      rcases ite_eq_some.1 h with ⟨-, h⟩ | ⟨-, h⟩
      · replace h := of_bind_view h
        obtain ⟨progress?, s₃, hdrop, h⟩ := bind_eq_some.1 h
        refine ⟨s₃, h₂.fenced.of_confined (acts_dropExtra _ hthat'.out _ _)
          (dropExtra_proceeds h₂.fenced.sound hdrop) hdrop, ?_⟩
        cases progress? with
        | none =>
          obtain ⟨-, rfl⟩ := pure_eq_some.1 h
          exact Or.inl rfl
        | some progress => exact Or.inr ⟨progress, h⟩
      · obtain ⟨progress?, s₃, hpure, h⟩ := bind_eq_some.1 h
        obtain ⟨rfl, rfl⟩ := pure_eq_some.1 hpure
        exact ⟨s₂, h₂.fenced.refl, Or.inr ⟨progress, h⟩⟩
    · exact ⟨H₂, h₂.trans h₃ hs.sound⟩
    · obtain ⟨refined, s₄, hrefine, h⟩ := bind_eq_some.1 h
      obtain ⟨-, rfl⟩ := pure_eq_some.1 h
      have h₃ := h₂.trans h₃ hs.sound
      have h₄ := h₃.fenced.of_confined (acts_refine this hthat'.out)
        (refine_use_proceeds h₃.fenced.sound hrefine) hrefine
      exact ⟨H₂, h₃.trans h₄ hs.sound⟩

/-- A variable joins a fresh copy of the definition. -/
theorem instantiateVar_bypasses (hs : Fenced pinned H s) (hthis : s.forest.IsClass this)
    (hclass : s.forest.IsClass that) (hthat : Outside H s that)
    (hfresh : s.image.lookup this = none) (hvar : s.forest.kind that = .var)
    (h : (do
      let c ← freshCopy pinned this
      let progress ← merge that c
      setImage this that
      return progress) s = some (r, u)) : Bypasses pinned H s H u := by
  obtain ⟨c, s₁, hcopy, h⟩ := bind_eq_some.1 h
  obtain ⟨progress, s₂, hmerge, h⟩ := bind_eq_some.1 h
  obtain ⟨h₁, hc⟩ := freshCopy_bypasses hs hthis.lt hcopy
  have hp := merge_freshCopy_proceeds hs.sound hthis hclass hfresh hvar hcopy hmerge
  have h₂ := h₁.trans (h₁.fenced.of_confined
    (acts_merge (h₁.outside hs.sound hthat).out hc.out) hp hmerge) hs.sound
  exact h₂.trans (setImage_pure_bypasses h₂.fenced (h₂.outside hs.sound hthat) h) hs.sound

include hinst hconfining hrec in
/-- Two types that are known and not both flows meet by their shapes. -/
theorem instantiateKnown_bypasses (hs : Fenced pinned H s) (hthis : s.forest.IsClass this)
    (hclass : s.forest.IsClass that) (hthat : Outside H s that)
    (h : (do
      if (s.forest.kind this).isNilable && !(s.forest.kind that).isNilable then
        instantiateNilable that
      else if (s.forest.kind that).isNilable && !(s.forest.kind this).isNilable then
        instantiateInner inst this that
      else if (s.forest.kind this).shape ≠ (s.forest.kind that).shape then reject rec this that
      else instantiateChildren inst pinned this that : UnifyM Bool) s = some (r, u)) :
    ∃ H', Bypasses pinned H s H' u := by
  rcases ite_eq_some.1 h with ⟨-, h⟩ | ⟨-, h⟩
  · exact ⟨H, hs.of_confined (acts_instantiateNilable hthat.out)
      (instantiateNilable_proceeds hs.sound hclass h) h⟩
  rcases ite_eq_some.1 h with ⟨-, h⟩ | ⟨-, h⟩
  · exact instantiateInner_bypasses hinst hs hthis hthat h
  rcases ite_eq_some.1 h with ⟨-, h⟩ | ⟨-, h⟩
  · exact ⟨H, reject_bypasses hconfining hrec hs hthat h⟩
  · exact instantiateChildren_bypasses hinst hs hthat h

include hinst hconfining hrec in
/-- One layer of instantiation goes round the fence if the next one does. -/
theorem instantiateStep_bypasses (hs : Fenced pinned H s) (hthis : this < s.forest.size)
    (hthat : Outside H s that) (h : instantiateStep inst rec pinned this that s = some (r, u)) :
    ∃ H', Bypasses pinned H s H' u := by
  obtain ⟨x, s₁, hfind, h⟩ := bind_eq_some.1 h
  obtain ⟨y, s₂, hfind', h⟩ := bind_eq_some.1 h
  obtain ⟨hlooks, -, -, hxc, hyc⟩ := find_both hs.sound hthis hthat.lt hfind hfind'
  obtain ⟨-, hlooks₁⟩ := find_looks hs.sound hfind
  have h₁ := hs.of_looks hlooks₁
  obtain ⟨hy, -⟩ := find_outside h₁.fenced (h₁.outside hs.sound hthat) hfind'
  have h₂ := hs.of_looks hlooks
  suffices ∃ H', Bypasses pinned H s₂ H' u from this.imp fun H' h' => h₂.trans h' hs.sound
  have hs₂ := h₂.fenced
  obtain ⟨image, s₃, himage, h⟩ := bind_eq_some.1 h
  obtain ⟨rfl, rfl⟩ := imageOf_eq_some.1 himage
  cases hprior : s₂.image.lookup x with
  | some prior =>
    -- The definition was instantiated here before.
    simp only [hprior] at h
    obtain ⟨prior', s₃, hfind, h⟩ := bind_eq_some.1 h
    obtain ⟨hout, hlooks₃⟩ := find_outside hs₂ (hs₂.image_outside hprior) hfind
    have h₃ := hs₂.of_looks hlooks₃
    exact ⟨H, h₃.trans (rec_bypasses hconfining hrec h₃.fenced hout (h₃.outside hs₂.sound hy) h)
      hs₂.sound⟩
  | none =>
    simp only [hprior] at h
    obtain ⟨alike, s₃, halike, h⟩ := bind_eq_some.1 h
    have hlooks₃ := looks_onForest (Forest.keepsUp_alike _ _) hs₂.sound halike
    have h₃ := hs₂.of_looks hlooks₃
    suffices ∃ H', Bypasses pinned H s₃ H' u from this.imp fun H' h' => h₃.trans h' hs₂.sound
    have hs₃ := h₃.fenced
    have hxc := hxc.of_steady (hlooks₃.steady hs₂.sound)
    have hyc := hyc.of_steady (hlooks₃.steady hs₂.sound)
    have hfresh : s₃.image.lookup x = none := by rw [hlooks₃.image, hprior]
    have hy := h₃.outside hs₂.sound hy
    rcases ite_eq_some.1 h with ⟨-, h⟩ | ⟨-, h⟩
    · exact ⟨H, setImage_pure_bypasses hs₃ hy h⟩
    replace h := of_bind_view h
    rcases ite_eq_some.1 h with ⟨-, h⟩ | ⟨-, h⟩
    · exact ⟨H, setImage_pure_bypasses hs₃ hy h⟩
    obtain ⟨shared, s₄, hshared, h⟩ := bind_eq_some.1 h
    have hlooks₄ := shared_looks hs₃.sound hshared
    have h₄ := hs₃.of_looks hlooks₄
    suffices ∃ H', Bypasses pinned H s₄ H' u from this.imp fun H' h' => h₄.trans h' hs₃.sound
    have hs₄ := h₄.fenced
    have hxout := shared_outside hs₃ hxc hshared
    have hxc := hxc.of_steady (hlooks₄.steady hs₃.sound)
    have hyc := hyc.of_steady (hlooks₄.steady hs₃.sound)
    have hfresh : s₄.image.lookup x = none := by rw [hlooks₄.image, hfresh]
    have hy := h₄.outside hs₃.sound hy
    rcases ite_eq_some.1 h with ⟨hshares, h⟩ | ⟨-, h⟩
    · -- The definition is an error or pinned, so it lies outside.
      obtain ⟨progress, s₅, hunify, h⟩ := bind_eq_some.1 h
      have h₅ := rec_bypasses hconfining hrec hs₄ ⟨hxc.lt, hxout hshares⟩ hy hunify
      exact ⟨H, h₅.trans (setImage_pure_bypasses h₅.fenced (h₅.outside hs₄.sound hy) h) hs₄.sound⟩
    replace h := of_bind_view h
    replace h := of_bind_view h
    rcases ite_eq_some.1 h with ⟨-, h⟩ | ⟨-, h⟩
    · exact ⟨H, setImage_pure_bypasses hs₄ hy h⟩
    rcases ite_eq_some.1 h with ⟨hvar, h⟩ | ⟨-, h⟩
    · -- The use is a variable and joins a copy.
      rw [Kind.isVar_iff] at hvar
      obtain rfl | ⟨-, h⟩ := unless_probe h
      · exact ⟨H, hs₄.refl⟩
      · exact ⟨H, instantiateVar_bypasses hs₄ hxc hyc hy hfresh hvar h⟩
    cases ha : (s₄.forest.kind x).baseFlow? with
    | none =>
      simp only [ha] at h
      exact instantiateKnown_bypasses hinst hconfining hrec hs₄ hxc hyc hy h
    | some a =>
      cases hb : (s₄.forest.kind y).baseFlow? with
      | none =>
        simp only [ha, hb] at h
        exact instantiateKnown_bypasses hinst hconfining hrec hs₄ hxc hyc hy h
      | some b =>
        simp only [ha, hb] at h
        exact ⟨H, instantiateBase_bypasses hconfining hrec hs₄ hy hyc (Kind.baseFlow?_eq_some.1 hb) h⟩

end Use

/-- The instantiation of a definition goes round the fence around it. -/
theorem instantiateWithin_bypassing (pinned : List TermId) (depth : Nat) :
    Bypassing pinned (instantiateWithin pinned depth) := by
  induction depth with
  | zero => exact fun H s a b r u _ _ _ h => (failure_eq_some.1 h).elim
  | succ depth ih =>
    exact fun H s a b r u hs ha hb h => instantiateStep_bypasses ih (confining_unifyWithin depth)
      (unifyWithin_proceeding depth) hs ha hb h

end Unifier

end TypeFlow
