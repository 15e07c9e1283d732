import TypeFlow.Forest.Instance
import TypeFlow.Proofs.Unifications

/-!
# Instantiations

A use of a definition is unified with a fresh instance of its type, which is made as the use is gone
through.  Making a copy disturbs no class that was there before.  All else that happens to the use
is a row of changes like those of a unification, and it tells whom it disturbs just as well.

Main definitions:

- `Unifier.Copies`: new terms were made, and nothing else happened.

Main results:

- `Unifier.freshCopy_proceeds`: the copy of a type around its pinned parts disturbs nobody.
- `Unifier.instantiateStep_proceeds`: one layer of instantiation proceeds if the next one does.
- `Unifier.instantiate_proceeds`: the instantiation of any definition for any use proceeds.
-/

namespace TypeFlow

/-- The flow of a kind is that of a base. -/
theorem Kind.baseFlow?_eq_some {k : Kind} {flow : Flow} :
    k.baseFlow? = some flow ↔ k = .base flow := by
  cases k <;> simp [baseFlow?]

open Forest (IsClass Steady)

namespace Unifier

variable {s t u : Unifier}

/-! ## Images -/

/-- Looking up an image leaves the state alone. -/
theorem imageOf_eq_some {x : TermId} {c? : Option TermId} :
    imageOf x s = some (c?, u) ↔ s.image.lookup x = c? ∧ s = u := by
  have h : imageOf x s = some (s.image.lookup x, s) := rfl
  rw [h, Option.some.injEq, Prod.mk.injEq]

/-- Images are terms of the forest. -/
theorem Sound.image_lt (hs : s.Sound) {x c : TermId} (h : s.image.lookup x = some c) :
    c < s.forest.size := by
  obtain ⟨l₁, l₂, himage, -⟩ := List.lookup_eq_some_iff.1 h
  refine hs.image (x, c) ?_
  rw [himage]
  exact List.mem_append_right _ List.mem_cons_self

/-- What a class of the definition became may be recorded. -/
theorem setImage_proceeds (hs : s.Sound) {x c : TermId} {v : Unit} (hc : c < s.forest.size)
    (h : setImage x c s = some (v, u)) : Proceeds s u ∧ u.forest = s.forest := by
  obtain rfl := modify_eq_some.1 h
  refine ⟨.of_memory hs fun p hp => ?_, rfl⟩
  rcases List.mem_cons.1 hp with rfl | hp
  · exact hc
  · exact hs.image p hp

/-- An instantiation ends by recording what the definition became. -/
theorem setImage_pure_proceeds (hs : s.Sound) {x c : TermId} {b r : Bool} (hc : c < s.forest.size)
    (h : (setImage x c >>= fun _ => pure b) s = some (r, u)) : Proceeds s u := by
  obtain ⟨v, s₁, hset, h⟩ := bind_eq_some.1 h
  obtain ⟨-, rfl⟩ := pure_eq_some.1 h
  exact (setImage_proceeds hs hc hset).1

/-! ## Copies -/

/-- New terms were made from a position on, and nothing else happened. -/
structure Copies (base : Nat) (s u : Unifier) : Prop where
  sound : u.Sound
  work : u.work = s.work
  sprouts : Relation.ReflTransGen (Forest.Sprout base) s.forest u.forest

namespace Copies

variable {base : Nat}

private theorem refl (hs : s.Sound) : Copies base s s := ⟨hs, rfl, .refl⟩

private theorem trans (h : Copies base s t) (h' : Copies base t u) : Copies base s u :=
  ⟨h'.sound, h'.work.trans h.work, h.sprouts.trans h'.sprouts⟩

private theorem of_looks (hs : s.Sound) (h : Looks s u) : Copies base s u :=
  ⟨(h.proceeds hs).sound, h.work,
    Relation.ReflTransGen.mono (fun _ _ hup => .upkeep hup) _ _ h.upkeeps⟩

/-- Making one new term is copying. -/
theorem single {f : Forest} (hs : s.Sound) (h : Forest.Sprout base s.forest f) :
    Copies base s { s with forest := f } where
  sound := ⟨h.sound hs.forest, fun p hp =>
    Nat.lt_of_lt_of_le (hs.image p hp) (h.steady hs.forest.rooted).size⟩
  work := rfl
  sprouts := .single h

private theorem setImage {x c : TermId} {v : Unit} (hs : s.Sound) (hc : c < s.forest.size)
    (h : setImage x c s = some (v, u)) : Copies base s u ∧ u.forest = s.forest := by
  obtain ⟨hp, hforest⟩ := setImage_proceeds hs hc h
  obtain rfl := modify_eq_some.1 h
  exact ⟨⟨hp.sound, rfl, .refl⟩, rfl⟩

/-- New terms move no term to another class. -/
theorem steady (hs : s.Sound) (h : Copies base s u) : Steady s.forest u.forest := by
  have hsteady : ∀ f, Relation.ReflTransGen (Forest.Sprout base) s.forest f →
      Steady s.forest f := by
    intro f hf
    induction hf with
    | refl => exact .refl hs.forest.rooted
    | tail _ hstep ih => exact ih.trans (hstep.steady ih.rooted)
  exact hsteady _ h.sprouts

private theorem size (hs : s.Sound) (h : Copies base s u) : s.forest.size ≤ u.forest.size :=
  (h.steady hs).size

end Copies

section Copy

variable {base : Nat}

/-- The children of a copy are copied in turn. -/
theorem copySlots_copies {duplicate : TermId → UnifyM TermId}
    (hduplicate : ∀ x s y u, s.Sound → x < s.forest.size → base ≤ s.forest.size →
      duplicate x s = some (y, u) → Copies base s u ∧ y < u.forest.size)
    {x c : TermId} {slots : List Slot} {v : Unit} (hs : s.Sound) (hbase : base ≤ s.forest.size)
    (hc : base ≤ c) (h : copySlots duplicate x c slots s = some (v, u)) : Copies base s u := by
  induction slots generalizing s with
  | nil =>
    obtain ⟨-, rfl⟩ := pure_eq_some.1 h
    exact .refl hs
  | cons slot rest ih =>
    obtain ⟨child?, s₁, hchild, h⟩ := bind_eq_some.1 h
    obtain ⟨hlooks, hclass⟩ := child_looks hs hchild
    have hc₁ : Copies base s s₁ := .of_looks hs hlooks
    have hbase₁ := Nat.le_trans hbase (hc₁.size hs)
    cases child? with
    | none => exact hc₁.trans (ih hc₁.sound hbase₁ h)
    | some y =>
      obtain ⟨z, s₂, hcopy, h⟩ := bind_eq_some.1 h
      obtain ⟨v', s₃, hgraft, h⟩ := bind_eq_some.1 h
      obtain ⟨hc₂, hz⟩ := hduplicate _ _ _ _ hc₁.sound (hclass y rfl).lt hbase₁ hcopy
      obtain rfl := change_eq_some.1 hgraft
      have hc₃ : Copies base s₂ { s₂ with forest := s₂.forest.setChild c slot z } :=
        .single hc₂.sound (.graft hc hz)
      have hall := (hc₁.trans hc₂).trans hc₃
      exact hall.trans (ih hall.sound (Nat.le_trans hbase (hall.size hs)) h)

/-- A type is copied class by class.  The copy is a class of its own unless there was one before. -/
theorem freshCopyWithin_copies {pinned : List TermId} {fuel : Nat} {x c : TermId} (hs : s.Sound)
    (hx : x < s.forest.size) (hbase : base ≤ s.forest.size)
    (h : freshCopyWithin pinned fuel x s = some (c, u)) :
    Copies base s u ∧ c < u.forest.size ∧
      (s.image.lookup (s.forest.rep x) = none → u.forest.IsClass c) := by
  induction fuel generalizing s u x c with
  | zero => exact (failure_eq_some.1 h).elim
  | succ fuel ih =>
    obtain ⟨r, s₁, hfind, h⟩ := bind_eq_some.1 h
    have hr := isClass_of_find hs hx hfind
    obtain ⟨rfl, hlooks₁⟩ := find_looks hs hfind
    have hc₁ : Copies base s s₁ := .of_looks hs hlooks₁
    obtain ⟨image, s₂, himage, h⟩ := bind_eq_some.1 h
    obtain ⟨rfl, rfl⟩ := imageOf_eq_some.1 himage
    rw [hlooks₁.image] at h
    cases hknown : s.image.lookup (s.forest.rep x) with
    | some prior =>
      simp only [hknown] at h
      obtain ⟨rfl, rfl⟩ := pure_eq_some.1 h
      refine ⟨hc₁, hc₁.sound.image_lt (x := s.forest.rep x) ?_, fun hnone => ?_⟩
      · rw [hlooks₁.image, hknown]
      · cases hnone
    | none =>
      simp only [hknown] at h
      obtain ⟨occurs, s₂, hoccurs, h⟩ := bind_eq_some.1 h
      have hlooks₂ := looks_onForest (Forest.keepsUp_occursInAny _ _) hc₁.sound hoccurs
      have hc₂ : Copies base s s₂ := hc₁.trans (.of_looks hc₁.sound hlooks₂)
      have hr := hr.of_steady (hlooks₂.steady hc₁.sound)
      rcases ite_eq_some.1 h with ⟨-, h⟩ | ⟨-, h⟩
      · obtain ⟨v, s₃, hset, h⟩ := bind_eq_some.1 h
        obtain ⟨rfl, rfl⟩ := pure_eq_some.1 h
        obtain ⟨hc₃, hforest⟩ : Copies base s₂ s₃ ∧ s₃.forest = s₂.forest :=
          Copies.setImage hc₂.sound hr.lt hset
        rw [hforest]
        exact ⟨hc₂.trans hc₃, hr.lt, fun _ => hr⟩
      obtain ⟨c', s₃, hcopy, h⟩ := bind_eq_some.1 h
      obtain ⟨rfl, rfl⟩ := copy_eq_some.1 hcopy
      replace h := of_bind_view h
      -- The copy of a variable forgets who was registered with it.
      obtain ⟨term, hterm, h⟩ : ∃ term : Term, term.kind = s₂.forest.kind (s.forest.rep x) ∧ (do
          setImage (s.forest.rep x) s₂.forest.size
          copySlots (freshCopyWithin pinned fuel) (s.forest.rep x) s₂.forest.size
            ((s₂.forest.add (s₂.forest.terms[s.forest.rep x]?.getD default)).2.kind
              (s.forest.rep x)).slots
          return s₂.forest.size) { s₂ with forest := (s₂.forest.add term).2 } = some (c, u) := by
        rcases ite_eq_some.1 h with ⟨-, h⟩ | ⟨-, h⟩
        · obtain ⟨v, s₄, hclear, h⟩ := bind_eq_some.1 h
          obtain rfl := change_eq_some.1 hclear
          dsimp only at h
          rw [Forest.update_add] at h
          exact ⟨{ s₂.forest.terms[s.forest.rep x]?.getD default with deps := .empty },
            Forest.kind_getD _ _, h⟩
        · exact ⟨_, Forest.kind_getD _ _, h⟩
      have hadd : Copies base s₂ { s₂ with forest := (s₂.forest.add term).2 } := by
        refine .single hc₂.sound (.add (by rw [hterm, hr.root]) fun y hy => ?_)
        rw [hterm] at hy
        exact hc₂.sound.forest.inRange _ y hy
      have hnew : (s₂.forest.add term).2.IsClass s₂.forest.size := by
        refine ⟨?_, ?_⟩
        · rw [Forest.size_add]
          exact Nat.lt_succ_self _
        · rw [Forest.kind_add, if_pos rfl, hterm, hr.root]
      have hbase₂ := Nat.le_trans hbase (hc₂.size hs)
      obtain ⟨v, s₄, hset, h⟩ := bind_eq_some.1 h
      obtain ⟨v', s₅, hslots, h⟩ := bind_eq_some.1 h
      obtain ⟨rfl, rfl⟩ := pure_eq_some.1 h
      obtain ⟨hc₄, hforest⟩ : Copies base _ s₄ ∧ s₄.forest = (s₂.forest.add term).2 :=
        Copies.setImage hadd.sound hnew.lt hset
      have hc₄ := hadd.trans hc₄
      have hc₅ : Copies base s₄ s₅ := copySlots_copies
        (fun y s z u hs hy hb hz => (ih hs hy hb hz).imp_right And.left) hc₄.sound
        (Nat.le_trans hbase₂ (hc₄.size hc₂.sound)) hbase₂ hslots
      have hclass : s₅.forest.IsClass s₂.forest.size := by
        refine IsClass.of_steady ?_ (hc₅.steady hc₄.sound)
        rw [hforest]
        exact hnew
      exact ⟨(hc₂.trans hc₄).trans hc₅, hclass.lt, fun _ => hclass⟩

/-- The copy of a type around its pinned parts disturbs nobody. -/
theorem freshCopy_proceeds {pinned : List TermId} {x c : TermId} (hs : s.Sound)
    (hx : x < s.forest.size) (h : freshCopy pinned x s = some (c, u)) :
    Proceeds s u ∧ Steady s.forest u.forest ∧ c < u.forest.size ∧
      (s.image.lookup (s.forest.rep x) = none → u.forest.IsClass c) ∧
      ∀ y, y < s.forest.size → s.forest.Calm y →
        (s.forest.kind y).Refreshed s.forest.rep (u.forest.kind y) := by
  replace h := of_bind_view h
  obtain ⟨hc, hlt, hclass⟩ := freshCopyWithin_copies hs hx le_rfl h
  have hsprouts : s.forest.Sprouts u.forest := hc.sprouts
  exact ⟨⟨hc.sound, by rw [hc.work], fun n hn => by rwa [hc.work], .of_sprouts hs.forest hsprouts⟩,
    hc.steady hs, hlt, hclass, fun y hy hcalm => hsprouts.refreshed hs.forest hy hcalm⟩

/-- The copy of a type is new, unless the type is pinned or was copied before. -/
theorem freshCopy_new {pinned : List TermId} {x c : TermId} (hs : s.Sound)
    (hx : s.image.lookup (s.forest.rep x) = none) (h : freshCopy pinned x s = some (c, u)) :
    c = s.forest.rep x ∨ s.forest.size ≤ c := by
  replace h := of_bind_view h
  obtain ⟨r, s₁, hfind, h⟩ := bind_eq_some.1 h
  obtain ⟨rfl, hlooks₁⟩ := find_looks hs hfind
  have hs₁ := (hlooks₁.proceeds hs).sound
  obtain ⟨image, s₂, himage, h⟩ := bind_eq_some.1 h
  obtain ⟨rfl, rfl⟩ := imageOf_eq_some.1 himage
  rw [hlooks₁.image, hx] at h
  obtain ⟨occurs, s₂, hoccurs, h⟩ := bind_eq_some.1 h
  have hlooks₂ := hlooks₁.trans (looks_onForest (Forest.keepsUp_occursInAny _ _) hs₁ hoccurs)
  rcases ite_eq_some.1 h with ⟨-, h⟩ | ⟨-, h⟩
  · obtain ⟨v, s₃, -, h⟩ := bind_eq_some.1 h
    exact Or.inl (pure_eq_some.1 h).1.symm
  obtain ⟨c', s₃, hcopy, h⟩ := bind_eq_some.1 h
  obtain ⟨rfl, -⟩ := copy_eq_some.1 hcopy
  replace h := of_bind_view h
  have hlast : ∀ s₄, (do
      setImage (s.forest.rep x) s₂.forest.size
      copySlots (freshCopyWithin pinned s.forest.size) (s.forest.rep x) s₂.forest.size
        (s₃.forest.kind (s.forest.rep x)).slots
      return s₂.forest.size) s₄ = some (c, u) → c = s₂.forest.size := by
    intro s₄ h
    obtain ⟨v, s₅, -, h⟩ := bind_eq_some.1 h
    obtain ⟨v', s₆, -, h⟩ := bind_eq_some.1 h
    exact (pure_eq_some.1 h).1.symm
  refine Or.inr ?_
  rw [← hlooks₂.upkeeps.size]
  rcases ite_eq_some.1 h with ⟨-, h⟩ | ⟨-, h⟩
  · obtain ⟨v, s₄, -, h⟩ := bind_eq_some.1 h
    exact (hlast s₄ h).ge
  · exact (hlast s₃ h).ge

end Copy

/-! ## Uses -/

/-- What is taken over from a definition refines the use, which is known. -/
theorem refinedKind?_refines {this that k : Kind} (h : refinedKind? this that = some k) :
    that.Refines k ∧ that ≠ .var := by
  unfold refinedKind? at h
  split at h
  · dsimp only at h
    split at h
    · cases h
      exact ⟨⟨rfl, rfl, .function rfl (fun x hx => IdSet.mem_union.2 (Or.inr hx))
        (by simp +contextual), fun _ hx => hx⟩, Kind.noConfusion⟩
    · cases h
  · dsimp only at h
    split at h
    · cases h
      exact ⟨⟨rfl, rfl, .record (fun x hx => IdSet.mem_union.2 (Or.inr hx)) (by simp +contextual)
        (by simp +contextual), fun _ hx => hx⟩, Kind.noConfusion⟩
    · cases h
  · cases h

/-- Taking over function ids, sites and marks proceeds. -/
theorem refine_use_proceeds {this that : TermId} {r : Bool} (hs : s.Sound)
    (h : refine this that s = some (r, u)) : Proceeds s u := by
  replace h := of_bind_view h
  replace h := of_bind_view h
  cases hrefined : refinedKind? (s.forest.kind this) (s.forest.kind that) with
  | none =>
    simp only [hrefined] at h
    obtain ⟨-, rfl⟩ := pure_eq_some.1 h
    exact .refl hs
  | some kind =>
    simp only [hrefined] at h
    obtain rfl | ⟨hwork, h⟩ := unless_probe h
    · exact .refl hs
    obtain ⟨v, s₁, hset, h⟩ := bind_eq_some.1 h
    obtain ⟨v', s₂, hwake, h⟩ := bind_eq_some.1 h
    obtain ⟨-, rfl⟩ := pure_eq_some.1 h
    obtain ⟨hrefines, hne⟩ := refinedKind?_refines hrefined
    rw [wake_eq_some.1 hwake, change_eq_some.1 hset]
    exact refine_proceeds hs hwork
      ⟨Forest.lt_size_of_kind hne, hrefines.root⟩ hrefines

section Use

variable {inst rec : TermId → TermId → UnifyM Bool} (hinst : Proceeding inst)
  (hrec : Proceeding rec) {this that : TermId} {r : Bool}

include hrec in
private theorem reject_proceeds (hs : s.Sound) (hthat : that < s.forest.size)
    (h : reject rec this that s = some (r, u)) : Proceeds s u := by
  obtain rfl | ⟨hwork, h⟩ := unless_probe h
  · exact .refl hs
  replace h := of_bind_view h
  obtain ⟨error, s₁, halloc, h⟩ := bind_eq_some.1 h
  obtain ⟨progress, s₂, hunify, h⟩ := bind_eq_some.1 h
  obtain ⟨hp₁, -, herror, -⟩ := alloc_error_proceeds hs halloc
  have hp₂ := hp₁.trans (hrec _ _ _ _ _ hp₁.sound (hp₁.lt hs hthat) herror.lt hunify)
  exact hp₂.trans (setImage_pure_proceeds hp₂.sound (hp₂.lt hs hthat) h)

include hrec in
private theorem instantiateBase_proceeds {a b : Flow} (hs : s.Sound) (hthat : s.forest.IsClass that)
    (hb : s.forest.kind that = .base b) (h : instantiateBase rec this that a b s = some (r, u)) :
    Proceeds s u := by
  unfold instantiateBase at h
  rcases ite_eq_some.1 h with ⟨-, h⟩ | ⟨-, h⟩
  · exact reject_proceeds hrec hs hthat.lt h
  rcases ite_eq_some.1 h with ⟨-, h⟩ | ⟨-, h⟩
  · exact setImage_pure_proceeds hs hthat.lt h
  obtain rfl | ⟨hwork, h⟩ := unless_probe h
  · exact .refl hs
  obtain ⟨v₁, s₁, hset, h⟩ := bind_eq_some.1 h
  obtain ⟨v₂, s₂, hwake, h⟩ := bind_eq_some.1 h
  have hrefines : (s.forest.kind that).Refines (.base (a.meet b)) := by
    rw [hb]
    exact ⟨rfl, rfl, .base (Flow.covers_meet_right a b), fun _ hx => hx⟩
  obtain rfl := change_eq_some.1 hset
  obtain rfl := wake_eq_some.1 hwake
  have hp := refine_proceeds hs hwork hthat hrefines
  exact hp.trans (setImage_pure_proceeds hp.sound (hp.lt hs hthat.lt) h)

/-- Marking a use nilable proceeds. -/
theorem instantiateNilable_proceeds (hs : s.Sound) (hthat : s.forest.IsClass that)
    (h : instantiateNilable that s = some (r, u)) : Proceeds s u := by
  replace h := of_bind_view h
  rcases ite_eq_some.1 h with ⟨-, h⟩ | ⟨-, h⟩
  · obtain ⟨-, rfl⟩ := pure_eq_some.1 h
    exact .refl hs
  obtain rfl | ⟨hwork, h⟩ := unless_probe h
  · exact .refl hs
  obtain ⟨v, s₁, hset, h⟩ := bind_eq_some.1 h
  obtain ⟨v', s₂, hwake, h⟩ := bind_eq_some.1 h
  obtain ⟨-, rfl⟩ := pure_eq_some.1 h
  rw [wake_eq_some.1 hwake, change_eq_some.1 hset]
  refine refine_proceeds hs hwork hthat
    ⟨hthat.root, ?_, Kind.accrues_orNil hthat.root, fun x hx => ?_⟩
  · rw [Kind.isLink_orNil, hthat.root]
  · rwa [Kind.children_orNil] at hx

/-- The source is the part of a definition without nil: the definition or a new copy of it. -/
structure Source (this source : TermId) (s u : Unifier) : Prop where
  proceeds : Proceeds s u
  steady : Steady s.forest u.forest
  met : u.met = s.met
  image : u.image = s.image
  kinds : ∀ y, y < s.forest.size → u.forest.kind y = s.forest.kind y
  isClass : u.forest.IsClass source
  new : source = this ∨ s.forest.size ≤ source
  known : s.forest.kind this ≠ .var → u.forest.kind source ≠ .var
  form : source = this ∧ u = s ∨ (s.forest.kind this).mayNil = true ∧ source = s.forest.size ∧
    ∃ term : Term, term.kind = (s.forest.kind this).withoutNil ∧ u = { s with forest := (s.forest.add term).2 }

/-- The forest is what it was, but for a new term. -/
theorem Source.forest {this source : TermId} (h : Source this source s u) :
    u.forest = s.forest ∨ ∃ term : Term, term.kind = (s.forest.kind this).withoutNil ∧
      u.forest = (s.forest.add term).2 := by
  rcases h.form with ⟨-, rfl⟩ | ⟨-, -, term, hterm, rfl⟩
  · exact Or.inl rfl
  · exact Or.inr ⟨term, hterm, rfl⟩

/-- The part of a definition without nil is the definition itself or a copy. -/
theorem source_of_mayNil {rest : TermId → UnifyM Bool} (hs : s.Sound)
    (hthis : s.forest.IsClass this) (h : (do
      if (← kindOf this).mayNil then
        let c ← copy this
        change fun f => f.setKind c (f.kind c).withoutNil
        let source ← pure c
        rest source
      else
        let source ← pure this
        rest source) s = some (r, u)) :
    ∃ source s₁, Source this source s s₁ ∧ rest source s₁ = some (r, u) := by
  replace h := of_bind_view h
  rcases ite_eq_some.1 h with ⟨hnil, h⟩ | ⟨-, h⟩
  · obtain ⟨c, s₁, hcopy, h⟩ := bind_eq_some.1 h
    obtain ⟨v, s₂, hset, h⟩ := bind_eq_some.1 h
    obtain ⟨hp, hsteady, hc, hkc, hold⟩ := withStripped_proceeds hs hthis
    obtain ⟨rfl, rfl⟩ := copy_eq_some.1 hcopy
    obtain rfl := change_eq_some.1 hset
    obtain ⟨c', s₃, hpure, h⟩ := bind_eq_some.1 h
    obtain ⟨rfl, rfl⟩ := pure_eq_some.1 hpure
    dsimp only at h
    rw [Forest.setKind_copy] at h
    refine ⟨_, _, ⟨hp, hsteady, rfl, rfl, fun y hy => (hold y hy).1, hc, Or.inr le_rfl,
      fun hknown => ?_, Or.inr ⟨hnil, rfl, _, rfl, rfl⟩⟩, h⟩
    rw [hkc]
    cases hk : s.forest.kind this <;> first | exact Kind.noConfusion | exact absurd hk hknown
  · obtain ⟨c', s₃, hpure, h⟩ := bind_eq_some.1 h
    obtain ⟨rfl, rfl⟩ := pure_eq_some.1 hpure
    exact ⟨this, s, ⟨.refl hs, .refl hs.forest.rooted, rfl, rfl, fun _ _ => rfl, hthis, Or.inl rfl,
      id, Or.inl ⟨rfl, rfl⟩⟩, h⟩

include hinst in
/-- The inner type of a nilable use takes the part of the definition without nil. -/
theorem instantiateInner_proceeds (hs : s.Sound) (hthis : s.forest.IsClass this)
    (hthat : s.forest.IsClass that) (h : instantiateInner inst this that s = some (r, u)) :
    Proceeds s u := by
  obtain rfl | ⟨hwork, h⟩ := unless_probe h
  · exact .refl hs
  obtain ⟨source, s₁, hcopy, h⟩ := source_of_mayNil hs hthis h
  have hp₁ := hcopy.proceeds
  obtain ⟨inner?, s₂, hchild, h⟩ := bind_eq_some.1 h
  obtain ⟨hlooks, hinner⟩ := child_looks hp₁.sound hchild
  have hp₂ := hp₁.trans (hlooks.proceeds hp₁.sound)
  cases inner? with
  | none =>
    obtain ⟨-, rfl⟩ := pure_eq_some.1 h
    exact hp₂
  | some inner =>
    obtain ⟨progress, s₃, hrun, h⟩ := bind_eq_some.1 h
    have hsource₂ := hcopy.isClass.of_steady (hlooks.steady hp₁.sound)
    have hp₃ := hp₂.trans
      (hinst _ _ _ _ _ hp₂.sound hsource₂.lt (hinner inner rfl).lt hrun)
    rcases ite_eq_some.1 h with ⟨-, h⟩ | ⟨-, h⟩
    · exact hp₃.trans (setImage_pure_proceeds hp₃.sound (hp₃.lt hs hthat.lt) h)
    · obtain ⟨-, rfl⟩ := pure_eq_some.1 h
      exact hp₃

include hinst in
/-- A field that the use lacks is copied for it, or becomes an error of both. -/
theorem instantiateMissing_proceeds {pinned : List TermId} {lhs : TermId} {label : String}
    {r : Option Bool} (hs : s.Sound) (hlhs : lhs < s.forest.size)
    (h : instantiateMissing inst pinned this that lhs label s = some (r, u)) : Proceeds s u := by
  replace h := of_bind_view h
  rcases ite_eq_some.1 h with ⟨-, h⟩ | ⟨-, h⟩
  · obtain rfl | ⟨hwork, h⟩ := unless_probe h
    · exact .refl hs
    obtain ⟨c, s₁, hcopy, h⟩ := bind_eq_some.1 h
    obtain ⟨added, s₂, hadd, h⟩ := bind_eq_some.1 h
    obtain ⟨-, rfl⟩ := pure_eq_some.1 h
    obtain ⟨hp₁, -, hc, -⟩ := freshCopy_proceeds hs hlhs hcopy
    have hwork₁ : s₁.work.isNone = false := by rw [hp₁.probe, hwork]
    exact hp₁.trans (addField_proceeds hp₁.sound hwork₁ hc hadd).1
  replace h := of_bind_view h
  rcases ite_eq_some.1 h with ⟨-, h⟩ | ⟨-, h⟩
  · obtain rfl | ⟨hwork, h⟩ := unless_probe h
    · exact .refl hs
    replace h := of_bind_view h
    obtain ⟨error, s₁, halloc, h⟩ := bind_eq_some.1 h
    obtain ⟨changed, s₂, hrun, h⟩ := bind_eq_some.1 h
    obtain ⟨added, s₃, hadd, h⟩ := bind_eq_some.1 h
    obtain ⟨-, rfl⟩ := pure_eq_some.1 h
    obtain ⟨hp₁, -, herror, -⟩ := alloc_error_proceeds hs halloc
    have hp₂ := hinst _ _ _ _ _ hp₁.sound (hp₁.lt hs hlhs) herror.lt hrun
    have hwork₂ : s₂.work.isNone = false := by
      rw [hp₂.probe, hp₁.probe, hwork]
    exact (hp₁.trans hp₂).trans
      (addField_proceeds hp₂.sound hwork₂ (hp₂.lt hp₁.sound herror.lt) hadd).1
  · obtain ⟨-, rfl⟩ := pure_eq_some.1 h
    exact .refl hs

include hinst in
/-- The children of a definition are instantiated in turn. -/
theorem instantiateSlots_proceeds {pinned : List TermId} {slots : List Slot}
    {progress missing : Bool} {r : SlotOutcome} (hs : s.Sound)
    (h : instantiateSlots inst pinned this slots that progress missing s = some (r, u)) :
    Proceeds s u := by
  induction slots generalizing that progress missing s with
  | nil =>
    obtain ⟨-, rfl⟩ := pure_eq_some.1 h
    exact .refl hs
  | cons slot rest ih =>
    obtain ⟨lhs?, s₁, hchild, h⟩ := bind_eq_some.1 h
    obtain ⟨hlooks₁, hlhs⟩ := child_looks hs hchild
    have hp₁ := hlooks₁.proceeds hs
    cases lhs? with
    | none => exact hp₁.trans (ih hp₁.sound h)
    | some lhs =>
      obtain ⟨rhs?, s₂, hchild', h⟩ := bind_eq_some.1 h
      obtain ⟨hlooks₂, hrhs⟩ := child_looks hp₁.sound hchild'
      have hp₂ := hp₁.trans (hlooks₂.proceeds hp₁.sound)
      have hlhs₂ := (hlhs lhs rfl).of_steady (hlooks₂.steady hp₁.sound)
      -- Whatever happens to the children, the use is looked up again afterwards.
      obtain ⟨s₃, hp₃, rfl | ⟨changed, h⟩⟩ : ∃ s₃, Proceeds s₂ s₃ ∧
          (s₃ = u ∨ ∃ changed : Bool, (do
            let that ← find that
            if (← kindOf that).isError then return SlotOutcome.finished
            if (progress || changed) && (← isProbe) then return SlotOutcome.finished
            instantiateSlots inst pinned this rest that (progress || changed)
              (missing || rhs?.isNone)) s₃ = some (r, u)) := by
        cases rhs? with
        | some rhs =>
          obtain ⟨changed, s₃, hrun, h⟩ := bind_eq_some.1 h
          obtain ⟨changed?, s₄, hpure, h⟩ := bind_eq_some.1 h
          obtain ⟨rfl, rfl⟩ := pure_eq_some.1 hpure
          exact ⟨s₃, hinst _ _ _ _ _ hp₂.sound hlhs₂.lt (hrhs rhs rfl).lt hrun,
            Or.inr ⟨changed, h⟩⟩
        | none =>
          cases slot with
          | field label =>
            obtain ⟨changed?, s₃, hmissing, h⟩ := bind_eq_some.1 h
            refine ⟨s₃, instantiateMissing_proceeds hinst hp₂.sound hlhs₂.lt hmissing, ?_⟩
            cases changed? with
            | none =>
              obtain ⟨-, rfl⟩ := pure_eq_some.1 h
              exact Or.inl rfl
            | some changed => exact Or.inr ⟨changed, h⟩
          | _ =>
            obtain ⟨changed?, s₃, hpure, h⟩ := bind_eq_some.1 h
            obtain ⟨rfl, rfl⟩ := pure_eq_some.1 hpure
            exact ⟨s₂, .refl hp₂.sound, Or.inr ⟨false, h⟩⟩
      · exact hp₂.trans hp₃
      have hp₃ := hp₂.trans hp₃
      obtain ⟨that', s₄, hfind, h⟩ := bind_eq_some.1 h
      obtain ⟨-, hlooks₄⟩ := find_looks hp₃.sound hfind
      have hp₄ := hp₃.trans (hlooks₄.proceeds hp₃.sound)
      replace h := of_bind_view h
      rcases ite_eq_some.1 h with ⟨-, h⟩ | ⟨-, h⟩
      · obtain ⟨-, rfl⟩ := pure_eq_some.1 h
        exact hp₄
      obtain ⟨probing, s₅, hprobe, h⟩ := bind_eq_some.1 h
      obtain ⟨rfl, rfl⟩ := isProbe_eq_some.1 hprobe
      rcases ite_eq_some.1 h with ⟨-, h⟩ | ⟨-, h⟩
      · obtain ⟨-, rfl⟩ := pure_eq_some.1 h
        exact hp₄
      · exact hp₄.trans (ih hp₄.sound h)

/-- Dropping what a closed definition lacks proceeds. -/
theorem dropExtra_proceeds {labels : List String} {progress : Bool} {r : Option Bool}
    (hs : s.Sound) (h : dropExtra this that labels progress s = some (r, u)) : Proceeds s u := by
  induction labels generalizing progress s with
  | nil =>
    obtain ⟨-, rfl⟩ := pure_eq_some.1 h
    exact .refl hs
  | cons label rest ih =>
    replace h := of_bind_view h
    rcases ite_eq_some.1 h with ⟨-, h⟩ | ⟨-, h⟩
    · exact ih hs h
    obtain ⟨child?, s₁, hchild, h⟩ := bind_eq_some.1 h
    obtain ⟨hlooks, -⟩ := child_looks hs hchild
    have hp₁ := hlooks.proceeds hs
    obtain ⟨keep, h⟩ : ∃ keep : Bool, (if keep then dropExtra this that rest progress else do
        if ← isProbe then return none
        else
          let changed ← dropField that label
          dropExtra this that rest (progress || changed)) s₁ = some (r, u) := by
      cases child? with
      | none =>
        obtain ⟨keep, s₂, hpure, h⟩ := bind_eq_some.1 h
        obtain ⟨rfl, rfl⟩ := pure_eq_some.1 hpure
        exact ⟨_, h⟩
      | some x =>
        replace h := of_bind_view h
        obtain ⟨keep, s₂, hpure, h⟩ := bind_eq_some.1 h
        obtain ⟨rfl, rfl⟩ := pure_eq_some.1 hpure
        exact ⟨_, h⟩
    rcases ite_eq_some.1 h with ⟨-, h⟩ | ⟨-, h⟩
    · exact hp₁.trans (ih hp₁.sound h)
    obtain rfl | ⟨hwork, h⟩ := unless_probe h
    · exact hp₁
    obtain ⟨changed, s₂, hdrop, h⟩ := bind_eq_some.1 h
    have hp₂ := hp₁.trans (dropField_proceeds hp₁.sound hwork hdrop).1
    exact hp₂.trans (ih hp₂.sound h)

include hinst in
private theorem instantiateChildren_proceeds {pinned : List TermId} (hs : s.Sound)
    (hthat : that < s.forest.size)
    (h : instantiateChildren inst pinned this that s = some (r, u)) : Proceeds s u := by
  replace h := of_bind_view h
  replace h := of_bind_view h
  rcases ite_eq_some.1 h with ⟨-, h⟩ | ⟨-, h⟩
  · exact setImage_pure_proceeds hs hthat h
  obtain ⟨v, s₁, hset, h⟩ := bind_eq_some.1 h
  obtain ⟨hp₁, -⟩ := setImage_proceeds hs hthat hset
  obtain ⟨outcome, s₂, hrun, h⟩ := bind_eq_some.1 h
  have hp₂ := hp₁.trans (instantiateSlots_proceeds hinst hp₁.sound hrun)
  cases outcome with
  | finished =>
    obtain ⟨-, rfl⟩ := pure_eq_some.1 h
    exact hp₂
  | ongoing that' progress missing =>
    obtain ⟨s₃, hp₃, rfl | ⟨progress, h⟩⟩ : ∃ s₃, Proceeds s₂ s₃ ∧
        (s₃ = u ∨ ∃ progress : Bool, (do
          let refined ← refine this that'
          return progress || refined) s₃ = some (r, u)) := by
      replace h := of_bind_view h
      replace h := of_bind_view h
      rcases ite_eq_some.1 h with ⟨-, h⟩ | ⟨-, h⟩
      · replace h := of_bind_view h
        obtain ⟨progress?, s₃, hdrop, h⟩ := bind_eq_some.1 h
        refine ⟨s₃, dropExtra_proceeds hp₂.sound hdrop, ?_⟩
        cases progress? with
        | none =>
          obtain ⟨-, rfl⟩ := pure_eq_some.1 h
          exact Or.inl rfl
        | some progress => exact Or.inr ⟨progress, h⟩
      · obtain ⟨progress?, s₃, hpure, h⟩ := bind_eq_some.1 h
        obtain ⟨rfl, rfl⟩ := pure_eq_some.1 hpure
        exact ⟨s₂, .refl hp₂.sound, Or.inr ⟨progress, h⟩⟩
    · exact hp₂.trans hp₃
    · obtain ⟨refined, s₄, hrefine, h⟩ := bind_eq_some.1 h
      obtain ⟨-, rfl⟩ := pure_eq_some.1 h
      exact (hp₂.trans hp₃).trans (refine_use_proceeds (hp₂.trans hp₃).sound hrefine)

/-- Whether a definition is an error or pinned is seen by looking. -/
theorem shared_looks {pinned : List TermId} {b : Bool} (hs : s.Sound) (h : (kindOf this >>= fun k =>
    if k.isError then pure true else occursInAny this pinned) s = some (b, u)) : Looks s u := by
  replace h := of_bind_view h
  rcases ite_eq_some.1 h with ⟨-, h⟩ | ⟨-, h⟩
  · obtain ⟨-, rfl⟩ := pure_eq_some.1 h
    exact .refl _
  · exact looks_onForest (Forest.keepsUp_occursInAny _ _) hs h

/-- A variable may be merged into a fresh copy of a definition. -/
theorem merge_freshCopy_proceeds {pinned : List TermId} {c : TermId} (hs : s.Sound)
    (hthis : s.forest.IsClass this) (hthat : s.forest.IsClass that)
    (hfresh : s.image.lookup this = none) (hvar : s.forest.kind that = .var)
    (hcopy : freshCopy pinned this s = some (c, t)) (hmerge : merge that c t = some (r, u)) :
    Proceeds t u := by
  obtain ⟨hp, hsteady, -, hc, hrefreshed⟩ := freshCopy_proceeds hs hthis.lt hcopy
  have hvar' : t.forest.kind that = .var := (hrefreshed that hthat.lt
    (Forest.calm_of_not_nilable hthat.root (by rw [hvar]; rfl))).eq_var.2 hvar
  exact (merge_proceeds hp.sound (hthat.of_steady hsteady) (hc (by rw [hthis.rep_eq, hfresh]))
    (fun _ => by rw [hvar']; rfl) (fun n m hn => by rw [hvar'] at hn; cases hn) hmerge).1

/-- A variable joins a fresh copy of the definition. -/
theorem instantiateVar_proceeds {pinned : List TermId} (hs : s.Sound)
    (hthis : s.forest.IsClass this) (hthat : s.forest.IsClass that)
    (hfresh : s.image.lookup this = none) (hvar : s.forest.kind that = .var)
    (h : (do
      let c ← freshCopy pinned this
      let progress ← merge that c
      setImage this that
      return progress) s = some (r, u)) : Proceeds s u := by
  obtain ⟨c, s₁, hcopy, h⟩ := bind_eq_some.1 h
  obtain ⟨progress, s₂, hmerge, h⟩ := bind_eq_some.1 h
  obtain ⟨hp₁, -⟩ := freshCopy_proceeds hs hthis.lt hcopy
  have hp₂ := hp₁.trans (merge_freshCopy_proceeds hs hthis hthat hfresh hvar hcopy hmerge)
  exact hp₂.trans (setImage_pure_proceeds hp₂.sound (hp₂.lt hs hthat.lt) h)

include hinst hrec in
/-- Two types that are known and not both flows meet by their shapes. -/
theorem instantiateKnown_proceeds {pinned : List TermId} (hs : s.Sound)
    (hthis : s.forest.IsClass this) (hthat : s.forest.IsClass that)
    (h : (do
      if (s.forest.kind this).isNilable && !(s.forest.kind that).isNilable then
        instantiateNilable that
      else if (s.forest.kind that).isNilable && !(s.forest.kind this).isNilable then
        instantiateInner inst this that
      else if (s.forest.kind this).shape ≠ (s.forest.kind that).shape then reject rec this that
      else instantiateChildren inst pinned this that : UnifyM Bool) s = some (r, u)) :
    Proceeds s u := by
  rcases ite_eq_some.1 h with ⟨-, h⟩ | ⟨-, h⟩
  · exact instantiateNilable_proceeds hs hthat h
  rcases ite_eq_some.1 h with ⟨-, h⟩ | ⟨-, h⟩
  · exact instantiateInner_proceeds hinst hs hthis hthat h
  rcases ite_eq_some.1 h with ⟨-, h⟩ | ⟨-, h⟩
  · exact reject_proceeds hrec hs hthat.lt h
  · exact instantiateChildren_proceeds hinst hs hthat.lt h

include hinst hrec in
/-- One layer of instantiation proceeds if the next one does. -/
theorem instantiateStep_proceeds {pinned : List TermId} (hs : s.Sound)
    (hthis : this < s.forest.size) (hthat : that < s.forest.size)
    (h : instantiateStep inst rec pinned this that s = some (r, u)) : Proceeds s u := by
  obtain ⟨x, s₁, hfind, h⟩ := bind_eq_some.1 h
  obtain ⟨y, s₂, hfind', h⟩ := bind_eq_some.1 h
  obtain ⟨hlooks, -, ⟨hx, -⟩, hxc, hyc⟩ := find_both hs hthis hthat hfind hfind'
  have hp := hlooks.proceeds hs
  refine hp.trans ?_
  have hs₂ := hp.sound
  obtain ⟨image, s₃, himage, h⟩ := bind_eq_some.1 h
  obtain ⟨rfl, rfl⟩ := imageOf_eq_some.1 himage
  cases hprior : s₂.image.lookup x with
  | some prior =>
    -- The definition was instantiated here before.
    simp only [hprior] at h
    obtain ⟨prior', s₃, hfind, h⟩ := bind_eq_some.1 h
    have hclass := isClass_of_find hs₂ (hs₂.image_lt hprior) hfind
    obtain ⟨-, hlooks₃⟩ := find_looks hs₂ hfind
    have hp₃ := hlooks₃.proceeds hs₂
    exact hp₃.trans (hrec _ _ _ _ _ hp₃.sound hclass.lt (hp₃.lt hs₂ hyc.lt) h)
  | none =>
    simp only [hprior] at h
    obtain ⟨alike, s₃, halike, h⟩ := bind_eq_some.1 h
    have hlooks₃ := looks_onForest (Forest.keepsUp_alike _ _) hs₂ halike
    have hp₃ := hlooks₃.proceeds hs₂
    refine hp₃.trans ?_
    have hs₃ := hp₃.sound
    have hxc := hxc.of_steady (hlooks₃.steady hs₂)
    have hyc := hyc.of_steady (hlooks₃.steady hs₂)
    have hfresh : s₃.image.lookup x = none := by rw [hlooks₃.image, hprior]
    rcases ite_eq_some.1 h with ⟨-, h⟩ | ⟨-, h⟩
    · exact setImage_pure_proceeds hs₃ hyc.lt h
    replace h := of_bind_view h
    rcases ite_eq_some.1 h with ⟨-, h⟩ | ⟨-, h⟩
    · exact setImage_pure_proceeds hs₃ hyc.lt h
    obtain ⟨shared, s₄, hshared, h⟩ := bind_eq_some.1 h
    have hlooks₄ := shared_looks hs₃ hshared
    have hp₄ := hlooks₄.proceeds hs₃
    refine hp₄.trans ?_
    have hs₄ := hp₄.sound
    have hxc := hxc.of_steady (hlooks₄.steady hs₃)
    have hyc := hyc.of_steady (hlooks₄.steady hs₃)
    have hfresh : s₄.image.lookup x = none := by rw [hlooks₄.image, hfresh]
    rcases ite_eq_some.1 h with ⟨-, h⟩ | ⟨-, h⟩
    · -- The definition is an error or pinned: it is unified as it is.
      obtain ⟨progress, s₅, hunify, h⟩ := bind_eq_some.1 h
      have hp₅ := hrec _ _ _ _ _ hs₄ hxc.lt hyc.lt hunify
      exact hp₅.trans (setImage_pure_proceeds hp₅.sound (hp₅.lt hs₄ hyc.lt) h)
    replace h := of_bind_view h
    replace h := of_bind_view h
    rcases ite_eq_some.1 h with ⟨-, h⟩ | ⟨-, h⟩
    · exact setImage_pure_proceeds hs₄ hyc.lt h
    rcases ite_eq_some.1 h with ⟨hvar, h⟩ | ⟨-, h⟩
    · -- The use is a variable and joins a copy.
      rw [Kind.isVar_iff] at hvar
      obtain rfl | ⟨-, h⟩ := unless_probe h
      · exact .refl hs₄
      · exact instantiateVar_proceeds hs₄ hxc hyc hfresh hvar h
    cases ha : (s₄.forest.kind x).baseFlow? with
    | none =>
      simp only [ha] at h
      exact instantiateKnown_proceeds hinst hrec hs₄ hxc hyc h
    | some a =>
      cases hb : (s₄.forest.kind y).baseFlow? with
      | none =>
        simp only [ha, hb] at h
        exact instantiateKnown_proceeds hinst hrec hs₄ hxc hyc h
      | some b =>
        simp only [ha, hb] at h
        exact instantiateBase_proceeds hrec hs₄ hyc (Kind.baseFlow?_eq_some.1 hb) h

end Use

/-- Nested instantiations proceed. -/
theorem instantiateWithin_proceeding (pinned : List TermId) (depth : Nat) :
    Proceeding (instantiateWithin pinned depth) := by
  induction depth with
  | zero => exact fun a b s r u _ _ _ h => (failure_eq_some.1 h).elim
  | succ depth ih =>
    exact fun a b s r u hs ha hb h =>
      instantiateStep_proceeds ih (unifyWithin_proceeding depth) hs ha hb h

/-- The instantiation of a definition for a use proceeds, whatever their types are. -/
theorem instantiate_proceeds {depth : Nat} {definition use : TermId} {pinned : List TermId}
    {r : Bool} (hs : s.Sound) (hdefinition : definition < s.forest.size)
    (huse : use < s.forest.size) (h : instantiate depth definition use pinned s = some (r, u)) :
    Proceeds s u := by
  obtain ⟨v, s₁, hmodify, h⟩ := bind_eq_some.1 h
  obtain rfl := modify_eq_some.1 hmodify
  have hp : Proceeds s { s with met := [], image := [] } :=
    .of_memory hs fun p hp => absurd hp List.not_mem_nil
  exact hp.trans (instantiateWithin_proceeding pinned depth _ _ _ _ _ hp.sound hdefinition huse h)

end Unifier

end TypeFlow
