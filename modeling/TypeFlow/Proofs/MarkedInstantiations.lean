import TypeFlow.Proofs.MarkedUnifications

/-!
# Marks of inputs in instantiations

The copy of a type carries the marks of the type.  A copy of a wrapper may wrap what the use has in the
place of the wrapped type, marked or not, so the mark of such a copy guards nothing.  Where there are no
wrappers the copies of guarded types are guarded, and what an instantiation does to the use heeds marks
in any case.

Main definitions:

- `Forest.Bare`: no type is a wrapper, and marked base types may be said to be widened.

Main results:

- `Unifier.freshCopy_heeds`: making a copy heeds marks.
- `Unifier.instantiateStep_heeds`: so does one layer of instantiation if the next one does.
- `Unifier.instantiateWithin_heeding`: so does the instantiation of any definition.
-/

namespace TypeFlow

open Forest (widenedKind IsClass Heeds)

namespace Forest

variable {f₀ f g : Forest} {C : TermId → Prop} {t x : TermId}

/-! ## Copies where there are no wrappers -/

/-- No type is a wrapper, and marked base types are widened if that is to be shown. -/
structure Bare (shown : Prop) (f : Forest) : Prop where
  unwrapped : f.Unwrapped
  widened : shown → ∀ c, f.isInput c = true → widenedKind (f.kind c) = f.kind c

namespace Bare

variable {shown : Prop}

/-- Marked types are guarded. -/
theorem guarded (h : f.Bare shown) (hshown : shown) (ht : f.IsMarked t) : f.Guarded t := by
  refine ⟨(· = f.rep t), ⟨?_, ?_, ?_⟩, rfl⟩
  · rintro c rfl
    exact h.widened hshown _ ht
  · rintro c rfl -
    exact ht
  · rintro c y rfl hy
    have hplain := h.unwrapped (f.rep t)
    rw [hy] at hplain
    cases hplain

/-- There are no wrappers if there were none and no copies are counted, and then all marked types are
guarded. -/
theorem of_accounted (hacc : f.Accounted f₀ C) (hnone : ¬f₀.HasWrappers) (hC : ¬∃ x, C x) :
    f.Bare (f.Secured C) where
  unwrapped w := Bool.eq_false_iff.2 fun hw => (hacc.origin ⟨w, hw⟩).elim hnone hC
  widened hsec c hc := by
    cases hlink : (f.kind c).isLink with
    | true =>
      obtain ⟨u, hu⟩ := Kind.isLink_eq_true.1 hlink
      rw [hu]
      rfl
    | false =>
      have hrep : f.rep c = c := rep_of_not_link hlink
      rcases hsec c (by rwa [IsMarked, hrep]) with h | ⟨x, hx, -⟩
      · have hwide := h.widened
        rwa [hrep] at hwide
      · exact absurd ⟨x, hx⟩ hC

private theorem setKind {k : Kind} (h : f.Bare shown) (hplain : k.isNilable = false)
    (hwide : widenedKind k = k) : (f.setKind x k).Bare shown where
  unwrapped w := by
    rw [kind_setKind]
    split
    · exact hplain
    · exact h.unwrapped w
  widened hshown c hc := by
    rw [isInput_setKind] at hc
    rw [kind_setKind]
    split
    · exact hwide
    · exact h.widened hshown c hc

private theorem setChild (h : f.Bare shown) (t : TermId) (slot : Slot) (child : TermId) :
    (f.setChild t slot child).Bare shown where
  unwrapped w := by
    refine Bool.eq_false_iff.2 fun hw => ?_
    have hplain := noNewWrappers_setChild t slot child w hw
    rw [h.unwrapped w] at hplain
    cases hplain
  widened hshown c hc := by
    rw [isInput_setChild] at hc
    rw [kind_setChild]
    split
    · exact Kind.widenedKind_setChild _ _ (h.widened hshown c hc)
    · exact h.widened hshown c hc

private theorem upkeeps (h : f.Bare shown) (hup : f.Upkeeps g) : g.Bare shown := by
  induction hup with
  | refl => exact h
  | tail _ hstep ih =>
    cases hstep with
    | shorten ht => exact ih.setKind rfl rfl
    | remember hx => exact ih.setChild _ _ _
    | @absorb w inner hw =>
      have hplain := ih.unwrapped w
      rw [hw] at hplain
      cases hplain

/-- A term is added that looks like one there is. -/
theorem add {term : Term} (h : f.Bare shown) (hkind : term.kind = f.kind x)
    (hinput : term.isInput = f.isInput x) : (f.add term).2.Bare shown where
  unwrapped w := by
    rw [kind_add]
    split
    · rw [hkind, h.unwrapped x]
    · exact h.unwrapped w
  widened hshown c hc := by
    rw [isInput_add] at hc
    rw [kind_add]
    split at hc
    · rename_i e
      rw [if_pos e, hkind]
      exact h.widened hshown x (hinput ▸ hc)
    · rename_i e
      rw [if_neg e]
      exact h.widened hshown c hc

end Bare

private theorem isInput_getD (f : Forest) (t : TermId) :
    (f.terms[t]?.getD default).isInput = f.isInput t := by
  unfold isInput
  cases f.terms[t]? <;> rfl

/-! ## New terms -/

/-- Making new terms changes no mark of an old one and makes no wrapper of it. -/
theorem Sprouts.old (hf : f.Sound) (h : f.Sprouts g) {c : TermId} (hc : c < f.size) :
    g.isInput c = f.isInput c ∧ ((g.kind c).isNilable = true → (f.kind c).isNilable = true) := by
  induction h with
  | refl => exact ⟨rfl, id⟩
  | @tail g g' hg hstep ih =>
    obtain ⟨hsound, hsteady⟩ := Sprouts.sound_steady hf hg
    cases hstep with
    | upkeep hup =>
      exact ⟨(hup.isInput c).trans ih.1, fun hw =>
        ih.2 (noNewWrappers_upkeeps hsound.rooted (.single hup) c hw)⟩
    | add hlink hrange =>
      have hne : c ≠ g.size := Nat.ne_of_lt (Nat.lt_of_lt_of_le hc hsteady.size)
      rw [isInput_add, if_neg hne, kind_add, if_neg hne]
      exact ih
    | graft hle hchild =>
      rw [isInput_setChild, kind_setChild, if_neg (Nat.ne_of_gt (Nat.lt_of_lt_of_le hc hle))]
      exact ih

/-- Making new terms heeds marks if they all count as copies, or if there are no wrappers and the new
terms are as guarded as the old ones. -/
theorem Sprouts.heeds (hf : f.Sound) (h : f.Sprouts g)
    (hnew : f.Accounted f₀ C → (∃ x, C x) ∨ g.Bare (f.Secured C)) : Heeds f₀ C f g := by
  obtain ⟨hg, hs⟩ := h.sound_steady hf
  have hold := fun c (hc : c < f.size) => Sprouts.old hf h hc
  have hguarded : ∀ t, f.Guarded t → g.Guarded t := by
    rintro t ⟨S, hS, ht⟩
    exact ⟨S, Sprouts.sheltered hf h hS, by rwa [hs.rep]⟩
  have hmarked : ∀ t, f.IsMarked t → g.IsMarked t := fun t ht => by
    rw [IsMarked, hs.rep, (hold _ (lt_size_of_isInput ht)).1]
    exact ht
  refine ⟨.of_sprouts hf h, fun hacc => ⟨fun w hw => ?_, fun hsome => ?_, fun hC y hy => ?_⟩,
    fun _ t ht => Or.inl (hmarked t ht), hguarded, fun hacc hsec t ht => ?_⟩
  · by_cases hlt : w < f.size
    · exact (hacc.wrapped w ((hold w hlt).2 hw)).imp (hmarked w) (Holds.mono hs.grows.rep)
    rcases hnew hacc with hC | hbare
    · exact Or.inr ⟨w, Or.inr (hacc.late hC w (Nat.le_of_not_lt hlt)), rfl⟩
    · rw [hbare.unwrapped w] at hw
      cases hw
  · obtain ⟨w, hw⟩ := hsome
    by_cases hlt : w < f.size
    · exact hacc.origin ⟨w, (hold w hlt).2 hw⟩
    rcases hnew hacc with hC | hbare
    · exact Or.inr hC
    · rw [hbare.unwrapped w] at hw
      cases hw
  · exact hacc.late hC y (hs.size.trans hy)
  · rcases hnew hacc with hC | hbare
    · by_cases hlt : f.rep t < f.size
      · rw [IsMarked, hs.rep, (hold _ hlt).1] at ht
        exact (hsec t ht).imp (hguarded t) (Holds.mono hs.grows.rep)
      · exact Or.inr ⟨f.rep t, hacc.late hC _ (Nat.le_of_not_lt hlt), by
          rw [hs.rep, hs.rep, rep_rep hf.rooted]⟩
    · exact Or.inl (hbare.guarded hsec ht)

end Forest

namespace Unifier

variable {f₀ : Forest} {s t u : Unifier} {C : TermId → Prop} {r : Bool} {shown : Prop}

/-! ## Copies -/

/-- The children of a copy are copied without wrappers if there are none. -/
theorem copySlots_bare {duplicate : TermId → UnifyM TermId}
    (hduplicate : ∀ x s y u, s.Sound → x < s.forest.size → duplicate x s = some (y, u) →
      u.Sound ∧ y < u.forest.size ∧ (s.forest.Bare shown → u.forest.Bare shown))
    {x c : TermId} {slots : List Slot} {v : Unit} (hs : s.Sound) (hbare : s.forest.Bare shown)
    (h : copySlots duplicate x c slots s = some (v, u)) : u.forest.Bare shown := by
  induction slots generalizing s with
  | nil =>
    obtain ⟨-, rfl⟩ := pure_eq_some.1 h
    exact hbare
  | cons slot rest ih =>
    obtain ⟨child?, s₁, hchild, h⟩ := bind_eq_some.1 h
    obtain ⟨hlooks, hclass⟩ := child_looks hs hchild
    have hs₁ := (hlooks.proceeds hs).sound
    have hbare₁ := hbare.upkeeps hlooks.upkeeps
    cases child? with
    | none => exact ih hs₁ hbare₁ h
    | some y =>
      obtain ⟨z, s₂, hcopy, h⟩ := bind_eq_some.1 h
      obtain ⟨v', s₃, hgraft, h⟩ := bind_eq_some.1 h
      obtain ⟨hs₂, hz, hbare₂⟩ := hduplicate _ _ _ _ hs₁ (hclass y rfl).lt hcopy
      obtain rfl := change_eq_some.1 hgraft
      have hcopies : Copies 0 s₂ { s₂ with forest := s₂.forest.setChild c slot z } :=
        .single hs₂ (.graft (Nat.zero_le c) hz)
      exact ih hcopies.sound ((hbare₂ hbare₁).setChild _ _ _) h

/-- The copy of a type has no wrappers if there are none, and its marked base types are widened. -/
theorem freshCopyWithin_bare {pinned : List TermId} {fuel : Nat} {x c : TermId} (hs : s.Sound)
    (hx : x < s.forest.size) (hbare : s.forest.Bare shown)
    (h : freshCopyWithin pinned fuel x s = some (c, u)) : u.forest.Bare shown := by
  induction fuel generalizing s u x c with
  | zero => exact (failure_eq_some.1 h).elim
  | succ fuel ih =>
    obtain ⟨r, s₁, hfind, h⟩ := bind_eq_some.1 h
    have hr := isClass_of_find hs hx hfind
    obtain ⟨rfl, hlooks₁⟩ := find_looks hs hfind
    have hs₁ := (hlooks₁.proceeds hs).sound
    have hbare₁ := hbare.upkeeps hlooks₁.upkeeps
    obtain ⟨image, s₂, himage, h⟩ := bind_eq_some.1 h
    obtain ⟨rfl, rfl⟩ := imageOf_eq_some.1 himage
    cases hknown : s₁.image.lookup (s.forest.rep x) with
    | some prior =>
      simp only [hknown] at h
      obtain ⟨-, rfl⟩ := pure_eq_some.1 h
      exact hbare₁
    | none =>
      simp only [hknown] at h
      obtain ⟨occurs, s₂, hoccurs, h⟩ := bind_eq_some.1 h
      have hlooks₂ := looks_onForest (Forest.keepsUp_occursInAny _ _) hs₁ hoccurs
      have hs₂ := (hlooks₂.proceeds hs₁).sound
      have hbare₂ := hbare₁.upkeeps hlooks₂.upkeeps
      have hr₂ := hr.of_steady (hlooks₂.steady hs₁)
      rcases ite_eq_some.1 h with ⟨-, h⟩ | ⟨-, h⟩
      · obtain ⟨v, s₃, hset, h⟩ := bind_eq_some.1 h
        obtain ⟨-, rfl⟩ := pure_eq_some.1 h
        obtain rfl := modify_eq_some.1 hset
        exact hbare₂
      obtain ⟨c', s₃, hcopy, h⟩ := bind_eq_some.1 h
      obtain ⟨rfl, rfl⟩ := copy_eq_some.1 hcopy
      replace h := of_bind_view h
      -- The copy of a variable forgets who was registered with it.
      obtain ⟨term, hterm, hinput, h⟩ : ∃ term : Term, term.kind = s₂.forest.kind (s.forest.rep x) ∧
          term.isInput = s₂.forest.isInput (s.forest.rep x) ∧ (do
          setImage (s.forest.rep x) s₂.forest.size
          copySlots (freshCopyWithin pinned fuel) (s.forest.rep x) s₂.forest.size
            ((s₂.forest.add (s₂.forest.terms[s.forest.rep x]?.getD default)).2.kind
              (s.forest.rep x)).slots
          return s₂.forest.size) { s₂ with forest := (s₂.forest.add term).2 } = some (c, u) := by
        rcases ite_eq_some.1 h with ⟨-, h⟩ | ⟨-, h⟩
        · obtain ⟨v, s₄, hclear, h⟩ := bind_eq_some.1 h
          obtain rfl := change_eq_some.1 hclear
          dsimp only at h
          rw [Forest.update_add] at h
          exact ⟨{ s₂.forest.terms[s.forest.rep x]?.getD default with deps := .empty },
            Forest.kind_getD _ _, Forest.isInput_getD _ _, h⟩
        · exact ⟨_, Forest.kind_getD _ _, Forest.isInput_getD _ _, h⟩
      obtain ⟨hp₃, -, hnew, -⟩ := add_proceeds hs₂ term (by rw [hterm, hr₂.root]) fun y hy => by
        rw [hterm] at hy
        exact hs₂.forest.inRange _ y hy
      obtain ⟨v, s₄, hset, h⟩ := bind_eq_some.1 h
      obtain ⟨v', s₅, hslots, h⟩ := bind_eq_some.1 h
      obtain ⟨-, rfl⟩ := pure_eq_some.1 h
      obtain ⟨hp₄, hforest⟩ := setImage_proceeds hp₃.sound hnew.lt hset
      refine copySlots_bare (fun y s z u hs hy hz => ?_) hp₄.sound ?_ hslots
      · obtain ⟨hcopies, hlt, -⟩ := freshCopyWithin_copies hs hy (Nat.zero_le _) hz
        exact ⟨hcopies.sound, hlt, fun hbare => ih hs hy hbare hz⟩
      · rw [hforest]
        exact hbare₂.add hterm hinput

/-- Making a copy heeds marks, if copies of wrappers count as such. -/
theorem freshCopy_heeds (hcopies : f₀.HasWrappers → ∃ x, C x) {pinned : List TermId} {x c : TermId}
    (hs : s.Sound) (hx : x < s.forest.size) (h : freshCopy pinned x s = some (c, u)) :
    Heeds f₀ C s.forest u.forest := by
  replace h := of_bind_view h
  obtain ⟨hc, -⟩ := freshCopyWithin_copies hs hx le_rfl h
  by_cases hC : ∃ x, C x
  · exact Forest.Sprouts.heeds hs.forest hc.sprouts fun _ => Or.inl hC
  · exact Forest.Sprouts.heeds hs.forest hc.sprouts fun hacc => Or.inr
      (freshCopyWithin_bare hs hx (.of_accounted hacc (fun hsome => hC (hcopies hsome)) hC) h)

/-! ## Uses -/

private theorem setImage_heeds {x c : TermId} {b r : Bool}
    (h : (setImage x c >>= fun _ => pure b) s = some (r, u)) : Heeds f₀ C s.forest u.forest := by
  obtain ⟨v, s₁, hset, h⟩ := bind_eq_some.1 h
  obtain ⟨-, rfl⟩ := pure_eq_some.1 h
  obtain rfl := modify_eq_some.1 hset
  exact .refl _

/-- What is refined is a function or a record. -/
theorem refinedKind?_decided {this that k : Kind} (h : refinedKind? this that = some k) :
    widenedKind k = k ∧ k.isUndecided = false := by
  unfold refinedKind? at h
  split at h
  · dsimp only at h
    split at h
    · cases h
      exact ⟨rfl, rfl⟩
    · cases h
  · dsimp only at h
    split at h
    · cases h
      exact ⟨rfl, rfl⟩
    · cases h
  · cases h

private theorem refine_heeds {this that : TermId} (hs : s.Sound) (h : refine this that s = some (r, u)) :
    Heeds f₀ C s.forest u.forest := by
  replace h := of_bind_view h
  replace h := of_bind_view h
  cases hrefined : refinedKind? (s.forest.kind this) (s.forest.kind that) with
  | none =>
    simp only [hrefined] at h
    obtain ⟨-, rfl⟩ := pure_eq_some.1 h
    exact .refl _
  | some kind =>
    simp only [hrefined] at h
    obtain rfl | ⟨-, h⟩ := unless_probe h
    · exact .refl _
    obtain ⟨v, s₁, hset, h⟩ := bind_eq_some.1 h
    obtain ⟨v', s₂, hwake, h⟩ := bind_eq_some.1 h
    obtain ⟨-, rfl⟩ := pure_eq_some.1 h
    obtain ⟨hrefines, hne⟩ := refinedKind?_refines hrefined
    obtain ⟨hwide, hu⟩ := refinedKind?_decided hrefined
    obtain rfl := wake_eq_some.1 hwake
    obtain rfl := change_eq_some.1 hset
    exact heeds_setKind hs ⟨Forest.lt_size_of_kind hne, hrefines.root⟩ hrefines hu fun _ => hwide

section Use

variable {inst rec : TermId → TermId → UnifyM Bool} (hinst : Proceeding inst)
  (hinstHeeding : Heeding f₀ C inst) (hheeding : Heeding f₀ C rec)
  (hcopies : f₀.HasWrappers → ∃ x, C x) {this that : TermId}

include hheeding in
private theorem reject_heeds (hs : s.Sound) (hwork : s.work.isNone = false) (hthat : that < s.forest.size)
    (h : reject rec this that s = some (r, u)) : Heeds f₀ C s.forest u.forest := by
  obtain rfl | ⟨-, h⟩ := unless_probe h
  · exact .refl _
  replace h := of_bind_view h
  obtain ⟨error, s₁, halloc, h⟩ := bind_eq_some.1 h
  obtain ⟨progress, s₂, hunify, h⟩ := bind_eq_some.1 h
  obtain ⟨hp₁, -, herror, -⟩ := alloc_error_proceeds hs halloc
  exact ((alloc_error_heeds hs halloc).trans hs.forest
    (hheeding _ _ _ _ _ hp₁.sound (by rw [hp₁.probe, hwork]) (hp₁.lt hs hthat) herror.lt
      hunify)).trans hs.forest (setImage_heeds h)

include hheeding in
private theorem instantiateBase_heeds {a b : Flow} (hs : s.Sound) (hwork : s.work.isNone = false)
    (hthat : s.forest.IsClass that) (hb : s.forest.kind that = .base b)
    (h : instantiateBase rec this that a b s = some (r, u)) : Heeds f₀ C s.forest u.forest := by
  unfold instantiateBase at h
  rcases ite_eq_some.1 h with ⟨-, h⟩ | ⟨hkind, h⟩
  · exact reject_heeds hheeding hs hwork hthat.lt h
  rw [Bool.not_eq_true', Bool.not_eq_false] at hkind
  rcases ite_eq_some.1 h with ⟨-, h⟩ | ⟨-, h⟩
  · exact setImage_heeds h
  obtain rfl | ⟨-, h⟩ := unless_probe h
  · exact .refl _
  obtain ⟨v₁, s₁, hset, h⟩ := bind_eq_some.1 h
  obtain ⟨v₂, s₂, hwake, h⟩ := bind_eq_some.1 h
  have hrefines : (s.forest.kind that).Refines (.base (a.meet b)) := by
    rw [hb]
    exact ⟨rfl, rfl, .base (Flow.covers_meet_right a b), fun _ hx => hx⟩
  obtain rfl := change_eq_some.1 hset
  obtain rfl := wake_eq_some.1 hwake
  have hheeds : Heeds f₀ C s.forest (s.forest.setKind that (.base (a.meet b))) := by
    refine heeds_setKind hs hthat hrefines rfl fun hwide => ?_
    rw [hb] at hwide
    exact Kind.widenedKind_base.2 (Flow.widen_meet hkind (Or.inr (Kind.widenedKind_base.1 hwide)))
  exact hheeds.trans hs.forest (setImage_heeds h)

private theorem instantiateNilable_heeds (hs : s.Sound) (hthat : s.forest.IsClass that)
    (hu : (s.forest.kind that).isUndecided = false)
    (h : instantiateNilable that s = some (r, u)) : Heeds f₀ C s.forest u.forest := by
  replace h := of_bind_view h
  rcases ite_eq_some.1 h with ⟨-, h⟩ | ⟨-, h⟩
  · obtain ⟨-, rfl⟩ := pure_eq_some.1 h
    exact .refl _
  obtain rfl | ⟨-, h⟩ := unless_probe h
  · exact .refl _
  obtain ⟨v, s₁, hset, h⟩ := bind_eq_some.1 h
  obtain ⟨v', s₂, hwake, h⟩ := bind_eq_some.1 h
  obtain ⟨-, rfl⟩ := pure_eq_some.1 h
  obtain rfl := wake_eq_some.1 hwake
  obtain rfl := change_eq_some.1 hset
  refine heeds_setKind hs hthat ⟨hthat.root, ?_, Kind.accrues_orNil hthat.root, fun x hx => ?_⟩ ?_
    Kind.widenedKind_orNil
  · rw [Kind.isLink_orNil, hthat.root]
  · rwa [Kind.children_orNil] at hx
  · rw [Kind.isUndecided_orNil, hu]

include hcopies in
/-- The part of a definition without nil is the definition or counts as a copy, for the use is a
wrapper. -/
theorem Source.heeds {source : TermId} (hs : s.Sound) (hthis : s.forest.IsClass this)
    (hplain : (s.forest.kind this).isNilable = false)
    (hthat : (s.forest.kind that).isNilable = true) (h : Source this source s u) :
    Heeds f₀ C s.forest u.forest := by
  rcases h.forest with e | ⟨term, hterm, e⟩ <;> rw [e]
  · exact .refl _
  refine Forest.heeds_add hs.forest (by rw [hterm, Kind.isLink_withoutNil, hthis.root])
    (fun y hy => ?_) ?_ fun hacc _ _ => Or.inr ?_
  · rw [hterm, Kind.children_withoutNil] at hy
    exact hs.forest.inRange this y hy
  · rw [hterm]
    revert hplain
    cases s.forest.kind this <;> exact id
  · exact (hacc.origin ⟨that, hthat⟩).elim hcopies id

include hinstHeeding hcopies in
private theorem instantiateInner_heeds (hs : s.Sound) (hwork : s.work.isNone = false)
    (hthis : s.forest.IsClass this) (hplain : (s.forest.kind this).isNilable = false)
    (hthat : (s.forest.kind that).isNilable = true)
    (h : instantiateInner inst this that s = some (r, u)) : Heeds f₀ C s.forest u.forest := by
  obtain rfl | ⟨-, h⟩ := unless_probe h
  · exact .refl _
  obtain ⟨source, s₁, hcopy, h⟩ := source_of_mayNil hs hthis h
  have hp₁ := hcopy.proceeds
  obtain ⟨inner?, s₂, hchild, h⟩ := bind_eq_some.1 h
  obtain ⟨hlooks, hinner⟩ := child_looks hp₁.sound hchild
  have hp₂ := hp₁.trans (hlooks.proceeds hp₁.sound)
  have hheeds₂ := (hcopy.heeds hcopies hs hthis hplain hthat).trans hs.forest
    (hlooks.heeds hp₁.sound)
  cases inner? with
  | none =>
    obtain ⟨-, rfl⟩ := pure_eq_some.1 h
    exact hheeds₂
  | some inner =>
    obtain ⟨progress, s₃, hrun, h⟩ := bind_eq_some.1 h
    have hsource₂ := hcopy.isClass.of_steady (hlooks.steady hp₁.sound)
    have hheeds₃ := hheeds₂.trans hs.forest (hinstHeeding _ _ _ _ _ hp₂.sound
      (by rw [hp₂.probe, hwork]) hsource₂.lt (hinner inner rfl).lt hrun)
    rcases ite_eq_some.1 h with ⟨-, h⟩ | ⟨-, h⟩
    · exact hheeds₃.trans hs.forest (setImage_heeds h)
    · obtain ⟨-, rfl⟩ := pure_eq_some.1 h
      exact hheeds₃

include hinst hinstHeeding hcopies in
private theorem instantiateMissing_heeds {pinned : List TermId} {lhs : TermId} {label : String}
    {r : Option Bool} (hs : s.Sound) (hwork : s.work.isNone = false) (hlhs : lhs < s.forest.size)
    (h : instantiateMissing inst pinned this that lhs label s = some (r, u)) :
    Heeds f₀ C s.forest u.forest := by
  replace h := of_bind_view h
  rcases ite_eq_some.1 h with ⟨-, h⟩ | ⟨-, h⟩
  · obtain rfl | ⟨-, h⟩ := unless_probe h
    · exact .refl _
    obtain ⟨c, s₁, hcopy, h⟩ := bind_eq_some.1 h
    obtain ⟨added, s₂, hadd, h⟩ := bind_eq_some.1 h
    obtain ⟨-, rfl⟩ := pure_eq_some.1 h
    obtain ⟨hp₁, -, hc, -⟩ := freshCopy_proceeds hs hlhs hcopy
    exact (freshCopy_heeds hcopies hs hlhs hcopy).trans hs.forest
      (addField_heeds hp₁.sound (by rw [hp₁.probe, hwork]) hc hadd)
  replace h := of_bind_view h
  rcases ite_eq_some.1 h with ⟨-, h⟩ | ⟨-, h⟩
  · obtain rfl | ⟨-, h⟩ := unless_probe h
    · exact .refl _
    replace h := of_bind_view h
    obtain ⟨error, s₁, halloc, h⟩ := bind_eq_some.1 h
    obtain ⟨changed, s₂, hrun, h⟩ := bind_eq_some.1 h
    obtain ⟨added, s₃, hadd, h⟩ := bind_eq_some.1 h
    obtain ⟨-, rfl⟩ := pure_eq_some.1 h
    obtain ⟨hp₁, -, herror, -⟩ := alloc_error_proceeds hs halloc
    have hwork₁ : s₁.work.isNone = false := by rw [hp₁.probe, hwork]
    have hp₂ := hinst _ _ _ _ _ hp₁.sound (hp₁.lt hs hlhs) herror.lt hrun
    exact ((alloc_error_heeds hs halloc).trans hs.forest
      (hinstHeeding _ _ _ _ _ hp₁.sound hwork₁ (hp₁.lt hs hlhs) herror.lt hrun)).trans hs.forest
      (addField_heeds hp₂.sound (by rw [hp₂.probe, hwork₁]) (hp₂.lt hp₁.sound herror.lt) hadd)
  · obtain ⟨-, rfl⟩ := pure_eq_some.1 h
    exact .refl _

include hinst hinstHeeding hcopies in
/-- Instantiating the children of a definition heeds marks. -/
theorem instantiateSlots_heeds {pinned : List TermId} {slots : List Slot}
    {progress missing : Bool} {r : SlotOutcome} (hs : s.Sound) (hwork : s.work.isNone = false)
    (h : instantiateSlots inst pinned this slots that progress missing s = some (r, u)) :
    Heeds f₀ C s.forest u.forest := by
  induction slots generalizing that progress missing s with
  | nil =>
    obtain ⟨-, rfl⟩ := pure_eq_some.1 h
    exact .refl _
  | cons slot rest ih =>
    obtain ⟨lhs?, s₁, hchild, h⟩ := bind_eq_some.1 h
    obtain ⟨hlooks₁, hlhs⟩ := child_looks hs hchild
    have hp₁ := hlooks₁.proceeds hs
    have hwork₁ : s₁.work.isNone = false := by rw [hp₁.probe, hwork]
    cases lhs? with
    | none => exact (hlooks₁.heeds hs).trans hs.forest (ih hp₁.sound hwork₁ h)
    | some lhs =>
      obtain ⟨rhs?, s₂, hchild', h⟩ := bind_eq_some.1 h
      obtain ⟨hlooks₂, hrhs⟩ := child_looks hp₁.sound hchild'
      have hp₂ := hp₁.trans (hlooks₂.proceeds hp₁.sound)
      have hwork₂ : s₂.work.isNone = false := by rw [hp₂.probe, hwork]
      have hlhs₂ := (hlhs lhs rfl).of_steady (hlooks₂.steady hp₁.sound)
      refine ((hlooks₁.trans hlooks₂).heeds hs).trans hs.forest ?_
      -- Whatever happens to the children, the use is looked up again afterwards.
      obtain ⟨s₃, hp₃, hheeds₃, rfl | ⟨changed, h⟩⟩ : ∃ s₃, Proceeds s₂ s₃ ∧
          Heeds f₀ C s₂.forest s₃.forest ∧ (s₃ = u ∨ ∃ changed : Bool, (do
            let that ← find that
            if (← kindOf that).isError then return SlotOutcome.finished
            if (progress || changed) && (← isProbe) then return SlotOutcome.finished
            instantiateSlots inst pinned this rest that (progress || changed)
              (missing || rhs?.isNone)) s₃ = some (r, u)) := by
        cases rhs? with
        | some rhs =>
          obtain ⟨changed, s₃, hrun, h⟩ := bind_eq_some.1 h
          obtain ⟨changed?, s₄, hpure, h⟩ := bind_eq_some.1 h
          obtain ⟨rfl, rfl⟩ := pure_eq_some.1 hpure
          exact ⟨s₃, hinst _ _ _ _ _ hp₂.sound hlhs₂.lt (hrhs rhs rfl).lt hrun,
            hinstHeeding _ _ _ _ _ hp₂.sound hwork₂ hlhs₂.lt (hrhs rhs rfl).lt hrun,
            Or.inr ⟨changed, h⟩⟩
        | none =>
          cases slot with
          | field label =>
            obtain ⟨changed?, s₃, hmissing, h⟩ := bind_eq_some.1 h
            refine ⟨s₃, instantiateMissing_proceeds hinst hp₂.sound hlhs₂.lt hmissing,
              instantiateMissing_heeds hinst hinstHeeding hcopies hp₂.sound hwork₂ hlhs₂.lt hmissing,
              ?_⟩
            cases changed? with
            | none =>
              obtain ⟨-, rfl⟩ := pure_eq_some.1 h
              exact Or.inl rfl
            | some changed => exact Or.inr ⟨changed, h⟩
          | _ =>
            obtain ⟨changed?, s₃, hpure, h⟩ := bind_eq_some.1 h
            obtain ⟨rfl, rfl⟩ := pure_eq_some.1 hpure
            exact ⟨s₂, .refl hp₂.sound, .refl _, Or.inr ⟨false, h⟩⟩
      · exact hheeds₃
      obtain ⟨that', s₄, hfind, h⟩ := bind_eq_some.1 h
      obtain ⟨-, hlooks₄⟩ := find_looks hp₃.sound hfind
      have hp₄ := hlooks₄.proceeds hp₃.sound
      have hheeds₄ := hheeds₃.trans hp₂.sound.forest (hlooks₄.heeds hp₃.sound)
      replace h := of_bind_view h
      rcases ite_eq_some.1 h with ⟨-, h⟩ | ⟨-, h⟩
      · obtain ⟨-, rfl⟩ := pure_eq_some.1 h
        exact hheeds₄
      obtain ⟨probing, s₅, hprobe, h⟩ := bind_eq_some.1 h
      obtain ⟨rfl, rfl⟩ := isProbe_eq_some.1 hprobe
      rcases ite_eq_some.1 h with ⟨-, h⟩ | ⟨-, h⟩
      · obtain ⟨-, rfl⟩ := pure_eq_some.1 h
        exact hheeds₄
      · exact hheeds₄.trans hp₂.sound.forest
          (ih hp₄.sound (by rw [hp₄.probe, hp₃.probe, hwork₂]) h)

private theorem dropExtra_heeds {labels : List String} {progress : Bool} {r : Option Bool} (hs : s.Sound)
    (hwork : s.work.isNone = false) (h : dropExtra this that labels progress s = some (r, u)) :
    Heeds f₀ C s.forest u.forest := by
  induction labels generalizing progress s with
  | nil =>
    obtain ⟨-, rfl⟩ := pure_eq_some.1 h
    exact .refl _
  | cons label rest ih =>
    replace h := of_bind_view h
    rcases ite_eq_some.1 h with ⟨-, h⟩ | ⟨-, h⟩
    · exact ih hs hwork h
    obtain ⟨child?, s₁, hchild, h⟩ := bind_eq_some.1 h
    obtain ⟨hlooks, -⟩ := child_looks hs hchild
    have hp₁ := hlooks.proceeds hs
    have hwork₁ : s₁.work.isNone = false := by rw [hp₁.probe, hwork]
    refine (hlooks.heeds hs).trans hs.forest ?_
    obtain ⟨keep, h⟩ : ∃ keep : Bool, (if keep then dropExtra this that rest progress else do
        if ← isProbe then return none
        else
          let changed ← dropField that label
          dropExtra this that rest (progress || changed)) s₁ = some (r, u) := by
      cases child? with
      | none =>
        obtain ⟨keep, s₂, hpure, h⟩ := bind_eq_some.1 h
        obtain ⟨rfl, rfl⟩ := pure_eq_some.1 hpure
        exact ⟨_, h⟩
      | some x =>
        replace h := of_bind_view h
        obtain ⟨keep, s₂, hpure, h⟩ := bind_eq_some.1 h
        obtain ⟨rfl, rfl⟩ := pure_eq_some.1 hpure
        exact ⟨_, h⟩
    rcases ite_eq_some.1 h with ⟨-, h⟩ | ⟨-, h⟩
    · exact ih hp₁.sound hwork₁ h
    obtain rfl | ⟨-, h⟩ := unless_probe h
    · exact .refl _
    obtain ⟨changed, s₂, hdrop, h⟩ := bind_eq_some.1 h
    have hp₂ := (dropField_proceeds hp₁.sound hwork₁ hdrop).1
    exact (dropField_heeds hp₁.sound hdrop).trans hp₁.sound.forest
      (ih hp₂.sound (by rw [hp₂.probe, hwork₁]) h)

include hinst hinstHeeding hcopies in
private theorem instantiateChildren_heeds {pinned : List TermId} (hs : s.Sound)
    (hwork : s.work.isNone = false) (hthat : that < s.forest.size)
    (h : instantiateChildren inst pinned this that s = some (r, u)) :
    Heeds f₀ C s.forest u.forest := by
  replace h := of_bind_view h
  replace h := of_bind_view h
  rcases ite_eq_some.1 h with ⟨-, h⟩ | ⟨-, h⟩
  · exact setImage_heeds h
  obtain ⟨v, s₁, hset, h⟩ := bind_eq_some.1 h
  obtain ⟨hp₁, hforest⟩ := setImage_proceeds hs hthat hset
  have hwork₁ : s₁.work.isNone = false := by rw [hp₁.probe, hwork]
  obtain ⟨outcome, s₂, hrun, h⟩ := bind_eq_some.1 h
  have hp₂ := instantiateSlots_proceeds hinst hp₁.sound hrun
  have hwork₂ : s₂.work.isNone = false := by rw [hp₂.probe, hwork₁]
  have hheeds₂ : Heeds f₀ C s.forest s₂.forest := by
    rw [← hforest]
    exact instantiateSlots_heeds hinst hinstHeeding hcopies hp₁.sound hwork₁ hrun
  cases outcome with
  | finished =>
    obtain ⟨-, rfl⟩ := pure_eq_some.1 h
    exact hheeds₂
  | ongoing that' progress missing =>
    obtain ⟨s₃, hp₃, hheeds₃, rfl | ⟨progress, h⟩⟩ : ∃ s₃, Proceeds s₂ s₃ ∧
        Heeds f₀ C s₂.forest s₃.forest ∧ (s₃ = u ∨ ∃ progress : Bool, (do
          let refined ← refine this that'
          return progress || refined) s₃ = some (r, u)) := by
      replace h := of_bind_view h
      replace h := of_bind_view h
      rcases ite_eq_some.1 h with ⟨-, h⟩ | ⟨-, h⟩
      · replace h := of_bind_view h
        obtain ⟨progress?, s₃, hdrop, h⟩ := bind_eq_some.1 h
        refine ⟨s₃, dropExtra_proceeds hp₂.sound hdrop, dropExtra_heeds hp₂.sound hwork₂ hdrop, ?_⟩
        cases progress? with
        | none =>
          obtain ⟨-, rfl⟩ := pure_eq_some.1 h
          exact Or.inl rfl
        | some progress => exact Or.inr ⟨progress, h⟩
      · obtain ⟨progress?, s₃, hpure, h⟩ := bind_eq_some.1 h
        obtain ⟨rfl, rfl⟩ := pure_eq_some.1 hpure
        exact ⟨s₂, .refl hp₂.sound, .refl _, Or.inr ⟨progress, h⟩⟩
    · exact hheeds₂.trans hs.forest hheeds₃
    · obtain ⟨refined, s₄, hrefine, h⟩ := bind_eq_some.1 h
      obtain ⟨-, rfl⟩ := pure_eq_some.1 h
      exact (hheeds₂.trans hs.forest hheeds₃).trans hs.forest (refine_heeds hp₃.sound hrefine)

include hcopies in
/-- A variable that joins a fresh copy of the definition hands its mark on. -/
theorem instantiateVar_heeds {pinned : List TermId} (hs : s.Sound) (hwork : s.work.isNone = false)
    (hthis : s.forest.IsClass this) (hthat : s.forest.IsClass that)
    (hfresh : s.image.lookup this = none) (hvar : s.forest.kind that = .var)
    (h : (do
      let c ← freshCopy pinned this
      let progress ← merge that c
      setImage this that
      return progress) s = some (r, u)) : Heeds f₀ C s.forest u.forest := by
  obtain ⟨c, s₁, hcopy, h⟩ := bind_eq_some.1 h
  obtain ⟨progress, s₂, hmerge, h⟩ := bind_eq_some.1 h
  obtain ⟨hp₁, hsteady, -, hc, hrefreshed⟩ := freshCopy_proceeds hs hthis.lt hcopy
  have hvar₁ : s₁.forest.kind that = .var := (hrefreshed that hthat.lt
    (Forest.calm_of_not_nilable hthat.root (by rw [hvar]; rfl))).eq_var.2 hvar
  exact ((freshCopy_heeds hcopies hs hthis.lt hcopy).trans hs.forest
    (merge_heeds hp₁.sound (by rw [hp₁.probe, hwork]) (hthat.of_steady hsteady)
      (hc (by rw [hthis.rep_eq, hfresh])) (fun _ => by rw [hvar₁]; exact ⟨rfl, rfl⟩)
      (fun n m hn => by rw [hvar₁] at hn; cases hn) hmerge)).trans hs.forest (setImage_heeds h)

include hinst hinstHeeding hheeding hcopies in
/-- Two types that are known and not both flows meet by their shapes. -/
theorem instantiateKnown_heeds {pinned : List TermId} (hs : s.Sound)
    (hwork : s.work.isNone = false) (hthis : s.forest.IsClass this)
    (hthat : s.forest.IsClass that) (hkthat : s.forest.kind that ≠ .var)
    (h : (do
      if (s.forest.kind this).isNilable && !(s.forest.kind that).isNilable then
        instantiateNilable that
      else if (s.forest.kind that).isNilable && !(s.forest.kind this).isNilable then
        instantiateInner inst this that
      else if (s.forest.kind this).shape ≠ (s.forest.kind that).shape then reject rec this that
      else instantiateChildren inst pinned this that : UnifyM Bool) s = some (r, u)) :
    Heeds f₀ C s.forest u.forest := by
  rcases ite_eq_some.1 h with ⟨hcase, h⟩ | ⟨-, h⟩
  · rw [Bool.and_eq_true, Bool.not_eq_true'] at hcase
    exact instantiateNilable_heeds hs hthat (Kind.isUndecided_eq_false hkthat hcase.2) h
  rcases ite_eq_some.1 h with ⟨hcase, h⟩ | ⟨-, h⟩
  · rw [Bool.and_eq_true, Bool.not_eq_true'] at hcase
    exact instantiateInner_heeds hinstHeeding hcopies hs hwork hthis hcase.2 hcase.1 h
  rcases ite_eq_some.1 h with ⟨-, h⟩ | ⟨-, h⟩
  · exact reject_heeds hheeding hs hwork hthat.lt h
  · exact instantiateChildren_heeds hinst hinstHeeding hcopies hs hwork hthat.lt h

include hinst hinstHeeding hheeding hcopies in
/-- One layer of instantiation heeds marks if the next one does. -/
theorem instantiateStep_heeds {pinned : List TermId} (hs : s.Sound) (hwork : s.work.isNone = false)
    (hthis : this < s.forest.size) (hthat : that < s.forest.size)
    (h : instantiateStep inst rec pinned this that s = some (r, u)) :
    Heeds f₀ C s.forest u.forest := by
  obtain ⟨x, s₁, hfind, h⟩ := bind_eq_some.1 h
  obtain ⟨y, s₂, hfind', h⟩ := bind_eq_some.1 h
  obtain ⟨hlooks, -, ⟨hx, -⟩, hxc, hyc⟩ := find_both hs hthis hthat hfind hfind'
  have hs₂ := (hlooks.proceeds hs).sound
  have hwork₂ : s₂.work.isNone = false := by rw [hlooks.work, hwork]
  refine (hlooks.heeds hs).trans hs.forest ?_
  obtain ⟨image, s₃, himage, h⟩ := bind_eq_some.1 h
  obtain ⟨rfl, rfl⟩ := imageOf_eq_some.1 himage
  cases hprior : s₂.image.lookup x with
  | some prior =>
    -- The definition was instantiated here before.
    simp only [hprior] at h
    obtain ⟨prior', s₃, hfind, h⟩ := bind_eq_some.1 h
    have hclass := isClass_of_find hs₂ (hs₂.image_lt hprior) hfind
    obtain ⟨-, hlooks₃⟩ := find_looks hs₂ hfind
    have hp₃ := hlooks₃.proceeds hs₂
    exact (hlooks₃.heeds hs₂).trans hs₂.forest (hheeding _ _ _ _ _ hp₃.sound
      (by rw [hp₃.probe, hwork₂]) hclass.lt (hp₃.lt hs₂ hyc.lt) h)
  | none =>
    simp only [hprior] at h
    obtain ⟨alike, s₃, halike, h⟩ := bind_eq_some.1 h
    have hlooks₃ := looks_onForest (Forest.keepsUp_alike _ _) hs₂ halike
    have hs₃ := (hlooks₃.proceeds hs₂).sound
    have hxc := hxc.of_steady (hlooks₃.steady hs₂)
    have hyc := hyc.of_steady (hlooks₃.steady hs₂)
    refine (hlooks₃.heeds hs₂).trans hs₂.forest ?_
    rcases ite_eq_some.1 h with ⟨-, h⟩ | ⟨-, h⟩
    · exact setImage_heeds h
    replace h := of_bind_view h
    rcases ite_eq_some.1 h with ⟨-, h⟩ | ⟨-, h⟩
    · exact setImage_heeds h
    obtain ⟨shared, s₄, hshared, h⟩ := bind_eq_some.1 h
    have hlooks₄ := shared_looks hs₃ hshared
    have hs₄ := (hlooks₄.proceeds hs₃).sound
    have hxc := hxc.of_steady (hlooks₄.steady hs₃)
    have hyc := hyc.of_steady (hlooks₄.steady hs₃)
    have hfresh : s₄.image.lookup x = none := by rw [hlooks₄.image, hlooks₃.image, hprior]
    have hwork₄ : s₄.work.isNone = false := by rw [hlooks₄.work, hlooks₃.work, hwork₂]
    refine (hlooks₄.heeds hs₃).trans hs₃.forest ?_
    rcases ite_eq_some.1 h with ⟨-, h⟩ | ⟨-, h⟩
    · -- The definition is an error or pinned: it is unified as it is.
      obtain ⟨progress, s₅, hunify, h⟩ := bind_eq_some.1 h
      exact (hheeding _ _ _ _ _ hs₄ hwork₄ hxc.lt hyc.lt hunify).trans hs₄.forest
        (setImage_heeds h)
    replace h := of_bind_view h
    replace h := of_bind_view h
    rcases ite_eq_some.1 h with ⟨-, h⟩ | ⟨-, h⟩
    · exact setImage_heeds h
    rcases ite_eq_some.1 h with ⟨hvar, h⟩ | ⟨hvar, h⟩
    · -- The use is a variable and joins a copy.
      rw [Kind.isVar_iff] at hvar
      obtain rfl | ⟨-, h⟩ := unless_probe h
      · exact .refl _
      · exact instantiateVar_heeds hcopies hs₄ hwork₄ hxc hyc hfresh hvar h
    rw [Kind.isVar_iff] at hvar
    cases ha : (s₄.forest.kind x).baseFlow? with
    | none =>
      simp only [ha] at h
      exact instantiateKnown_heeds hinst hinstHeeding hheeding hcopies hs₄ hwork₄ hxc hyc hvar h
    | some a =>
      cases hb : (s₄.forest.kind y).baseFlow? with
      | none =>
        simp only [ha, hb] at h
        exact instantiateKnown_heeds hinst hinstHeeding hheeding hcopies hs₄ hwork₄ hxc hyc hvar h
      | some b =>
        simp only [ha, hb] at h
        exact instantiateBase_heeds hheeding hs₄ hwork₄ hyc (Kind.baseFlow?_eq_some.1 hb) h

end Use

/-- The instantiation of any definition heeds marks, if copies of wrappers count as such. -/
theorem instantiateWithin_heeding (hcopies : f₀.HasWrappers → ∃ x, C x) (pinned : List TermId)
    (depth : Nat) : Heeding f₀ C (instantiateWithin pinned depth) := by
  induction depth with
  | zero => exact fun _ _ _ _ _ _ _ _ _ h => (failure_eq_some.1 h).elim
  | succ depth ih =>
    exact fun a b s r u hs hwork ha hb h =>
      instantiateStep_heeds (instantiateWithin_proceeding pinned depth)
        ih (unifyWithin_heeding depth) hcopies hs hwork ha hb h

end Unifier

end TypeFlow
