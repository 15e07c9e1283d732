import TypeFlow.Proofs.Fences
import TypeFlow.Proofs.Instantiations

/-!
# Copies made beside a fence

The copy of a type is built out of copies of its classes, each of which shares its children with the
original until they are copied in turn.  While it is built nothing but the copying knows of it, and
when it is complete all its children are copies or lie outside the fence, so that nothing that
follows the copy gets to the original.

Main definitions:

- `Unifier.Copying`: what holds while a type is copied.
- `Unifier.Copied`: what a step of the copying leaves of the terms before.

Main results:

- `Unifier.freshCopyWithin_duplicates`: a complete copy has no child inside the fence.
-/

namespace TypeFlow

open Forest (Steady Fence Spared Region Tidies)

namespace Forest

variable {f g : Forest} {H : TermId → Prop} {base : Nat}

/-- A fence among old terms stays up if they do not change. -/
theorem Fence.of_old (hf : f.Rooted) (hfence : f.Fence (· < base) H) (hs : Steady f g)
    (hold : ∀ t, t < base → g.terms[t]? = f.terms[t]?) : g.Fence (· < base) H := by
  refine hfence.of_spared hf hs.evolves (fun t ht x hx => ?_) (fun t ht x hx => ?_) fun t ht => ?_
  · rw [kind_congr (hold t ht)] at hx
    exact hfence.region t ht x hx
  · rw [kind_congr (hold t ht.1)] at hx
    exact hfence.outside t ht x hx
  · exact .of_eq (hold t (hfence.inside t ht))

end Forest

namespace Unifier

variable {s u : Unifier} {f g h : Forest} {base upto : Nat} {H todo : TermId → Prop}
  {pinned : List TermId}

/-- A type is being copied.  There is a fence among the terms that were there when that began, and
the pinned types lie outside.  Copies whose children have been copied have none inside, and neither
is the image of any class. -/
structure Copying (base : Nat) (H : TermId → Prop) (pinned : List TermId) (todo : TermId → Prop)
    (s : Unifier) : Prop where
  sound : s.Sound
  size : base ≤ s.forest.size
  fence : s.forest.Fence (· < base) H
  root : ∀ c, base ≤ c → (s.forest.kind c).isLink = false
  done : ∀ c, base ≤ c → ¬todo c → ∀ slot x, (s.forest.kind c).child? slot = some x → ¬H x
  image : ∀ p ∈ s.image, ¬H p.2
  pinned : ∀ p ∈ pinned, p < base ∧ ¬H p

/-- The terms inside the fence were spared, copies made earlier are what they were, and classes that
are not copies and wrap variables at most have the same children. -/
structure Copied (base : Nat) (H : TermId → Prop) (upto : Nat) (f g : Forest) : Prop where
  steady : Steady f g
  spared : ∀ t, H t → Spared f g t
  copies : ∀ c, base ≤ c → c < upto → g.kind c = f.kind c
  calm : ∀ c, c < base → f.Calm c →
    g.Calm c ∧ ∀ slot, ((g.kind c).child? slot).isSome = ((f.kind c).child? slot).isSome

namespace Copied

private theorem refl (hf : f.Rooted) : Copied base H upto f f :=
  ⟨.refl hf, fun _ _ => .of_eq rfl, fun _ _ _ => rfl, fun _ _ hc => ⟨hc, fun _ => rfl⟩⟩

private theorem trans (hfg : Copied base H upto f g) (hgh : Copied base H upto g h) :
    Copied base H upto f h where
  steady := hfg.steady.trans hgh.steady
  spared t ht := (hfg.spared t ht).trans hfg.steady.rooted hgh.steady.evolves (hgh.spared t ht)
  copies c hc hlt := (hgh.copies c hc hlt).trans (hfg.copies c hc hlt)
  calm c hc hcalm := by
    obtain ⟨hcalm₁, hslots₁⟩ := hfg.calm c hc hcalm
    obtain ⟨hcalm₂, hslots₂⟩ := hgh.calm c hc hcalm₁
    exact ⟨hcalm₂, fun slot => (hslots₂ slot).trans (hslots₁ slot)⟩

private theorem mono {upto' : Nat} (hfg : Copied base H upto f g) (hle : upto' ≤ upto) :
    Copied base H upto' f g :=
  ⟨hfg.steady, hfg.spared, fun c hc hlt => hfg.copies c hc (Nat.lt_of_lt_of_le hlt hle), hfg.calm⟩

/-- What does not concern old terms copies. -/
theorem of_old (hfence : f.Fence (· < base) H) (hs : Steady f g)
    (hold : ∀ t, t < base → g.terms[t]? = f.terms[t]?)
    (hcopies : ∀ c, base ≤ c → c < upto → g.kind c = f.kind c) : Copied base H upto f g where
  steady := hs
  spared t ht := .of_eq (hold t (hfence.inside t ht))
  copies := hcopies
  calm c hc hcalm := by
    have hkind := Forest.kind_congr (hold c hc)
    refine ⟨⟨?_, fun inner hinner => ?_⟩, fun slot => by rw [hkind]⟩
    · rw [hkind, hcalm.root]
    · rw [hkind] at hinner
      have hlt : f.rep inner < base :=
        hfence.region.rep (hfence.region c hc inner (by rw [hinner]; exact List.mem_singleton_self _))
      rw [hs.rep, Forest.kind_congr (hold _ hlt), hcalm.wraps inner hinner]

end Copied

namespace Copying

variable (hs : Copying base H pinned todo s)

include hs

/-- Old terms may be looked up. -/
theorem tidies {f : Forest} (h : Tidies (· < base) s.forest f) :
    Copying base H pinned todo { s with forest := f } ∧
      Copied base H s.forest.size s.forest f := by
  have hrooted := hs.sound.forest.rooted
  have hup := h.upkeeps hrooted
  obtain ⟨hfence, hspared⟩ := h.fence hrooted hs.fence
  have hcopies : ∀ c, base ≤ c → f.kind c = s.forest.kind c := fun c hc =>
    Forest.kind_congr ((h.keepsTo hs.fence.region).2 c (Nat.not_lt.2 hc))
  refine ⟨⟨⟨hup.sound hs.sound.forest, fun p hp => ?_⟩, ?_, hfence, fun c hc => ?_,
    fun c hc hdone => ?_, hs.image, hs.pinned⟩, ⟨hup.steady hrooted, hspared, fun c hc _ => hcopies c hc,
    fun c _ hcalm => ?_⟩⟩
  · rw [h.size]
    exact hs.sound.image p hp
  · rw [h.size]
    exact hs.size
  · rw [hcopies c hc]
    exact hs.root c hc
  · rw [hcopies c hc]
    exact hs.done c hc hdone
  · obtain ⟨hrefreshed, hcalm'⟩ := hup.calm hrooted hcalm
    exact ⟨hcalm', hrefreshed.isSome_child?⟩

/-- A copy of an old class may be added.  Its children have to be copied yet. -/
theorem add {term : Term} {r : TermId} (hroot : (s.forest.kind r).isLink = false)
    (hterm : term.kind = s.forest.kind r) :
    Copying base H pinned (fun c => todo c ∨ c = s.forest.size)
        { s with forest := (s.forest.add term).2 } ∧
      Copied base H s.forest.size s.forest (s.forest.add term).2 := by
  have hlink : term.kind.isLink = false := by rw [hterm, hroot]
  have hrange : ∀ x ∈ term.kind.children, x < s.forest.size := by
    rw [hterm]
    exact hs.sound.forest.inRange r
  have hsteady := Forest.steady_add hs.sound.forest.rooted hlink
  have hold : ∀ t, t < s.forest.size →
      (s.forest.add term).2.terms[t]? = s.forest.terms[t]? := fun t ht =>
    Forest.terms_add_of_ne (Nat.ne_of_lt ht) term
  have hbase : ∀ t, t < base → (s.forest.add term).2.terms[t]? = s.forest.terms[t]? :=
    fun t ht => hold t (Nat.lt_of_lt_of_le ht hs.size)
  refine ⟨⟨⟨hs.sound.forest.add hlink hrange, fun p hp => ?_⟩, ?_,
    hs.fence.of_old hs.sound.forest.rooted hsteady hbase, fun c hc => ?_, fun c hc hdone => ?_, hs.image,
    hs.pinned⟩, .of_old hs.fence hsteady hbase fun c _ hlt => Forest.kind_congr (hold c hlt)⟩
  · exact Nat.lt_of_lt_of_le (hs.sound.image p hp) hsteady.size
  · exact Nat.le_trans hs.size hsteady.size
  · rw [Forest.kind_add]
    split
    · exact hlink
    · exact hs.root c hc
  · rw [Forest.kind_add, if_neg fun e => hdone (Or.inr e)]
    exact hs.done c hc fun htodo => hdone (Or.inl htodo)

/-- The image of a class may be recorded, unless it is inside. -/
theorem setImage {x c : TermId} {v : Unit} (hc : c < s.forest.size) (hout : ¬H c)
    (h : setImage x c s = some (v, u)) : Copying base H pinned todo u ∧ u.forest = s.forest := by
  obtain rfl := modify_eq_some.1 h
  refine ⟨⟨⟨hs.sound.forest, fun p hp => ?_⟩, hs.size, hs.fence, hs.root, hs.done, fun p hp => ?_,
    hs.pinned⟩, rfl⟩
  · rcases List.mem_cons.1 hp with rfl | hp
    · exact hc
    · exact hs.sound.image p hp
  · rcases List.mem_cons.1 hp with rfl | hp
    · exact hout
    · exact hs.image p hp

/-- A copy may get another child, unless that is inside. -/
theorem graft {c child : TermId} (slot : Slot) (hc : base ≤ c) (htodo : todo c)
    (hchild : child < s.forest.size) :
    Copying base H pinned todo { s with forest := s.forest.setChild c slot child } ∧
      Copied base H c s.forest (s.forest.setChild c slot child) := by
  have hsteady := Forest.setChild_steady hs.sound.forest.rooted c slot child
  have hold : ∀ t, t < base → (s.forest.setChild c slot child).terms[t]? = s.forest.terms[t]? :=
    fun t ht => Forest.terms_update_of_ne (Nat.ne_of_gt (Nat.lt_of_lt_of_le ht hc)) _
  refine ⟨⟨⟨Forest.setChild_sound hs.sound.forest c slot hchild, fun p hp => ?_⟩, ?_,
    hs.fence.of_old hs.sound.forest.rooted hsteady hold, fun x hx => ?_, fun x hx hdone => ?_, hs.image,
    hs.pinned⟩, .of_old hs.fence hsteady hold fun x _ hlt => ?_⟩
  · exact Nat.lt_of_lt_of_le (hs.sound.image p hp) hsteady.size
  · exact Nat.le_trans hs.size hsteady.size
  · rw [hsteady.isLink, hs.root x hx]
  · have hne : c ≠ x := fun e => hdone (e ▸ htodo)
    rw [Forest.kind_setChild, if_neg hne]
    exact hs.done x hx hdone
  · rw [Forest.kind_setChild, if_neg (Nat.ne_of_gt hlt)]

/-- A copy is complete when none of its children is inside. -/
theorem finish {c : TermId} {unfinished : TermId → Prop}
    (hc : ∀ slot x, (s.forest.kind c).child? slot = some x → ¬H x)
    (htodo : ∀ x, todo x → unfinished x ∨ x = c) : Copying base H pinned unfinished s := by
  refine ⟨hs.sound, hs.size, hs.fence, hs.root, fun x hx hdone => ?_, hs.image, hs.pinned⟩
  by_cases e : x = c
  · rw [e]
    exact hc
  · exact hs.done x hx fun h => (htodo x h).elim hdone e

end Copying

/-! ## The copying -/

/-- The copying of an old term is a step of the copying, and its copy lies outside. -/
def Duplicates (base : Nat) (H : TermId → Prop) (pinned : List TermId)
    (duplicate : TermId → UnifyM TermId) : Prop :=
  ∀ todo s x y u, Copying base H pinned todo s → x < base → duplicate x s = some (y, u) →
    Copying base H pinned todo u ∧ Copied base H s.forest.size s.forest u.forest ∧ y < u.forest.size ∧ ¬H y

/-- When the children of a class have been copied, none in the copy is inside. -/
theorem copySlots_fenced {duplicate : TermId → UnifyM TermId}
    (hduplicate : Duplicates base H pinned duplicate) {r c : TermId} {slots : List Slot} {v : Unit}
    (hs : Copying base H pinned todo s) (hr : r < base) (hcalm : s.forest.Calm r) (hc : base ≤ c)
    (hlt : c < s.forest.size) (htodo : todo c)
    (hslots : ∀ slot ∈ slots, ((s.forest.kind r).child? slot).isSome)
    (hrest : ∀ slot x, slot ∉ slots → (s.forest.kind c).child? slot = some x → ¬H x)
    (h : copySlots duplicate r c slots s = some (v, u)) :
    Copying base H pinned todo u ∧ Copied base H c s.forest u.forest ∧
      ∀ slot x, (u.forest.kind c).child? slot = some x → ¬H x := by
  induction slots generalizing s with
  | nil =>
    obtain ⟨-, rfl⟩ := pure_eq_some.1 h
    exact ⟨hs, .refl hs.sound.forest.rooted, fun slot x => hrest slot x List.not_mem_nil⟩
  | cons slot rest ih =>
    obtain ⟨child?, s₁, hchild, h⟩ := bind_eq_some.1 h
    have hanswer := child_eq hs.sound hchild
    obtain ⟨f₁, hrun, rfl⟩ := onForest_eq_some.1 hchild
    obtain ⟨htidies, hold⟩ := Forest.child_tidies hs.fence.region hr hrun
    obtain ⟨hs₁, hc₁⟩ := hs.tidies htidies
    -- The class has not lost the child, so the copy gets another for it.
    obtain ⟨raw, hraw⟩ := Option.isSome_iff_exists.1 (hslots slot List.mem_cons_self)
    rw [hraw, Option.map_some] at hanswer
    subst hanswer
    obtain ⟨y, s₂, hcopy, h⟩ := bind_eq_some.1 h
    obtain ⟨v', s₃, hgraft, h⟩ := bind_eq_some.1 h
    obtain ⟨hs₂, hc₂, hy, hout⟩ := hduplicate _ _ _ _ _ hs₁ (hold _ rfl) hcopy
    obtain rfl := change_eq_some.1 hgraft
    obtain ⟨hs₃, hc₃⟩ := hs₂.graft slot hc htodo hy
    have hlt₁ : c < f₁.size := by rwa [htidies.size]
    have hall := ((hc₁.mono hlt.le).trans (hc₂.mono hlt₁.le)).trans hc₃
    have hkind : s₂.forest.kind c = s.forest.kind c :=
      (hc₂.copies c hc hlt₁).trans (hc₁.copies c hc hlt)
    obtain ⟨hcalm₃, hsome⟩ := hall.calm r hr hcalm
    obtain ⟨hs', hc', hdone⟩ := ih hs₃ hcalm₃ (Nat.lt_of_lt_of_le hlt hall.steady.size)
      (fun slot' hslot' => by
        rw [hsome]
        exact hslots slot' (List.mem_cons_of_mem _ hslot'))
      (fun slot' x hslot' hx => by
        rw [Forest.kind_setChild, if_pos rfl] at hx
        rcases Kind.child?_of_setChild hx with ⟨-, rfl⟩ | ⟨hne, hx⟩
        · exact hout
        · rw [hkind] at hx
          exact hrest slot' x (fun hmem => (List.mem_cons.1 hmem).elim hne hslot') hx)
      h
    exact ⟨hs', hall.trans hc', hdone⟩

/-- The copy of a type lies outside, and so do its children when it is complete. -/
theorem freshCopyWithin_duplicates (fuel : Nat) :
    Duplicates base H pinned (freshCopyWithin pinned fuel) := by
  induction fuel with
  | zero => exact fun todo s x y u _ _ h => (failure_eq_some.1 h).elim
  | succ fuel ih =>
    intro todo s x y u hs hx h
    obtain ⟨r, s₁, hfind, h⟩ := bind_eq_some.1 h
    have hcalm := calm_of_find hs.sound hfind
    obtain ⟨f₁, hrun, rfl⟩ := onForest_eq_some.1 hfind
    obtain ⟨htidies, hr⟩ := Forest.find_tidies hs.fence.region hx hrun
    obtain ⟨hs₁, hc₁⟩ := hs.tidies htidies
    obtain ⟨image, s₂, himage, h⟩ := bind_eq_some.1 h
    obtain ⟨rfl, rfl⟩ := imageOf_eq_some.1 himage
    cases hknown : s.image.lookup r with
    | some prior =>
      simp only [hknown] at h
      obtain ⟨rfl, rfl⟩ := pure_eq_some.1 h
      obtain ⟨l₁, l₂, hlist, -⟩ := List.lookup_eq_some_iff.1 hknown
      refine ⟨hs₁, hc₁, hs₁.sound.image_lt (x := r) hknown, hs.image (r, prior) ?_⟩
      rw [hlist]
      exact List.mem_append_right _ List.mem_cons_self
    | none =>
      simp only [hknown] at h
      obtain ⟨occurs, s₂, hoccurs, h⟩ := bind_eq_some.1 h
      obtain ⟨f₂, hrun₂, rfl⟩ := onForest_eq_some.1 hoccurs
      obtain ⟨htidies₂, hfound⟩ := Forest.occursInAny_tidies hs₁.sound.forest.rooted
        hs₁.fence.region hs₁.fence.outside (fun _ hx => hx.1) hr hs.pinned hrun₂
      obtain ⟨hs₂, hc₂⟩ := hs₁.tidies htidies₂
      have hcalm₂ := (hc₂.calm r hr hcalm).1
      have hc₂ := hc₁.trans (hc₂.mono htidies.size.ge)
      have hlt : r < f₂.size := Nat.lt_of_lt_of_le hr hs₂.size
      rcases ite_eq_some.1 h with ⟨hocc, h⟩ | ⟨-, h⟩
      · -- What is pinned is its own copy.
        obtain ⟨v, s₃, hset, h⟩ := bind_eq_some.1 h
        obtain ⟨rfl, rfl⟩ := pure_eq_some.1 h
        have hout := (hfound hocc).2
        rw [Forest.rep_of_not_link hcalm.root] at hout
        obtain ⟨hs₃, hforest⟩ := hs₂.setImage hlt hout hset
        rw [hforest]
        exact ⟨hs₃, hc₂, hlt, hout⟩
      obtain ⟨c', s₃, hcopy, h⟩ := bind_eq_some.1 h
      obtain ⟨rfl, rfl⟩ := copy_eq_some.1 hcopy
      replace h := of_bind_view h
      -- The copy of a variable forgets who was registered with it.
      obtain ⟨term, hterm, h⟩ : ∃ term : Term, term.kind = f₂.kind r ∧ (do
          setImage r f₂.size
          copySlots (freshCopyWithin pinned fuel) r f₂.size
            ((f₂.add (f₂.terms[r]?.getD default)).2.kind r).slots
          return f₂.size) { s with forest := (f₂.add term).2 } = some (y, u) := by
        rcases ite_eq_some.1 h with ⟨-, h⟩ | ⟨-, h⟩
        · obtain ⟨v, s₄, hclear, h⟩ := bind_eq_some.1 h
          obtain rfl := change_eq_some.1 hclear
          dsimp only at h
          rw [Forest.update_add] at h
          exact ⟨{ f₂.terms[r]?.getD default with deps := .empty }, Forest.kind_getD _ _, h⟩
        · exact ⟨_, Forest.kind_getD _ _, h⟩
      obtain ⟨hs₃, hc₃⟩ := hs₂.add hcalm₂.root hterm
      obtain ⟨v, s₄, hset, h⟩ := bind_eq_some.1 h
      obtain ⟨v', s₅, hslots, h⟩ := bind_eq_some.1 h
      obtain ⟨rfl, rfl⟩ := pure_eq_some.1 h
      have hout : ¬H f₂.size := fun hin =>
        Nat.lt_irrefl _ (Nat.lt_of_lt_of_le (hs₂.fence.inside _ hin) hs₂.size)
      have hnew : f₂.size < (f₂.add term).2.size := by
        rw [Forest.size_add]
        exact Nat.lt_succ_self _
      obtain ⟨hs₄, hforest⟩ := hs₃.setImage hnew hout hset
      have hkind : ∀ term, (f₂.add term).2.kind r = f₂.kind r := fun term => by
        rw [Forest.kind_add, if_neg (Nat.ne_of_lt hlt)]
      obtain ⟨hs₅, hc₅, hdone⟩ := copySlots_fenced ih hs₄ hr
        (by
          rw [hforest]
          exact (hc₃.calm r hr hcalm₂).1)
        hs₂.size (by rwa [hforest]) (Or.inr rfl)
        (fun slot hslot => by
          rw [hkind] at hslot
          rw [hforest, hkind]
          exact Kind.mem_slots.1 hslot)
        (fun slot z hslot hz => by
          rw [hforest, Forest.kind_add, if_pos rfl, hterm, ← hkind] at hz
          exact absurd (Kind.mem_slots.2 (Option.isSome_of_eq_some hz)) hslot)
        hslots
      rw [hforest] at hc₅
      have hall := (hc₂.trans (hc₃.mono hc₂.steady.size)).trans (hc₅.mono hc₂.steady.size)
      refine ⟨hs₅.finish hdone fun x hx => hx, hall, ?_, hout⟩
      exact Nat.lt_of_lt_of_le hnew hc₅.steady.size

end Unifier

end TypeFlow
