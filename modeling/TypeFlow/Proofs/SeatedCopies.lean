import TypeFlow.Proofs.SeatedInstances

/-!
# Copies in their seats

The copy of a class of a definition whose type is a tree is an instance of it.  While its children are copied, it
is barred, since it leads to the definition still.  When it leads to copies only, it goes where the class belongs,
and it keeps what it has: what is copied for one child is not touched by what is copied for another.

Main definitions:

- `Unifier.Vacant`: nothing was done yet for what is known of the types that a class leads to.
- `Unifier.Replica`: a copy of a class of the definition.
- `Unifier.Drawn`: a copy that has copies of the children in all but some slots.
- `Unifier.Original`: a class that is copied for one of the definition.

Main results:

- `Unifier.freshCopyWithin_draws`: the copy of a class of the definition is an instance.
- `Unifier.freshCopyWithin_original`: so is the copy of what a class is apart from nil, but for nil.
-/

namespace TypeFlow

/-- A wrapper has one slot only. -/
theorem Kind.isNilable_of_slots {k : Kind} {slot : Slot} {rest : List Slot} (hslot : slot ∉ rest)
    (hslots : slot :: rest ⊆ k.slots) (hrest : rest ≠ []) : k.isNilable = false := by
  refine Bool.eq_false_iff.2 fun hnilable => ?_
  obtain ⟨x, rfl⟩ := Kind.isNilable_eq_true.1 hnilable
  obtain ⟨slot', hslot'⟩ := List.exists_mem_of_ne_nil _ hrest
  have hinner := List.mem_singleton.1 (hslots List.mem_cons_self)
  have hinner' := List.mem_singleton.1 (hslots (List.mem_cons_of_mem _ hslot'))
  rw [hinner', ← hinner] at hslot'
  exact hslot hslot'

open Forest (IsClass Steady Template Zone)

namespace Unifier

variable {f : Forest} {d : TermId} {pinned : List TermId} {A : TermId → Prop} {zone zone' : TermId → Zone}
  {z : Zone} {s u : Unifier} {a b c t x y : TermId} {l : Kind} {slot : Slot} {slots rest : List Slot}

/-! ## Classes without instances -/

/-- What is single in the definition, and part of the type of a class, has no image, and is as it was. -/
def Vacant (f : Forest) (d : TermId) (zone : TermId → Zone) (s : Unifier) (a : TermId) : Prop :=
  ∀ x, f.Reaches a x → f.Single d x → s.image.lookup x = none ∧ zone x = .barred

namespace Vacant

/-- Nothing was done for parts of it. -/
theorem of_reaches (h : Vacant f d zone s a) (hab : f.Reaches a b) : Vacant f d zone s b :=
  fun x hx => h x (hab.trans hx)

/-- The class is as it was, be it known or not. -/
theorem barred (hs : Laid f d pinned zone s) (ha : f.Reaches d a) (h : Vacant f d zone s a) : zone a = .barred := by
  by_cases hvar : f.kind a = .var
  · refine (hs.definition a ha).resolve_right fun herror => ?_
    rw [hvar] at herror
    cases herror.1
  · exact (h a .refl (.of_known hvar)).2

/-- Nothing is done by work elsewhere. -/
theorem works (hf : f.Template d pinned) (hs : Laid f d pinned zone s) (hworks : Works f d pinned A zone s zone' u)
    (ha : f.Reaches d a) (hA : ∀ x, f.Reaches a x → f.Single d x → ¬A x) (h : Vacant f d zone s a) :
    Vacant f d zone' u a := by
  intro x hx hvar
  obtain ⟨hnone, hbarred⟩ := h x hx hvar
  refine ⟨(hworks.spares x (hf.lt_of_reaches (ha.trans hx)) (hA x hx hvar)).trans hnone, ?_⟩
  rcases hworks.zones x (hs.lt_of_reaches hf (ha.trans hx)) with e | ⟨hAx, -⟩
  · exact e.trans hbarred
  · exact absurd hAx (hA x hx hvar)

end Vacant

/-! ## Copies that are drawn up -/

/-- The term is a copy of a class of the definition: the image of a variable or what takes nil in for a wrapper, if it
is free, or a term of the seat of the same kind, with copies of the children. -/
inductive Replica (f : Forest) (zone : TermId → Zone) (s : Unifier) : TermId → TermId → Prop
  | image {a b c : TermId} (hvar : f.kind a = .var) (hc : s.image.lookup a = some c)
    (hrep : s.forest.rep c = s.forest.rep b) (hzone : zone (s.forest.rep b) = .free) : Replica f zone s a b
  | wrapper {a b : TermId} (hnilable : (f.kind a).isNilable = true) (hzone : zone (s.forest.rep b) = .free)
    (hb : s.forest.TakesNil b) : Replica f zone s a b
  | known {a b : TermId} (hvar : f.kind a ≠ .var) (hnilable : (f.kind a).isNilable = false)
    (hzone : zone (s.forest.rep b) = .seat a) (hsame : (f.kind a).Same (fun _ => 0) (s.forest.kind (s.forest.rep b)))
    (hchildren : ∀ slot x y, (f.kind a).child? slot = some x →
      (s.forest.kind (s.forest.rep b)).child? slot = some y → Replica f zone s (f.rep x) y) : Replica f zone s a b

namespace Replica

/-- All terms of a class are copies, or none. -/
theorem of_rep (h : Replica f zone s a b) (hrep : s.forest.rep b = s.forest.rep c) : Replica f zone s a c := by
  cases h with
  | image hvar hc hrep' hzone => exact .image hvar hc (hrep'.trans hrep) (hrep ▸ hzone)
  | wrapper hnilable hzone hb => exact .wrapper hnilable (hrep ▸ hzone) (hb.of_rep hrep)
  | known hvar hnilable hzone hsame hchildren =>
    rw [hrep] at hzone hsame hchildren
    exact .known hvar hnilable hzone hsame hchildren

/-- A copy is an instance. -/
theorem seated {twins : Prop} (h : Replica f zone s a b) : Seated f zone s twins a b := by
  induction h with
  | image hvar hc hrep _ => exact .image hvar hc hrep
  | wrapper hnilable _ hb => exact .nilable hnilable hb
  | known hvar hnilable hzone hsame _ ih =>
    exact .known hvar (.known hzone rfl (hsame.isNilable.trans hnilable)) (.same hsame) ih

/-- Copies stay so while terms get seats. -/
theorem zone_mono (hzone : ∀ c, zone c ≠ .barred → zone' c = zone c) (h : Replica f zone s a b) :
    Replica f zone' s a b := by
  induction h with
  | image hvar hc hrep hfree =>
    exact .image hvar hc hrep ((hzone _ (by rw [hfree]; exact Zone.noConfusion)).trans hfree)
  | wrapper hnilable hfree hb =>
    exact .wrapper hnilable ((hzone _ (by rw [hfree]; exact Zone.noConfusion)).trans hfree) hb
  | known hvar hnilable hseat hsame _ ih =>
    exact .known hvar hnilable ((hzone _ (by rw [hseat]; exact Zone.noConfusion)).trans hseat) hsame ih

/-- Work elsewhere leaves copies alone. -/
theorem works (hs : Laid f d pinned zone s) (hworks : Works f d pinned A zone s zone' u) (ha : f.Reaches d a)
    (hA : ∀ x, f.Reaches a x → f.Single d x → ¬A x) (h : Replica f zone s a b) : Replica f zone' u a b := by
  induction h with
  | @image a b c hvar hc hrep hfree =>
    obtain ⟨c', hc', hrep'⟩ := hworks.image _ _ ha hvar hc
    refine .image hvar hc' (hrep'.trans (hworks.rep _ _ hrep)) (hworks.free hs ?_ hfree)
    rw [← hrep]
    exact Forest.rep_lt_size hs.sound.forest.rooted (hs.sound.image_lt hc)
  | @wrapper a b hnilable hfree hb =>
    refine .wrapper hnilable (hworks.free hs (Forest.lt_size_of_kind fun hvar => ?_) hfree) (hworks.nils _ hb)
    rcases hb with hnil | hdead
    · rw [hvar] at hnil
      cases hnil
    · rw [Forest.Dead, hvar] at hdead
      cases hdead
  | @known a b hvar hnilable hseat hsame _ ih =>
    -- The class is not touched, so it stays one of the same kind.
    obtain ⟨k, hk, hsame'⟩ := hworks.shows (· = s.forest.rep b) b _
      (fun c hc htouched => hA a .refl (.of_known hvar) (by rwa [hc, hseat] at htouched))
      (.known rfl rfl (hsame.isNilable.trans hnilable))
    have hrep : u.forest.rep b = s.forest.rep b := hk.rep_mem
    obtain rfl : u.forest.kind (u.forest.rep b) = k := hrep ▸ hk.eq_of_one.1
    refine .known hvar hnilable (by rw [hrep]; exact hs.zone_of_works hworks hseat) (hsame.trans hsame'.forget)
      fun slot x y hx hy => ?_
    obtain ⟨y', hy', hyy'⟩ := hsame'.exists_child? hy
    have hreach := Relation.ReflTransGen.single (r := f.Edge) ⟨slot, x, hx, rfl⟩
    exact (ih slot x y' hx hy' (ha.trans hreach) fun z hz => hA z (hreach.trans hz)).of_rep hyy'.symm

/-- A copy leads to seats of what the class leads to, and to what is free. -/
theorem sealed (hs : Laid f d pinned zone s) (ha : f.Reaches d a) (h : Replica f zone s a b) :
    f.Sealed zone a s.forest (s.forest.rep b) := by
  induction h with
  | image _ _ _ hfree => exact fun t ht => Or.inl (hs.zoned.free.reaches hfree ht)
  | wrapper _ hfree => exact fun t ht => Or.inl (hs.zoned.free.reaches hfree ht)
  | @known a b _ _ hseat hsame _ ih =>
    refine .of_children hseat fun slot y hy => ?_
    obtain ⟨x, hx, -⟩ := hsame.exists_child? hy
    exact ⟨x, hx, ih slot x y hx hy (ha.tail ⟨slot, x, hx, rfl⟩)⟩

end Replica

/-- A class has the kind of one that is copied, and in all but some slots it has copies of the children. -/
structure Drawn (f : Forest) (d : TermId) (zone : TermId → Zone) (z : Zone) (a : TermId) (l : Kind)
    (slots : List Slot) (s : Unifier) (c : TermId) : Prop where
  isClass : s.forest.IsClass c
  seat : zone c = z
  same : l.Same (fun _ => 0) (s.forest.kind c)
  done : ∀ slot x y, slot ∉ slots → (f.kind a).child? slot = some x → (s.forest.kind c).child? slot = some y →
    (f.place d (f.rep x)).Allows (zone y) ∧ Replica f zone s (f.rep x) y

namespace Drawn

/-- It stays so while other work is done. -/
theorem works (hs : Laid f d pinned zone s) (hworks : Works f d pinned A zone s zone' u) (ha : f.Reaches d a)
    (hrefreshed : (s.forest.kind c).Refreshed s.forest.rep (u.forest.kind c)) (hclass : u.forest.IsClass c)
    (hc : ¬A c) (hA : ∀ slot x, slot ∉ slots → (f.kind a).child? slot = some x → ∀ w, f.Reaches (f.rep x) w →
      f.Single d w → ¬A w) (h : Drawn f d zone z a l slots s c) : Drawn f d zone' z a l slots u c := by
  have hrooted := hs.sound.forest.rooted
  refine ⟨hclass, ?_, h.same.trans (hrefreshed.same (Forest.rep_rep hrooted)).forget,
    fun slot x y' hslot hx hy' => ?_⟩
  · rw [← h.seat]
    exact (hworks.zones c h.isClass.lt).resolve_right fun hAc => hc hAc.1
  obtain ⟨y, hy, hyy⟩ := hrefreshed.child? (Forest.rep_rep hrooted) hy'
  obtain ⟨hzone, hseated⟩ := h.done slot x y hslot hx hy
  have hseated := hseated.works hs hworks (ha.tail ⟨slot, x, hx, rfl⟩) (hA slot x hslot hx)
  have hlt := hs.sound.forest.child_lt hy
  have hplace := f.place_ne_barred d (f.rep x)
  rcases hyy with rfl | rfl
  · rw [hworks.zone_eq hlt (hzone.ne_barred hplace)]
    exact ⟨hzone, hseated⟩
  · have hrep := hs.zoned.allows_rep hplace hzone
    rw [hworks.zone_eq (Forest.rep_lt_size hrooted hlt) (hrep.ne_barred hplace)]
    exact ⟨hrep, hseated.of_rep (hworks.rep_rep hs y).symm⟩

/-- The copy of a child is put into its slot. -/
theorem graft (hs : Laid f d pinned zone s) (ha : f.Reaches d a) (hnot : ¬f.Reaches d c)
    (hchild : (l.child? slot).isSome = true) (hx : (f.kind a).child? slot = some x) (hy : y < s.forest.size)
    (hzone : (f.place d (f.rep x)).Allows (zone y)) (hreplica : Replica f zone s (f.rep x) y)
    (h : Drawn f d zone .barred a l (slot :: rest) s c) :
    Works f d pinned A zone s zone { s with forest := s.forest.setChild c slot y } ∧
      Drawn f d zone .barred a l rest { s with forest := s.forest.setChild c slot y } c := by
  have hrooted := hs.sound.forest.rooted
  have hsteady := Forest.setChild_steady hrooted c slot y
  have hkinds : ∀ e, e ≠ c → (s.forest.setChild c slot y).kind e = s.forest.kind e := fun e he => by
    rw [Forest.kind_setChild, if_neg (Ne.symm he)]
  have hkind : (s.forest.setChild c slot y).kind c = (s.forest.kind c).setChild slot y := by
    rw [Forest.kind_setChild, if_pos rfl]
  obtain ⟨w, hw⟩ : ∃ w, (s.forest.kind c).child? slot = some w := by
    refine Option.isSome_iff_exists.1 (Kind.mem_slots.1 ?_)
    rw [h.same.slots]
    exact Kind.mem_slots.2 hchild
  have hsame : (s.forest.kind c).Same (fun _ => 0) ((s.forest.kind c).setChild slot y) :=
    Kind.mapChildren_setChild hw rfl
  have hworks : ∀ {A}, Works f d pinned A zone s zone { s with forest := s.forest.setChild c slot y } := by
    intro A
    refine hs.edit (b := c) hnot (by rw [h.seat]; trivial) ⟨Forest.setChild_sound hs.sound.forest c slot hy,
      fun p hp => ?_⟩ rfl hsteady (Forest.size_setChild _ _ _ _) hkinds ?_ (by rw [h.seat]; trivial) rfl rfl
    · exact Nat.lt_of_lt_of_le (hs.sound.image p hp) hsteady.size
    · dsimp only
      rw [hkind]
      exact Kind.accrues_setChild h.isClass.root
  refine ⟨hworks, ⟨⟨?_, ?_⟩, h.seat, ?_, fun slot' x' y' hslot' hx' hy' => ?_⟩⟩
  · exact Nat.lt_of_lt_of_le h.isClass.lt hsteady.size
  · dsimp only
    rw [hkind, Kind.isLink_setChild, h.isClass.root]
  · dsimp only
    rw [hkind]
    exact h.same.trans hsame
  -- What other slots have is not affected.
  have hkeep : ∀ {e y'}, f.Reaches d e → Replica f zone s e y' →
      Replica f zone { s with forest := s.forest.setChild c slot y } e y' := fun he hreplica =>
    hreplica.works hs (hworks (A := fun _ => False)) he fun _ _ _ => id
  dsimp only at hy'
  rw [hkind] at hy'
  rcases Kind.child?_of_setChild hy' with ⟨rfl, rfl⟩ | ⟨hne, hy'⟩
  · cases hx.symm.trans hx'
    exact ⟨hzone, hkeep (ha.tail ⟨slot', x, hx, rfl⟩) hreplica⟩
  · obtain ⟨hzone', hreplica'⟩ := h.done slot' x' y' (by simp [hne, hslot']) hx' hy'
    exact ⟨hzone', hkeep (ha.tail ⟨slot', x', hx', rfl⟩) hreplica'⟩

/-- When all slots are done the copy of what is known goes where the class belongs. -/
theorem reseat (htree : f.Tree a) (ha : f.Reaches d a) (hknown : f.kind a ≠ .var)
    (hworks : Works f d pinned A zone s zone' u) (hc : s.forest.size ≤ c) (hnot : ¬f.Reaches d c)
    (hl : (f.kind a).Sheds l) (h : Drawn f d zone' .barred a l [] u c) :
    Works f d pinned A zone s (Function.update zone' c (f.place d a)) u ∧
      Drawn f d (Function.update zone' c (f.place d a)) (f.place d a) a l [] u c := by
  have hne : ∀ {x}, zone' x ≠ .barred → x ≠ c := fun hx e => hx (by rw [e, h.seat])
  -- Every child is the copy of one of the class.
  have hchild : ∀ slot y, (u.forest.kind c).child? slot = some y →
      ∃ x, (f.kind a).child? slot = some x ∧ (f.place d (f.rep x)).Allows (zone' y) := fun slot y hy => by
    obtain ⟨x, hx, -⟩ := h.same.exists_child? hy
    rw [hl.child?] at hx
    exact ⟨x, hx, (h.done slot x y List.not_mem_nil hx hy).1⟩
  have hmem : ∀ y ∈ (u.forest.kind c).children, y ≠ c := fun y hy => by
    obtain ⟨slot, hslot⟩ := (Kind.mem_children h.isClass.root).1 hy
    obtain ⟨x, -, hzone⟩ := hchild slot y hslot
    exact hne (hzone.ne_barred (f.place_ne_barred d _))
  have hadmits : f.Admits d zone' (f.place d a) (u.forest.kind c) := by
    rcases f.place_cases d a with hplace | ⟨hvar, -⟩ | ⟨⟨-, hnilable⟩, hplace⟩
    · rw [hplace]
      intro y hy
      obtain ⟨slot, hslot⟩ := (Kind.mem_children h.isClass.root).1 hy
      obtain ⟨x, hx, hzone⟩ := hchild slot y hslot
      rw [htree.place_child ha hplace hx] at hzone
      exact hzone
    · exact absurd hvar hknown
    · rw [hplace]
      refine .of_known h.isClass.root ?_ fun slot y hy => ?_
      · rw [h.same.isNilable, Kind.isNilable_eq_of_shape hl.shape, hnilable]
      · obtain ⟨x, hx, hzone⟩ := hchild slot y hy
        rwa [Forest.childPlace_of_child (Kind.ne_inner hnilable hx) hx]
  refine ⟨hworks.reseat (Or.inl hc) h.isClass.lt h.seat (fun hreach => absurd hreach hnot) hadmits hmem, h.isClass,
    Function.update_self _ _ _, h.same, fun slot x y hslot hx hy => ?_⟩
  · obtain ⟨hzone, hseated⟩ := h.done slot x y hslot hx hy
    refine ⟨?_, hseated.zone_mono fun w hw => Function.update_of_ne (hne hw) _ _⟩
    rwa [Function.update_of_ne (hne (hzone.ne_barred (f.place_ne_barred d _)))]

/-- A class that was drawn up in full is a copy. -/
theorem replica (hvar : f.kind a ≠ .var) (h : Drawn f d zone (f.place d a) a (f.kind a) [] s c) :
    Replica f zone s a c := by
  have hrep := h.isClass.rep_eq
  have hseat := h.seat
  cases hnilable : (f.kind a).isNilable with
  | true =>
    rw [Forest.place_of_wrapper hnilable] at hseat
    refine .wrapper hnilable (by rw [hrep, hseat]) (Or.inl ?_)
    obtain ⟨x, hx⟩ := Kind.isNilable_eq_true.1 hnilable
    rw [hrep, h.same.mayNil, hx]
    rfl
  | false =>
    rw [Forest.place_of_known hvar hnilable] at hseat
    refine .known hvar hnilable (by rw [hrep, hseat]) (by rw [hrep]; exact h.same) fun slot x y hx hy => ?_
    rw [hrep] at hy
    exact (h.done slot x y List.not_mem_nil hx hy).2

/-- It leads to seats of what the class leads to, and to what is free. -/
theorem sealed (hs : Laid f d pinned zone s) (ha : f.Reaches d a) (hl : (f.kind a).Sheds l)
    (h : Drawn f d zone (.seat a) a l [] s c) : f.Sealed zone a s.forest c := by
  refine .of_children h.seat fun slot y hy => ?_
  obtain ⟨x, hx, -⟩ := h.same.exists_child? hy
  rw [hl.child?] at hx
  exact ⟨x, hx, (h.done slot x y List.not_mem_nil hx hy).2.sealed hs (ha.tail ⟨slot, x, hx, rfl⟩)⟩

end Drawn

/-! ## Copying -/

/-- The copy of a class of the definition is an instance, where it belongs. -/
def Draws (f : Forest) (d : TermId) (pinned : List TermId) (duplicate : TermId → UnifyM TermId) : Prop :=
  ∀ zone s x c u, Laid f d pinned zone s → f.Reaches d (s.forest.rep x) → Vacant f d zone s (s.forest.rep x) →
    duplicate x s = some (c, u) → Copies s.forest.size s u ∧ c < u.forest.size ∧
      ∃ zone', Works f d pinned (f.Reaches (s.forest.rep x)) zone s zone' u ∧
        (f.place d (s.forest.rep x)).Allows (zone' c) ∧ Replica f zone' u (s.forest.rep x) c

/-- A class that is copied for one of the definition: this itself, or what it is apart from nil. -/
structure Original (f : Forest) (a : TermId) (l : Kind) (s : Unifier) (t : TermId) : Prop where
  known : f.kind a ≠ .var
  sheds : (f.kind a).Sheds l
  isClass : s.forest.IsClass t
  same : l.Same s.forest.rep (s.forest.kind t)
  own : t < f.size → t = a

namespace Original

/-- It stays so when its children are looked up. -/
theorem refreshed (hs : s.Sound) (hsteady : Steady s.forest u.forest)
    (hrefreshed : (s.forest.kind t).Refreshed s.forest.rep (u.forest.kind t)) (h : Original f a l s t) :
    Original f a l u t := by
  refine ⟨h.known, h.sheds, h.isClass.of_steady hsteady, ?_, h.own⟩
  rw [funext hsteady.rep]
  exact h.same.trans (hrefreshed.same (Forest.rep_rep hs.forest.rooted))

/-- It wraps a variable at most. -/
theorem calm (hf : f.Template d pinned) (hs : Laid f d pinned zone s) (ha : f.Reaches d a) (h : Original f a l s t) :
    s.forest.Calm t := by
  refine ⟨h.isClass.root, fun x hx => ?_⟩
  obtain ⟨y, hy, hxy⟩ := h.same.exists_child? (by rw [hx]; rfl : (s.forest.kind t).child? .inner = some x)
  rw [h.sheds.child?] at hy
  have hsame := hs.stands.same _ (ha.tail ⟨_, y, hy, rfl⟩)
  rw [(hf.tree.reaches ha).wraps hy] at hsame
  rw [hxy, hs.stands.rep_child ha hy]
  exact Kind.isVar_iff.1 hsame.isVar

end Original

/-- A class is copied when its children are. -/
theorem copySlots_draws {duplicate : TermId → UnifyM TermId} (hduplicate : Draws f d pinned duplicate)
    (hf : f.Template d pinned) (ha : f.Reaches d a) (hc : f.size ≤ c) (htc : t ≠ c) {v : Unit}
    (hnodup : slots.Nodup)
    (hslots : slots ⊆ (f.kind a).slots) (hs : Laid f d pinned zone s) (ht : Original f a l s t)
    (hdrawn : Drawn f d zone .barred a l slots s c)
    (hvacant : ∀ slot ∈ slots, ∀ x, (f.kind a).child? slot = some x → Vacant f d zone s (f.rep x))
    (hcalm : slots ≠ [] → s.forest.Calm c) (h : copySlots duplicate t c slots s = some (v, u)) :
    ∃ zone', Works f d pinned (f.Reaches a) zone s zone' u ∧ Drawn f d zone' .barred a l [] u c := by
  have hnot : ∀ {b}, f.Reaches d b → ¬f.Reaches b c := fun hb hreach =>
    absurd (hf.lt_of_reaches (hb.trans hreach)) (Nat.not_lt.2 hc)
  induction slots generalizing s zone with
  | nil =>
    obtain ⟨-, rfl⟩ := pure_eq_some.1 h
    exact ⟨zone, .refl hs, hdrawn⟩
  | cons slot rest ih =>
    obtain ⟨hslot, hnodup⟩ := List.nodup_cons.1 hnodup
    obtain ⟨x, hx⟩ := Option.isSome_iff_exists.1 (Kind.mem_slots.1 (hslots List.mem_cons_self))
    have hreach : f.Reaches d (f.rep x) := ha.tail ⟨slot, x, hx, rfl⟩
    obtain ⟨child?, s₁, hchild, h⟩ := bind_eq_some.1 h
    -- The child is that of the class.
    obtain rfl : child? = some (f.rep x) := by
      obtain ⟨x', hx', hxx⟩ := Kind.Same.exists_child? (Eq.symm ht.same) (ht.sheds.child?.trans hx)
      rw [child_eq hs.sound hchild, hx', Option.map_some, ← hxx, hs.stands.rep_child ha hx]
    have hlooks := (child_looks hs.sound hchild).1
    obtain ⟨y, s₂, hcopy, h⟩ := bind_eq_some.1 h
    obtain ⟨v', s₃, hgraft, h⟩ := bind_eq_some.1 h
    obtain rfl := change_eq_some.1 hgraft
    have hworks₁ : Works f d pinned (fun _ => False) zone s zone s₁ := hs.looks hf hlooks
    have hs₁ := hworks₁.laid
    have hsteady₁ := hlooks.steady hs.sound
    obtain ⟨hrefreshed₁, hcalm₁⟩ := hlooks.upkeeps.calm hs.sound.forest.rooted (hcalm (List.cons_ne_nil _ _))
    have hdrawn₁ := hdrawn.works hs hworks₁ ha hrefreshed₁
      (hdrawn.isClass.of_steady hsteady₁) id fun _ _ _ _ _ _ _ => id
    have ht₁ := ht.refreshed hs.sound hsteady₁ (hlooks.upkeeps.calm hs.sound.forest.rooted (ht.calm hf hs ha)).1
    have hvacant₁ : ∀ slot' ∈ slot :: rest, ∀ x', (f.kind a).child? slot' = some x' →
        Vacant f d zone s₁ (f.rep x') := fun slot' hslot' x' hx' =>
      (hvacant slot' hslot' x' hx').works hf hs hworks₁ (ha.tail ⟨slot', x', hx', rfl⟩) fun _ _ _ => id
    have hroot := hs₁.stands.rep _ hreach
    obtain ⟨hcopies, hy, zone₂, hworks₂, hzone, hreplica⟩ := hduplicate zone s₁ (f.rep x) y s₂ hs₁ (by rwa [hroot])
      (by rw [hroot]; exact hvacant₁ slot List.mem_cons_self x hx) hcopy
    rw [hroot] at hworks₂ hzone hreplica
    have hsteady₂ := hcopies.steady hs₁.sound
    have hrefreshed : ∀ {e}, s₁.forest.IsClass e → s₁.forest.Calm e →
        (s₁.forest.kind e).Refreshed s₁.forest.rep (s₂.forest.kind e) := fun he hcalm =>
      Forest.Sprouts.refreshed hs₁.sound.forest hcopies.sprouts he.lt hcalm
    have hdrawn₂ := hdrawn₁.works hs₁ hworks₂ ha (hrefreshed hdrawn₁.isClass hcalm₁)
      (hdrawn₁.isClass.of_steady hsteady₂) (hnot hreach) fun slot' x' hslot' hx' =>
        hf.apart ha (fun e => hslot' (e ▸ List.mem_cons_self)) hx hx'
    have ht₂ := ht₁.refreshed hs₁.sound hsteady₂ (hrefreshed ht₁.isClass (ht₁.calm hf hs₁ ha))
    obtain ⟨hworks₃, hdrawn₃⟩ := hdrawn₂.graft (A := fun _ => False) hworks₂.laid ha (hnot .refl)
      (by rw [ht.sheds.child?, hx]; rfl) hx hy hzone hreplica
    have ht₃ : Original f a l { s₂ with forest := s₂.forest.setChild c slot y } t :=
      ht₂.refreshed hworks₂.laid.sound (Forest.setChild_steady hworks₂.laid.sound.forest.rooted _ _ _) <| by
        dsimp only
        rw [Forest.kind_setChild, if_neg (Ne.symm htc)]
        exact .refl
    have hvacant₃ : ∀ slot' ∈ rest, ∀ x', (f.kind a).child? slot' = some x' →
        Vacant f d zone₂ { s₂ with forest := s₂.forest.setChild c slot y } (f.rep x') := fun slot' hslot' x' hx' => by
      have hreach' : f.Reaches d (f.rep x') := ha.tail ⟨slot', x', hx', rfl⟩
      exact ((hvacant₁ slot' (List.mem_cons_of_mem _ hslot') x' hx').works hf hs₁ hworks₂ hreach'
        (hf.apart ha (fun e : slot = slot' => hslot (e ▸ hslot')) hx hx')).works hf hworks₂.laid hworks₃ hreach'
          fun _ _ _ => id
    have hcalm₃ : rest ≠ [] → (s₂.forest.setChild c slot y).Calm c := fun hrest =>
      Forest.calm_of_not_nilable hdrawn₃.isClass.root <| by
        rw [hdrawn₃.same.isNilable, Kind.isNilable_eq_of_shape ht.sheds.shape,
          Kind.isNilable_of_slots hslot hslots hrest]
    obtain ⟨zone', hworks, hdrawn'⟩ := ih hnodup (fun _ h => hslots (List.mem_cons_of_mem _ h)) hworks₃.laid ht₃
      hdrawn₃ hvacant₃ hcalm₃ h
    refine ⟨zone', ?_, hdrawn'⟩
    exact (hworks₁.mono fun _ => False.elim).trans hs ((hworks₂.mono fun w hw => .head ⟨slot, x, hx, rfl⟩ hw).trans
      hs₁ ((hworks₃.mono fun _ => False.elim).trans hworks₂.laid hworks))

/-- The copy goes where the class belongs. -/
theorem copyOriginal_draws {duplicate : TermId → UnifyM TermId} (hduplicate : Draws f d pinned duplicate)
    (hf : f.Template d pinned) (ha : f.Reaches d a) {v : Unit} {term : Term} (hs : Laid f d pinned zone s)
    (ht : Original f a l s t) (hterm : term.kind = s.forest.kind t)
    (hvacant : ∀ slot x, (f.kind a).child? slot = some x → Vacant f d zone s (f.rep x))
    (h : copySlots duplicate t s.forest.size (s.forest.kind t).slots
      { s with forest := (s.forest.add term).2, image := (t, s.forest.size) :: s.image } = some (v, u)) :
    ∃ zone', Works f d pinned (f.Reaches a) zone s zone' u ∧
      Drawn f d zone' (f.place d a) a l [] u s.forest.size := by
  have hlink : term.kind.isLink = false := by rw [hterm, ht.isClass.root]
  have hlt : s.forest.size < (s.forest.add term).2.size := by
    rw [Forest.size_add]
    exact Nat.lt_succ_self _
  have hnot : ¬f.Reaches d s.forest.size := fun hreach => absurd (hs.lt_of_reaches hf hreach) (Nat.lt_irrefl _)
  have hadd : Works f d pinned (fun w => w = a) zone s (Function.update zone s.forest.size .barred)
      { s with forest := (s.forest.add term).2 } :=
    hs.add hf hlink (by rw [hterm]; exact hs.sound.forest.inRange t) trivial
  have hset := hadd.laid.setImage (A := fun w => w = a) (x := t) (c := s.forest.size)
    (Nat.lt_trans ht.isClass.lt hlt) hlt ht.own fun hreach hvar =>
      absurd (ht.own (hf.lt_of_reaches hreach) ▸ hvar) ht.known
  have hworks := hadd.trans hs hset
  have hkind : ∀ x, (s.forest.add term).2.kind x = if x = s.forest.size then term.kind else s.forest.kind x :=
    fun x => Forest.kind_add _ _ _
  have hsame : l.Same (fun _ => 0) (s.forest.kind t) := ht.same.forget
  have hslots : (s.forest.kind t).slots = (f.kind a).slots := hsame.slots.trans ht.sheds.slots
  have ht' : Original f a l { s with forest := (s.forest.add term).2, image := (t, s.forest.size) :: s.image } t :=
    ht.refreshed hs.sound (Forest.steady_add hs.sound.forest.rooted hlink) <| by
      dsimp only
      rw [hkind, if_neg (Nat.ne_of_lt ht.isClass.lt)]
      exact .refl
  have hdrawn : Drawn f d (Function.update zone s.forest.size .barred) .barred a l (s.forest.kind t).slots
      { s with forest := (s.forest.add term).2, image := (t, s.forest.size) :: s.image } s.forest.size := by
    refine ⟨⟨hlt, ?_⟩, Function.update_self _ _ _, ?_, fun slot x y hslot hx => ?_⟩
    · dsimp only
      rw [hkind, if_pos rfl, hlink]
    · dsimp only
      rw [hkind, if_pos rfl, hterm]
      exact hsame
    · rw [hslots] at hslot
      exact absurd (Kind.mem_slots.2 (Option.isSome_of_eq_some hx)) hslot
  have hcalm : (s.forest.add term).2.Calm s.forest.size := by
    have hsteady := Forest.steady_add hs.sound.forest.rooted hlink
    refine ⟨by rw [hkind, if_pos rfl, hlink], fun x hx => ?_⟩
    rw [hkind, if_pos rfl, hterm] at hx
    have hx' : (s.forest.kind t).child? .inner = some x := by rw [hx]; rfl
    rw [hsteady.rep, hkind, if_neg, (ht.calm hf hs ha).wraps x hx]
    exact Nat.ne_of_lt (Forest.rep_lt_size hs.sound.forest.rooted (hs.sound.forest.child_lt hx'))
  obtain ⟨zone', hworks', hdrawn'⟩ := copySlots_draws hduplicate hf ha hs.size (Nat.ne_of_lt ht.isClass.lt)
    (Kind.nodup_slots _) (fun slot hslot => hslots ▸ hslot) hworks.laid ht' hdrawn
    (fun slot _ x hx => (hvacant slot x hx).works hf hs hworks (ha.tail ⟨slot, x, hx, rfl⟩)
      fun w hw _ e => hf.not_reaches ha hx (e ▸ hw)) (fun _ => hcalm) h
  exact ⟨_, Drawn.reseat (hf.tree.reaches ha) ha ht.known ((hworks.mono fun w hw => hw ▸ .refl).trans hs hworks')
    le_rfl hnot ht.sheds hdrawn'⟩

/-- The copy of a variable is free. -/
theorem copyVar_draws (hf : f.Template d pinned) (ha : f.Reaches d a) {term : Term} (hs : Laid f d pinned zone s)
    (hvar : f.kind a = .var) (hterm : term.kind = .var) (hnew : s.image.lookup a = none) :
    Works f d pinned (f.Reaches a) zone s (Function.update zone s.forest.size .free)
        { s with forest := (s.forest.add term).2, image := (a, s.forest.size) :: s.image } ∧
      Replica f (Function.update zone s.forest.size .free)
        { s with forest := (s.forest.add term).2, image := (a, s.forest.size) :: s.image } a s.forest.size := by
  have hlt : s.forest.size < (s.forest.add term).2.size := by
    rw [Forest.size_add]
    exact Nat.lt_succ_self _
  have hadd : Works f d pinned (f.Reaches a) zone s (Function.update zone s.forest.size .free)
      { s with forest := (s.forest.add term).2 } :=
    hs.add hf (by rw [hterm]; rfl) (fun x hx => by rw [hterm] at hx; cases hx)
      (by rw [hterm]; exact Forest.admits_var _)
  refine ⟨hadd.trans hs (hadd.laid.setImage (Nat.lt_trans (hs.lt_of_reaches hf ha) hlt) hlt (fun _ => .refl)
    fun _ _ => ⟨hnew, Or.inr (Function.update_self _ _ _)⟩), .image hvar (lookup_cons_eq_some.2 (Or.inl ⟨rfl, rfl⟩))
      rfl ?_⟩
  have hroot : (s.forest.add term).2.rep s.forest.size = s.forest.size := Forest.rep_of_not_link <| by
    rw [Forest.kind_add, if_pos rfl, hterm]
    rfl
  dsimp only
  rw [hroot, Function.update_self]

/-- The copy of any class of the definition is an instance, where it belongs. -/
theorem freshCopyWithin_draws (hf : f.Template d pinned) (fuel : Nat) :
    Draws f d pinned (freshCopyWithin pinned fuel) := by
  induction fuel with
  | zero => exact fun zone s x c u _ _ _ h => (failure_eq_some.1 h).elim
  | succ fuel ih =>
    intro zone s x c u hs ha hvacant h
    have hlt := Forest.lt_size_of_rep_lt (hs.lt_of_reaches hf ha)
    obtain ⟨hcopies, hc, -⟩ := freshCopyWithin_copies hs.sound hlt le_rfl h
    refine ⟨hcopies, hc, ?_⟩
    obtain ⟨t, hlooks, hclass, -, hlayer⟩ := freshCopyWithin_layer hs.sound hlt h
    have hout := hs.not_reachedFrom (hvacant.barred hs ha)
    generalize s.forest.rep x = a at ha hvacant hclass hlayer hout ⊢
    have hworks : ∀ {A}, Works f d pinned A zone s zone t := hs.looks hf hlooks
    have ht := (hworks (A := fun _ => False)).laid
    have hvacant' := hvacant.works hf hs (hworks (A := fun _ => False)) ha fun _ _ _ => id
    cases hlayer with
    | known hknown hu =>
      -- Only variables that do not occur once may have an image.
      subst hu
      have hnot : ¬f.Single d a := fun hsingle => by
        rw [(hvacant' a .refl hsingle).1] at hknown
        cases hknown
      have hfree := ht.image a c ha hnot hknown
      refine ⟨zone, hworks, ?_, .image (Forest.eq_var_of_not_single hnot) hknown rfl (ht.zoned.free.rep hfree)⟩
      rw [Forest.place_of_not_single hnot]
      exact hfree
    | shared _ hpinned => exact absurd hpinned hout
    | copied hnew _ hterm hc hslots =>
      subst hc
      have hsame := ht.stands.same a ha
      by_cases hvar : f.kind a = .var
      · rw [Kind.isVar_iff.1 (hsame.isVar.trans (Kind.isVar_iff.2 hvar))] at hterm hslots
        obtain ⟨-, rfl⟩ := pure_eq_some.1 hslots
        obtain ⟨hworks', hreplica⟩ := copyVar_draws hf ha ht hvar hterm hnew
        refine ⟨_, hworks.trans hs hworks', ?_, hreplica⟩
        rw [Function.update_self]
        rcases Forest.place_of_var (d := d) hvar with hplace | ⟨-, hplace⟩ <;> rw [hplace]
        · rfl
        · exact Zone.noConfusion
      · obtain ⟨zone', hworks', hdrawn⟩ := copyOriginal_draws ih hf ha ht ⟨hvar, Or.inl rfl, hclass, hsame,
          fun _ => rfl⟩ hterm (fun slot x hx => hvacant'.of_reaches (.single ⟨slot, x, hx, rfl⟩)) hslots
        refine ⟨zone', hworks.trans hs hworks', ?_, hdrawn.replica hvar⟩
        rw [hdrawn.seat]
        exact .refl (f.place_ne_barred d a)

/-- The copy of an original has what is known of the class, but for nil. -/
theorem freshCopyWithin_original (hf : f.Template d pinned) {fuel : Nat} (hs : Laid f d pinned zone s)
    (ha : f.Reaches d a) (ht : Original f a l s t) (hbarred : zone t = .barred)
    (hnew : s.image.lookup t = none)
    (hvacant : ∀ slot x, (f.kind a).child? slot = some x → Vacant f d zone s (f.rep x))
    (h : freshCopyWithin pinned fuel t s = some (c, u)) :
    ∃ zone', Works f d pinned (f.Reaches a) zone s zone' u ∧ Drawn f d zone' (f.place d a) a l [] u c := by
  cases fuel with
  | zero => exact (failure_eq_some.1 h).elim
  | succ fuel =>
    obtain ⟨t', hlooks, -, -, hlayer⟩ := freshCopyWithin_layer hs.sound ht.isClass.lt h
    rw [ht.isClass.rep_eq] at hlayer
    have hworks : ∀ {A}, Works f d pinned A zone s zone t' := hs.looks hf hlooks
    have hs' := (hworks (A := fun _ => False)).laid
    cases hlayer with
    | known hknown =>
      rw [hlooks.image, hnew] at hknown
      cases hknown
    | shared _ hpinned => exact absurd hpinned (hs.not_reachedFrom hbarred)
    | copied _ _ hterm hc hslots =>
      subst hc
      obtain ⟨zone', hworks', hdrawn⟩ := copyOriginal_draws (freshCopyWithin_draws hf fuel) hf ha hs'
        (ht.refreshed hs.sound (hlooks.steady hs.sound)
          (hlooks.upkeeps.calm hs.sound.forest.rooted (ht.calm hf hs ha)).1) hterm
        (fun slot x hx => (hvacant slot x hx).works hf hs (hworks (A := fun _ => False))
          (ha.tail ⟨slot, x, hx, rfl⟩) fun _ _ _ => id) hslots
      exact ⟨zone', hworks.trans hs hworks', hdrawn⟩

end Unifier

end TypeFlow
