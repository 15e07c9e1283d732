import TypeFlow.Proofs.InstancesInPlace

/-!
# Copies are faithful

The copy of a type has a class of its own for each class of the type, except for those that a pinned
type leads to, which it shares.  A class and its image have the same kind, and slot by slot the image of
a child is the child of the image.  That is so for each slot as soon as the child there was copied,
while the copying of other classes is under way.

Main definitions:

- `Unifier.Stands`: a class stands for another one in a copy.
- `Unifier.Imaging`: what holds while a type is copied.

Main results:

- `Unifier.freshCopy_images`: each class that a copied type leads to has its image in the copy.
-/

namespace TypeFlow

namespace Forest

variable {f g : Forest} {pinned : List TermId}

/-! ## What pinned types lead to -/

/-- What is wrapped in a class that wraps variables at most is a variable. -/
theorem Calm.child?_inner {c inner : TermId} (hc : f.Calm c)
    (h : (f.kind c).child? .inner = some inner) : f.kind (f.rep inner) = .var := by
  cases hk : f.kind c with
  | nilable x =>
    rw [hk] at h
    cases h
    exact hc.wraps inner hk
  | _ =>
    rw [hk] at h
    cases h

/-- New terms leave old classes that wrap variables at most such classes. -/
theorem Sprouts.calm (hf : f.Sound) (h : f.Sprouts g) {c : TermId} (hc : c < f.size)
    (hcalm : f.Calm c) : g.Calm c := by
  obtain ⟨-, hsteady⟩ := h.sound_steady hf
  refine hcalm.of_refreshed hf.rooted (h.refreshed hf hc hcalm) fun inner hinner => ?_
  have hslot : (f.kind c).child? .inner = some inner := by rw [hinner]; rfl
  have hlt : f.rep inner < f.size := rep_lt_size hf.rooted (hf.child_lt hslot)
  have hvar := hcalm.wraps inner hinner
  have hcalm' : f.Calm (f.rep inner) :=
    calm_of_not_nilable (not_isLink_rep hf.rooted _) (by rw [hvar]; rfl)
  refine ⟨(h.refreshed hf hlt hcalm').eq_var.2 hvar, ?_⟩
  rw [hsteady.rep, hsteady.rep, rep_rep hf.rooted]
  exact ⟨rfl, rfl⟩

/-- A class and pinned types, which have been gone through and found to wrap variables at most. -/
structure Surveyed (f : Forest) (pinned : List TermId) (d : TermId) : Prop where
  sound : f.Sound
  lt : d < f.size
  inRange : ∀ t ∈ pinned, t < f.size
  calm : ∀ c, f.ReachedFrom pinned c → f.Calm c

/-- What pinned types lead to is a term of the forest. -/
theorem Surveyed.lt_of_reachedFrom {d c : TermId} (hf : f.Surveyed pinned d)
    (h : f.ReachedFrom pinned c) : c < f.size := by
  obtain ⟨t, ht, hreach⟩ := h
  exact Reaches.lt_size hf.sound hreach (rep_lt_size hf.sound.rooted (hf.inRange t ht))

/-- New terms neither add nor take away ways from pinned types to old classes. -/
theorem Surveyed.reachedFrom_iff {d : TermId} (hf : f.Surveyed pinned d) (h : f.Sprouts g)
    {c : TermId} : g.ReachedFrom pinned c ↔ f.ReachedFrom pinned c := by
  obtain ⟨-, hsteady⟩ := h.sound_steady hf.sound
  have hlt : ∀ {t c}, t ∈ pinned → f.Reaches (f.rep t) c → c < f.size := fun ht hreach =>
    hf.lt_of_reachedFrom ⟨_, ht, hreach⟩
  constructor
  · rintro ⟨t, ht, hreach⟩
    rw [hsteady.rep] at hreach
    refine ⟨t, ht, ?_⟩
    induction hreach with
    | refl => exact .refl
    | tail _ hedge ih => exact ih.trans (h.edge hf.sound (hlt ht ih) hedge)
  · rintro ⟨t, ht, hreach⟩
    refine ⟨t, ht, ?_⟩
    rw [hsteady.rep]
    induction hreach with
    | refl => exact .refl
    | @tail a b hreach hedge ih =>
      have hsame := (h.refreshed hf.sound (hlt ht hreach) (hf.calm a ⟨t, ht, hreach⟩)).same
        (rep_rep hf.sound.rooted)
      obtain ⟨slot, x, hx, rfl⟩ := hedge
      have hchild := hsame.child? slot
      rw [hx, Option.map_some, Option.map_eq_some_iff] at hchild
      obtain ⟨y, hy, hxy⟩ := hchild
      exact ih.tail ⟨slot, y, hy, by rw [hsteady.rep, hxy]⟩

end Forest

namespace Unifier

open Forest (Steady)

variable {s t u : Unifier} {f : Forest} {pinned : List TermId} {d x c : TermId}
  {pending pending' : TermId → Slot → Prop}

/-! ## Images -/

/-- The image is a new class of the same kind, and the slots in which the copying has got to have the
images of the children. -/
structure Duplicate (f : Forest) (pinned : List TermId) (pending : TermId → Slot → Prop)
    (s : Unifier) (x c : TermId) : Prop where
  new : f.size ≤ c
  unreached : ¬f.ReachedFrom pinned x
  same : (s.forest.kind x).Same (fun _ => 0) (s.forest.kind c)
  children : ∀ slot y z, ¬pending c slot → (s.forest.kind x).child? slot = some y →
    (s.forest.kind c).child? slot = some z → s.image.lookup (s.forest.rep y) = some (s.forest.rep z)

/-- A class stands for a class of the copied type: it is that class, which a pinned type leads to, or a
duplicate. -/
structure Stands (f : Forest) (pinned : List TermId) (d : TermId) (pending : TermId → Slot → Prop)
    (s : Unifier) (x c : TermId) : Prop where
  reached : f.Reaches d x
  calm : s.forest.Calm x ∧ s.forest.Calm c
  form : c = x ∧ f.ReachedFrom pinned x ∨ Duplicate f pinned pending s x c

/-- A type is being copied, beginning with a forest.  No two classes have the same duplicate. -/
structure Imaging (f : Forest) (pinned : List TermId) (d : TermId) (pending : TermId → Slot → Prop)
    (s : Unifier) : Prop where
  surveyed : f.Surveyed pinned d
  sound : s.Sound
  sprouts : f.Sprouts s.forest
  stands : ∀ x c, s.image.lookup x = some c → Stands f pinned d pending s x c
  injective : ∀ x x' c, s.image.lookup x = some c → s.image.lookup x' = some c → f.size ≤ c → x' = x

/-- Images stay what they are, and old classes that wrap variables at most stay the same. -/
structure Carries (f : Forest) (s t : Unifier) : Prop where
  steady : Steady s.forest t.forest
  image : ∀ x c, s.image.lookup x = some c → t.image.lookup x = some c
  calm : ∀ x, x < f.size → s.forest.Calm x → t.forest.Calm x ∧
    (s.forest.kind x).Same s.forest.rep (t.forest.kind x)

namespace Carries

private theorem refl (hs : s.Sound) : Carries f s s :=
  ⟨.refl hs.forest.rooted, fun _ _ h => h, fun _ _ h => ⟨h, rfl⟩⟩

private theorem trans (h : Carries f s t) (h' : Carries f t u) : Carries f s u where
  steady := h.steady.trans h'.steady
  image x c hx := h'.image x c (h.image x c hx)
  calm x hx hcalm := by
    obtain ⟨hcalm₁, hsame₁⟩ := h.calm x hx hcalm
    obtain ⟨hcalm₂, hsame₂⟩ := h'.calm x hx hcalm₁
    rw [funext h.steady.rep] at hsame₂
    exact ⟨hcalm₂, hsame₁.trans hsame₂⟩

end Carries

/-- The image recorded last is found first. -/
theorem lookup_cons_eq_some {l : List (TermId × TermId)} {x x' c c' : TermId} :
    ((x, c) :: l).lookup x' = some c' ↔ x' = x ∧ c' = c ∨ x' ≠ x ∧ l.lookup x' = some c' := by
  rw [List.lookup_cons]
  cases e : x' == x with
  | true => simp [beq_iff_eq.1 e, eq_comm]
  | false => simp [beq_eq_false_iff_ne.1 e]

/-- Recording an image does not change that of another class. -/
theorem lookup_cons_of_ne {l : List (TermId × TermId)} {x a c : TermId} (h : x ≠ a) :
    ((a, c) :: l).lookup x = l.lookup x := by
  rw [List.lookup_cons, beq_eq_false_iff_ne.2 h]

namespace Imaging

/-! ## What the copying does -/

private theorem mono (hs : Imaging f pinned d pending s)
    (h : ∀ c slot, pending c slot → pending' c slot) : Imaging f pinned d pending' s where
  surveyed := hs.surveyed
  sound := hs.sound
  sprouts := hs.sprouts
  stands x c hx := by
    obtain ⟨hreached, hcalm, hform⟩ := hs.stands x c hx
    exact ⟨hreached, hcalm, hform.imp_right fun hdup => ⟨hdup.new, hdup.unreached, hdup.same,
      fun slot y z hdone => hdup.children slot y z (mt (h c slot) hdone)⟩⟩
  injective := hs.injective

/-- Classes may be looked up. -/
theorem of_upkeeps (hs : Imaging f pinned d pending s) {g : Forest} (hup : s.forest.Upkeeps g) :
    Imaging f pinned d pending { s with forest := g } ∧ Carries f s { s with forest := g } := by
  have hrooted := hs.sound.forest.rooted
  have hsteady := hup.steady hrooted
  refine ⟨⟨hs.surveyed, ⟨hup.sound hs.sound.forest, fun p hp => ?_⟩, ?_, fun x c hx => ?_, hs.injective⟩,
    hsteady, fun _ _ h => h, fun x _ hcalm => ⟨(hup.calm hrooted hcalm).2, hup.same hrooted hcalm⟩⟩
  · exact Nat.lt_of_lt_of_le (hs.sound.image p hp) hsteady.size
  · exact hs.sprouts.trans (Relation.ReflTransGen.mono (fun _ _ h => .upkeep h) _ _ hup)
  · obtain ⟨hreached, ⟨hx', hc'⟩, hform⟩ := hs.stands x c hx
    refine ⟨hreached, ⟨(hup.calm hrooted hx').2, (hup.calm hrooted hc').2⟩, hform.imp_right
      fun hdup => ⟨hdup.new, hdup.unreached, ?_, fun slot y z hdone hy hz => ?_⟩⟩
    · exact .trans (Eq.symm (hup.same hrooted hx').forget)
        (.trans hdup.same (hup.same hrooted hc').forget)
    · obtain ⟨y', hy', hyy⟩ := hup.child? hrooted hx' hy
      obtain ⟨z', hz', hzz⟩ := hup.child? hrooted hc' hz
      dsimp only
      rw [hyy, hzz]
      exact hdup.children slot y' z' hdone hy' hz'

/-- Copying moves no term to another class. -/
theorem steady (hs : Imaging f pinned d pending s) : Steady f s.forest :=
  (hs.sprouts.sound_steady hs.surveyed.sound).2

/-- What is copied are terms of the forest. -/
theorem lt_of_reaches (hs : Imaging f pinned d pending s) (h : f.Reaches d x) : x < f.size :=
  Forest.Reaches.lt_size hs.surveyed.sound h hs.surveyed.lt

/-- What a pinned type leads to stands for itself. -/
theorem share (hs : Imaging f pinned d pending s) (hnew : s.image.lookup x = none)
    (hreached : f.Reaches d x) (hcalm : s.forest.Calm x) (hpinned : f.ReachedFrom pinned x) :
    Imaging f pinned d pending { s with image := (x, x) :: s.image } ∧
      Carries f s { s with image := (x, x) :: s.image } := by
  have hx := hs.lt_of_reaches hreached
  have hold : ∀ y c, s.image.lookup y = some c → ((x, x) :: s.image).lookup y = some c :=
    fun y c hy => lookup_cons_eq_some.2 (Or.inr ⟨fun e => (by rw [e, hnew] at hy; cases hy), hy⟩)
  refine ⟨⟨hs.surveyed, ⟨hs.sound.forest, fun p hp => ?_⟩, hs.sprouts, fun y c hy => ?_,
    fun y y' c hy hy' hc => ?_⟩, .refl hs.sound.forest.rooted, hold, fun _ _ h => ⟨h, rfl⟩⟩
  · rcases List.mem_cons.1 hp with rfl | hp
    · exact Nat.lt_of_lt_of_le hx hs.steady.size
    · exact hs.sound.image p hp
  · rcases lookup_cons_eq_some.1 hy with ⟨rfl, rfl⟩ | ⟨-, hy⟩
    · exact ⟨hreached, ⟨hcalm, hcalm⟩, Or.inl ⟨rfl, hpinned⟩⟩
    · obtain ⟨hreached', hcalm', hform⟩ := hs.stands y c hy
      exact ⟨hreached', hcalm', hform.imp_right fun hdup => ⟨hdup.new, hdup.unreached, hdup.same,
        fun slot y z hdone hy hz => hold _ _ (hdup.children slot y z hdone hy hz)⟩⟩
  · rcases lookup_cons_eq_some.1 hy with ⟨rfl, rfl⟩ | ⟨-, hy⟩
    · exact absurd hx (Nat.not_lt.2 hc)
    · rcases lookup_cons_eq_some.1 hy' with ⟨rfl, rfl⟩ | ⟨-, hy'⟩
      · exact absurd hx (Nat.not_lt.2 hc)
      · exact hs.injective y y' c hy hy' hc

/-- A class is duplicated, and none of the slots of its duplicate is done. -/
theorem add (hs : Imaging f pinned d pending s) (hnew : s.image.lookup x = none)
    (hreached : f.Reaches d x) (hcalm : s.forest.Calm x) (hpinned : ¬f.ReachedFrom pinned x)
    {term : Term} (hterm : term.kind = s.forest.kind x) :
    Imaging f pinned d
        (fun c slot => pending c slot ∨ c = s.forest.size ∧ slot ∈ (s.forest.kind x).slots)
        { s with forest := (s.forest.add term).2, image := (x, s.forest.size) :: s.image } ∧
      Carries f s
        { s with forest := (s.forest.add term).2, image := (x, s.forest.size) :: s.image } := by
  have hx : x < s.forest.size := Nat.lt_of_lt_of_le (hs.lt_of_reaches hreached) hs.steady.size
  have hsteady : Forest.Steady s.forest (s.forest.add term).2 :=
    Forest.steady_add hs.sound.forest.rooted (by rw [hterm, hcalm.root])
  have hkind : ∀ y, y < s.forest.size → (s.forest.add term).2.kind y = s.forest.kind y := fun y hy => by
    rw [Forest.kind_add, if_neg (Nat.ne_of_lt hy)]
  have hkind' : (s.forest.add term).2.kind s.forest.size = s.forest.kind x := by
    rw [Forest.kind_add, if_pos rfl, hterm]
  have hold : ∀ y c, s.image.lookup y = some c →
      ((x, s.forest.size) :: s.image).lookup y = some c :=
    fun y c hy => lookup_cons_eq_some.2 (Or.inr ⟨fun e => (by rw [e, hnew] at hy; cases hy), hy⟩)
  have hcalms : ∀ {y z}, s.forest.Calm y → (s.forest.add term).2.kind z = s.forest.kind y →
      (s.forest.add term).2.Calm z := by
    intro y z hy hz
    refine ⟨by rw [hz, hy.root], fun inner hinner => ?_⟩
    rw [hz] at hinner
    have hslot : (s.forest.kind y).child? .inner = some inner := by rw [hinner]; rfl
    have hlt := hs.sound.forest.child_lt hslot
    rw [hsteady.rep, hkind _ (Forest.rep_lt_size hs.sound.forest.rooted hlt), hy.wraps inner hinner]
  refine ⟨⟨hs.surveyed, ⟨hs.sound.forest.add (by rw [hterm, hcalm.root]) ?_, fun p hp => ?_⟩, ?_,
    fun y c hy => ?_, fun y y' c hy hy' hc => ?_⟩, hsteady, hold, fun y hy hcalmy => ?_⟩
  · rw [hterm]
    exact hs.sound.forest.inRange x
  · rcases List.mem_cons.1 hp with rfl | hp
    · rw [Forest.size_add]
      exact Nat.lt_succ_self _
    · exact Nat.lt_of_lt_of_le (hs.sound.image p hp) hsteady.size
  · refine hs.sprouts.tail (.add (by rw [hterm, hcalm.root]) ?_)
    rw [hterm]
    exact hs.sound.forest.inRange x
  · rcases lookup_cons_eq_some.1 hy with ⟨rfl, rfl⟩ | ⟨-, hy⟩
    · refine ⟨hreached, ⟨hcalms hcalm (hkind _ hx), hcalms hcalm hkind'⟩,
        Or.inr ⟨hs.steady.size, hpinned, ?_, fun slot y' z hdone hy' _ => ?_⟩⟩
      · dsimp only
        rw [hkind _ hx, hkind']
        rfl
      · rw [hkind _ hx] at hy'
        exact absurd (Or.inr ⟨rfl, Kind.mem_slots.2 (Option.isSome_of_eq_some hy')⟩) hdone
    · obtain ⟨hreached', hcalm', hform⟩ := hs.stands y c hy
      have hlt : y < s.forest.size := Nat.lt_of_lt_of_le (hs.lt_of_reaches hreached') hs.steady.size
      have hlt' : c < s.forest.size := hs.sound.image_lt hy
      refine ⟨hreached', ⟨hcalms hcalm'.1 (hkind _ hlt), hcalms hcalm'.2 (hkind _ hlt')⟩,
        hform.imp_right fun hdup => ⟨hdup.new, hdup.unreached, ?_, fun slot y z hdone hy hz => ?_⟩⟩
      · dsimp only
        rw [hkind _ hlt, hkind _ hlt']
        exact hdup.same
      · dsimp only at hy hz ⊢
        rw [hkind _ hlt] at hy
        rw [hkind _ hlt'] at hz
        rw [hsteady.rep, hsteady.rep]
        exact hold _ _ (hdup.children slot y z (fun h => hdone (Or.inl h)) hy hz)
  · rcases lookup_cons_eq_some.1 hy with ⟨rfl, rfl⟩ | ⟨-, hy⟩
    · rcases lookup_cons_eq_some.1 hy' with ⟨rfl, -⟩ | ⟨-, hy'⟩
      · rfl
      · exact absurd (hs.sound.image_lt hy') (Nat.lt_irrefl _)
    · rcases lookup_cons_eq_some.1 hy' with ⟨-, hc'⟩ | ⟨-, hy'⟩
      · exact absurd (hs.sound.image_lt hy) (Nat.not_lt.2 hc'.ge)
      · exact hs.injective y y' c hy hy' hc
  · have hlt := Nat.lt_of_lt_of_le hy hs.steady.size
    refine ⟨hcalms hcalmy (hkind _ hlt), ?_⟩
    dsimp only
    rw [hkind _ hlt]
    rfl

/-- The kind of an image says what that of the class says. -/
theorem isVar_image (hs : Imaging f pinned d pending s) (hx : s.image.lookup x = some c) :
    s.forest.kind c = .var ↔ s.forest.kind x = .var := by
  rcases (hs.stands x c hx).form with ⟨rfl, -⟩ | hdup
  · rfl
  · rw [← Kind.isVar_iff, ← Kind.isVar_iff, hdup.same.isVar]

/-- The image of a child is put into a slot of a duplicate. -/
theorem graft (hs : Imaging f pinned d pending s) (hx : s.image.lookup x = some c)
    (hc : f.size ≤ c) {y z : TermId} {slot : Slot} (hy : (s.forest.kind x).child? slot = some y)
    (hz : s.image.lookup (s.forest.rep y) = some z)
    (hpending : ∀ c' slot', pending c' slot' → pending' c' slot' ∨ c' = c ∧ slot' = slot) :
    Imaging f pinned d pending' { s with forest := s.forest.setChild c slot z } ∧
      Carries f s { s with forest := s.forest.setChild c slot z } := by
  have hrooted := hs.sound.forest.rooted
  have hsteady := Forest.setChild_steady hrooted c slot z
  obtain ⟨hreached, ⟨hcalm, hcalm'⟩, hform⟩ := hs.stands x c hx
  have hlt := hs.lt_of_reaches hreached
  have hdup : Duplicate f pinned pending s x c := hform.resolve_left fun h =>
    absurd hlt (Nat.not_lt.2 (h.1 ▸ hc))
  have hkind : ∀ a, a ≠ c → (s.forest.setChild c slot z).kind a = s.forest.kind a := fun a ha => by
    rw [Forest.kind_setChild, if_neg (Ne.symm ha)]
  have hkindc : (s.forest.setChild c slot z).kind c = (s.forest.kind c).setChild slot z := by
    rw [Forest.kind_setChild, if_pos rfl]
  obtain ⟨w, hw⟩ : ∃ w, (s.forest.kind c).child? slot = some w := by
    refine Option.isSome_iff_exists.1 (Kind.mem_slots.1 ?_)
    rw [hdup.same.slots]
    exact Kind.mem_slots.2 (Option.isSome_of_eq_some hy)
  have hzroot : s.forest.rep z = z := Forest.rep_of_not_link (hs.stands _ _ hz).calm.2.root
  -- The duplicate is no variable, so variables stay what they are.
  have hvar : ∀ a, s.forest.kind a = .var → (s.forest.setChild c slot z).kind a = .var := by
    intro a ha
    rw [hkind a, ha]
    rintro rfl
    rw [ha] at hw
    cases slot <;> cases hw
  have hcalms : ∀ a, s.forest.Calm a → (s.forest.setChild c slot z).Calm a := by
    intro a ha
    refine ⟨by rw [hsteady.isLink, ha.root], fun inner hinner => ?_⟩
    rw [hsteady.rep]
    refine hvar _ ?_
    by_cases e : a = c
    · subst e
      rw [hkindc] at hinner
      have hinner' : ((s.forest.kind a).setChild slot z).child? .inner = some inner := by
        rw [hinner]
        rfl
      rcases Kind.child?_of_setChild hinner' with ⟨rfl, rfl⟩ | ⟨-, hinner'⟩
      · rw [hzroot, hs.isVar_image hz]
        exact hcalm.child?_inner hy
      · exact hcalm'.child?_inner hinner'
    · rw [hkind a e] at hinner
      exact ha.wraps inner hinner
  refine ⟨⟨hs.surveyed, ⟨Forest.setChild_sound hs.sound.forest c slot (hs.sound.image_lt hz),
    fun p hp => ?_⟩, hs.sprouts.tail (.graft hc (hs.sound.image_lt hz)), fun x' c' hx' => ?_,
    hs.injective⟩, hsteady, fun _ _ h => h, fun a ha hcalma => ⟨hcalms a hcalma, ?_⟩⟩
  · exact Nat.lt_of_lt_of_le (hs.sound.image p hp) hsteady.size
  · obtain ⟨hreached', hcalmx', hform'⟩ := hs.stands x' c' hx'
    refine ⟨hreached', ⟨hcalms _ hcalmx'.1, hcalms _ hcalmx'.2⟩, hform'.imp_right fun hdup' => ?_⟩
    have hxc : x' ≠ c := fun e =>
      absurd (hs.lt_of_reaches hreached') (Nat.not_lt.2 (by rw [e]; exact hc))
    refine ⟨hdup'.new, hdup'.unreached, ?_, fun slot' y' z' hdone hy' hz' => ?_⟩
    · dsimp only
      rw [hkind x' hxc]
      by_cases e : c' = c
      · subst e
        rw [hkindc]
        exact (Kind.mapChildren_setChild (y := z) hw rfl).trans hdup'.same
      · rw [hkind c' e]
        exact hdup'.same
    · dsimp only at hy' hz' ⊢
      rw [hkind x' hxc] at hy'
      rw [hsteady.rep, hsteady.rep]
      by_cases e : c' = c
      · subst e
        obtain rfl := hs.injective x x' c' hx hx' hc
        rw [hkindc] at hz'
        rcases Kind.child?_of_setChild hz' with ⟨rfl, rfl⟩ | ⟨hne, hz'⟩
        · rw [hy] at hy'
          cases hy'
          rw [hzroot, hz]
        · refine hdup.children slot' y' z' (fun h => ?_) hy' hz'
          exact (hpending _ _ h).elim hdone fun h => hne h.2
      · rw [hkind c' e] at hz'
        exact hdup'.children slot' y' z' (fun h => (hpending _ _ h).elim hdone fun h => e h.1) hy' hz'
  · dsimp only
    rw [hkind a fun e => absurd ha (Nat.not_lt.2 (by rw [e]; exact hc))]
    rfl

end Imaging

/-! ## The copying -/

/-- Whatever is being copied, the term gets its image. -/
def Images (f : Forest) (pinned : List TermId) (d : TermId) (duplicate : TermId → UnifyM TermId) :
    Prop :=
  ∀ pending s y z u, Imaging f pinned d pending s → f.Reaches d (s.forest.rep y) →
    duplicate y s = some (z, u) → Imaging f pinned d pending u ∧ Carries f s u ∧
      u.image.lookup (s.forest.rep y) = some z

/-- When the children of a class have been copied its duplicate is complete. -/
theorem copySlots_images {duplicate : TermId → UnifyM TermId}
    (hduplicate : Images f pinned d duplicate) {slots : List Slot} {v : Unit}
    (hs : Imaging f pinned d (fun c' slot => pending c' slot ∨ c' = c ∧ slot ∈ slots) s)
    (hx : s.image.lookup x = some c) (hc : f.size ≤ c) (hslots : slots ⊆ (s.forest.kind x).slots)
    (h : copySlots duplicate x c slots s = some (v, u)) :
    Imaging f pinned d pending u ∧ Carries f s u := by
  induction slots generalizing s with
  | nil =>
    obtain ⟨-, rfl⟩ := pure_eq_some.1 h
    exact ⟨hs.mono fun c' slot h => h.resolve_right fun h => absurd h.2 List.not_mem_nil, .refl hs.sound⟩
  | cons slot rest ih =>
    obtain ⟨child?, s₁, hchild, h⟩ := bind_eq_some.1 h
    obtain ⟨hreached, ⟨hcalm, -⟩, -⟩ := hs.stands x c hx
    have hlt := hs.lt_of_reaches hreached
    have hanswer := child_eq hs.sound hchild
    obtain ⟨y, hy⟩ := Option.isSome_iff_exists.1 (Kind.mem_slots.1 (hslots List.mem_cons_self))
    rw [hy, Option.map_some] at hanswer
    subst hanswer
    obtain ⟨f₁, hrun, rfl⟩ := onForest_eq_some.1 hchild
    obtain ⟨hs₁, hcarries₁⟩ := hs.of_upkeeps (Forest.child_upkeeps hs.sound.forest.rooted hrun).2
    obtain ⟨z, s₂, hcopy, h⟩ := bind_eq_some.1 h
    obtain ⟨v', s₃, hgraft, h⟩ := bind_eq_some.1 h
    have hrep : f₁.rep (s.forest.rep y) = s.forest.rep y := by
      rw [hcarries₁.steady.rep, Forest.rep_rep hs.sound.forest.rooted]
    have hreached' : f.Reaches d (s.forest.rep y) :=
      hreached.trans (hs.sprouts.edge hs.surveyed.sound hlt ⟨slot, y, hy, rfl⟩)
    obtain ⟨hs₂, hcarries₂, hz⟩ := hduplicate _ _ _ _ _ hs₁ (by rwa [hrep]) hcopy
    have hcarries := hcarries₁.trans hcarries₂
    obtain rfl := change_eq_some.1 hgraft
    -- The class has the child still, if maybe by another name.
    obtain ⟨-, hsame⟩ := hcarries.calm x hlt hcalm
    have hchild₂ := hsame.child? slot
    rw [hy, Option.map_some, Option.map_eq_some_iff] at hchild₂
    obtain ⟨y₂, hy₂, hyy⟩ := hchild₂
    rw [hrep, ← hyy, ← hcarries.steady.rep] at hz
    have hpending : ∀ c' slot', (pending c' slot' ∨ c' = c ∧ slot' ∈ slot :: rest) →
        (pending c' slot' ∨ c' = c ∧ slot' ∈ rest) ∨ c' = c ∧ slot' = slot := by
      rintro c' slot' (h | ⟨hc', hslot'⟩)
      · exact Or.inl (Or.inl h)
      · rcases List.mem_cons.1 hslot' with hslot' | hslot'
        · exact Or.inr ⟨hc', hslot'⟩
        · exact Or.inl (Or.inr ⟨hc', hslot'⟩)
    obtain ⟨hs₃, hcarries₃⟩ := hs₂.graft (hcarries.image x c hx) hc hy₂ hz hpending
    have hall := hcarries.trans hcarries₃
    have hrest : rest ⊆ ((s₂.forest.setChild c slot z).kind x).slots := by
      rw [(hall.calm x hlt hcalm).2.slots]
      exact fun slot' hslot' => hslots (List.mem_cons_of_mem _ hslot')
    obtain ⟨hs', hcarries'⟩ := ih hs₃ (hall.image x c hx) hrest h
    exact ⟨hs', hall.trans hcarries'⟩

/-- How a class is copied around its pinned parts, once it was looked up: it has an image, or a pinned type leads
to it, or it is duplicated and its children are copied. -/
inductive CopyLayer (f : Forest) (pinned : List TermId) (fuel : Nat) (a c : TermId) (s u : Unifier) : Prop
  | known (hknown : s.image.lookup a = some c) (hu : s = u)
  | shared (hnew : s.image.lookup a = none) (hpinned : f.ReachedFrom pinned a) (hc : c = a)
      (hu : { s with image := (a, a) :: s.image } = u)
  | copied {term : Term} {v : Unit} (hnew : s.image.lookup a = none)
      (hpinned : ¬s.forest.ReachedFrom pinned a) (hterm : term.kind = s.forest.kind a) (hc : c = s.forest.size)
      (hslots : copySlots (freshCopyWithin pinned fuel) a s.forest.size (s.forest.kind a).slots
        { s with forest := (s.forest.add term).2, image := (a, s.forest.size) :: s.image } = some (v, u))

/-- A term is copied by its class, which was looked up like what pinned types lead to. -/
theorem freshCopyWithin_layer {fuel : Nat} (hs : s.Sound) (hx : x < s.forest.size)
    (h : freshCopyWithin pinned (fuel + 1) x s = some (c, u)) :
    ∃ t, Looks s t ∧ t.forest.IsClass (s.forest.rep x) ∧ t.forest.Calm (s.forest.rep x) ∧
      CopyLayer s.forest pinned fuel (s.forest.rep x) c t u := by
  obtain ⟨a, s₁, hfind, h⟩ := bind_eq_some.1 h
  have ha := isClass_of_find hs hx hfind
  have hcalm := calm_of_find hs hfind
  obtain ⟨rfl, hlooks₁⟩ := find_looks hs hfind
  have hs₁ := (hlooks₁.proceeds hs).sound
  obtain ⟨image, s₂, himage, h⟩ := bind_eq_some.1 h
  obtain ⟨rfl, rfl⟩ := imageOf_eq_some.1 himage
  cases hknown : s₁.image.lookup (s.forest.rep x) with
  | some prior =>
    simp only [hknown] at h
    obtain ⟨rfl, rfl⟩ := pure_eq_some.1 h
    exact ⟨s₁, hlooks₁, ha, hcalm, .known hknown rfl⟩
  | none =>
    simp only [hknown] at h
    obtain ⟨occurs, s₂, hoccurs, h⟩ := bind_eq_some.1 h
    have hlooks₂ := looks_onForest (Forest.keepsUp_occursInAny _ _) hs₁ hoccurs
    obtain ⟨g, hrun, rfl⟩ := onForest_eq_some.1 hoccurs
    have hrep : s₁.forest.rep (s.forest.rep x) = s.forest.rep x := ha.rep_eq
    have ha₂ := ha.of_steady (hlooks₂.steady hs₁)
    refine ⟨_, hlooks₁.trans hlooks₂, ha₂, (hlooks₂.upkeeps.calm hs₁.forest.rooted hcalm).2, ?_⟩
    rcases ite_eq_some.1 h with ⟨rfl, h⟩ | ⟨hoccurs, h⟩
    · have hpinned := Forest.occursInAny_finds hs₁.forest.rooted hrun
      rw [hrep] at hpinned
      obtain ⟨v, s₃, hset, h⟩ := bind_eq_some.1 h
      obtain ⟨rfl, rfl⟩ := pure_eq_some.1 h
      obtain rfl := modify_eq_some.1 hset
      exact .shared hknown (hlooks₁.upkeeps.reachedFrom hs.forest.rooted hpinned) rfl rfl
    rw [Bool.not_eq_true] at hoccurs
    subst hoccurs
    obtain ⟨c', s₃, hcopy, h⟩ := bind_eq_some.1 h
    obtain ⟨rfl, rfl⟩ := copy_eq_some.1 hcopy
    replace h := of_bind_view h
    -- The copy of a variable forgets who was registered with it.
    obtain ⟨term, hterm, h⟩ : ∃ term : Term, term.kind = g.kind (s.forest.rep x) ∧ (do
        setImage (s.forest.rep x) g.size
        copySlots (freshCopyWithin pinned fuel) (s.forest.rep x) g.size
          ((g.add (g.terms[s.forest.rep x]?.getD default)).2.kind (s.forest.rep x)).slots
        return g.size) { s₁ with forest := (g.add term).2 } = some (c, u) := by
      rcases ite_eq_some.1 h with ⟨-, h⟩ | ⟨-, h⟩
      · obtain ⟨v, s₄, hclear, h⟩ := bind_eq_some.1 h
        obtain rfl := change_eq_some.1 hclear
        dsimp only at h
        rw [Forest.update_add] at h
        exact ⟨{ g.terms[s.forest.rep x]?.getD default with deps := .empty }, Forest.kind_getD _ _, h⟩
      · exact ⟨_, Forest.kind_getD _ _, h⟩
    obtain ⟨v, s₄, hset, h⟩ := bind_eq_some.1 h
    obtain ⟨v', s₅, hslots, h⟩ := bind_eq_some.1 h
    obtain ⟨rfl, rfl⟩ := pure_eq_some.1 h
    obtain rfl := modify_eq_some.1 hset
    rw [Forest.kind_add, if_neg (Nat.ne_of_lt ha₂.lt)] at hslots
    exact .copied hknown (fun hin => (Forest.occursInAny_explored hs₁.forest.rooted hrun hin).2 hrep.symm)
      hterm rfl hslots

/-- A type is copied: every class that it leads to gets its image, with what its kind has. -/
theorem freshCopyWithin_images (fuel : Nat) : Images f pinned d (freshCopyWithin pinned fuel) := by
  induction fuel with
  | zero => exact fun pending s y z u _ _ h => (failure_eq_some.1 h).elim
  | succ fuel ih =>
    intro pending s y z u hs hreached h
    have hlt := Nat.lt_of_lt_of_le (hs.lt_of_reaches hreached) hs.steady.size
    obtain ⟨t, hlooks, -, hcalm, hlayer⟩ :=
      freshCopyWithin_layer hs.sound (Forest.lt_size_of_rep_lt hlt) h
    generalize s.forest.rep y = x at hreached hlt hcalm hlayer ⊢
    obtain ⟨hs₁, hcarries₁⟩ := hs.of_upkeeps hlooks.upkeeps
    obtain ⟨g, work, met, image⟩ := t
    obtain ⟨-, rfl, rfl, rfl⟩ := hlooks
    cases hlayer with
    | known hknown hu =>
      subst hu
      exact ⟨hs₁, hcarries₁, hknown⟩
    | shared hnew hpinned hc hu =>
      -- What is pinned is its own copy.
      subst hu hc
      obtain ⟨hs₂, hcarries₂⟩ := hs₁.share hnew hreached hcalm
        ((hs.surveyed.reachedFrom_iff hs.sprouts).1 hpinned)
      exact ⟨hs₂, hcarries₁.trans hcarries₂, lookup_cons_eq_some.2 (Or.inl ⟨rfl, rfl⟩)⟩
    | copied hnew hpinned hterm hc hslots =>
      subst hc
      obtain ⟨hs₂, hcarries₂⟩ := hs₁.add hnew hreached hcalm
        (fun hin => hpinned ((hs.surveyed.reachedFrom_iff hs₁.sprouts).2 hin)) hterm
      have hkind : ∀ term, (g.add term).2.kind x = g.kind x := fun term => by
        rw [Forest.kind_add, if_neg (Nat.ne_of_lt (Nat.lt_of_lt_of_le hlt hcarries₁.steady.size))]
      obtain ⟨hs₃, hcarries₃⟩ := copySlots_images ih hs₂ (lookup_cons_eq_some.2 (Or.inl ⟨rfl, rfl⟩))
        hs₁.steady.size (by rw [hkind]; exact fun _ h => h) hslots
      exact ⟨hs₃, (hcarries₁.trans hcarries₂).trans hcarries₃,
        hcarries₃.image _ _ (lookup_cons_eq_some.2 (Or.inl ⟨rfl, rfl⟩))⟩

/-- Each class that a type leads to has its image in the copy of the type. -/
theorem freshCopy_images (hf : s.forest.Surveyed pinned d) (hs : s.Sound) (himage : s.image = [])
    (hd : (s.forest.kind d).isLink = false) (h : freshCopy pinned d s = some (c, u)) :
    Imaging s.forest pinned d (fun _ _ => False) u ∧ u.image.lookup d = some c := by
  have hnone : ∀ x c, s.image.lookup x ≠ some c := fun x c hx => by
    rw [himage] at hx
    cases hx
  have hstart : Imaging s.forest pinned d (fun _ _ => False) s :=
    ⟨hf, hs, .refl, fun x c hx => absurd hx (hnone x c), fun x x' c hx => absurd hx (hnone x c)⟩
  have hrep := Forest.rep_of_not_link hd
  replace h := of_bind_view h
  obtain ⟨hu, -, hc⟩ := freshCopyWithin_images _ _ _ _ _ _ hstart (by rw [hrep]; exact .refl) h
  rw [hrep] at hc
  exact ⟨hu, hc⟩

end Unifier

end TypeFlow
