import TypeFlow.Proofs.TreeTypes
import TypeFlow.Proofs.TypeSchemes

/-!
# Zones of a use

While a definition whose type is a tree is instantiated for a use that shares nothing where the definition is
known, each known class of the definition that is no wrapper has a seat: the terms of the use that stand for it.
What stands for variables that occur more than once, or for wrappers, is free.  What stands for a variable that
occurs once, or for nothing at all, is outside, unless it has another place as well.  A zone tells where the children
of its terms may stand, so that what happens in one seat does not concern any other.

Main definitions:

- `Forest.Zone`: the zones that terms belong to.
- `Forest.place`, `Forest.Zone.Allows`: where what stands for a class of the definition belongs, and what may stand
  there.
- `Forest.Zoned`: children stand where they may.
- `Forest.Touched`: the zones that work for some classes of the definition may change.

Main results:

- `Forest.Zoned.of_upkeeps`: tidying up respects zones.
- `Forest.Zoned.place_child`: children stand where those of a class of the definition may.
-/

namespace TypeFlow

namespace Forest

/-- The part that a term has in an instantiation. -/
inductive Zone
  /-- It may be unified with anything alike. -/
  | free
  /-- It stands for a known class of the definition. -/
  | seat (a : TermId)
  /-- Nothing is done to it, and it does not lead to the definition. -/
  | outside
  /-- It belongs to the definition or leads to it. -/
  | barred

variable {f g h : Forest} {zone zone' : TermId → Zone} {z : Zone} {a b c d t x : TermId} {k : Kind} {slot : Slot}

open Classical in
/-- Where what stands for a class of the definition belongs.  Of what stands for a wrapper no more is asked than
that it takes nil in, and of what stands for a variable that occurs once nothing is asked. -/
noncomputable def place (f : Forest) (d a : TermId) : Zone :=
  if f.kind a = .var then if f.Single d a then .outside else .free
  else if (f.kind a).isNilable then .free else .seat a

/-- Where the child in a slot belongs if the whole has the seat of a class of the definition.  What is wrapped stands
for the class as well, and what the class lacks is outside. -/
noncomputable def childPlace (f : Forest) (d a : TermId) (slot : Slot) : Zone :=
  if slot = .inner then .seat a else ((f.kind a).child? slot).elim .outside fun x => f.place d (f.rep x)

/-- What is of the second zone may stand where something belongs.  Outside, anything may that does not lead to the
definition. -/
def Zone.Allows : Zone → Zone → Prop
  | .outside, z => z ≠ .barred
  | place, z => z = place

/-- What stands for the class may have the kind. -/
structure Suits (f : Forest) (d : TermId) (zone : TermId → Zone) (a : TermId) (k : Kind) : Prop where
  link : ∀ x, k = .link x → zone x = .seat a
  child : ∀ slot x, k.child? slot = some x → (f.childPlace d a slot).Allows (zone x)
  /-- Nothing is wrapped for a base type of which nothing is known, since nil is not of its kind. -/
  plain : k.isNilable = true → f.kind a ≠ .base .any

/-- A term of the zone may have the kind. -/
def Admits (f : Forest) (d : TermId) (zone : TermId → Zone) : Zone → Kind → Prop
  | .free, k => ∀ x ∈ k.children, zone x = .free
  | .seat a, k => f.Suits d zone a k
  | .outside, k => ∀ x ∈ k.children, zone x ≠ .barred
  | .barred, _ => True

/-- All terms have kinds that their zones admit. -/
def Zoned (f : Forest) (d : TermId) (zone : TermId → Zone) (g : Forest) : Prop :=
  ∀ t, f.Admits d zone (zone t) (g.kind t)

/-- The zones that are changed when the seats of some classes are.  What is free may be changed at any time, and
barred terms are told about otherwise. -/
def Touched (A : TermId → Prop) : Zone → Prop
  | .free | .barred => True
  | .seat a => A a
  | .outside => False

/-! ## Places -/

/-- What stands for a variable is free, or outside if the variable occurs once. -/
theorem place_of_var (h : f.kind a = .var) : f.place d a = .free ∨ f.Single d a ∧ f.place d a = .outside := by
  unfold place
  rw [if_pos h]
  split
  · exact Or.inr ⟨‹_›, rfl⟩
  · exact Or.inl rfl

/-- Variables that do not occur once have a free place. -/
theorem place_of_not_single (h : ¬f.Single d a) : f.place d a = .free :=
  (place_of_var (eq_var_of_not_single h)).resolve_right fun hsingle => h hsingle.1

/-- So have wrappers. -/
theorem place_of_wrapper (h : (f.kind a).isNilable = true) : f.place d a = .free := by
  have hvar : f.kind a ≠ .var := fun hvar => by
    rw [hvar] at h
    cases h
  unfold place
  rw [if_neg hvar, if_pos h]

/-- What else is known has a seat. -/
theorem place_of_known (hvar : f.kind a ≠ .var) (hnilable : (f.kind a).isNilable = false) :
    f.place d a = .seat a := by
  unfold place
  rw [if_neg hvar, hnilable]
  rfl

/-- What stands for a variable that occurs once is outside, what stands for another variable or a wrapper is free, and
what else is known has a seat. -/
theorem place_cases (f : Forest) (d a : TermId) : f.place d a = .free ∨
    f.kind a = .var ∧ f.place d a = .outside ∨
    (f.kind a ≠ .var ∧ (f.kind a).isNilable = false) ∧ f.place d a = .seat a := by
  by_cases hvar : f.kind a = .var
  · exact (place_of_var hvar).imp_right fun hsingle => Or.inl ⟨hvar, hsingle.2⟩
  cases hnilable : (f.kind a).isNilable with
  | true => exact Or.inl (place_of_wrapper hnilable)
  | false => exact Or.inr (Or.inr ⟨⟨hvar, rfl⟩, place_of_known hvar hnilable⟩)

/-- Where the child of a class has its place. -/
theorem childPlace_of_child (hinner : slot ≠ .inner) (hx : (f.kind a).child? slot = some x) :
    f.childPlace d a slot = f.place d (f.rep x) := by
  rw [childPlace, if_neg hinner, hx]
  rfl

/-- What is wrapped is free. -/
theorem Tree.place_child (h : f.Tree a) (ha : f.Reaches d a) (hplace : f.place d a = .free)
    (hx : (f.kind a).child? slot = some x) : f.place d (f.rep x) = .free := by
  cases h with
  | var hvar => rw [hvar] at hx; cases slot <;> cases hx
  | wrapper hk hvar =>
    rw [hk] at hx
    cases slot <;> cases hx
    exact place_of_not_single (not_single_of_wrapped ha (by rw [hk]; rfl) hvar)
  | known _ hvar hnilable =>
    rw [place_of_known hvar hnilable] at hplace
    cases hplace

/-- No place is barred. -/
theorem place_ne_barred (f : Forest) (d a : TermId) : f.place d a ≠ .barred := by
  rcases place_cases f d a with hplace | ⟨-, hplace⟩ | ⟨-, hplace⟩ <;> rw [hplace] <;> exact Zone.noConfusion

/-- That of a child is not barred either. -/
theorem childPlace_ne_barred (f : Forest) (d a : TermId) (slot : Slot) : f.childPlace d a slot ≠ .barred := by
  unfold childPlace
  split
  · exact Zone.noConfusion
  · cases (f.kind a).child? slot with
    | none => exact Zone.noConfusion
    | some x => exact place_ne_barred f d (f.rep x)

namespace Zone.Allows

variable {p : Zone}

/-- What belongs somewhere may stand there. -/
theorem refl (hp : p ≠ .barred) : p.Allows p := by
  cases p with
  | outside => exact hp
  | _ => rfl

/-- Nothing else may where the definition has a place. -/
theorem eq (h : p.Allows z) (hp : p ≠ .outside) : z = p := by
  cases p with
  | outside => exact absurd rfl hp
  | _ => exact h

/-- What is barred may stand nowhere. -/
theorem ne_barred (h : p.Allows z) (hp : p ≠ .barred) : z ≠ .barred := by
  cases p with
  | outside => exact h
  | barred => exact absurd rfl hp
  | _ =>
    cases h
    exact Zone.noConfusion

/-- What is wrapped has the seat of the class. -/
theorem inner (h : (f.childPlace d a .inner).Allows z) : z = .seat a := h.eq Zone.noConfusion

/-- What stands for a child may stand in the place of that. -/
theorem child (hinner : slot ≠ .inner) (hx : (f.kind a).child? slot = some x)
    (h : (f.childPlace d a slot).Allows z) : (f.place d (f.rep x)).Allows z := by
  rwa [childPlace_of_child hinner hx] at h

end Zone.Allows

/-! ## Kinds that zones admit -/

/-- What is known and no wrapper is told by its children. -/
theorem Suits.of_known (hlink : k.isLink = false) (hnilable : k.isNilable = false)
    (hchild : ∀ slot x, k.child? slot = some x → (f.childPlace d a slot).Allows (zone x)) : f.Suits d zone a k where
  link x hx := by
    rw [hx] at hlink
    cases hlink
  child := hchild
  plain h := by
    rw [h] at hnilable
    cases hnilable

/-- Variables are admitted anywhere. -/
theorem admits_var (z : Zone) : f.Admits d zone z .var := by
  cases z with
  | seat => exact ⟨fun x hx => (by cases hx), fun slot x hx => (by cases slot <;> cases hx), fun h => (by cases h)⟩
  | barred => trivial
  | _ => exact fun x hx => absurd hx List.not_mem_nil

/-- Whatever has no children is admitted anywhere. -/
theorem admits_of_children (hlink : k.isLink = false) (h : k.children = []) (z : Zone) : f.Admits d zone z k := by
  cases z with
  | seat =>
    refine ⟨fun x hx => ?_, fun slot x hx => ?_, fun hk => ?_⟩
    · rw [hx] at hlink
      cases hlink
    · have hmem := Kind.mem_children_of_child? hx
      rw [h] at hmem
      exact absurd hmem List.not_mem_nil
    · obtain ⟨x, rfl⟩ := Kind.isNilable_eq_true.1 hk
      cases h
  | barred => trivial
  | _ =>
    intro x hx
    rw [h] at hx
    exact absurd hx List.not_mem_nil

/-- Zones are admitted by what they are for the children. -/
theorem Admits.congr (h : f.Admits d zone z k) (hzone : ∀ x ∈ k.children, zone' x = zone x) :
    f.Admits d zone' z k := by
  cases z with
  | free => exact fun x hx => (hzone x hx).trans (h x hx)
  | seat a =>
    refine ⟨fun x hx => (hzone x ?_).trans (h.link x hx), fun slot x hx => ?_, h.plain⟩
    · rw [hx]
      exact List.mem_singleton_self x
    · rw [hzone x (Kind.mem_children_of_child? hx)]
      exact h.child slot x hx
  | outside =>
    intro x hx
    rw [hzone x hx]
    exact h x hx
  | barred => trivial

/-- Only what is barred admits barred children. -/
theorem Admits.ne_barred (h : f.Admits d zone z k) (hz : z ≠ .barred) (hx : x ∈ k.children) : zone x ≠ .barred := by
  cases z with
  | free =>
    rw [h x hx]
    exact Zone.noConfusion
  | seat a =>
    cases hk : k.isLink with
    | true =>
      obtain ⟨y, rfl⟩ := Kind.isLink_eq_true.1 hk
      rw [List.mem_singleton.1 hx, h.link y rfl]
      exact Zone.noConfusion
    | false =>
      obtain ⟨slot, hslot⟩ := (Kind.mem_children hk).1 hx
      exact (h.child slot x hslot).ne_barred (childPlace_ne_barred f d a slot)
  | outside => exact h x hx
  | barred => exact absurd rfl hz

/-! ## Forests with zones -/

namespace Zoned

/-- Nothing leads out of what is free. -/
theorem free (hg : f.Zoned d zone g) : g.Region (zone · = .free) := fun t ht x hx => by
  have hadmits := hg t
  rw [ht] at hadmits
  exact hadmits x hx

/-- Nothing that is not barred leads to what is. -/
theorem unbarred (hg : f.Zoned d zone g) : g.Region (zone · ≠ .barred) := fun t ht _ hx =>
  (hg t).ne_barred ht hx

private theorem link (hg : f.Zoned d zone g) (hz : zone t = .free ∨ ∃ a, zone t = .seat a)
    (hx : g.kind t = .link x) : zone x = zone t := by
  have hadmits := hg t
  rw [hx] at hadmits
  rcases hz with hz | ⟨a, hz⟩ <;> rw [hz] at hadmits ⊢
  · exact hadmits x (List.mem_singleton_self x)
  · exact hadmits.link x rfl

private theorem follow (hg : f.Zoned d zone g) (n : Nat) (hz : zone t = .free ∨ ∃ a, zone t = .seat a) :
    zone (g.follow n t) = zone t := by
  induction n generalizing t with
  | zero => rfl
  | succ n ih =>
    cases hk : (g.kind t).isLink with
    | false => rw [follow_of_not_link hk]
    | true =>
      obtain ⟨x, hx⟩ := Kind.isLink_eq_true.1 hk
      have hzone := hg.link hz hx
      rw [follow_link hx, ih (by rwa [hzone]), hzone]

/-- Terms that are free or have a seat are of classes that are so. -/
theorem rep (hg : f.Zoned d zone g) (hz : zone t = .free ∨ ∃ a, zone t = .seat a) : zone (g.rep t) = zone t :=
  hg.follow _ hz

/-- Where a term may stand its class may. -/
theorem allows_rep {p : Zone} (hg : f.Zoned d zone g) (hp : p ≠ .barred) (h : p.Allows (zone t)) :
    p.Allows (zone (g.rep t)) := by
  cases p with
  | outside => exact hg.unbarred.rep (R := (zone · ≠ .barred)) h
  | barred => exact absurd rfl hp
  | free => exact (hg.rep (Or.inl h)).trans h
  | seat a => exact (hg.rep (Or.inr ⟨a, h⟩)).trans h

/-- A class that stands for one of the definition has children that may stand where those belong. -/
theorem child (hg : f.Zoned d zone g) (ht : zone t = .seat a) (hx : (g.kind t).child? slot = some x) :
    (f.childPlace d a slot).Allows (zone x) ∧ (f.childPlace d a slot).Allows (zone (g.rep x)) := by
  have hadmits := hg t
  rw [ht] at hadmits
  have hzone := hadmits.child slot x hx
  exact ⟨hzone, hg.allows_rep (childPlace_ne_barred f d a slot) hzone⟩

/-- What may stand where a class of a tree belongs has children that may stand where those of the class belong. -/
theorem place_child {y : TermId} (hg : f.Zoned d zone g) (htree : f.Tree a) (ha : f.Reaches d a)
    (ht : (f.place d a).Allows (zone t)) (hx : (f.kind a).child? slot = some x)
    (hy : (g.kind t).child? slot = some y) : (f.place d (f.rep x)).Allows (zone (g.rep y)) := by
  rcases place_cases f d a with hplace | ⟨hvar, -⟩ | ⟨⟨-, hnilable⟩, hplace⟩
  · rw [htree.place_child ha hplace hx]
    rw [hplace] at ht
    exact hg.free.rep (hg.free.child ht hy)
  · rw [hvar] at hx
    cases slot <;> cases hx
  · rw [hplace] at ht
    exact (hg.child ht hy).2.child (Kind.ne_inner hnilable hx) hx

private theorem setKind (hg : f.Zoned d zone g) (hk : f.Admits d zone (zone t) k) :
    f.Zoned d zone (g.setKind t k) := by
  intro c
  rw [kind_setKind]
  split
  · rename_i e
    rw [← e.1]
    exact hk
  · exact hg c

private theorem admits_absorbedKind (hg : f.Zoned d zone g) (hx : g.kind t = .nilable x) :
    f.Admits d zone (zone t) (absorbedKind (g.rep x) (g.kind (g.rep x))) := by
  have hadmits := hg t
  rw [hx] at hadmits
  have hrep := hg (g.rep x)
  -- The wrapper gets what it wraps for a kind, or the class of that for a child.
  have hchildren : ∀ y ∈ (absorbedKind (g.rep x) (g.kind (g.rep x))).children,
      y = g.rep x ∨ y ∈ (g.kind (g.rep x)).children := fun y hy => by
    by_cases hvar : g.kind (g.rep x) = .var
    · rw [hvar] at hy
      exact Or.inl (List.mem_singleton.1 hy)
    · rw [absorbedKind_eq_orNil _ hvar, Kind.children_orNil] at hy
      exact Or.inr hy
  cases hz : zone t with
  | free =>
    intro y hy
    rw [hz] at hadmits
    have hfree : zone (g.rep x) = .free := hg.free.rep (hadmits x (List.mem_singleton_self x))
    rcases hchildren y hy with rfl | hy
    · exact hfree
    · exact hg.free _ hfree y hy
  | seat a =>
    have hinner : (g.kind t).child? .inner = some x := by rw [hx]; rfl
    have hseat : zone (g.rep x) = .seat a := (hg.child hz hinner).2.inner
    rw [hseat] at hrep
    by_cases hvar : g.kind (g.rep x) = .var
    · rw [hvar]
      refine ⟨fun y hy => Kind.noConfusion hy, fun slot y hy => ?_, fun _ => ?_⟩
      · cases slot with
        | inner =>
          cases hy
          exact hseat
        | _ => cases hy
      · rw [hz] at hadmits
        exact hadmits.plain rfl
    · rw [absorbedKind_eq_orNil _ hvar]
      refine ⟨fun y hy => hrep.link y ?_, fun slot y hy => hrep.child slot y ?_, fun hk => hrep.plain ?_⟩
      · cases hk : g.kind (g.rep x) <;> rw [hk] at hy <;> first | exact hy | cases hy
      · rwa [Kind.child?_orNil] at hy
      · rwa [Kind.isNilable_orNil] at hk
  | outside =>
    have hopen := hg.unbarred
    rw [hz] at hadmits
    intro y hy
    have hx' : zone (g.rep x) ≠ .barred := hopen.rep (hadmits x (List.mem_singleton_self x))
    rcases hchildren y hy with rfl | hy
    · exact hx'
    · exact hopen _ hx' y hy
  | barred => trivial

private theorem admits_shortened (hg : f.Zoned d zone g) (t : TermId) :
    f.Admits d zone (zone t) (.link (g.rep t)) := by
  cases hz : zone t with
  | free =>
    intro y hy
    rw [List.mem_singleton.1 hy]
    exact hg.free.rep hz
  | seat a =>
    refine ⟨fun y hy => ?_, fun slot y hy => (by cases slot <;> cases hy), fun h => (by cases h)⟩
    cases hy
    exact (hg.rep (Or.inr ⟨a, hz⟩)).trans hz
  | outside =>
    intro y hy
    rw [List.mem_singleton.1 hy]
    refine hg.unbarred.rep (R := (zone · ≠ .barred)) ?_
    rw [hz]
    exact Zone.noConfusion
  | barred => trivial

private theorem admits_remembered (hg : f.Zoned d zone g) (hx : (g.kind t).child? slot = some x) :
    f.Admits d zone (zone t) ((g.kind t).setChild slot (g.rep x)) := by
  have hadmits := hg t
  cases hz : zone t with
  | free =>
    intro y hy
    rcases Kind.mem_children_setChild hy with rfl | hy
    · exact hg.free.rep (hg.free.child hz hx)
    · exact hg.free t hz y hy
  | seat a =>
    rw [hz] at hadmits
    refine ⟨fun y hy => ?_, fun slot' y hy => ?_, fun hk => hadmits.plain ?_⟩
    · have hlink := Kind.isLink_setChild (g.kind t) slot (g.rep x)
      rw [hy, Kind.isLink_of_child? hx] at hlink
      cases hlink
    · rcases Kind.child?_of_setChild hy with ⟨rfl, rfl⟩ | ⟨-, hy⟩
      · exact (hg.child hz hx).2
      · exact hadmits.child slot' y hy
    · rwa [Kind.Same.isNilable (Kind.mapChildren_setChild (r := fun _ => 0) hx rfl)] at hk
  | outside =>
    have hopen := hg.unbarred
    have ht : zone t ≠ .barred := by rw [hz]; exact Zone.noConfusion
    intro y hy
    rcases Kind.mem_children_setChild hy with rfl | hy
    · exact hopen.rep (hopen.child ht hx)
    · exact hopen t ht y hy
  | barred => trivial

/-- Tidying up respects zones. -/
theorem of_upkeeps (hrooted : g.Rooted) (hg : f.Zoned d zone g) (hup : g.Upkeeps h) : f.Zoned d zone h := by
  induction hup with
  | refl => exact hg
  | @tail g' h hup hstep ih =>
    have hrooted' := (Upkeeps.steady hrooted hup).rooted
    cases hstep with
    | shorten => exact ih.setKind (ih.admits_shortened _)
    | @remember t x slot hx =>
      intro c
      rw [kind_setChild]
      split
      · rename_i e
        subst e
        exact ih.admits_remembered hx
      · exact ih c
    | @absorb w x hw =>
      intro c
      rw [kind_absorb (not_isLink_rep hrooted' x)]
      split
      · rename_i e
        rw [← e.1]
        exact ih.admits_absorbedKind hw
      · exact ih c

end Zoned

end Forest

end TypeFlow
