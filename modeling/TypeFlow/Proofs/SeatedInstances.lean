import TypeFlow.Proofs.LaidUses

/-!
# Instances in their seats

A term is an instance of a class of a definition if it is the image of a variable, an error, a twin, takes nil in
where the class is a wrapper, or shows as much as is known of the class, with instances of the children.  What shows
this are classes of the seat, so work elsewhere leaves instances alone.  Neither is an instance lost when its inputs
are widened, as those of a copy are that an input joins.

Main definitions:

- `Kind.Widens`: a kind with a base type that the first one covers.
- `Unifier.Seated`: a term is an instance of a class of the definition.

Main results:

- `Unifier.Seated.works`: work elsewhere leaves instances alone.
- `Unifier.Seated.enters`: instances made of copies stay so when a variable joins the copy.
-/

namespace TypeFlow

namespace Flow

variable {a b : Flow}

/-- Nil can be put in on either side. -/
theorem covers_orNil_of_covers (h : a.covers b = true) : a.orNil.covers b.orNil = true := by
  rw [covers_iff_le, ← meet_nil, ← meet_nil, meet_eq_inf, meet_eq_inf]
  exact inf_le_inf_right _ (covers_iff_le.1 h)

/-- Flows of one kind are so with nil. -/
theorem sameKind_orNil_of_sameKind (h : a.sameKind b = true) : a.orNil.sameKind b.orNil = true := by
  cases a <;> cases b <;> simp [sameKind] at h ⊢

/-- What was observed is of the same kind with nil. -/
theorem sameKind_orNil_of_ne_any (h : a ≠ any) : a.sameKind a.orNil = true := by
  cases a <;> simp [sameKind] at h ⊢

/-- What may be nil is of the same kind when nil is taken out and put back in. -/
theorem sameKind_orNil_withoutNil (h : a.mayNil = true) : a.sameKind a.withoutNil.orNil = true := by
  cases a <;> simp [sameKind, withoutNil, setNil, nonNil, mayNil] at h ⊢

end Flow

namespace Kind

variable {dead : TermId → Prop} {k k' l l' : Kind} {slot : Slot}

/-- The second kind is the first one, or a base type that is covered by it. -/
inductive Widens : Kind → Kind → Prop
  | refl (k : Kind) : Widens k k
  | base {p q : Flow} (hkind : p.sameKind q = true) (hcovers : p.covers q = true) : Widens (.base p) (.base q)

/-- Kinds that are the same are so without nil. -/
theorem Same.withoutNil {r : TermId → TermId} (h : Same r k k') : Same r k.withoutNil k'.withoutNil := by
  have hmap : ∀ l : Kind, l.withoutNil.mapChildren r = (l.mapChildren r).withoutNil := fun l => by cases l <;> rfl
  unfold Same at h ⊢
  rw [hmap, hmap, h]

/-- The second kind is the first one, or what the first one is apart from nil. -/
def Sheds (k l : Kind) : Prop := l = k ∨ k.mayNil = true ∧ l = k.withoutNil

namespace Sheds

/-- Taking nil out changes no child. -/
theorem child? (h : k.Sheds l) : l.child? slot = k.child? slot := by
  rcases h with rfl | ⟨-, rfl⟩
  · rfl
  · cases k <;> cases slot <;> rfl

/-- Neither does it change a slot. -/
theorem slots (h : k.Sheds l) : l.slots = k.slots := by
  rcases h with rfl | ⟨-, rfl⟩
  · rfl
  · cases k <;> rfl

/-- The shape stays the same. -/
theorem shape (h : k.Sheds l) : l.shape = k.shape := by
  rcases h with rfl | ⟨-, rfl⟩
  · rfl
  · cases k <;> rfl

/-- Both are variables or none is. -/
theorem isVar (h : k.Sheds l) : l.isVar = k.isVar := by
  rcases h with rfl | ⟨-, rfl⟩
  · rfl
  · cases k <;> rfl

end Sheds

namespace Widens

/-- Widening changes no child. -/
theorem child? (h : Widens k k') : k'.child? slot = k.child? slot := by
  cases h with
  | refl => rfl
  | base => cases slot <;> rfl

/-- Nil can be put in. -/
theorem orNil (h : Widens k k') : Widens k.orNil k'.orNil := by
  cases h with
  | refl => exact .refl _
  | base hkind hcovers =>
    exact .base (Flow.sameKind_orNil_of_sameKind hkind) (Flow.covers_orNil_of_covers hcovers)

/-- Wrappers are not widened. -/
theorem isNilable (h : Widens k k') : k'.isNilable = k.isNilable := by
  cases h <;> rfl

/-- What is known is not widened to a variable. -/
theorem ne_var (h : Widens k k') (hk : k ≠ .var) : k' ≠ .var := by
  cases h with
  | refl => exact hk
  | base => exact Kind.noConfusion

end Widens

private theorem baseFlow?_of_echoes {p : Flow} (h : k.Echoes dead (.base p)) : ∃ x, k = .base x := by
  have hshape := h.shape
  cases k <;> first | exact ⟨_, rfl⟩ | cases hshape

/-- What is enough for a class is so when it is widened. -/
theorem Echoes.widens (h : k.Echoes dead l) (hl : Widens l l') : k.Echoes dead l' := by
  cases hl with
  | refl => exact h
  | base hkind hcovers =>
    obtain ⟨x, rfl⟩ := baseFlow?_of_echoes h
    obtain ⟨hkind', hmeet⟩ := h.flows x _ rfl rfl
    refine .base ?_ (Flow.covers_trans (Flow.covers_iff.2 hmeet) hcovers)
    rwa [Flow.sameKind_congr hkind']

private theorem refinedKind?_orNil (k : Kind) : Unifier.refinedKind? k k.withoutNil.orNil = none ∧
    Unifier.refinedKind? k k.orNil = none := by
  cases k <;> simp [Unifier.refinedKind?, withoutNil, orNil]

/-- A copy with nil is enough for a class, be it a copy of all of it or of what is not nil. -/
theorem echoes_orNil (hk : k ≠ .base .any) (hl : k.Sheds l) (hsame : l.Same (fun _ => 0) l') :
    k.Echoes dead l'.orNil := by
  have hslots : ∀ l : Kind, l.orNil.shape = l.shape ∧ l.orNil.slots = l.slots := fun l => by
    cases l <;> exact ⟨rfl, rfl⟩
  have hrefine : Unifier.refinedKind? k l.orNil = none := by
    rcases hl with rfl | ⟨-, rfl⟩
    · exact (refinedKind?_orNil l).2
    · exact (refinedKind?_orNil k).1
  have hsame := hsame.orNil
  refine .of_slots (hsame.shape.trans ((hslots l).1.trans hl.shape))
    (hsame.slots.trans ((hslots l).2.trans hl.slots)) (fun x y hx hy => ?_) ?_
  · rw [hsame.baseFlow?] at hy
    obtain rfl := Kind.baseFlow?_eq_some.1 hx
    have hany : x ≠ .any := fun e => hk (e ▸ rfl)
    rcases hl with rfl | ⟨hnil, rfl⟩ <;> cases hy
    · exact ⟨Flow.sameKind_orNil_of_ne_any hany, Flow.covers_iff.1 (Flow.covers_orNil x)⟩
    · exact ⟨Flow.sameKind_orNil_withoutNil hnil, Flow.covers_iff.1 (Flow.covers_orNil_withoutNil x)⟩
  · have hnone := Same.refinedKind? (r := fun _ => 0) (rfl : Same _ k k) hsame
    rwa [hrefine, Option.isNone_none, Option.isNone_iff_eq_none] at hnone

end Kind

open Forest (Enters Standing Template Touched Twin Zone Zoned)

namespace Forest

variable {f g : Forest} {C : TermId → Prop} {t b c : TermId} {k : Kind}

/-- A term shows the same, or something wider, when a class joins another that is not met. -/
theorem Shows.enters (henters : Enters b c f g) (hb : ¬C b) (h : f.Shows C t k) :
    ∃ k', g.Shows C t k' ∧ k.Widens k' := by
  have hne : ∀ {x}, C (f.rep x) → f.rep x ≠ b := fun hx e => hb (e ▸ hx)
  have hrep : ∀ {x}, C (f.rep x) → g.rep x = f.rep x := fun hx => by
    rw [henters.rep, if_neg (hne hx)]
  have hkind : ∀ {x}, C (f.rep x) → (f.kind (f.rep x)).Widens (g.kind (g.rep x)) := fun {x} hx => by
    rw [hrep hx]
    rcases henters.kinds (f.rep x) (hne hx) with e | ⟨-, flow, hflow, hflow'⟩
    · rw [e]
      exact .refl _
    · rw [hflow, hflow']
      exact .base flow.sameKind_widen flow.covers_widen
  have hroot : ∀ {x}, C (f.rep x) → C (g.rep x) := fun hx => by rwa [hrep hx]
  have hexact : ∀ {x l}, C (f.rep x) → f.kind (f.rep x) = l → l.baseFlow? = none → g.kind (g.rep x) = l := by
    intro x l hx hl hbase
    have hwidens := hkind hx
    rw [hl] at hwidens
    generalize g.kind (g.rep x) = l' at hwidens
    cases hwidens with
    | refl => rfl
    | base => cases hbase
  induction h with
  | @known t k hC hk hnilable =>
    have hwidens := hkind hC
    rw [hk] at hwidens
    exact ⟨_, .known (hroot hC) rfl (hwidens.isNilable.trans hnilable), hwidens⟩
  | wrapper hC hk hC' hvar =>
    exact ⟨_, .wrapper (hroot hC) (hexact hC hk rfl) (hroot hC') (hexact hC' hvar rfl), .refl _⟩
  | wrapped hC hk _ hvar ih =>
    obtain ⟨k', hk', hwidens⟩ := ih
    exact ⟨_, .wrapped (hroot hC) (hexact hC hk rfl) hk' (hwidens.ne_var hvar), hwidens.orNil⟩

end Forest

namespace Unifier

variable {f : Forest} {d : TermId} {pinned : List TermId} {A : TermId → Prop} {zone zone' : TermId → Zone}
  {twins : Prop} {s u : Unifier} {a b c e x : TermId} {r : Bool}

/-- The term is an instance of a class of the definition: the image of a variable, an error, a twin if that is
allowed for, what takes nil in for a wrapper, or a term of the seat that shows as much, with instances of the
children. -/
inductive Seated (f : Forest) (zone : TermId → Zone) (s : Unifier) (twins : Prop) : TermId → TermId → Prop
  | image {a b c : TermId} (hvar : f.kind a = .var) (hc : s.image.lookup a = some c)
    (hrep : s.forest.rep c = s.forest.rep b) : Seated f zone s twins a b
  | dead {a b : TermId} (hvar : f.kind a ≠ .var) (hdead : s.forest.Dead b) : Seated f zone s twins a b
  | twin {a b : TermId} (htwins : twins) (h : Twin f (fun x c => zone c = .seat x) s.forest a b) :
    Seated f zone s twins a b
  | nilable {a b : TermId} (hnilable : (f.kind a).isNilable = true) (hb : s.forest.TakesNil b) :
    Seated f zone s twins a b
  | known {a b : TermId} {k : Kind} (hvar : f.kind a ≠ .var) (hk : s.forest.Shows (fun c => zone c = .seat a) b k)
    (hechoes : (f.kind a).Echoes s.forest.Dead k)
    (hchildren : ∀ slot x y, (f.kind a).child? slot = some x → k.child? slot = some y →
      Seated f zone s twins (f.rep x) y) : Seated f zone s twins a b

namespace Seated

/-- All terms of a class are instances, or none. -/
theorem of_rep (h : Seated f zone s twins a b) (hrep : s.forest.rep b = s.forest.rep c) :
    Seated f zone s twins a c := by
  cases h with
  | image hvar hc hrep' => exact .image hvar hc (hrep'.trans hrep)
  | dead hvar hdead =>
    rw [Forest.Dead, hrep] at hdead
    exact .dead hvar hdead
  | twin htwins h => exact .twin htwins (h.of_rep hrep)
  | nilable hnilable hb => exact .nilable hnilable (hb.of_rep hrep)
  | known hvar hk hechoes hchildren => exact .known hvar (hk.of_rep hrep) hechoes hchildren

/-- An instance without twins is one with twins. -/
theorem mono (h : Seated f zone s False a b) : Seated f zone s twins a b := by
  induction h with
  | image hvar hc hrep => exact .image hvar hc hrep
  | dead hvar hdead => exact .dead hvar hdead
  | twin htwins => exact htwins.elim
  | nilable hnilable hb => exact .nilable hnilable hb
  | known hvar hk hechoes _ ih => exact .known hvar hk hechoes ih

/-- Work elsewhere leaves instances alone. -/
theorem works (hs : Laid f d pinned zone s) (hworks : Works f d pinned A zone s zone' u) (ha : f.Reaches d a)
    (hA : ∀ x, f.Reaches a x → f.Single d x → ¬A x) (h : Seated f zone s twins a b) :
    Seated f zone' u twins a b := by
  have hshows : ∀ {x}, ¬A x → ∀ b k, s.forest.Shows (fun c => zone c = .seat x) b k →
      ∃ k', u.forest.Shows (fun c => zone' c = .seat x) b k' ∧ k.Same u.forest.rep k' := by
    intro x hx b k hk
    obtain ⟨k', hk', hsame⟩ := hworks.shows _ b k (fun c hc htouched => hx (by rwa [hc] at htouched)) hk
    exact ⟨k', hk'.mono fun c => hs.zone_of_works hworks, hsame⟩
  induction h with
  | image hvar hc hrep =>
    obtain ⟨c', hc', hrep'⟩ := hworks.image _ _ ha hvar hc
    exact .image hvar hc' (hrep'.trans (hworks.rep _ _ hrep))
  | dead hvar hdead => exact .dead hvar (hworks.dead _ hdead)
  | twin htwins h => exact .twin htwins (h.of_shows fun c hc => hshows (hA c hc (.of_known (h.ne_var hc))))
  | nilable hnilable hb => exact .nilable hnilable (hworks.nils _ hb)
  | @known a b k hvar hk hechoes _ ih =>
    obtain ⟨k', hk', hsame⟩ := hshows (hA a .refl (.of_known hvar)) b k hk
    refine .known hvar hk' (hechoes.of_same (fun y y' hyy hy => ?_) rfl hsame) fun slot x y hx hy => ?_
    · have hdead := hworks.dead y hy
      rwa [Forest.Dead, ← hyy] at hdead
    · obtain ⟨y', hy', hyy'⟩ := hsame.exists_child? hy
      have hreach := Relation.ReflTransGen.single (r := f.Edge) ⟨slot, x, hx, rfl⟩
      exact (ih slot x y' hx hy' (ha.trans hreach) fun z hz => hA z (hreach.trans hz)).of_rep hyy'.symm

/-- Instances without twins stay so when a class of another seat joins another class. -/
theorem enters (henters : Enters c e s.forest u.forest) (himage : u.image = s.image)
    (hdead : ∀ t, s.forest.Dead t → u.forest.Dead t) (hnils : ∀ t, s.forest.TakesNil t → u.forest.TakesNil t)
    (hc : ∀ x, f.Reaches a x → zone c ≠ .seat x) (h : Seated f zone s False a b) : Seated f zone u False a b := by
  induction h with
  | image hvar hc' hrep =>
    refine .image hvar (himage ▸ hc') ?_
    rw [henters.rep, henters.rep, hrep]
  | dead hvar hdead' => exact .dead hvar (hdead _ hdead')
  | twin htwins => exact htwins.elim
  | nilable hnilable hb => exact .nilable hnilable (hnils _ hb)
  | known hvar hk hechoes _ ih =>
    obtain ⟨k', hk', hwidens⟩ := hk.enters henters (hc _ .refl)
    refine .known hvar hk' ((hechoes.of_same (r := id) (fun y y' hyy hy => ?_) rfl rfl).widens hwidens)
      fun slot x y hx hy => ?_
    · obtain rfl : y' = y := hyy
      exact hdead _ hy
    · rw [hwidens.child?] at hy
      exact ih slot x y hx hy fun z hz => hc z (.head ⟨slot, x, hx, rfl⟩ hz)

end Seated

end Unifier

end TypeFlow
