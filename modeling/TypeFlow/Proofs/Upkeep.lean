import TypeFlow.Proofs.Reachability

/-!
# Tidying up and new terms

Looking classes up tidies a forest: links are shortened, slots remember representatives, and a
wrapper takes over the type that it wraps once that is known.  Copying a type makes new terms and
tidies up on its way.  Neither disturbs a class that was there before: its kind stays what it is,
but for child ids that are replaced by their representatives.

Main definitions:

- `Kind.Refreshed`: child ids were replaced by their representatives.
- `Forest.Calm`, `Forest.Disturbs`: a class is not what it was.
- `Forest.Upkeep`, `Forest.Upkeeps`, `Forest.Sprouts`: tidying up, and making new terms.

Main results:

- `Forest.Upkeep.steady`, `Forest.Upkeep.edge`, `Forest.Upkeep.refreshed`: tidying up keeps classes,
  adds no way between them and disturbs none.
- `Forest.Sprouts.edge`, `Forest.Sprouts.refreshed`: the same of new terms, as far as old ones go.
-/

namespace TypeFlow

/-! ## Refreshed kinds -/

/-- The second kind is the first with child ids replaced by their representatives. -/
def Kind.Refreshed (k : Kind) (rep : TermId → TermId) (k' : Kind) : Prop :=
  Relation.ReflTransGen
    (fun k k' => ∃ slot x, k.child? slot = some x ∧ k' = k.setChild slot (rep x)) k k'

namespace Kind.Refreshed

variable {k k' k'' : Kind} {r r' : TermId → TermId}

/-- Every child is a former child or the representative of one. -/
theorem child? (hr : ∀ x, r (r x) = r x) (h : k.Refreshed r k') {slot : Slot} {y : TermId}
    (hy : k'.child? slot = some y) : ∃ x, k.child? slot = some x ∧ (y = x ∨ y = r x) := by
  induction h generalizing y with
  | refl => exact ⟨y, hy, Or.inl rfl⟩
  | tail _ hstep ih =>
    obtain ⟨slot', z, hz, rfl⟩ := hstep
    rw [child?_setChild hz] at hy
    split at hy
    · rename_i e
      subst e
      obtain ⟨x, hx, hzx⟩ := ih hz
      refine ⟨x, hx, Or.inr ?_⟩
      rw [← Option.some.inj hy]
      rcases hzx with rfl | rfl
      · rfl
      · exact hr x
    · exact ih hy

/-- A kind that is refreshed is a link still, or none. -/
theorem isLink (h : k.Refreshed r k') : k'.isLink = k.isLink := by
  induction h with
  | refl => rfl
  | tail _ hstep ih =>
    obtain ⟨slot, x, -, rfl⟩ := hstep
    rw [isLink_setChild, ih]

/-- It is a variable still, or none. -/
theorem eq_var (h : k.Refreshed r k') : k' = .var ↔ k = .var := by
  induction h with
  | refl => rfl
  | tail _ hstep ih =>
    obtain ⟨slot, x, -, rfl⟩ := hstep
    rw [setChild_eq_var, ih]

/-- It keeps its shape. -/
theorem shape (h : k.Refreshed r k') : k'.shape = k.shape := by
  induction h with
  | refl => rfl
  | tail _ hstep ih =>
    obtain ⟨slot, x, -, rfl⟩ := hstep
    rw [shape_setChild, ih]

/-- It is an error still, or none. -/
theorem isError (h : k.Refreshed r k') : k'.isError = k.isError := by
  have hshape : ∀ k : Kind, k.isError = true ↔ k.shape = .error := fun k => by
    cases k <;> simp [Kind.isError, Kind.shape]
  rw [Bool.eq_iff_iff, hshape, hshape, h.shape]

/-- The same slots are occupied as before. -/
theorem isSome_child? (h : k.Refreshed r k') (slot : Slot) :
    (k'.child? slot).isSome = (k.child? slot).isSome := by
  induction h with
  | refl => rfl
  | tail _ hstep ih =>
    obtain ⟨slot', x, hx, rfl⟩ := hstep
    rw [child?_setChild hx]
    split
    · rename_i e
      rw [← ih, ← e, hx]
      rfl
    · exact ih

/-- A wrapper was one before. -/
theorem nilable (hr : ∀ x, r (r x) = r x) {y : TermId} (h : k.Refreshed r (.nilable y)) :
    ∃ x, k = .nilable x ∧ (y = x ∨ y = r x) := by
  have hinner : (Kind.nilable y).child? .inner = some y := rfl
  obtain ⟨x, hx, hy⟩ := h.child? hr hinner
  refine ⟨x, ?_, hy⟩
  cases k with
  | nilable z =>
    cases hx
    rfl
  | _ => cases hx

/-- A wrapper stays one of the same class. -/
theorem wraps (hr : ∀ x, r (r x) = r x) {x : TermId} (h : (Kind.nilable x).Refreshed r k') :
    ∃ y, k' = .nilable y ∧ r y = r x := by
  induction h with
  | refl => exact ⟨x, rfl, rfl⟩
  | tail _ hstep ih =>
    obtain ⟨y, rfl, hy⟩ := ih
    obtain ⟨slot, z, hz, rfl⟩ := hstep
    cases slot with
    | inner =>
      cases hz
      exact ⟨r y, rfl, by rw [hr, hy]⟩
    | _ => cases hz

/-- Children may be replaced in turn by representatives in two forests that agree on them. -/
theorem trans (hr : ∀ x, r (r x) = r x) (h : k.Refreshed r k') (h' : k'.Refreshed r' k'')
    (hagree : ∀ slot x, k.child? slot = some x → r' x = r x ∧ r' (r x) = r x) :
    k.Refreshed r k'' := by
  induction h' with
  | refl => exact h
  | tail _ hstep ih =>
    obtain ⟨slot, y, hy, rfl⟩ := hstep
    refine Relation.ReflTransGen.tail ih ⟨slot, y, hy, ?_⟩
    obtain ⟨x, hx, hyx⟩ := child? hr ih hy
    obtain ⟨hrx, hrrx⟩ := hagree slot x hx
    rcases hyx with rfl | rfl
    · rw [hrx]
    · rw [hrrx, hr]

end Kind.Refreshed

namespace Forest

/-! ## Disturbed classes -/

/-- The term is a class of its own, and if it is a wrapper it wraps a variable. -/
structure Calm (f : Forest) (c : TermId) : Prop where
  root : (f.kind c).isLink = false
  wraps : ∀ inner, f.kind c = .nilable inner → f.kind (f.rep inner) = .var

/-- A class wraps what it did where kinds and classes are the same. -/
theorem Calm.of_kinds {f g : Forest} {c : TermId} (h : f.Calm c) (hkind : ∀ t, g.kind t = f.kind t)
    (hrep : ∀ t, g.rep t = f.rep t) : g.Calm c := by
  refine ⟨by rw [hkind, h.root], fun inner hinner => ?_⟩
  rw [hkind] at hinner
  rw [hrep, hkind, h.wraps inner hinner]

/-- The class stops being one, or its kind becomes another otherwise than by looking up its
children.  A wrapper of a known type does not count: what it stands for is no other type when it
takes that type over. -/
def Disturbs (f g : Forest) (c : TermId) : Prop :=
  f.Calm c ∧ ¬(f.kind c).Refreshed f.rep (g.kind c)

/-- What has the kind that it had is not disturbed. -/
theorem not_disturbs_of_kind {f g : Forest} {c : TermId} (h : g.kind c = f.kind c) :
    ¬f.Disturbs g c := by
  rintro ⟨-, hkind⟩
  rw [h] at hkind
  exact hkind .refl

/-- Calm classes are calm in a later forest in which they and what they wrap are refreshed. -/
theorem Calm.of_refreshed {f g : Forest} {c : TermId} (hf : f.Rooted) (h : f.Calm c)
    (hc : (f.kind c).Refreshed f.rep (g.kind c))
    (hwraps : ∀ inner, f.kind c = .nilable inner →
      g.kind (f.rep inner) = .var ∧ g.rep inner = f.rep inner ∧
        g.rep (f.rep inner) = f.rep inner) : g.Calm c where
  root := by rw [hc.isLink, h.root]
  wraps y hy := by
    rw [hy] at hc
    obtain ⟨x, hx, hyx⟩ := hc.nilable (rep_rep hf)
    obtain ⟨hvar, hrep, hrep'⟩ := hwraps x hx
    rcases hyx with rfl | rfl
    · rw [hrep, hvar]
    · rw [hrep', hvar]

/-! ## Tidying up -/

/-- The kind of a wrapper that was looked up, given what it wraps. -/
def absorbedKind (inner : TermId) : Kind → Kind
  | .var => .nilable inner
  | k => k.orNil

/-- Absorbing what a wrapper wraps changes the wrapper only. -/
theorem kind_absorb {f : Forest} {w inner : TermId} (h : (f.kind inner).isLink = false)
    (t : TermId) : (f.absorb w inner).kind t =
      if w = t ∧ w < f.size then absorbedKind inner (f.kind inner) else f.kind t := by
  unfold absorb
  split
  · rename_i hinner
    rw [hinner, kind_setKind]
    rfl
  · rename_i u hinner
    rw [hinner] at h
    cases h
  · rename_i hvar hlink
    rw [kind_addDeps, kind_setKind]
    cases hk : f.kind inner with
    | var => exact absurd hk hvar
    | _ => rfl

private theorem absorbedKind_ne_var (inner : TermId) (k : Kind) : absorbedKind inner k ≠ .var := by
  cases k <;> exact Kind.noConfusion

/-- A wrapper of what is known takes its kind, with nil. -/
theorem absorbedKind_eq_orNil {k : Kind} (inner : TermId) (h : k ≠ .var) :
    absorbedKind inner k = k.orNil := by
  cases k <;> first | rfl | exact absurd rfl h

/-- A wrapper becomes no link. -/
theorem isLink_absorbedKind {inner : TermId} {k : Kind} (h : k.isLink = false) :
    (absorbedKind inner k).isLink = false := by
  cases k <;> first | rfl | cases h

/-- A wrapper leads to what it wraps or to the children of that. -/
theorem mem_children_absorbedKind {inner x : TermId} {k : Kind}
    (h : x ∈ (absorbedKind inner k).children) : x = inner ∨ x ∈ k.children := by
  cases k with
  | var => exact Or.inl (List.mem_singleton.1 h)
  | _ => exact Or.inr h

/-- Absorbing makes no term. -/
theorem size_absorb (f : Forest) (w inner : TermId) : (f.absorb w inner).size = f.size := by
  unfold absorb
  split
  · exact size_setKind _ _ _
  · rfl
  · rw [size_addDeps, size_setKind]

private theorem unions_absorb (f : Forest) (w inner : TermId) : (f.absorb w inner).unions = f.unions := by
  unfold absorb
  split
  · rfl
  · rfl
  · rw [unions_addDeps]
    rfl

/-- Absorbing marks no input. -/
theorem isInput_absorb (f : Forest) (w inner t : TermId) :
    (f.absorb w inner).isInput t = f.isInput t := by
  unfold absorb
  split
  · exact isInput_setKind _ _ _ _
  · rfl
  · rw [isInput_addDeps, isInput_setKind]

private theorem deps_absorb {f : Forest} {w inner t : TermId} {n : NodeId} (hn : n ∈ f.deps t) :
    n ∈ (f.absorb w inner).deps t := by
  unfold absorb
  split
  · rw [deps_setKind]
    exact hn
  · exact hn
  · refine mem_deps_addDeps.2 (Or.inl ?_)
    rw [deps_setKind]
    exact hn

/-- Setting a child moves no term to another class. -/
theorem setChild_steady {f : Forest} (hf : f.Rooted) (t : TermId) (slot : Slot) (child : TermId) :
    Steady f (f.setChild t slot child) := by
  apply steady_of_links hf (size_setChild _ _ _ _).ge
  · intro x u hu
    rw [kind_setChild] at hu
    split at hu
    · exact Or.inl (Kind.setChild_eq_link.1 hu)
    · exact Or.inl hu
  · intro x
    rw [kind_setChild]
    split
    · exact Kind.isLink_setChild _ _ _
    · rfl
  · intro x hx
    rw [kind_setChild] at hx
    split at hx
    · exact Kind.setChild_eq_var.1 hx
    · exact hx
  · intro x n hn
    rw [deps_setChild]
    exact hn

/-- Looking classes up shortens links, remembers the representatives of children, and lets a wrapper
take over the type it wraps. -/
inductive Upkeep (f : Forest) : Forest → Prop
  | shorten {t u : TermId} (h : f.kind t = .link u) : Upkeep f (f.setKind t (.link (f.rep t)))
  | remember {t x : TermId} {slot : Slot} (h : (f.kind t).child? slot = some x) :
    Upkeep f (f.setChild t slot (f.rep x))
  | absorb {w inner : TermId} (h : f.kind w = .nilable inner) : Upkeep f (f.absorb w (f.rep inner))

namespace Upkeep

variable {f g : Forest}

private theorem size (h : f.Upkeep g) : g.size = f.size := by
  cases h with
  | shorten h => exact size_setKind _ _ _
  | remember h => exact size_setChild _ _ _ _
  | absorb h => exact size_absorb _ _ _

private theorem unions (h : f.Upkeep g) : g.unions = f.unions := by
  cases h with
  | shorten h => rfl
  | remember h => rfl
  | absorb h => exact unions_absorb _ _ _

/-- Tidying a term up marks no input. -/
theorem isInput (h : f.Upkeep g) (t : TermId) : g.isInput t = f.isInput t := by
  cases h with
  | shorten h => exact isInput_setKind _ _ _ _
  | remember h => exact isInput_setChild _ _ _ _ _
  | absorb h => exact isInput_absorb _ _ _ _

/-- It moves no term to another class. -/
theorem steady (hf : f.Rooted) (h : f.Upkeep g) : Steady f g := by
  cases h with
  | @shorten t u h =>
    have hkind : ∀ x, (f.setKind t (.link (f.rep t))).kind x =
        if t = x then .link (f.rep t) else f.kind x := by
      intro x
      have ht : t < f.size := lt_size_of_kind (by rw [h]; exact Kind.noConfusion)
      rw [kind_setKind]
      simp only [ht, and_true]
    apply steady_of_links hf (size_setKind _ _ _).ge
    · intro x y hy
      rw [hkind] at hy
      split at hy
      · rename_i e
        subst e
        cases hy
        exact Or.inr ⟨by rw [h]; rfl, rfl⟩
      · exact Or.inl hy
    · intro x
      rw [hkind]
      split
      · rename_i e
        rw [← e, h]
        rfl
      · rfl
    · intro x hx
      rw [hkind] at hx
      split at hx
      · cases hx
      · exact hx
    · intro x n hn
      rw [deps_setKind]
      exact hn
  | remember h => exact setChild_steady hf _ _ _
  | @absorb w inner h =>
    have hinner := not_isLink_rep hf inner
    apply steady_of_kinds hf (size_absorb _ _ _).ge
    · intro y
      rw [kind_absorb hinner]
      split
      · rename_i e
        rw [← e.1, h]
        exact Or.inr ⟨rfl, isLink_absorbedKind hinner, fun hvar => absurd hvar (absorbedKind_ne_var _ _)⟩
      · exact Or.inl rfl
    · intro y n hn
      exact deps_absorb hn

/-- It keeps the forest sound. -/
theorem sound (hf : f.Sound) (h : f.Upkeep g) : g.Sound := by
  refine hf.of_steady (h.steady hf.rooted) h.size h.unions ?_
  intro y z hz
  cases h with
  | @shorten t u h =>
    rw [kind_setKind] at hz
    split at hz
    · rw [List.mem_singleton.1 hz]
      exact rep_lt_size hf.rooted (lt_size_of_kind (by rw [h]; exact Kind.noConfusion))
    · exact hf.inRange y z hz
  | @remember t x slot h =>
    rw [kind_setChild] at hz
    split at hz
    · rcases Kind.mem_children_setChild hz with rfl | hz
      · exact rep_lt_size hf.rooted (hf.child_lt h)
      · exact hf.inRange y z hz
    · exact hf.inRange y z hz
  | @absorb w inner h =>
    rw [kind_absorb (not_isLink_rep hf.rooted inner)] at hz
    split at hz
    · rcases mem_children_absorbedKind hz with rfl | hz
      · exact rep_lt_size hf.rooted (hf.inRange w inner (by rw [h]; exact List.mem_singleton_self _))
      · exact hf.inRange _ z hz
    · exact hf.inRange y z hz

/-- Tidying up adds no way between classes. -/
theorem edge (hf : f.Rooted) (h : f.Upkeep g) {a b : TermId} (he : g.Edge a b) :
    f.Reaches a b := by
  have hs := h.steady hf
  have ha : (f.kind a).isLink = false := by rw [← hs.isLink, he.isLink]
  obtain ⟨slot', z, hz, rfl⟩ := he
  rw [hs.rep]
  have hself : g.kind a = f.kind a → f.Reaches a (f.rep z) := by
    intro e
    rw [e] at hz
    exact .single ⟨slot', z, hz, rfl⟩
  cases h with
  | @shorten t u h =>
    apply hself
    rw [kind_setKind, if_neg]
    rintro ⟨rfl, -⟩
    rw [h] at ha
    cases ha
  | @remember t x slot h =>
    by_cases e : t = a
    · subst e
      rw [kind_setChild, if_pos rfl] at hz
      rcases Kind.mem_children_setChild (Kind.mem_children_of_child? hz) with rfl | hz
      · exact .single ⟨slot, x, h, (rep_rep hf x).symm⟩
      · exact .single ((edge_iff ha).2 ⟨z, hz, rfl⟩)
    · apply hself
      rw [kind_setChild, if_neg e]
  | @absorb w inner h =>
    have hinner := not_isLink_rep hf inner
    by_cases e : w = a ∧ w < f.size
    · rw [kind_absorb hinner, if_pos e] at hz
      have hfirst : f.Edge a (f.rep inner) := ⟨.inner, inner, by rw [← e.1, h]; rfl, rfl⟩
      rcases mem_children_absorbedKind (Kind.mem_children_of_child? hz) with rfl | hz
      · rw [rep_rep hf]
        exact .single hfirst
      · exact .tail (.single hfirst) ((edge_iff hinner).2 ⟨z, hz, rfl⟩)
    · apply hself
      rw [kind_absorb hinner, if_neg e]

/-- Tidying up refreshes calm classes. -/
theorem refreshed (hf : f.Rooted) (h : f.Upkeep g) {c : TermId} (hc : f.Calm c) :
    (f.kind c).Refreshed f.rep (g.kind c) := by
  cases h with
  | @shorten t u h =>
    rw [kind_setKind, if_neg]
    · exact .refl
    · rintro ⟨rfl, -⟩
      have := hc.root
      rw [h] at this
      cases this
  | @remember t x slot h =>
    rw [kind_setChild]
    split
    · rename_i e
      subst e
      exact .single ⟨slot, x, h, rfl⟩
    · exact .refl
  | @absorb w inner h =>
    rw [kind_absorb (not_isLink_rep hf inner)]
    split
    · rename_i e
      obtain ⟨rfl, -⟩ := e
      rw [h, hc.wraps inner h]
      exact .single ⟨.inner, inner, rfl, rfl⟩
    · exact .refl

end Upkeep

/-- Tidying up any number of times. -/
def Upkeeps (f : Forest) : Forest → Prop := Relation.ReflTransGen Upkeep f

namespace Upkeeps

variable {f g : Forest}

/-- Tidying up moves no term to another class. -/
theorem steady (hf : f.Rooted) (h : f.Upkeeps g) : Steady f g := by
  induction h with
  | refl => exact .refl hf
  | tail _ hstep ih => exact ih.trans (hstep.steady ih.rooted)

/-- It keeps the forest sound. -/
theorem sound (hf : f.Sound) (h : f.Upkeeps g) : g.Sound := by
  induction h with
  | refl => exact hf
  | tail _ hstep ih => exact hstep.sound ih

/-- It makes no term. -/
theorem size (h : f.Upkeeps g) : g.size = f.size := by
  induction h with
  | refl => rfl
  | tail _ hstep ih => rw [hstep.size, ih]

/-- It counts no union. -/
theorem unions (h : f.Upkeeps g) : g.unions = f.unions := by
  induction h with
  | refl => rfl
  | tail _ hstep ih => rw [hstep.unions, ih]

/-- It marks no input. -/
theorem isInput (h : f.Upkeeps g) (t : TermId) : g.isInput t = f.isInput t := by
  induction h with
  | refl => rfl
  | tail _ hstep ih => rw [hstep.isInput, ih]

/-- Tidying up refreshes calm classes, and they stay calm. -/
theorem calm (hf : f.Rooted) (h : f.Upkeeps g) {c : TermId} (hc : f.Calm c) :
    (f.kind c).Refreshed f.rep (g.kind c) ∧ g.Calm c := by
  induction h generalizing c with
  | refl => exact ⟨.refl, hc⟩
  | @tail g g' hg hstep ih =>
    have hs := steady hf hg
    have hs' := hs.trans (hstep.steady hs.rooted)
    have hagree : ∀ x, g.rep x = f.rep x ∧ g.rep (f.rep x) = f.rep x := fun x => by
      rw [hs.rep, hs.rep, rep_rep hf]
      exact ⟨rfl, rfl⟩
    obtain ⟨hrefreshed, hcalm⟩ := ih hc
    have hboth := hrefreshed.trans (rep_rep hf) (hstep.refreshed hs.rooted hcalm)
      fun _ x _ => hagree x
    refine ⟨hboth, hc.of_refreshed hf hboth fun inner hinner => ?_⟩
    have hvar := hc.wraps inner hinner
    obtain ⟨hinner', hcalm'⟩ := ih (c := f.rep inner)
      ⟨by rw [hvar]; rfl, fun x hx => by rw [hvar] at hx; cases hx⟩
    refine ⟨(hstep.refreshed hs.rooted hcalm').eq_var.2 (hinner'.eq_var.2 hvar), ?_⟩
    rw [hs'.rep, hs'.rep, rep_rep hf]
    exact ⟨rfl, rfl⟩

end Upkeeps

/-! ## New terms -/

/-- A change of the terms from a position on: tidying up, a new term, or a new child of such a
term. -/
inductive Sprout (base : Nat) (f : Forest) : Forest → Prop
  | upkeep {g : Forest} (h : f.Upkeep g) : Sprout base f g
  | add {term : Term} (hlink : term.kind.isLink = false)
      (hrange : ∀ x ∈ term.kind.children, x < f.size) : Sprout base f (f.add term).2
  | graft {c child : TermId} {slot : Slot} (hc : base ≤ c) (hchild : child < f.size) :
    Sprout base f (f.setChild c slot child)

/-- New terms are made, out of each other and of old ones. -/
def Sprouts (f : Forest) : Forest → Prop := Relation.ReflTransGen (Sprout f.size) f

/-- Setting a child to a term of the forest keeps it sound. -/
theorem setChild_sound {f : Forest} (hf : f.Sound) (t : TermId) (slot : Slot) {child : TermId}
    (hchild : child < f.size) : (f.setChild t slot child).Sound := by
  refine hf.of_steady (setChild_steady hf.rooted t slot child) (size_setChild _ _ _ _) rfl ?_
  intro x y hy
  rw [kind_setChild] at hy
  split at hy
  · rcases Kind.mem_children_setChild hy with rfl | hy
    · exact hchild
    · exact hf.inRange x y hy
  · exact hf.inRange x y hy

namespace Sprout

variable {base : Nat} {f g : Forest}

/-- A new term moves none to another class. -/
theorem steady (hf : f.Rooted) (h : Sprout base f g) : Steady f g := by
  cases h with
  | upkeep h => exact h.steady hf
  | add hlink hrange => exact steady_add hf hlink
  | graft hc hchild => exact setChild_steady hf _ _ _

/-- It keeps the forest sound. -/
theorem sound (hf : f.Sound) (h : Sprout base f g) : g.Sound := by
  cases h with
  | upkeep h => exact h.sound hf
  | add hlink hrange => exact hf.add hlink hrange
  | graft hc hchild => exact setChild_sound hf _ _ hchild

/-- Apart from tidying up, old terms keep their kinds. -/
theorem kind_eq (hbase : base ≤ f.size) (h : Sprout base f g) {t : TermId} (ht : t < base) :
    f.Upkeep g ∨ g.kind t = f.kind t := by
  cases h with
  | upkeep h => exact Or.inl h
  | add hlink hrange =>
    rw [kind_add, if_neg (Nat.ne_of_lt (Nat.lt_of_lt_of_le ht hbase))]
    exact Or.inr rfl
  | graft hc hchild =>
    rw [kind_setChild, if_neg (Nat.ne_of_gt (Nat.lt_of_lt_of_le ht hc))]
    exact Or.inr rfl

end Sprout

namespace Sprouts

variable {f g : Forest}

/-- New terms keep the forest sound and move none to another class. -/
theorem sound_steady (hf : f.Sound) (h : f.Sprouts g) : g.Sound ∧ Steady f g := by
  induction h with
  | refl => exact ⟨hf, .refl hf.rooted⟩
  | tail _ hstep ih => exact ⟨hstep.sound ih.1, ih.2.trans (hstep.steady ih.1.rooted)⟩

/-- New terms add no way between old classes. -/
theorem edge (hf : f.Sound) (h : f.Sprouts g) {a b : TermId} (ha : a < f.size)
    (hab : g.Edge a b) : f.Reaches a b := by
  induction h generalizing a b with
  | refl => exact .single hab
  | @tail g g' hg hstep ih =>
    obtain ⟨hsound, hsteady⟩ := sound_steady hf hg
    have hold : ∀ {b}, g.Reaches a b → f.Reaches a b := by
      intro b hreach
      induction hreach with
      | refl => exact .refl
      | tail _ he ihr => exact ihr.trans (ih (ihr.lt_size hf ha) he)
    rcases hstep.kind_eq hsteady.size ha with hup | hkind
    · exact hold (hup.edge hsound.rooted hab)
    · obtain ⟨slot, x, hx, rfl⟩ := hab
      rw [hkind] at hx
      exact hold (.single ⟨slot, x, hx, ((hstep.steady hsound.rooted).rep x).symm⟩)

/-- New terms leave old calm classes refreshed at most. -/
theorem refreshed (hf : f.Sound) (h : f.Sprouts g) {c : TermId} (hc : c < f.size)
    (hcalm : f.Calm c) : (f.kind c).Refreshed f.rep (g.kind c) := by
  induction h generalizing c with
  | refl => exact .refl
  | @tail g g' hg hstep ih =>
    obtain ⟨hsound, hsteady⟩ := sound_steady hf hg
    have hrefreshed := ih hc hcalm
    have hlt : ∀ {slot x}, (f.kind c).child? slot = some x → f.rep x < f.size := fun hx =>
      rep_lt_size hf.rooted (hf.child_lt hx)
    have hagree : ∀ slot x, (f.kind c).child? slot = some x →
        g.rep x = f.rep x ∧ g.rep (f.rep x) = f.rep x := by
      intro slot x _
      rw [hsteady.rep, hsteady.rep, rep_rep hf.rooted]
      exact ⟨rfl, rfl⟩
    have hcalm' : g.Calm c := by
      refine hcalm.of_refreshed hf.rooted hrefreshed fun inner hinner => ?_
      have hslot : (f.kind c).child? .inner = some inner := by rw [hinner]; rfl
      have hvar := hcalm.wraps inner hinner
      refine ⟨(ih (hlt hslot) ⟨by rw [hvar]; rfl, fun x hx => ?_⟩).eq_var.2 hvar, hagree _ _ hslot⟩
      rw [hvar] at hx
      cases hx
    rcases hstep.kind_eq hsteady.size hc with hup | hkind
    · exact hrefreshed.trans (rep_rep hf.rooted) (hup.refreshed hsound.rooted hcalm') hagree
    · rw [hkind]
      exact hrefreshed

end Sprouts

end Forest

end TypeFlow
