import TypeFlow.Proofs.EndingUnifications
import TypeFlow.Proofs.Faithfulness
import TypeFlow.Proofs.Fences

/-!
# Look-ups and unifications made again

A computation that changed nothing has only looked classes up.  When it is made again it sees the same: links
are shorter, slots hold representatives and wrappers have taken over what they wrap, but every look-up
answers what it answered before.

Main definitions:

- `Kind.Same`: two kinds agree up to children of the same classes.
- `Forest.Recurs`: a look-up has its result again in tidier forests.
- `Unifier.Recurs`: a computation that changed nothing has its result again after it.
-/

namespace TypeFlow

namespace Fields

variable {α β : Type} {bound : Option String}

@[simp] theorem labels_map (r : String → α → β) (fields : Fields α bound) :
    (fields.map r).labels = fields.labels := by
  induction fields with
  | nil => rfl
  | cons l h v rest ih => rw [map, labels, labels, ih]

@[simp] theorem values_map (r : α → β) (fields : Fields α bound) :
    (fields.map fun _ => r).values = fields.values.map r := by
  induction fields with
  | nil => rfl
  | cons l h v rest ih => rw [map, values, values, List.map_cons, ih]

end Fields

namespace Kind

variable {k k' : Kind} {r r' : TermId → TermId}

/-! ## Kinds up to their children -/

private theorem child?_mapChildren (k : Kind) (r : TermId → TermId) (slot : Slot) :
    (k.mapChildren r).child? slot = (k.child? slot).map r := by
  cases k <;> cases slot <;> simp [mapChildren, child?, Fields.find?_map]

private theorem slots_mapChildren (k : Kind) (r : TermId → TermId) : (k.mapChildren r).slots = k.slots := by
  cases k <;> simp [mapChildren, slots]

private theorem labels_mapChildren (k : Kind) (r : TermId → TermId) :
    (k.mapChildren r).labels = k.labels := by
  cases k <;> simp [mapChildren, labels]

private theorem children_mapChildren (k : Kind) (r : TermId → TermId) :
    (k.mapChildren r).children = k.children.map r := by
  cases k <;> simp [mapChildren, children]

private theorem shape_mapChildren (k : Kind) (r : TermId → TermId) : (k.mapChildren r).shape = k.shape := by
  cases k <;> simp [mapChildren, shape]

private theorem isOpen_mapChildren (k : Kind) (r : TermId → TermId) :
    (k.mapChildren r).isOpen = k.isOpen := by
  cases k <;> rfl

private theorem mayNil_mapChildren (k : Kind) (r : TermId → TermId) :
    (k.mapChildren r).mayNil = k.mayNil := by
  cases k <;> rfl

private theorem baseFlow?_mapChildren (k : Kind) (r : TermId → TermId) :
    (k.mapChildren r).baseFlow? = k.baseFlow? := by
  cases k <;> rfl

private theorem isVar_mapChildren (k : Kind) (r : TermId → TermId) : (k.mapChildren r).isVar = k.isVar := by
  cases k <;> rfl

private theorem isNilable_mapChildren (k : Kind) (r : TermId → TermId) :
    (k.mapChildren r).isNilable = k.isNilable := by
  cases k <;> rfl

private theorem isFunction_mapChildren (k : Kind) (r : TermId → TermId) :
    (k.mapChildren r).isFunction = k.isFunction := by
  cases k <;> rfl

private theorem isRecord_mapChildren (k : Kind) (r : TermId → TermId) :
    (k.mapChildren r).isRecord = k.isRecord := by
  cases k <;> rfl

private theorem sameNode_mapChildren (k k' : Kind) (r : TermId → TermId) :
    Forest.sameNode (k.mapChildren r) (k'.mapChildren r) = Forest.sameNode k k' := by
  cases k <;> cases k' <;> simp [mapChildren, Forest.sameNode]

private theorem refinedKind?_mapChildren (k k' : Kind) (r : TermId → TermId) :
    (Unifier.refinedKind? (k.mapChildren r) (k'.mapChildren r)).isNone =
      (Unifier.refinedKind? k k').isNone := by
  cases k <;> cases k' <;> simp only [mapChildren, Unifier.refinedKind?] <;> split <;> rfl

/-- Nil changes no child. -/
theorem child?_orNil (k : Kind) (slot : Slot) : k.orNil.child? slot = k.child? slot := by
  cases k <;> cases slot <;> rfl

/-- The kinds are the same, up to children that are given by other terms of their classes. -/
def Same (r : TermId → TermId) (k k' : Kind) : Prop := k'.mapChildren r = k.mapChildren r

/-- Replacing children by their representatives leaves the same kind. -/
theorem Refreshed.same (hr : ∀ x, r (r x) = r x) (h : k.Refreshed r k') : Same r k k' := by
  induction h with
  | refl => rfl
  | tail _ hstep ih =>
    obtain ⟨slot, x, hx, rfl⟩ := hstep
    exact (mapChildren_setChild hx (hr x)).trans ih

namespace Same

/-- What is the same in turn is the same. -/
theorem trans {k'' : Kind} (h : Same r k k') (h' : Same r k' k'') : Same r k k'' := Eq.trans h' h

/-- What only says something of the children up to what they are taken to says the same. -/
theorem reads {β : Type} {read : Kind → β} (h : Same r k k')
    (hread : ∀ k : Kind, read (k.mapChildren r) = read k) : read k' = read k := by
  rw [← hread k', h, hread]

/-- Kinds that are the same have the same slots. -/
theorem slots (h : Same r k k') : k'.slots = k.slots := h.reads fun k => slots_mapChildren k r

/-- They have the same labels. -/
theorem labels (h : Same r k k') : k'.labels = k.labels := h.reads fun k => labels_mapChildren k r

/-- They have the same shape. -/
theorem shape (h : Same r k k') : k'.shape = k.shape := h.reads fun k => shape_mapChildren k r

/-- Both are open or none is. -/
theorem isOpen (h : Same r k k') : k'.isOpen = k.isOpen := h.reads fun k => isOpen_mapChildren k r

/-- Both may be nil or none may. -/
theorem mayNil (h : Same r k k') : k'.mayNil = k.mayNil := h.reads fun k => mayNil_mapChildren k r

/-- They have the same flow if they are bases. -/
theorem baseFlow? (h : Same r k k') : k'.baseFlow? = k.baseFlow? :=
  h.reads fun k => baseFlow?_mapChildren k r

/-- Both are variables or none is. -/
theorem isVar (h : Same r k k') : k'.isVar = k.isVar := h.reads fun k => isVar_mapChildren k r

/-- Both are wrappers or none is. -/
theorem isNilable (h : Same r k k') : k'.isNilable = k.isNilable :=
  h.reads fun k => isNilable_mapChildren k r

/-- Both are functions or none is. -/
theorem isFunction (h : Same r k k') : k'.isFunction = k.isFunction :=
  h.reads fun k => isFunction_mapChildren k r

/-- Both are records or none is. -/
theorem isRecord (h : Same r k k') : k'.isRecord = k.isRecord :=
  h.reads fun k => isRecord_mapChildren k r

/-- Both are errors or none is. -/
theorem isError (h : Same r k k') : k'.isError = k.isError := h.reads fun k => isError_mapChildren k r

private theorem children (h : Same r k k') : k'.children.map r = k.children.map r := by
  rw [← children_mapChildren, h, children_mapChildren]

/-- They have children of the same classes. -/
theorem child? (h : Same r k k') (slot : Slot) :
    (k'.child? slot).map r = (k.child? slot).map r := by
  rw [← child?_mapChildren, h, child?_mapChildren]

/-- A child of one is in the other a child of the same class. -/
theorem exists_child? (h : Same r k k') {slot : Slot} {x : TermId} (hx : k'.child? slot = some x) :
    ∃ y, k.child? slot = some y ∧ r x = r y := by
  have hchild := h.child? slot
  rw [hx, Option.map_some, eq_comm, Option.map_eq_some_iff] at hchild
  obtain ⟨y, hy, hxy⟩ := hchild
  exact ⟨y, hy, hxy.symm⟩

/-- What is no child of one is none of the other. -/
theorem child?_eq_none (h : Same r k k') {slot : Slot} : k'.child? slot = none ↔ k.child? slot = none := by
  rw [← Option.map_eq_none_iff (f := r), h.child? slot, Option.map_eq_none_iff]

/-- They agree with the same kinds apart from their children. -/
theorem sameNode {l l' : Kind} (h : Same r k k') (hl : Same r l l') :
    Forest.sameNode k' l' = Forest.sameNode k l := by
  rw [← sameNode_mapChildren k' l' r, h, hl, sameNode_mapChildren]

/-- They have the same to hand on, if anything. -/
theorem refinedKind? {l l' : Kind} (h : Same r k k') (hl : Same r l l') :
    (Unifier.refinedKind? k' l').isNone = (Unifier.refinedKind? k l).isNone := by
  rw [← refinedKind?_mapChildren k' l' r, h, hl, refinedKind?_mapChildren]

end Same

end Kind

namespace Forest

variable {α β : Type} {f g : Forest}

/-! ## Looking up again -/

/-- A class that wraps a variable at most is the same after tidying up. -/
theorem Upkeeps.same (hf : f.Rooted) (h : f.Upkeeps g) {c : TermId} (hc : f.Calm c) :
    (f.kind c).Same f.rep (g.kind c) :=
  (h.calm hf hc).1.same (rep_rep hf)

/-- A class that wraps a variable at most comes to an end. -/
theorem Calm.ends {t : TermId} (h : f.Calm (f.rep t)) : f.Ends t := by
  refine .intro fun inner hinner => .intro fun x hx => ?_
  rw [h.wraps inner hinner] at hx
  cases hx

/-- If the first look-up has a result, the second one has the same in every forest that is tidier than
what the first one left. -/
def Recurs (m m' : ForestM α) (f : Forest) : Prop :=
  ∀ a g, m f = some (a, g) → f.Upkeeps g ∧ ∀ h, g.Upkeeps h → ∃ h', m' h = some (a, h') ∧ h.Upkeeps h'

namespace Recurs

private theorem pure (a : α) : Recurs (Pure.pure a) (Pure.pure a) f := by
  intro b g h
  obtain ⟨rfl, rfl⟩ := pure_eq_some.1 h
  exact ⟨.refl, fun h _ => ⟨h, pure_eq_some.2 ⟨rfl, rfl⟩, .refl⟩⟩

private theorem bind {m m' : ForestM β} {k k' : β → ForestM α} (hm : Recurs m m' f)
    (hk : ∀ b g, m f = some (b, g) → f.Upkeeps g → Recurs (k b) (k' b) g) :
    Recurs (m >>= k) (m' >>= k') f := by
  intro a g h
  obtain ⟨b, f₁, hb, h⟩ := bind_eq_some.1 h
  obtain ⟨hup, hagain⟩ := hm b f₁ hb
  obtain ⟨hup', hagain'⟩ := hk b f₁ hb hup a g h
  refine ⟨hup.trans hup', fun f' hf' => ?_⟩
  obtain ⟨f₁', hb', hup₁⟩ := hagain f' (hup'.trans hf')
  obtain ⟨f₂', ha', hup₂⟩ := hagain' f₁' (hf'.trans hup₁)
  exact ⟨f₂', bind_eq_some.2 ⟨b, f₁', hb', ha'⟩, hup₁.trans hup₂⟩

/-- What is read is read in a tidier forest the second time. -/
theorem read {k k' : Forest → ForestM α} (hk : ∀ h, f.Upkeeps h → Recurs (k f) (k' h) f) :
    Recurs (get >>= k) (get >>= k') f := by
  intro a g h
  obtain ⟨f₀, f₁, hget, h⟩ := bind_eq_some.1 h
  obtain ⟨rfl, rfl⟩ := get_eq_some.1 hget
  have hup := (hk f .refl a g h).1
  refine ⟨hup, fun f' hf' => ?_⟩
  obtain ⟨f'', ha, hup'⟩ := (hk f' (hup.trans hf') a g h).2 f' hf'
  exact ⟨f'', bind_eq_some.2 ⟨f', f', get_eq_some.2 ⟨rfl, rfl⟩, ha⟩, hup'⟩

private theorem ite {c c' : Prop} [Decidable c] [Decidable c'] {m₁ m₂ m₁' m₂' : ForestM α} (hc : c' ↔ c)
    (h : c → Recurs m₁ m₁' f) (h' : ¬c → Recurs m₂ m₂' f) :
    Recurs (if c then m₁ else m₂) (if c' then m₁' else m₂') f := by
  by_cases hcase : c
  · rw [if_pos hcase, if_pos (hc.2 hcase)]
    exact h hcase
  · rw [if_neg hcase, if_neg (mt hc.1 hcase)]
    exact h' hcase

end Recurs

private theorem find_recurs (hf : f.Rooted) {x x' : TermId} (hx : f.rep x' = f.rep x) :
    Recurs (find x) (find x') f := by
  intro r g h
  have hcalm := find_calm hf h
  obtain ⟨rfl, hup⟩ := find_upkeeps hf h
  have hs := hup.steady hf
  refine ⟨hup, fun f' hf' => ?_⟩
  have hs' := hf'.steady hs.rooted
  have hrep : f'.rep x' = f.rep x := by rw [hs'.rep, hs.rep, hx]
  have hends : f'.Ends x' := Calm.ends (hrep ▸ (hf'.calm hs.rooted hcalm).2)
  obtain ⟨⟨r', f''⟩, hfind⟩ := Option.isSome_iff_exists.1 ((find_isSome_iff hs'.rooted x').2 hends)
  obtain ⟨rfl, hup'⟩ := find_upkeeps hs'.rooted hfind
  exact ⟨f'', by rw [hfind, hrep], hup'⟩

/-- A child that was looked up wraps nothing but a variable. -/
theorem child_calm (hf : f.Rooted) {t y : TermId} {slot : Slot} (h : child t slot f = some (some y, g)) :
    g.Calm y := by
  obtain ⟨f₀, f₁, hget, h⟩ := bind_eq_some.1 h
  obtain ⟨rfl, rfl⟩ := get_eq_some.1 hget
  cases hraw : (f.kind t).child? slot with
  | none =>
    simp only [hraw] at h
    cases (pure_eq_some.1 h).1
  | some raw =>
    simp only [hraw] at h
    obtain ⟨found, f₁, hfind, h⟩ := bind_eq_some.1 h
    have hcalm := find_calm hf hfind
    have hstill := kind_of_find_child hf hraw hfind
    obtain ⟨rfl, hup⟩ := find_upkeeps hf hfind
    have hs := hup.steady hf
    split at h
    · obtain ⟨u, f₂, hset, h⟩ := bind_eq_some.1 h
      obtain ⟨hy, rfl⟩ := pure_eq_some.1 h
      cases hy
      have hremember : f₁.Upkeep (f₁.setChild t slot (f₁.rep raw)) :=
        .remember (by rw [hstill, hraw])
      rw [hs.rep] at hremember
      rw [← modify_eq_some.1 hset]
      exact (Upkeeps.calm hs.rooted (.single hremember) hcalm).2
    · obtain ⟨hy, rfl⟩ := pure_eq_some.1 h
      cases hy
      exact hcalm

private theorem child_recurs (hf : f.Rooted) {t : TermId} (ht : f.Calm t) (slot : Slot) :
    Recurs (child t slot) (child t slot) f := by
  intro a g h
  obtain ⟨ha, hup⟩ := child_upkeeps hf h
  have hs := hup.steady hf
  refine ⟨hup, fun f' hf' => ?_⟩
  have hs' := hs.trans (hf'.steady hs.rooted)
  have hsame := (Upkeeps.same hf (hup.trans hf') ht).child? slot
  have hrep : f'.rep = f.rep := funext hs'.rep
  have hends : ∀ raw, (f'.kind t).child? slot = some raw → f'.Ends raw := by
    intro raw hraw
    rw [hraw, Option.map_some, ← ha] at hsame
    subst hsame
    have hcalm := (hf'.calm hs.rooted (child_calm hf h)).2
    rw [← hrep] at hcalm
    exact hcalm.ends
  obtain ⟨r, f'', hagain⟩ := child_returns hs'.rooted hends
  obtain ⟨hr, hup'⟩ := child_upkeeps hs'.rooted hagain
  rw [hrep, hsame, ← ha] at hr
  exact ⟨f'', by rw [hagain, hr], hup'⟩

/-! ### Occurs checks -/

private theorem anyOccurs_recurs {walk : TermId → List TermId → ForestM (Bool × List TermId)}
    (hwalk : ∀ f : Forest, f.Rooted → ∀ x x' seen, f.rep x' = f.rep x →
      Recurs (walk x seen) (walk x' seen) f) (hf : f.Rooted) {xs xs' : List TermId}
    (hxs : xs'.map f.rep = xs.map f.rep) (seen : List TermId) :
    Recurs (anyOccurs walk xs seen) (anyOccurs walk xs' seen) f := by
  induction xs generalizing f xs' seen with
  | nil =>
    obtain rfl := List.map_eq_nil_iff.1 hxs
    exact .pure _
  | cons x rest ih =>
    obtain ⟨x', rest', rfl, hx, hrest⟩ := List.map_eq_cons_iff.1 hxs
    refine .bind (hwalk f hf x x' seen hx) fun r g _ hup => ?_
    obtain ⟨found, seen'⟩ := r
    cases found with
    | true => exact .pure _
    | false =>
      have hs := hup.steady hf
      exact ih hs.rooted (by rw [funext hs.rep, hrest]) seen'

private theorem occursFrom_recurs (t : TermId) (fuel : Nat) (hf : f.Rooted) {x x' : TermId}
    (hx : f.rep x' = f.rep x) (seen : List TermId) :
    Recurs (occursFrom t fuel x seen) (occursFrom t fuel x' seen) f := by
  induction fuel generalizing f x x' seen with
  | zero => exact fun a g h => (failure_eq_some.1 h).elim
  | succ fuel ih =>
    refine .bind (find_recurs hf hx) fun r g hfind hup => ?_
    have hs := hup.steady hf
    have hcalm := find_calm hf hfind
    refine .ite Iff.rfl (fun _ => .pure _) fun _ => .ite Iff.rfl (fun _ => .pure _) fun _ => ?_
    exact .read fun h hh => anyOccurs_recurs (fun f hf x x' seen hx => ih hf hx seen) hs.rooted
      (Upkeeps.same hs.rooted hh hcalm).children _

/-- An occurs check that had a result has it again. -/
theorem occursInAny_recurs (hf : f.Rooted) (t : TermId) (types : List TermId) :
    Recurs (occursInAny t types) (occursInAny t types) f := by
  refine .bind (find_recurs hf rfl) fun r g _ hup => .read fun h hh => ?_
  have hg := (hup.steady hf).rooted
  dsimp only
  rw [hh.size]
  exact .bind (anyOccurs_recurs (fun f hf x x' seen hx => occursFrom_recurs r _ hf hx seen) hg rfl [])
    fun r g _ _ => .pure _

/-! ### Comparisons -/

private theorem alikeSlots_recurs {compare : TermId → TermId → List (TermId × TermId) →
      ForestM (Bool × List (TermId × TermId))}
    (hcompare : ∀ f : Forest, f.Rooted → ∀ a b seen,
      Recurs (compare a b seen) (compare a b seen) f) (hf : f.Rooted) {a b : TermId} (ha : f.Calm a)
    (hb : f.Calm b) (slots : List Slot) (seen : List (TermId × TermId)) :
    Recurs (alikeSlots compare a b slots seen) (alikeSlots compare a b slots seen) f := by
  induction slots generalizing f seen with
  | nil => exact .pure _
  | cons slot rest ih =>
    refine .bind (child_recurs hf ha slot) fun ca g _ hup => ?_
    have hg := (hup.steady hf).rooted
    refine .bind (child_recurs hg (hup.calm hf hb).2 slot) fun cb g' _ hup' => ?_
    have hg' := (hup'.steady hg).rooted
    cases ca with
    | none => exact .pure _
    | some ca =>
      cases cb with
      | none => exact .pure _
      | some cb =>
        refine .bind (hcompare g' hg' ca cb seen) fun r g'' _ hup'' => ?_
        obtain ⟨same, seen'⟩ := r
        have hall : f.Upkeeps g'' := (hup.trans hup').trans hup''
        cases same with
        | true => exact ih (hall.steady hf).rooted (hall.calm hf ha).2 (hall.calm hf hb).2 seen'
        | false => exact .pure _

private theorem alikeFrom_recurs (fuel : Nat) (hf : f.Rooted) (a b : TermId) (seen : List (TermId × TermId)) :
    Recurs (alikeFrom fuel a b seen) (alikeFrom fuel a b seen) f := by
  induction fuel generalizing f a b seen with
  | zero => exact fun a g h => (failure_eq_some.1 h).elim
  | succ fuel ih =>
    refine .bind (find_recurs hf rfl) fun x g hfind hup => ?_
    have hg := (hup.steady hf).rooted
    refine .bind (find_recurs hg rfl) fun y g' hfind' hup' => ?_
    have hg' := (hup'.steady hg).rooted
    have hx := (hup'.calm hg (find_calm hf hfind)).2
    have hy := find_calm hg hfind'
    refine .ite Iff.rfl (fun _ => .pure _) fun _ => .read fun h hh => .read fun h' hh' => ?_
    have hsx := Upkeeps.same hg' hh hx
    have hsy := Upkeeps.same hg' hh' hy
    dsimp only
    rw [hsx.sameNode hsy, hsx.slots, hsy.slots]
    refine .ite Iff.rfl (fun _ => .pure _) fun _ => .ite Iff.rfl (fun _ => .pure _) fun _ => ?_
    cases seen.lookup x with
    | some prior => exact .pure _
    | none => exact alikeSlots_recurs (fun f hf a b seen => ih hf a b seen) hg' hx hy _ _

/-- A comparison that had a result has it again. -/
theorem alike_recurs (hf : f.Rooted) (a b : TermId) : Recurs (alike a b) (alike a b) f := by
  refine .read fun h hh => ?_
  dsimp only
  rw [hh.size]
  exact .bind (alikeFrom_recurs _ hf a b []) fun r g _ _ => .pure _

end Forest

open Forest (IsClass Steady)

namespace Unifier

variable {α β : Type} {s t u : Unifier}

/-! ## Idle computations again -/

/-- The unifier works on a forest that is tidier than one before, with the same memory. -/
structure Tidier (f : Forest) (s s' : Unifier) : Prop where
  upkeeps : f.Upkeeps s'.forest
  met : s'.met = s.met
  image : s'.image = s.image

/-- If the first computation has a result, that shows that something was changed, or nothing was and the
second computation has the same result in every forest that is tidier than what the first one left. -/
def Recurs (moved : α → Prop) (m m' : UnifyM α) (s : Unifier) : Prop :=
  ∀ a u, m s = some (a, u) → moved a ∨ Idle s u ∧ ∀ s', Tidier u.forest s s' →
    ∃ u', m' s' = some (a, u') ∧ Tidier s'.forest u u'

/-- A look never shows that something was changed. -/
abbrev Sees (m m' : UnifyM α) (s : Unifier) : Prop := Recurs (fun _ => False) m m' s

namespace Recurs

variable {moved : α → Prop} {moved' : β → Prop}

/-- An answer recurs. -/
theorem pure (hs : s.Ready) (a : α) : Recurs moved (Pure.pure a) (Pure.pure a) s := by
  intro b u h
  obtain ⟨rfl, rfl⟩ := pure_eq_some.1 h
  exact Or.inr ⟨.refl hs, fun s' hs' => ⟨s', pure_eq_some.2 ⟨rfl, rfl⟩, .refl, hs'.met, hs'.image⟩⟩

/-- Computations one after the other recur if each does and the first one's progress is kept. -/
theorem bind {m m' : UnifyM β} {k k' : β → UnifyM α} (hm : Recurs moved' m m' s)
    (hk : ∀ b u, m s = some (b, u) → Idle s u → ¬moved' b → Recurs moved (k b) (k' b) u)
    (hmoved : ∀ b, moved' b → Yields moved (k b)) : Recurs moved (m >>= k) (m' >>= k') s := by
  intro a u h
  obtain ⟨b, s₁, hb, h⟩ := bind_eq_some.1 h
  by_cases hbm : moved' b
  · exact Or.inl (hmoved b hbm _ _ _ h)
  obtain ⟨hidle, hagain⟩ := (hm b s₁ hb).resolve_left hbm
  refine (hk b s₁ hb hidle hbm a u h).imp_right ?_
  rintro ⟨hidle', hagain'⟩
  refine ⟨hidle.trans hidle', fun s' hs' => ?_⟩
  obtain ⟨s₁', hb', ht⟩ := hagain s' ⟨hidle'.upkeeps.trans hs'.upkeeps, hs'.met, hs'.image⟩
  obtain ⟨u', ha', ht'⟩ := hagain' s₁' ⟨hs'.upkeeps.trans ht.upkeeps, ht.met, ht.image⟩
  exact ⟨u', bind_eq_some.2 ⟨b, s₁', hb', ha'⟩, ht.upkeeps.trans ht'.upkeeps, ht'.met, ht'.image⟩

/-- What is seen first is the same again. -/
theorem see {m m' : UnifyM β} {k k' : β → UnifyM α} (hm : Sees m m' s)
    (hk : ∀ b u, m s = some (b, u) → Idle s u → Recurs moved (k b) (k' b) u) :
    Recurs moved (m >>= k) (m' >>= k') s :=
  bind hm (fun b u hb hidle _ => hk b u hb hidle) fun _ hfalse => hfalse.elim

/-- What a function says of the forest it says of a tidier one the second time. -/
theorem view {read : Forest → β} {k k' : β → UnifyM α}
    (hk : ∀ f, s.forest.Upkeeps f → Recurs moved (k (read s.forest)) (k' (read f)) s) :
    Recurs moved (Unifier.view read >>= k) (Unifier.view read >>= k') s := by
  intro a u h
  replace h := of_bind_view h
  by_cases hm : moved a
  · exact Or.inl hm
  have hidle := ((hk _ .refl a u h).resolve_left hm).1
  refine Or.inr ⟨hidle, fun s' hs' => ?_⟩
  obtain ⟨u', ha, ht⟩ := ((hk _ (hidle.upkeeps.trans hs'.upkeeps) a u h).resolve_left hm).2 s' hs'
  exact ⟨u', bind_eq_some.2 ⟨_, _, view_eq_some.2 ⟨rfl, rfl⟩, ha⟩, ht⟩

/-- Whether there is a worklist may be another matter the second time. -/
theorem probe (hs : s.Ready) {k k' : Bool → UnifyM α} (hk : ∀ b, Recurs moved (k false) (k' b) s) :
    Recurs moved (isProbe >>= k) (isProbe >>= k') s := by
  intro a u h
  obtain ⟨probing, s₁, hprobe, h⟩ := bind_eq_some.1 h
  obtain ⟨rfl, rfl⟩ := isProbe_eq_some.1 hprobe
  rw [hs.commits] at h
  by_cases hm : moved a
  · exact Or.inl hm
  refine Or.inr ⟨((hk false a u h).resolve_left hm).1, fun s' hs' => ?_⟩
  obtain ⟨u', ha, ht⟩ := ((hk s'.work.isNone a u h).resolve_left hm).2 s' hs'
  exact ⟨u', bind_eq_some.2 ⟨_, _, isProbe_eq_some.2 ⟨rfl, rfl⟩, ha⟩, ht⟩

/-- Either branch recurs. -/
theorem ite {c c' : Prop} [Decidable c] [Decidable c'] {m₁ m₂ m₁' m₂' : UnifyM α} (hc : c' ↔ c)
    (h : c → Recurs moved m₁ m₁' s) (h' : ¬c → Recurs moved m₂ m₂' s) :
    Recurs moved (if c then m₁ else m₂) (if c' then m₁' else m₂') s := by
  by_cases hcase : c
  · rw [if_pos hcase, if_pos (hc.2 hcase)]
    exact h hcase
  · rw [if_neg hcase, if_neg (mt hc.1 hcase)]
    exact h' hcase

/-- Progress recurs. -/
theorem of_yields {m m' : UnifyM α} (h : Yields moved m) : Recurs moved m m' s :=
  fun a u hr => Or.inl (h s a u hr)

/-- If the probe shows that there is something to change, then the call changes something. -/
theorem of_probe {m m' : UnifyM α} {b : α} {v : Unifier} (hm : Faithful moved m m s)
    (hprobe : m s.probing = some (b, v)) (hb : moved b) : Recurs moved m m' s := by
  intro a u h
  rcases hm a u h with ⟨-, hsame⟩ | ⟨hmoved, -⟩
  · exact Or.inl ((hsame b v hprobe).1 ▸ hb)
  · exact Or.inl hmoved

end Recurs

/-! ## Looks -/

/-- A computation that recurs on the forest sees it alike. -/
theorem onForest_sees {run run' : ForestM α} (hs : s.Ready)
    (hrun : Forest.Recurs run run' s.forest) : Sees (onForest run) (onForest run') s := by
  intro a u h
  obtain ⟨f, hf, rfl⟩ := onForest_eq_some.1 h
  obtain ⟨hup, hagain⟩ := hrun a f hf
  have hlooks : Looks s { s with forest := f } := ⟨hup, rfl, rfl, rfl⟩
  refine Or.inr ⟨.of_looks hs hlooks, fun s' hs' => ?_⟩
  obtain ⟨f', ha, hup'⟩ := hagain s'.forest hs'.upkeeps
  exact ⟨{ s' with forest := f' }, onForest_eq_some.2 ⟨f', ha, rfl⟩, hup', hs'.met, hs'.image⟩

/-- Looking a class up sees it alike. -/
theorem find_sees (hs : s.Ready) (x : TermId) : Sees (find x) (find x) s :=
  onForest_sees hs (Forest.find_recurs hs.sound.forest.rooted rfl)

/-- So does looking up a child. -/
theorem child_sees (hs : s.Ready) {x : TermId} (hx : s.forest.Calm x) (slot : Slot) :
    Sees (child x slot) (child x slot) s :=
  onForest_sees hs (Forest.child_recurs hs.sound.forest.rooted hx slot)

/-- So does looking up an image. -/
theorem imageOf_sees (hs : s.Ready) (x : TermId) : Sees (imageOf x) (imageOf x) s := by
  intro a u h
  obtain ⟨rfl, rfl⟩ := imageOf_eq_some.1 h
  refine Or.inr ⟨.refl hs, fun s' hs' => ⟨s', imageOf_eq_some.2 ⟨?_, rfl⟩, .refl, hs'.met, hs'.image⟩⟩
  rw [hs'.image]

/-- So does recording one. -/
theorem setImage_sees (hs : s.Ready) {x c : TermId} (hx : x < s.forest.size)
    (hc : c < s.forest.size) : Sees (setImage x c) (setImage x c) s := by
  intro a u h
  have hidle := (setImage_observes hs hx hc a u h).1
  obtain rfl := modify_eq_some.1 h
  refine Or.inr ⟨hidle, fun s' hs' => ⟨_, modify_eq_some.2 rfl, .refl, hs'.met, ?_⟩⟩
  show (x, c) :: s'.image = (x, c) :: s.image
  rw [hs'.image]

/-- The kind of a class that wraps nothing but a variable is the same again, up to its children. -/
theorem Recurs.kindOf {moved : α → Prop} (hs : s.Ready) {x : TermId} (hx : s.forest.Calm x)
    {k k' : Kind → UnifyM α} (hk : ∀ kind, (s.forest.kind x).Same s.forest.rep kind →
      Recurs moved (k (s.forest.kind x)) (k' kind) s) :
    Recurs moved (Unifier.kindOf x >>= k) (Unifier.kindOf x >>= k') s :=
  .view fun _ hup => hk _ (hup.same hs.sound.forest.rooted hx)

/-! ## Unifications -/

/-- What an idle run of the first computation answers the second one answers again. -/
def Repeated (run run' : TermId → TermId → UnifyM Bool) : Prop :=
  ∀ s a b, s.Ready → s.Fresh → a < s.forest.size → b < s.forest.size →
    Recurs (· = true) (run a b) (run' a b) s

/-- Terms of one class are looked up, and that is all. -/
theorem unifyStep_of_same {rec : TermId → TermId → UnifyM Bool} {a b r : TermId}
    (h : find a s = some (r, t)) (h' : find b t = some (r, u)) :
    unifyStep rec a b s = some (false, u) := by
  refine bind_eq_some.2 ⟨r, t, h, bind_eq_some.2 ⟨r, u, h', ?_⟩⟩
  rw [if_pos rfl]
  exact pure_eq_some.2 ⟨rfl, rfl⟩

/-- A unification that made no progress makes none when repeated, however deep it may nest. -/
theorem unifyWithin_repeated {depth depth' : Nat} (hdepth : depth ≤ depth') :
    Repeated (unifyWithin depth) (unifyWithin depth') := by
  intro s a b hs hfresh ha hb r u h
  rcases unifyWithin_answer hs.sound ha hb h with ⟨hr, -⟩ | ⟨-, -, heq | hmem⟩
  · exact Or.inl hr
  · obtain ⟨rfl, ra, s₁, rb, hfind, hfind'⟩ := unifyWithin_same hs.sound ha hb heq h
    obtain ⟨-, -, ⟨rfl, rfl⟩, -⟩ := find_both hs.sound ha hb hfind hfind'
    obtain ⟨depth', rfl⟩ : ∃ n, depth' = n + 1 := by
      refine Nat.exists_eq_succ_of_ne_zero fun hzero => ?_
      rw [hzero, Nat.le_zero] at hdepth
      rw [hdepth] at h
      exact failure_eq_some.1 h
    -- Both look-ups answer the one class again.
    let both : UnifyM (TermId × TermId) := do
      let ra ← find a
      let rb ← find b
      return (ra, rb)
    have hboth : Sees both both s :=
      .see (find_sees hs a) fun ra s₁ _ hidle =>
        .see (find_sees hidle.ready b) fun rb s₂ _ hidle' => .pure hidle'.ready _
    have hrun : both s = some ((s.forest.rep a, s.forest.rep b), u) :=
      bind_eq_some.2 ⟨_, _, hfind, bind_eq_some.2 ⟨_, _, hfind', pure_eq_some.2 ⟨rfl, rfl⟩⟩⟩
    obtain ⟨hidle, hagain⟩ := (hboth _ _ hrun).resolve_left id
    refine Or.inr ⟨hidle, fun s' hs' => ?_⟩
    obtain ⟨u', hrun', ht⟩ := hagain s' hs'
    obtain ⟨ra', s₁', hfind₁, hrun'⟩ := bind_eq_some.1 hrun'
    obtain ⟨rb', s₂', hfind₂, hrun'⟩ := bind_eq_some.1 hrun'
    obtain ⟨hpair, rfl⟩ := pure_eq_some.1 hrun'
    obtain ⟨rfl, rfl⟩ := Prod.mk.inj hpair
    rw [← heq] at hfind₂
    exact ⟨_, unifyStep_of_same hfind₁ hfind₂, ht⟩
  · rw [hfresh.met] at hmem
    exact absurd hmem List.not_mem_nil

end Unifier

end TypeFlow
