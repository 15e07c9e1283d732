import TypeFlow.Proofs.ClosingUnifications
import TypeFlow.Proofs.RepeatedInstantiations

/-!
# What unifications make of classes

Where nothing is wrapped, a class that is unified with others becomes an error or what it was and more:
a base type describes values of the same kind as before, and each child of a function is of one class
with the child that it was, or will be once the pairs met are merged.  That is so whatever clashes on
the way, and whatever records the types are made of.

Main definitions:

- `Kind.Matures`: more is known of a class, whose children are related to what they were.
- `Unifier.Ripens`: more is known of all classes of a part of the forest.

Main results:

- `Kind.Matures.comp`: what is known grows from step to step.
- `Unifier.merge_ripens`, `Unifier.clash_ripens`: merging classes lets more be known of all of them.
- `Unifier.unifyStep_ripens`: so does one layer of unification if the next one does.
- `Unifier.unifyWithin_ripens`: so does the unification of any two terms.
-/

namespace TypeFlow

namespace Kind

variable {E E' : TermId → TermId → Prop} {k k' k'' : Kind}

/-! ## Kinds of which more is known -/

/-- More is known of a class: a base type is one of the same kind, and the children of a function are
related to what they were.  It may be an error as well. -/
structure Matures (E : TermId → TermId → Prop) (k k' : Kind) : Prop where
  accrues : k.Accrues k'
  base : ∀ p q, k = .base p → k' = .base q → p.sameKind q = true
  children : k.isFunction = true → ∀ slot x y, k.child? slot = some x → k'.child? slot = some y → E x y

/-- A function is an error later, or one of the same arity. -/
theorem Accrues.function_cases (h : k.Accrues k') (hk : k.isFunction = true) :
    k'.isError = true ∨ k'.isFunction = true ∧ k'.shape = k.shape := by
  cases h with
  | error => exact Or.inl rfl
  | function hargs => exact Or.inr ⟨rfl, by rw [shape, shape, hargs]⟩
  | _ => cases hk

/-- Only a variable or a wrapper may become a function. -/
theorem Accrues.isFunction_of (h : k.Accrues k') (hvar : k ≠ .var) (hnilable : k.isNilable = false)
    (hk' : k'.isFunction = true) : k.isFunction = true := by
  cases h with
  | var => exact absurd rfl hvar
  | function => rfl
  | nilable => cases hnilable
  | _ => cases hk'

/-- A base type is an error later, or a base type. -/
theorem Accrues.base_cases {p : Flow} (h : (Kind.base p).Accrues k') :
    k'.isError = true ∨ ∃ q, k' = Kind.base q ∧ p.covers q = true := by
  cases h with
  | error => exact Or.inl rfl
  | base h => exact Or.inr ⟨_, rfl, h⟩

/-- Nothing is known of a class but what it is when its children are looked up. -/
theorem Same.accrues {r : TermId → TermId} (h : Same r k k') (hk : k.isLink = false) : k.Accrues k' := by
  cases k <;> cases k' <;> simp only [Same, mapChildren, reduceCtorEq, base.injEq, error.injEq,
    function.injEq, record.injEq] at h
  case var.var => exact .var _
  case base.base => exact h ▸ .refl rfl
  case nilable.nilable => exact .nilable rfl
  case function.function =>
    obtain ⟨hargs, -, rfl, rfl⟩ := h
    have hlength := congrArg List.length hargs
    rw [List.length_map, List.length_map] at hlength
    exact .function hlength (fun _ hx => hx) id
  case record.record =>
    obtain ⟨-, rfl, rfl, rfl⟩ := h
    exact .record (fun _ hx => hx) id id
  case error.error => exact .error rfl _
  case link.link => cases hk

namespace Matures

/-- Anything may become an error. -/
theorem of_isError (hk : k.isLink = false) (herror : k'.isError = true) : k.Matures E k' := by
  obtain ⟨cause, rfl⟩ := isError_iff.1 herror
  refine ⟨.error hk cause, fun p q _ hq => ?_, fun _ slot x y _ hy => ?_⟩
  · cases hq
  · cases slot <;> cases hy

/-- Nothing is asked of what is neither a base type nor a function. -/
theorem of_accrues (haccrues : k.Accrues k') (hbase : k.isBase = false)
    (hfunction : k.isFunction = false) : k.Matures E k' := by
  refine ⟨haccrues, fun p q hp _ => ?_, fun hk => ?_⟩
  · rw [hp] at hbase
    cases hbase
  · rw [hfunction] at hk
    cases hk

private theorem of_isRecord (haccrues : k.Accrues k') (hk : k.isRecord = true) : k.Matures E k' := by
  cases k with
  | record => exact of_accrues haccrues rfl rfl
  | _ => cases hk

/-- Anything may become of a variable. -/
theorem of_var (h : k = .var) : k.Matures E k' := by
  subst h
  exact of_accrues (.var _) rfl rfl

/-- More is known of what accrues and turns into something of its shape. -/
theorem of_turnsInto (haccrues : k.Accrues k') (h : k.TurnsInto E k') : k.Matures E k' := by
  refine ⟨haccrues, fun p q hp hq => ?_, fun _ slot x y hx hy => h.child? hx hy⟩
  subst hp hq
  cases h with
  | base h => exact h
  | function hk => cases hk

/-- More is known up to any weaker relation of children. -/
theorem mono (hE : ∀ x y, E x y → E' x y) (h : k.Matures E k') : k.Matures E' k' :=
  ⟨h.accrues, h.base, fun hk slot x y hx hy => hE x y (h.children hk slot x y hx hy)⟩

/-- Looking up children replaces them by terms of their classes. -/
theorem of_same {r : TermId → TermId} (hk : k.isLink = false) (hr : ∀ x y, r x = r y → E x y)
    (h : Same r k k') : k.Matures E k' := by
  refine ⟨h.accrues hk, fun p q hp hq => ?_, fun _ slot x y hx hy => hr x y ?_⟩
  · have hflow := h.baseFlow?
    rw [hp, hq] at hflow
    cases hflow
    exact p.sameKind_self
  · have hchild := h.child? slot
    rw [hx, hy] at hchild
    exact (Option.some.inj hchild).symm

/-- A child of what became of a function stands for one of the function. -/
theorem exists_child? (h : k.Matures E k') (hk : k.isFunction = true) {slot : Slot} {y : TermId}
    (hy : k'.child? slot = some y) : ∃ x, k.child? slot = some x ∧ E x y := by
  rcases h.accrues.function_cases hk with herror | ⟨-, hshape⟩
  · obtain ⟨cause, rfl⟩ := isError_iff.1 herror
    cases slot <;> cases hy
  · have hsome := isSome_child?_of_shape (isRecord_of_isFunction hk) hshape slot
    rw [hy] at hsome
    obtain ⟨x, hx⟩ := Option.isSome_iff_exists.1 hsome.symm
    exact ⟨x, hx, h.children hk slot x y hx hy⟩

/-- What is known grows from step to step, and so do the relations of children. -/
theorem comp {E'' : TermId → TermId → Prop} (hE : ∀ x y z, E x y → E' y z → E'' x z)
    (h : k.Matures E k') (h' : k'.Matures E' k'') : k.Matures E'' k'' := by
  refine ⟨h.accrues.trans h'.accrues, fun p r hp hr => ?_, fun hk slot x z hx hz => ?_⟩
  · rcases (hp ▸ h.accrues).base_cases with herror | ⟨q, hq, -⟩
    · have herror' := h'.accrues.isError herror
      rw [hr] at herror'
      cases herror'
    · rw [Flow.sameKind_congr (h.base p q hp hq), h'.base q r hq hr]
  · rcases h.accrues.function_cases hk with herror | ⟨hk', -⟩
    · obtain ⟨cause, hcause⟩ := isError_iff.1 (h'.accrues.isError herror)
      rw [hcause] at hz
      cases slot <;> cases hz
    · obtain ⟨y, hy, hyz⟩ := h'.exists_child? hk' hz
      exact hE x y z (h.children hk slot x y hx hy) hyz

variable (hE : Equivalence E)

include hE

/-- As much is known of a kind as of itself. -/
theorem refl (hk : k.isLink = false) : k.Matures E k := by
  refine ⟨.refl hk, fun p q hp hq => ?_, fun _ slot x y hx hy => ?_⟩
  · rw [hp] at hq
    cases hq
    exact p.sameKind_self
  · cases hx.symm.trans hy
    exact hE.refl x

/-- Ever more is known in turn. -/
theorem trans (h : k.Matures E k') (h' : k'.Matures E k'') : k.Matures E k'' :=
  h.comp (fun x y z (hxy : E x y) (hyz : E y z) => hE.trans hxy hyz) h'

/-- Widening lets more be known. -/
theorem widenedKind (hk : k.isLink = false) : k.Matures E (Forest.widenedKind k) := by
  refine ⟨(Forest.accrues_widenedKind hk).1, fun p q hp hq => ?_, fun _ slot x y hx hy => ?_⟩
  · subst hp
    cases hq
    exact p.sameKind_widen
  · rw [child?_widenedKind, hx] at hy
    cases hy
    exact hE.refl x

end Matures

end Kind

open Forest (IsClass Steady)

namespace Unifier

variable {part : TermId → Prop} {base : Nat} {s t u : Unifier} {x y : TermId} {r : Bool}

/-- More of a merged kind is known than of either of the two, if functions have related children. -/
theorem mergedKind_matures {E : TermId → TermId → Prop} (hE : Equivalence E) {kl kw k : Kind}
    (hl : kl.isLink = false) (hw : kw.isLink = false)
    (hvar : kw = .var → kl.children = [])
    (harity : ∀ n m, kl.arity? = some n → kw.arity? = some m → n = m)
    (hchildren : kl.isFunction = true → kw.isFunction = true → ∀ slot x y, kl.child? slot = some x →
      kw.child? slot = some y → E x y) (h : mergedKind kl kw = some k) :
    kl.Matures E k ∧ kw.Matures E k := by
  obtain ⟨hrefines, haccrues⟩ := mergedKind_refines hl hw hvar harity h
  unfold mergedKind at h
  split at h
  · cases h
    exact ⟨.of_var rfl, .refl hE hw⟩
  · cases h
    exact ⟨.of_accrues haccrues rfl rfl, .refl hE hw⟩
  · cases h
    exact ⟨.refl hE hl, .of_isError hw rfl⟩
  · cases h
    exact ⟨.refl hE hl, .of_var rfl⟩
  · rename_i p q _ _
    split at h
    · rename_i hsame
      cases h
      have hmeet := Flow.sameKind_meet_of_sameKind hsame
      refine ⟨.of_turnsInto haccrues (.base hmeet), .of_turnsInto hrefines.accrues (.base ?_)⟩
      rw [← Flow.sameKind_congr hsame, hmeet]
    · cases h
  · cases h
    refine ⟨⟨haccrues, fun _ _ hp => (Kind.noConfusion hp), fun _ slot x y hx hy => ?_⟩,
      ⟨hrefines.accrues, fun _ _ hp => (Kind.noConfusion hp), fun _ slot x y hx hy => ?_⟩⟩
    · exact hchildren rfl rfl slot x y hx (by cases slot <;> exact hy)
    · have hxy : x = y := by
        cases slot <;> cases hx.symm.trans hy <;> rfl
      exact hxy ▸ hE.refl x
  · cases h
    exact ⟨.of_isRecord haccrues rfl, .of_isRecord hrefines.accrues rfl⟩
  · cases h

/-! ## Parts of a forest of which more is known -/

/-- A part of the forest is still tame, and more is known of its classes. -/
structure Ripens (part : TermId → Prop) (base : Nat) (s u : Unifier) : Prop
    extends Tends part base s u where
  advances : Advances s u
  kinds : ∀ x, part (s.forest.rep x) →
    (s.forest.kind (s.forest.rep x)).Matures u.Joined (u.forest.kind (u.forest.rep x))

namespace Ripens

private theorem refl (h : Tame part base s) : Ripens part base s s :=
  ⟨.refl h, .refl s, fun x _ => .refl (joined_equivalence s) (Forest.not_isLink_rep h.sound.forest.rooted x)⟩

private theorem trans (h : Ripens part base s t) (h' : Ripens part base t u) : Ripens part base s u :=
  ⟨h.toTends.trans h'.toTends, h.advances.trans h'.advances, fun x hx =>
    .trans (joined_equivalence u) ((h.kinds x hx).mono fun _ _ => h'.advances.joined)
      (h'.kinds x (h.rep x hx))⟩

/-- A class of its own ripens. -/
theorem matures (h : Ripens part base s u) (hx : s.forest.IsClass x) (hpart : part x) :
    (s.forest.kind x).Matures u.Joined (u.forest.kind (u.forest.rep x)) := by
  have hkinds := h.kinds x (by rwa [hx.rep_eq])
  rwa [hx.rep_eq] at hkinds

/-- Classes are what they were, but for records. -/
theorem of_steady (h : Tends part base s u) (hs : s.Sound) (hp : Proceeds s u) (hmet : u.met = s.met)
    (hsteady : Steady s.forest u.forest)
    (hkind : ∀ c, (s.forest.kind c).isRecord = false → u.forest.kind c = s.forest.kind c) :
    Ripens part base s u := by
  refine ⟨h, .of_met hmet (hp.evolves hs).grows.rep, fun x _ => ?_⟩
  have haccrues := hp.leads.accrues hs.forest x
  rw [hsteady.rep] at haccrues ⊢
  cases hrecord : (s.forest.kind (s.forest.rep x)).isRecord with
  | true => exact .of_isRecord haccrues hrecord
  | false =>
    rw [hkind _ hrecord]
    exact .refl (joined_equivalence u) (Forest.not_isLink_rep hs.forest.rooted x)

end Ripens

namespace Tame

variable (h : Tame part base s)

include h

/-- Looking classes up leaves what is known of them. -/
theorem ripens_looks (hlooks : Looks s u) : Ripens part base s u := by
  have hsteady := hlooks.steady h.sound
  have hrooted := h.sound.forest.rooted
  refine ⟨h.looks hlooks, hlooks.advances h.sound, fun x hx => ?_⟩
  have hroot := Forest.not_isLink_rep hrooted x
  have hplain : (s.forest.kind (s.forest.rep x)).isNilable = false := by
    by_cases hlt : x < s.forest.size
    · exact h.plain _ hx (Forest.isClass_rep h.sound.forest hlt)
    · rw [Forest.rep_of_size_le (Nat.le_of_not_lt hlt), Forest.kind_of_size_le (Nat.le_of_not_lt hlt)]
      rfl
  rw [hsteady.rep]
  refine .of_same hroot (fun y z hyz => joined_of_rep ?_)
    (hlooks.upkeeps.same hrooted (Forest.calm_of_not_nilable hroot hplain))
  rw [hsteady.rep, hsteady.rep, hyz]

private theorem ripens_wake (f : Forest) (x : TermId) :
    Ripens part base s { s with work := s.work.map (f.wake x) } :=
  ⟨h.wake f x, ⟨fun _ _ => id, fun _ => id, fun _ => Or.inl⟩, fun y _ =>
    .refl (joined_equivalence _) (Forest.not_isLink_rep h.sound.forest.rooted y)⟩

/-- More is known of all classes when one is merged into another of which more is known. -/
theorem ripens_merges {loser winner : TermId}
    (hw : s.forest.IsClass winner) (hwinner : part winner) (hne : loser ≠ winner)
    (hsound : u.Sound)
    (hmatures : (s.forest.kind loser).Matures s.Joined (s.forest.kind winner))
    (hmerges : Merges loser winner s u) : Ripens part base s u := by
  have hadvances : Advances s u := .of_met hmerges.met fun x y hxy => by
    rw [hmerges.rep, hmerges.rep, hxy]
  have hE := joined_equivalence u
  have hkind : ∀ c, c ≠ loser → (s.forest.kind c).isLink = false →
      (s.forest.kind c).Matures u.Joined (u.forest.kind c) := by
    intro c hc hroot
    rcases hmerges.kind c hc with e | e <;> rw [e]
    · exact .refl hE hroot
    · exact .widenedKind hE hroot
  refine ⟨h.merges hwinner hne hsound hmerges, hadvances, fun x _ => ?_⟩
  rw [hmerges.rep]
  split
  · rename_i e
    rw [e]
    exact (hmatures.mono fun _ _ => hadvances.joined).trans hE (hkind winner (Ne.symm hne) hw.root)
  · rename_i e
    exact hkind _ e (Forest.not_isLink_rep h.sound.forest.rooted x)

/-- A class may take over what is known of others. -/
theorem ripens_setKind {k : Kind} (hrefines : (s.forest.kind x).Refines k)
    (hmatures : (s.forest.kind x).Matures s.Joined k)
    (ht : Tame part base { s with forest := s.forest.setKind x k }) :
    Ripens part base s { s with forest := s.forest.setKind x k } := by
  have hsteady := Forest.refine_steady h.sound.forest.rooted hrefines
  have hadvances : Advances s { s with forest := s.forest.setKind x k } := by
    refine .of_met rfl fun y z hyz => ?_
    dsimp only
    rw [hsteady.rep, hsteady.rep, hyz]
  refine ⟨⟨ht, hsteady.size, fun y hy => by rwa [hsteady.rep], le_rfl⟩, hadvances, fun y _ => ?_⟩
  dsimp only
  rw [hsteady.rep, Forest.kind_setKind]
  split
  · rename_i e
    rw [← e.1]
    exact hmatures.mono fun _ _ => hadvances.joined
  · exact .refl (joined_equivalence _) (Forest.not_isLink_rep h.sound.forest.rooted y)

/-- Nothing is known of a new error before. -/
theorem ripens_alloc {cause : TypeError}
    (halloc : Unifier.alloc (.error cause) s = some (x, u)) :
    Ripens part base s u ∧ u.forest.IsClass x ∧ part x ∧ u.forest.kind x = .error cause := by
  obtain ⟨ht, hx, hpart, herror⟩ := h.alloc halloc
  obtain ⟨hp, hsteady, -, -⟩ := alloc_error_proceeds h.sound halloc
  obtain ⟨rfl, rfl⟩ := alloc_eq_some.1 halloc
  refine ⟨⟨ht, .of_met rfl (hp.evolves h.sound).grows.rep, fun y _ => ?_⟩, hx, hpart, herror⟩
  rw [hsteady.rep]
  by_cases e : s.forest.rep y = s.forest.size
  · exact .of_var (by rw [e]; exact Forest.kind_of_size_le le_rfl)
  · have hkind : (s.forest.alloc (.error cause)).2.kind (s.forest.rep y) =
        s.forest.kind (s.forest.rep y) := (Forest.kind_add _ _ _).trans (if_neg e)
    dsimp only
    rw [hkind]
    exact .refl (joined_equivalence _) (Forest.not_isLink_rep h.sound.forest.rooted y)

end Tame

/-! ## Merging classes -/

section Merging

variable {loser winner : TermId} (h : Tame part base s)

include h

/-- Merging a class into one of which more is known lets more be known. -/
theorem settle_ripens (hl : s.forest.IsClass loser) (hw : s.forest.IsClass winner)
    (hwinner : part winner)
    (hmatures : (s.forest.kind loser).Matures s.Joined (s.forest.kind winner))
    (hsettle : settle loser winner s = some (r, u)) : Ripens part base s u := by
  obtain ⟨hp, -⟩ := settle_proceeds h.sound h.commits hl hw hmatures.accrues hsettle
  by_cases hne : loser = winner
  · rw [settle, if_pos hne] at hsettle
    obtain ⟨-, rfl⟩ := pure_eq_some.1 hsettle
    exact .refl h
  · exact h.ripens_merges hw hwinner hne hp.sound hmatures
      (settle_merges h.sound h.commits hl hw hne hsettle)

/-- Two classes that clash are an error, of which all is known. -/
theorem clash_ripens {cause : TypeError} (hx : s.forest.IsClass x) (hy : s.forest.IsClass y)
    (hpx : part x) (hclash : clash x y cause s = some (r, u)) :
    Ripens part base s u := by
  obtain ⟨e, s₁, halloc, hclash⟩ := bind_eq_some.1 hclash
  obtain ⟨first, s₂, hsettle, hclash⟩ := bind_eq_some.1 hclash
  obtain ⟨error, s₃, hfind, hclash⟩ := bind_eq_some.1 hclash
  obtain ⟨y', s₄, hfind', hclash⟩ := bind_eq_some.1 hclash
  obtain ⟨second, s₅, hsettle', hclash⟩ := bind_eq_some.1 hclash
  obtain ⟨-, rfl⟩ := pure_eq_some.1 hclash
  obtain ⟨hr₁, he, hpe, herror⟩ := h.ripens_alloc halloc
  obtain ⟨-, hsteady₁, -, -⟩ := alloc_error_proceeds h.sound halloc
  have hx₁ := hx.of_steady hsteady₁
  have hy₁ := hy.of_steady hsteady₁
  have haccrues : (s₁.forest.kind x).Accrues (s₁.forest.kind e) := by
    rw [herror]
    exact .error hx₁.root cause
  have hr₂ := settle_ripens hr₁.tame hx₁ he hpe (.of_isError hx₁.root (by rw [herror]; rfl)) hsettle
  obtain ⟨hp₂, hjoins, -⟩ :=
    settle_proceeds hr₁.tame.sound hr₁.tame.commits hx₁ he haccrues hsettle
  have hx₂ : x < s₂.forest.size := Nat.lt_of_lt_of_le hx₁.lt hr₂.size
  have hy₂ : y < s₂.forest.size := Nat.lt_of_lt_of_le hy₁.lt hr₂.size
  obtain ⟨hlooks, -, ⟨rfl, rfl⟩, hx₄, hy₄⟩ := find_both hr₂.tame.sound hx₂ hy₂ hfind hfind'
  have hr₄ := hr₂.tame.ripens_looks hlooks
  -- The error is still one when the other class is merged into it.
  have herror₄ : (s₄.forest.kind (s₂.forest.rep x)).isError = true := by
    have hp := hp₂.trans (hlooks.proceeds hr₂.tame.sound)
    have hstill := (hp.leads.accrues hr₁.tame.sound.forest e).isError (by rw [he.rep_eq, herror]; rfl)
    rwa [(hlooks.steady hr₂.tame.sound).rep, ← hjoins.rep] at hstill
  have hpx₂ : part (s₂.forest.rep x) := hr₂.rep x (hr₁.rep x (by rwa [hx.rep_eq]))
  have hr₅ := settle_ripens hr₄.tame hy₄ hx₄ hpx₂ (.of_isError hy₄.root herror₄) hsettle'
  exact hr₁.trans (hr₂.trans (hr₄.trans hr₅))

/-- Merging two classes lets more be known of both, if children of functions are joined. -/
theorem merge_ripens (hl : s.forest.IsClass loser) (hw : s.forest.IsClass winner)
    (hloser : part loser) (hwinner : part winner)
    (hvar : s.forest.kind winner = .var → (s.forest.kind loser).children = [])
    (harity : ∀ n m, (s.forest.kind loser).arity? = some n →
      (s.forest.kind winner).arity? = some m → n = m)
    (hchildren : (s.forest.kind loser).isFunction = true → (s.forest.kind winner).isFunction = true →
      ∀ slot y z, (s.forest.kind loser).child? slot = some y →
        (s.forest.kind winner).child? slot = some z → s.Joined y z)
    (hmerge : merge loser winner s = some (r, u)) : Ripens part base s u := by
  unfold merge at hmerge
  rcases ite_eq_some.1 hmerge with ⟨-, hmerge⟩ | ⟨hne, hmerge⟩
  · obtain ⟨-, rfl⟩ := pure_eq_some.1 hmerge
    exact .refl h
  obtain ⟨probing, s₁, hprobe, hmerge⟩ := bind_eq_some.1 hmerge
  obtain ⟨rfl, rfl⟩ := isProbe_eq_some.1 hprobe
  rw [h.commits, if_neg Bool.false_ne_true] at hmerge
  replace hmerge := of_bind_view hmerge
  rcases ite_eq_some.1 hmerge with ⟨herror, hmerge⟩ | ⟨herror, hmerge⟩
  · exact settle_ripens h hl hw hwinner (.of_isError hl.root herror) hmerge
  replace hmerge := of_bind_view hmerge
  cases hk : mergedKind (s.forest.kind loser) (s.forest.kind winner) with
  | none =>
    simp only [hk] at hmerge
    exact clash_ripens h hl hw hloser (of_bind_view hmerge)
  | some k =>
    simp only [hk] at hmerge
    obtain ⟨v, s₁, hset, hmerge⟩ := bind_eq_some.1 hmerge
    obtain rfl := change_eq_some.1 hset
    -- The winner takes over what is known of the loser, and then the loser is merged into it.
    obtain ⟨hrefines, -⟩ := mergedKind_refines hl.root hw.root hvar harity hk
    obtain ⟨hmatures, hmatures'⟩ :=
      mergedKind_matures (joined_equivalence s) hl.root hw.root hvar harity hchildren hk
    have hsteady := Forest.refine_steady h.sound.forest.rooted hrefines
    obtain ⟨hshape, hchild⟩ := mergedKind_shape hk
    have hplain : k.isNilable = false := by
      rcases hshape with hshape | hshape <;> rw [Kind.isNilable_eq_of_shape hshape]
      · exact h.plain loser hloser hl
      · exact h.plain winner hwinner hw
    have hr := h.ripens_setKind hrefines hmatures' <|
      h.setKind hw hrefines (h.lt_base hw (Bool.eq_false_iff.2 herror)) hplain fun slot z hz =>
        (hchild slot z hz).elim (h.closed loser slot z hloser hl)
          (h.closed winner slot z hwinner hw)
    refine hr.trans (settle_ripens hr.tame (hl.of_steady hsteady) (hw.of_steady hsteady) hwinner ?_ hmerge)
    dsimp only
    rw [Forest.kind_setKind, if_neg fun e => hne e.1.symm, Forest.kind_setKind, if_pos ⟨rfl, hw.lt⟩]
    exact hmatures.mono fun _ _ => hr.advances.joined

/-- Nothing has to match when a class without slots is merged into another. -/
theorem merge_leaf_ripens (hl : s.forest.IsClass loser) (hw : s.forest.IsClass winner)
    (hloser : part loser) (hwinner : part winner)
    (hslots : (s.forest.kind loser).slots.isEmpty = true)
    (hmerge : merge loser winner s = some (r, u)) : Ripens part base s u := by
  refine merge_ripens h hl hw hloser hwinner (fun _ => Kind.children_of_slots hl.root hslots)
    (fun n m hn => ?_) (fun _ _ slot y z hy => ?_) hmerge
  · rw [Kind.arity?_of_slots hslots] at hn
    cases hn
  · have hmem := Kind.mem_slots.2 (Option.isSome_of_eq_some hy)
    rw [List.isEmpty_iff.1 hslots] at hmem
    cases hmem

/-- An error wins over anything, and a variable has no slots to lose. -/
theorem merge_joined_ripens (hl : s.forest.IsClass loser) (hw : s.forest.IsClass winner)
    (hloser : part loser) (hwinner : part winner)
    (hcase : s.forest.kind loser = .var ∨ (s.forest.kind winner).isError = true)
    (hmerge : merge loser winner s = some (r, u)) : Ripens part base s u := by
  rcases hcase with hvar | herror
  · exact merge_leaf_ripens h hl hw hloser hwinner (by rw [hvar]; rfl) hmerge
  · obtain ⟨cause, herror⟩ := Kind.isError_iff.1 herror
    refine merge_ripens h hl hw hloser hwinner (fun hvar => ?_) (fun n m _ hm => ?_)
      (fun _ hfunction => ?_) hmerge
    · rw [herror] at hvar
      cases hvar
    · rw [herror] at hm
      cases hm
    · rw [herror] at hfunction
      cases hfunction

end Merging

/-! ## Fields of records -/

section Fields

variable {label : String} (h : Tame part base s)

include h

private theorem addField_ripens {value : TermId} (hvalue : value < s.forest.size)
    (hpart : part (s.forest.rep value)) (hadd : addField x label value s = some (r, u)) :
    Ripens part base s u := by
  obtain ⟨hp, hsteady⟩ := addField_proceeds h.sound h.commits hvalue hadd
  refine .of_steady ((addField_returns h hvalue hpart).of_run hadd) h.sound hp
    (edits_sameMet.addField _ _ _ _ _ _ hadd) hsteady fun c hc => ?_
  cases hrecord : (s.forest.kind x).isRecord with
  | true =>
    rw [addField_record hrecord] at hadd
    cases hadd
    refine (Forest.kind_withField _ _ _ _ _).trans (if_neg fun e => ?_)
    rw [e, hc] at hrecord
    cases hrecord
  | false =>
    rw [addField_of_not_isRecord hrecord] at hadd
    cases hadd
    rfl

private theorem dropField_ripens (hpart : part x) (hdrop : dropField x label s = some (r, u)) :
    Ripens part base s u := by
  obtain ⟨hp, hsteady⟩ := dropField_proceeds h.sound h.commits hdrop
  refine .of_steady ((dropField_returns h hpart).of_run hdrop) h.sound hp
    (edits_sameMet.dropField _ _ _ _ _ hdrop) hsteady fun c hc => ?_
  cases hchild : (s.forest.kind x).child? (.field label) with
  | none =>
    rw [dropField_of_none hchild] at hdrop
    cases hdrop
    rfl
  | some y =>
    obtain ⟨fields, sites, isOpen, nil, hk, hy⟩ := Kind.eq_record_of_child? hchild
    rw [dropField_record hk (by rw [hy]; rfl)] at hdrop
    cases hdrop
    refine (Forest.kind_setKind _ _ _ _).trans (if_neg fun e => ?_)
    rw [← e.1, hk] at hc
    cases hc

/-- More is known of two records with the same labels. -/
theorem balanceLabels_ripens {labels : List String} {this that : TermId} {progress : Bool}
    (hthat : s.forest.IsClass that) (hpthat : part that)
    (hbalance : balanceLabels this that labels progress s = some (r, u)) : Ripens part base s u := by
  induction labels generalizing progress s with
  | nil =>
    obtain ⟨-, rfl⟩ := pure_eq_some.1 hbalance
    exact .refl h
  | cons label rest ih =>
    have hrest : ∀ {changed s₁}, Ripens part base s s₁ → s₁.forest.IsClass that →
        balanceLabels this that rest (progress || changed) s₁ = some (r, u) → Ripens part base s u :=
      fun hr hthat₁ hbalance => hr.trans (ih hr.tame hthat₁ hbalance)
    replace hbalance := of_bind_view hbalance
    rcases ite_eq_some.1 hbalance with ⟨-, hbalance⟩ | ⟨-, hbalance⟩
    · exact ih h hthat hbalance
    replace hbalance := of_bind_view hbalance
    rcases ite_eq_some.1 hbalance with ⟨-, hbalance⟩ | ⟨-, hbalance⟩
    · obtain ⟨rhs?, s₁, hchild, hbalance⟩ := bind_eq_some.1 hbalance
      obtain ⟨hlooks, hclass⟩ := child_looks h.sound hchild
      have hr := h.ripens_looks hlooks
      have hthat₁ := hthat.of_steady (hlooks.steady h.sound)
      cases rhs? with
      | none => exact hrest hr hthat₁ hbalance
      | some rhs =>
        obtain ⟨changed, s₂, hadd, hbalance⟩ := bind_eq_some.1 hbalance
        have hrhs := hclass rhs rfl
        have hprhs : part rhs := by
          have heq := child_eq h.sound hchild
          obtain ⟨z, hz, rfl⟩ := Option.map_eq_some_iff.1 heq.symm
          exact h.closed that _ z hpthat hthat hz
        refine hrest (hr.trans (addField_ripens hr.tame hrhs.lt (by rwa [hrhs.rep_eq]) hadd))
          (hthat₁.of_steady ?_) hbalance
        exact (addField_proceeds hr.tame.sound hr.tame.commits hrhs.lt hadd).2
    · obtain ⟨changed, s₁, hdrop, hbalance⟩ := bind_eq_some.1 hbalance
      exact hrest (dropField_ripens h hpthat hdrop)
        (hthat.of_steady (dropField_proceeds h.sound h.commits hdrop).2) hbalance

end Fields

/-! ## Unifying -/

/-- If two classes are functions, what has the same place in both is joined. -/
def FunctionsMatch (s : Unifier) (x y : TermId) (slot : Slot) : Prop :=
  (s.forest.kind (s.forest.rep x)).isFunction = true →
    (s.forest.kind (s.forest.rep y)).isFunction = true → s.Matched x y slot

/-- The computation lets more be known of the part, and joins the terms. -/
def Ripening (part : TermId → Prop) (base : Nat) (rec : TermId → TermId → UnifyM Bool) : Prop :=
  ∀ c d s r u, Tame part base s → c < s.forest.size → d < s.forest.size → part (s.forest.rep c) →
    part (s.forest.rep d) → rec c d s = some (r, u) → Ripens part base s u ∧ u.Joined c d

/-- Functions match later if their children are joined by then. -/
theorem Ripens.functionsMatch (h : Ripens part base s u) (hs : Tame part base s)
    (hx : s.forest.IsClass x) (hy : s.forest.IsClass y) (hpx : part x) (hpy : part y)
    (hvar : s.forest.kind x ≠ .var) (hvar' : s.forest.kind y ≠ .var) {slot : Slot}
    (hjoined : ∀ c d, (s.forest.kind x).child? slot = some c → (s.forest.kind y).child? slot = some d →
      u.Joined c d) : u.FunctionsMatch x y slot := by
  intro hfx hfy c' d' hc' hd'
  have hmx := h.matures hx hpx
  have hmy := h.matures hy hpy
  have hE := joined_equivalence u
  obtain ⟨c, hc, hcc⟩ :=
    hmx.exists_child? (hmx.accrues.isFunction_of hvar (hs.plain x hpx hx) hfx) hc'
  obtain ⟨d, hd, hdd⟩ :=
    hmy.exists_child? (hmy.accrues.isFunction_of hvar' (hs.plain y hpy hy) hfy) hd'
  exact hE.trans (hE.symm hcc) (hE.trans (hjoined c d hc hd) hdd)

/-- What is known stays so. -/
theorem Ripens.ne_var (h : Ripens part base s u) (hx : s.forest.IsClass x) (hpx : part x)
    (hvar : s.forest.kind x ≠ .var) : u.forest.kind (u.forest.rep x) ≠ .var := fun e =>
  hvar ((h.matures hx hpx).accrues.eq_var e)

/-- A pair was met, and merged in the end. -/
theorem Ripens.of_meet (h : Ripens part base { s with met := (x, y) :: s.met } u)
    (hrep : u.forest.rep x = u.forest.rep y) : Ripens part base s u where
  tame := h.tame
  size := h.size
  rep := h.rep
  met := (Nat.le_succ _).trans h.met
  advances := h.advances.of_meet hrep
  kinds := h.kinds

section Unify

variable {rec : TermId → TermId → UnifyM Bool} (hrec : Ripening part base rec)

include hrec in
/-- What is done about a child of one class lets more be known, and joins it with that of the other class, if
that has one in the slot. -/
theorem slotStep_ripens {slot : Slot} {this that lhs : TermId} {rhs? : Option TermId} {changed : Bool}
    {s₁ s₂ s₃ : Unifier} (h : Tame part base s) (hthis : s.forest.IsClass this)
    (hthat : s.forest.IsClass that) (hpthis : part this) (hpthat : part that)
    (hchild : child this slot s = some (some lhs, s₁)) (hchild' : child that slot s₁ = some (rhs?, s₂))
    (hstep : SlotStep rec slot that lhs rhs? changed s₂ s₃) :
    Ripens part base s₁ s₃ ∧ ∀ c d, (s₁.forest.kind this).child? slot = some c →
      (s₁.forest.kind that).child? slot = some d → s₃.Joined c d := by
  obtain ⟨hlooks₁, hlhs⟩ := child_looks h.sound hchild
  have hr₁ := h.ripens_looks hlooks₁
  have hsteady₁ := hlooks₁.steady h.sound
  obtain ⟨hlooks₂, hrhs⟩ := child_looks hr₁.tame.sound hchild'
  have hr₂ := hr₁.tame.ripens_looks hlooks₂
  have hlhs₂ := (hlhs lhs rfl).of_steady (hlooks₂.steady hr₁.tame.sound)
  have hplhs : part lhs := by
    have heq := child_eq h.sound hchild
    obtain ⟨z, hz, rfl⟩ := Option.map_eq_some_iff.1 heq.symm
    exact h.closed this slot z hpthis hthis hz
  have hrhs_eq := child_eq hr₁.tame.sound hchild'
  cases hstep with
  | @unified rhs hr hunify =>
    have hrhs₂ := hrhs rhs hr
    obtain ⟨z, hz, hzr⟩ := Option.map_eq_some_iff.1 (hrhs_eq.symm.trans hr)
    have hprhs : part rhs := hzr ▸ hr₁.tame.closed that slot z hpthat (hthat.of_steady hsteady₁) hz
    obtain ⟨hr₃, hjoined⟩ := hrec lhs rhs s₂ changed s₃ hr₂.tame hlhs₂.lt hrhs₂.lt
      (by rwa [hlhs₂.rep_eq]) (by rwa [hrhs₂.rep_eq]) hunify
    refine ⟨hr₂.trans hr₃, fun c d hc hd => ?_⟩
    -- The child of the first class is looked up already when that of the second is.
    obtain rfl : lhs = s₁.forest.rep c := by
      have hrooted := h.sound.forest.rooted
      have heq := child_eq h.sound hchild
      obtain ⟨z, hz, hzc⟩ := ((hlooks₁.calm h.sound (Forest.calm_of_not_nilable hthis.root
        (h.plain this hpthis hthis))).1).child? (Forest.rep_rep hrooted) hc
      rw [hz] at heq
      rw [Option.some.inj heq, hsteady₁.rep]
      rcases hzc with rfl | rfl
      · rfl
      · exact (Forest.rep_rep hrooted z).symm
    obtain rfl : z = d := Option.some.inj (hz.symm.trans hd)
    subst hzr
    have hE := joined_equivalence s₃
    have hrep := (hr₂.advances.trans hr₃.advances).rep_rep hr₁.tame.sound.forest.rooted
    exact hE.trans (joined_of_rep (hrep c).symm) (hE.trans hjoined (joined_of_rep (hrep z)))
  | added hr hslot hopen hadd =>
    refine ⟨hr₂.trans (addField_ripens hr₂.tame hlhs₂.lt (by rwa [hlhs₂.rep_eq]) hadd), fun c d _ hd => ?_⟩
    rw [hr, hd] at hrhs_eq
    cases hrhs_eq
  | kept hr hclosed hchanged e =>
    refine ⟨e ▸ hr₂, fun c d _ hd => ?_⟩
    rw [hr, hd] at hrhs_eq
    cases hrhs_eq

/-- An error is no function, so that all slots match. -/
theorem functionsMatch_of_isError (herror : ((u.forest.kind (u.forest.rep x)).isError ||
    (u.forest.kind (u.forest.rep y)).isError) = true) (slot : Slot) : u.FunctionsMatch x y slot := by
  intro hfx hfy
  rw [Bool.or_eq_true] at herror
  rcases herror with herror | herror <;> obtain ⟨cause, herror⟩ := Kind.isError_iff.1 herror
  · rw [herror] at hfx
    cases hfx
  · rw [herror] at hfy
    cases hfy

include hrec in
/-- The children of two classes are unified in turn. -/
theorem unifySlots_ripens {slots : List Slot} {this that : TermId} {progress : Bool}
    {result : TermId × TermId × Bool} (h : Tame part base s) (hthis : s.forest.IsClass this)
    (hthat : s.forest.IsClass that) (hpthis : part this) (hpthat : part that)
    (hvar : s.forest.kind this ≠ .var) (hvar' : s.forest.kind that ≠ .var)
    (hslots : unifySlots rec slots this that progress s = some (result, u)) :
    Ripens part base s u ∧ ∀ slot ∈ slots, u.FunctionsMatch this that slot := by
  induction slots generalizing this that progress s with
  | nil =>
    obtain ⟨-, rfl⟩ := pure_eq_some.1 hslots
    exact ⟨.refl h, fun slot hslot => absurd hslot List.not_mem_nil⟩
  | cons slot rest ih =>
    rcases unifySlots_cons hslots with ⟨s₁, hchild, hslots⟩ | ⟨lhs, s₁, rhs?, s₂, changed, s₃, this₁, s₄,
      that₁, s₅, hchild, hchild', hstep, hfind, hfind', hslots⟩
    all_goals
      have hlooks₁ := (child_looks h.sound hchild).1
      have hr₁ := h.ripens_looks hlooks₁
      have hthis₁ := hthis.of_steady (hlooks₁.steady h.sound)
      have hthat₁ := hthat.of_steady (hlooks₁.steady h.sound)
      have hvar₁ : s₁.forest.kind this ≠ .var := by
        simpa only [hthis₁.rep_eq] using hr₁.ne_var hthis hpthis hvar
      have hvar₁' : s₁.forest.kind that ≠ .var := by
        simpa only [hthat₁.rep_eq] using hr₁.ne_var hthat hpthat hvar'
    · obtain ⟨hr, hmatch⟩ := ih hr₁.tame hthis₁ hthat₁ hpthis hpthat hvar₁ hvar₁' hslots
      refine ⟨hr₁.trans hr, fun slot' hslot' => ?_⟩
      rcases List.mem_cons.1 hslot' with rfl | hslot'
      · refine (hr₁.trans hr).functionsMatch h hthis hthat hpthis hpthat hvar hvar' fun c d hc _ => ?_
        have hnone := child_eq h.sound hchild
        rw [hc] at hnone
        cases hnone
      · exact hmatch slot' hslot'
    obtain ⟨hr₁₃, hjoined⟩ := slotStep_ripens hrec h hthis hthat hpthis hpthat hchild hchild' hstep
    have hthis₃ : this < s₃.forest.size := Nat.lt_of_lt_of_le hthis₁.lt hr₁₃.size
    have hthat₃ : that < s₃.forest.size := Nat.lt_of_lt_of_le hthat₁.lt hr₁₃.size
    obtain ⟨hlooks₅, -, ⟨rfl, rfl⟩, hthis₅, hthat₅⟩ :=
      find_both hr₁₃.tame.sound hthis₃ hthat₃ hfind hfind'
    have hr₃₅ := hr₁₃.tame.ripens_looks hlooks₅
    have hr₅ := hr₁₃.trans hr₃₅
    have hrep₅ := (hlooks₅.steady hr₁₃.tame.sound).rep
    rcases hslots with ⟨herror, -, rfl⟩ | hslots
    · rw [← hrep₅, ← hrep₅] at herror
      exact ⟨hr₁.trans hr₅, fun slot' _ => functionsMatch_of_isError herror slot'⟩
    · have hvar₅ := hr₅.ne_var hthis₁ hpthis hvar₁
      have hvar₅' := hr₅.ne_var hthat₁ hpthat hvar₁'
      rw [hrep₅] at hvar₅ hvar₅'
      obtain ⟨hr, hmatch⟩ := ih hr₅.tame hthis₅ hthat₅ (hr₁₃.rep this (by rwa [hthis₁.rep_eq]))
        (hr₁₃.rep that (by rwa [hthat₁.rep_eq])) hvar₅ hvar₅' hslots
      refine ⟨hr₁.trans (hr₅.trans hr), fun slot' hslot' => ?_⟩
      rcases List.mem_cons.1 hslot' with rfl | hslot'
      · exact (hr₅.trans hr).functionsMatch hr₁.tame hthis₁ hthat₁ hpthis hpthat hvar₁ hvar₁' fun c d hc hd =>
          hr.advances.joined (hr₃₅.advances.joined (hjoined c d hc hd))
      · have hmatch' := hmatch slot' hslot'
        rw [← hrep₅, ← hrep₅] at hmatch'
        simp only [FunctionsMatch, Matched, hr.advances.rep_rep hr₅.tame.sound.forest.rooted] at hmatch'
        exact hmatch'

/-- Two classes with the same labels are merged, whether one became an error meanwhile or not. -/
theorem mergeHalves_ripens {this that : TermId} {progress : Bool} (h : Tame part base s)
    (hthis : s.forest.IsClass this) (hthat : s.forest.IsClass that) (hpthis : part this)
    (hpthat : part that) (hvar : s.forest.kind that ≠ .var)
    (harity : ∀ n m, (s.forest.kind this).arity? = some n →
      (s.forest.kind that).arity? = some m → n = m)
    (hmatch : ∀ slot, s.FunctionsMatch this that slot)
    (hmerge : mergeHalves this that progress s = some (r, u)) : Ripens part base s u := by
  have hsound := (mergeHalves_proceeds h.sound h.commits hthis hthat hvar harity hmerge).1.sound
  replace hmerge := of_bind_view hmerge
  replace hmerge := of_bind_view hmerge
  rcases ite_eq_some.1 hmerge with ⟨herror, hmerge⟩ | ⟨-, hmerge⟩
  · obtain ⟨v, s₁, hwake, hmerge⟩ := bind_eq_some.1 hmerge
    obtain ⟨merged, s₂, hredirect, hmerge⟩ := bind_eq_some.1 hmerge
    obtain ⟨-, rfl⟩ := pure_eq_some.1 hmerge
    obtain rfl := wake_eq_some.1 hwake
    rw [Bool.and_eq_true, Bool.not_eq_true'] at herror
    have hne : that ≠ this := by
      rintro rfl
      rw [herror.1] at herror
      cases herror.2
    have hr := h.ripens_wake s.forest that
    refine hr.trans (hr.tame.ripens_merges hthis hpthis hne hsound (.of_isError hthat.root herror.1) ?_)
    exact redirect_merges hr.tame.sound hthat hthis hne hredirect
  · obtain ⟨merged, s₁, hmerged, hpure⟩ := bind_eq_some.1 hmerge
    obtain ⟨-, rfl⟩ := pure_eq_some.1 hpure
    refine merge_ripens h hthis hthat hpthis hpthat (fun e => absurd e hvar) harity
      (fun hfunction hfunction' slot => ?_) hmerged
    have hslot := hmatch slot
    rw [FunctionsMatch, Matched, hthis.rep_eq, hthat.rep_eq] at hslot
    exact hslot hfunction hfunction'

/-- Once their children are unified, two classes get the same labels and are merged. -/
theorem mergeChildren_ripens {this that : TermId} {progress : Bool} (h : Tame part base s)
    (hthis : s.forest.IsClass this) (hthat : s.forest.IsClass that) (hpthis : part this)
    (hpthat : part that) (hvar : s.forest.kind that ≠ .var)
    (harity : ∀ n m, (s.forest.kind this).arity? = some n →
      (s.forest.kind that).arity? = some m → n = m)
    (hmatch : ∀ slot, s.FunctionsMatch this that slot)
    (hmerge : mergeChildren this that progress s = some (r, u)) : Ripens part base s u := by
  replace hmerge := of_bind_view hmerge
  replace hmerge := of_bind_view hmerge
  rcases ite_eq_some.1 hmerge with ⟨-, hmerge⟩ | ⟨-, hmerge⟩
  · obtain ⟨progress', s₁, hpure, hmerge⟩ := bind_eq_some.1 hmerge
    obtain ⟨-, rfl⟩ := pure_eq_some.1 hpure
    exact mergeHalves_ripens h hthis hthat hpthis hpthat hvar harity hmatch hmerge
  replace hmerge := of_bind_view hmerge
  obtain ⟨progress', s₁, hbalance, hmerge⟩ := bind_eq_some.1 hmerge
  cases hrecord : (s.forest.kind that).isRecord with
  | false =>
    obtain rfl := balanceLabels_of_not_isRecord hrecord hbalance
    exact mergeHalves_ripens h hthis hthat hpthis hpthat hvar harity hmatch hmerge
  | true =>
    -- A record is no function, also with other labels.
    have hr := balanceLabels_ripens h hthat hpthat hbalance
    have hsteady := (balanceLabels_proceeds h.sound h.commits hbalance).2
    have hthat₁ := hthat.of_steady hsteady
    have hfunction : (s₁.forest.kind that).isFunction = false := by
      have haccrues := (hr.matures hthat hpthat).accrues
      rw [hthat₁.rep_eq] at haccrues
      refine Bool.eq_false_iff.2 fun hfunction => ?_
      have hfunction' := haccrues.isFunction_of hvar (h.plain that hpthat hthat) hfunction
      rw [Kind.isRecord_of_isFunction hfunction'] at hrecord
      cases hrecord
    refine hr.trans (mergeHalves_ripens hr.tame (hthis.of_steady hsteady) hthat₁ hpthis hpthat ?_ ?_ ?_
      hmerge)
    · simpa only [hthat₁.rep_eq] using hr.ne_var hthat hpthat hvar
    · intro n m _ hm
      cases hk : s₁.forest.kind that with
      | function =>
        rw [hk] at hfunction
        cases hfunction
      | _ =>
        rw [hk] at hm
        cases hm
    · intro slot _ hfunction'
      rw [hthat₁.rep_eq, hfunction] at hfunction'
      cases hfunction'

variable (hproceeds : Proceeding rec) (hvars : VarsMeet rec)

include hrec hproceeds hvars in
/-- Two classes of one shape are merged once their children are unified. -/
theorem unifyChildren_ripens (h : Tame part base s) (hx : s.forest.IsClass x)
    (hy : s.forest.IsClass y) (hpx : part x) (hpy : part y) (hvar : s.forest.kind x ≠ .var)
    (hvar' : s.forest.kind y ≠ .var) (hshape : (s.forest.kind x).shape = (s.forest.kind y).shape)
    (hchildren : unifyChildren rec x y s = some (r, u)) :
    Ripens part base s u ∧ u.forest.rep x = u.forest.rep y := by
  have hcalm : ∀ {c}, s.forest.IsClass c → part c → s.forest.Calm c := fun hc hpc =>
    Forest.calm_of_not_nilable hc.root (h.plain _ hpc hc)
  have hrep := (unifyChildren_proceeds hproceeds hvars h.sound h.commits hx hy (hcalm hx hpx)
    (hcalm hy hpy) hvar hvar' hshape hchildren).2
  refine ⟨?_, hrep⟩
  replace hchildren := of_bind_view hchildren
  obtain ⟨⟨this, that, progress⟩, s₁, hslots, hmerge⟩ := bind_eq_some.1 hchildren
  obtain ⟨hp₁, rfl, rfl⟩ := unifySlots_proceeds hproceeds h.sound h.commits hx hy hslots
  obtain ⟨hr₁, hmatch⟩ := unifySlots_ripens hrec h hx hy hpx hpy hvar hvar' hslots
  have harity := unifySlots_arities hproceeds hvars h.sound h.commits hx hy (hcalm hx hpx)
    (hcalm hy hpy) hvar hvar' hshape hslots
  have hrooted₁ := hp₁.sound.forest.rooted
  refine hr₁.trans (mergeChildren_ripens hr₁.tame
    (Forest.isClass_rep hp₁.sound.forest (hp₁.lt h.sound hx.lt))
    (Forest.isClass_rep hp₁.sound.forest (hp₁.lt h.sound hy.lt)) (hr₁.rep x (by rwa [hx.rep_eq]))
    (hr₁.rep y (by rwa [hy.rep_eq])) (hr₁.ne_var hy hpy hvar') harity (fun slot => ?_) hmerge)
  rw [FunctionsMatch, Matched, Forest.rep_rep hrooted₁, Forest.rep_rep hrooted₁]
  intro hfunction hfunction' c d hc
  -- A function has the slots that it had at first.
  have hmx := hr₁.matures hx hpx
  obtain ⟨c', hc', -⟩ :=
    hmx.exists_child? (hmx.accrues.isFunction_of hvar (h.plain x hpx hx) hfunction) hc
  exact hmatch slot (Kind.mem_slots.2 (Option.isSome_of_eq_some hc')) hfunction hfunction' c d hc

include hrec hproceeds hvars in
/-- One layer of unification lets more be known if the next one does. -/
theorem unifyStep_ripens : Ripening part base (unifyStep rec) := by
  intro c d s r u h hc hd hpc hpd hstep
  have hunify := hstep
  unfold unifyStep at hunify
  obtain ⟨x, s₁, hfind, hunify⟩ := bind_eq_some.1 hunify
  obtain ⟨y, s₂, hfind', hunify⟩ := bind_eq_some.1 hunify
  obtain ⟨hlooks, -, ⟨rfl, rfl⟩, hx, hy⟩ := find_both h.sound hc hd hfind hfind'
  have hr := h.ripens_looks hlooks
  have h₂ := hr.tame
  suffices hlayer : Ripens part base s₂ u by
    have hall := hr.trans hlayer
    have hrep := hall.advances.rep_rep h.sound.forest.rooted
    refine ⟨hall, ?_⟩
    rcases (unifyStep_proceeds hproceeds hvars h.sound hc hd hstep).2 h.commits with hjoined | hmet
    · exact joined_of_rep hjoined
    · have hE := joined_equivalence u
      exact hE.trans (joined_of_rep (hrep c).symm)
        (hE.trans (joined_of_met (hall.advances.met _ hmet)) (joined_of_rep (hrep d)))
  generalize s.forest.rep c = x at hx hpc hunify
  generalize s.forest.rep d = y at hy hpd hunify
  rcases ite_eq_some.1 hunify with ⟨-, hunify⟩ | ⟨hne, hunify⟩
  · obtain ⟨-, rfl⟩ := pure_eq_some.1 hunify
    exact .refl h₂
  replace hunify := of_bind_view hunify
  replace hunify := of_bind_view hunify
  rcases ite_eq_some.1 hunify with ⟨hslots, hunify⟩ | ⟨-, hunify⟩
  · rw [Bool.and_eq_true] at hslots
    dsimp only at hunify
    rcases ranked_cases x y (s₂.forest.kind x) (s₂.forest.kind y) with hranked | hranked <;>
      rw [hranked] at hunify
    · exact merge_leaf_ripens h₂ hx hy hpc hpd hslots.1 hunify
    · exact merge_leaf_ripens h₂ hy hx hpd hpc hslots.2 hunify
  rcases ite_eq_some.1 hunify with ⟨hcase, hunify⟩ | ⟨hknown, hunify⟩
  · rw [Bool.or_eq_true, Kind.isVar_iff] at hcase
    exact merge_joined_ripens h₂ hx hy hpc hpd hcase hunify
  rcases ite_eq_some.1 hunify with ⟨hcase, hunify⟩ | ⟨hknown', hunify⟩
  · rw [Bool.or_eq_true, Kind.isVar_iff] at hcase
    exact merge_joined_ripens h₂ hy hx hpd hpc hcase hunify
  rw [Bool.or_eq_true, Kind.isVar_iff, not_or, Bool.not_eq_true] at hknown hknown'
  rw [h₂.plain x hpc hx, h₂.plain y hpd hy, Bool.false_and, if_neg Bool.false_ne_true,
    if_neg Bool.false_ne_true] at hunify
  obtain ⟨met, s₃, hmet, hunify⟩ := bind_eq_some.1 hunify
  cases hmet
  rcases ite_eq_some.1 hunify with ⟨-, hunify⟩ | ⟨hmet, hunify⟩
  · obtain ⟨-, rfl⟩ := pure_eq_some.1 hunify
    exact .refl h₂
  rw [List.contains_iff_mem] at hmet
  obtain ⟨v, s₃, hmodify, hunify⟩ := bind_eq_some.1 hunify
  obtain rfl := modify_eq_some.1 hmodify
  obtain ⟨probing, s₃, hprobe, hunify⟩ := bind_eq_some.1 hunify
  obtain ⟨rfl, rfl⟩ := isProbe_eq_some.1 hprobe
  have h₃ := h₂.meet (h₂.lt_base hx hknown'.2) (h₂.lt_base hy hknown.2) hmet
  rw [h₃.commits, if_neg Bool.false_ne_true] at hunify
  rcases ite_eq_some.1 hunify with ⟨-, hunify⟩ | ⟨hshape, hunify⟩
  · replace hunify := of_bind_view hunify
    exact (clash_ripens h₃ hx hy hpc hunify).of_meet
      (clash_proceeds h₃.sound h₃.commits hx hy.lt hunify).2
  · obtain ⟨hr₃, hrep⟩ := unifyChildren_ripens hrec hproceeds hvars h₃ hx hy hpc hpd hknown.1
      hknown'.1 (not_not.1 hshape) hunify
    exact hr₃.of_meet hrep

end Unify

/-- A unification lets more be known of what it unifies. -/
theorem unifyWithin_ripens (depth : Nat) : Ripening part base (unifyWithin depth) := by
  induction depth with
  | zero => exact fun c d s r u _ _ _ _ _ h => (failure_eq_some.1 h).elim
  | succ depth ih =>
    exact unifyStep_ripens ih (unifyWithin_proceeding depth) (unifyWithin_varsMeet depth)

end Unifier

end TypeFlow
