import Mathlib.Logic.Relation
import TypeFlow.Proofs.Unifications

/-!
# Closures of a pair of types

To make two types one, all that has the same place in both has to become one, and so does what that
leads to.  The closure of a pair says which terms those are, whatever order they are merged in.  It is
stated of the types before the unification, for types that are made of variables, base types and
functions.  Such types cannot become one exactly if their closure holds two terms whose kinds clash.

Main definitions:

- `Kind.clashes`: no type is of both kinds.
- `Kind.TurnsInto`: what a kind may have become, if its children are followed along a relation.
- `Forest.Unified`: the closure of a pair of terms.
- `Forest.Simple`: a type is made of variables, base types and functions.
- `Unifier.Merges`: what merging two classes does to the forest.

Main results:

- `Kind.clashes_congr`: what a kind became clashes with the same kinds.
- `Unifier.mergedKind_turnsInto`: both kinds become the merged one, unless they clash.
- `Forest.Unified.concerns`: the closure relates parts of the two types only.
- `Unifier.settle_merges`: merging two classes changes nothing else.
-/

namespace TypeFlow

namespace Flow

/-- A flow is of its own kind. -/
theorem sameKind_self (a : Flow) : a.sameKind a = true := by
  cases a <;> rfl

/-- Widening does not change the kind of a flow. -/
theorem sameKind_widen (a : Flow) : a.sameKind a.widen = true := by
  cases a <;> rfl

/-- The meet of two flows of one kind is of that kind. -/
theorem sameKind_meet_of_sameKind {a b : Flow} (h : a.sameKind b = true) :
    a.sameKind (a.meet b) = true := by
  rcases eq_or_isClassed a with rfl | rfl | ⟨n, rfl⟩ | ha
  · cases b <;> first | rfl | cases h
  · cases b <;> first | rfl | cases h
  · cases b <;> rfl
  · exact sameKind_meet ha h

end Flow

namespace Kind

/-! ## Kinds that clash -/

/-- The kind is a variable, a base type or a function. -/
def isSimple : Kind → Bool
  | var | base _ | function _ _ _ _ => true
  | _ => false

/-- No type is of both kinds: a function and a base type, functions that differ in their number of
parameters, or base types that differ in what values they describe. -/
def clashes : Kind → Kind → Bool
  | function _ _ _ _, base _ | base _, function _ _ _ _ => true
  | function args _ _ _, function args' _ _ _ => args.length != args'.length
  | base p, base q => !p.sameKind q
  | _, _ => false

/-- No kind clashes with itself. -/
theorem clashes_self (k : Kind) : k.clashes k = false := by
  cases k with
  | base p => simp [clashes, Flow.sameKind_self]
  | function args ret fids nil => simp [clashes]
  | _ => rfl

/-- Clashes do not depend on the order. -/
theorem clashes_comm (k k' : Kind) : k.clashes k' = k'.clashes k := by
  cases k with
  | base p =>
    cases k' with
    | base q => simp [clashes, Flow.sameKind_comm p q]
    | _ => rfl
  | function args ret fids nil =>
    cases k' with
    | function args' ret' fids' nil' => simp [clashes, bne, Bool.beq_comm]
    | _ => rfl
  | _ => cases k' <;> rfl

/-- Two simple kinds that are no variables clash unless they have the same shape. -/
theorem clashes_of_shape {k k' : Kind} (hk : k.isSimple = true) (hk' : k'.isSimple = true)
    (hvar : k ≠ .var) (hvar' : k' ≠ .var) (hshape : k.shape ≠ k'.shape) :
    k.clashes k' = true := by
  cases k with
  | var => exact absurd rfl hvar
  | base p =>
    cases k' with
    | var => exact absurd rfl hvar'
    | base q => exact absurd rfl hshape
    | function args ret fids nil => rfl
    | _ => cases hk'
  | function args ret fids nil =>
    cases k' with
    | var => exact absurd rfl hvar'
    | base q => rfl
    | function args' ret' fids' nil' =>
      simp only [shape, ne_eq, Shape.function.injEq] at hshape
      simpa [clashes] using hshape
    | _ => cases hk'
  | _ => cases hk

/-- A simple kind is no wrapper. -/
theorem isNilable_of_isSimple {k : Kind} (h : k.isSimple = true) : k.isNilable = false := by
  cases k <;> first | rfl | cases h

/-- A simple kind is no record. -/
theorem isRecord_of_isSimple {k : Kind} (h : k.isSimple = true) : k.isRecord = false := by
  cases k <;> first | rfl | cases h

/-- A simple kind is no error. -/
theorem isError_of_isSimple {k : Kind} (h : k.isSimple = true) : k.isError = false := by
  cases k <;> first | rfl | cases h

/-- Kinds of one shape that are no records have the same slots. -/
theorem isSome_child?_of_shape {k k' : Kind} (hk : k.isRecord = false) (h : k'.shape = k.shape)
    (slot : Slot) : (k'.child? slot).isSome = (k.child? slot).isSome := by
  cases k with
  | record fields sites isOpen nil => cases hk
  | function args ret fids nil =>
    cases k' with
    | function args' ret' fids' nil' =>
      simp only [shape, Shape.function.injEq] at h
      cases slot with
      | arg i =>
        rw [Bool.eq_iff_iff]
        simp only [child?, Option.isSome_iff_ne_none, ne_eq, List.getElem?_eq_none_iff, h]
      | _ => rfl
    | _ => cases h
  | nilable inner =>
    cases k' with
    | nilable inner' => cases slot <;> rfl
    | _ => cases h
  | _ => cases k' <;> first | rfl | cases h

/-! ## What a kind became -/

/-- What a class of the first kind may have become without an error: its children were replaced by
terms they are related to. -/
inductive TurnsInto (E : TermId → TermId → Prop) : Kind → Kind → Prop
  | var (k : Kind) : TurnsInto E .var k
  | base {p q : Flow} (h : p.sameKind q = true) : TurnsInto E (.base p) (.base q)
  | function {k k' : Kind} (hk : k.isFunction = true) (hshape : k'.shape = k.shape)
      (hchildren : ∀ slot x y, k.child? slot = some x → k'.child? slot = some y → E x y) :
      TurnsInto E k k'

/-- A function is no record. -/
theorem isRecord_of_isFunction {k : Kind} (h : k.isFunction = true) : k.isRecord = false := by
  cases k <;> first | rfl | cases h

/-- What has the shape of a function is one. -/
theorem isFunction_of_shape {k k' : Kind} (hk : k.isFunction = true) (h : k'.shape = k.shape) :
    k'.isFunction = true := by
  cases k with
  | function args ret fids nil => cases k' <;> first | rfl | cases h
  | _ => cases hk

/-- Functions of one arity have the same slots. -/
theorem slots_of_shape {k k' : Kind} (hk : k.isFunction = true) (h : k'.shape = k.shape) :
    k'.slots = k.slots := by
  have hk' := isFunction_of_shape hk h
  cases k with
  | function args ret fids nil =>
    cases k' with
    | function args' ret' fids' nil' =>
      have hlength : args'.length = args.length := by simpa [shape] using h
      rw [slots, slots, hlength]
    | _ => cases hk'
  | _ => cases hk

namespace TurnsInto

variable {E E' : TermId → TermId → Prop} {k k' k'' : Kind}

/-- A simple kind turns into itself. -/
theorem refl (hE : Equivalence E) (h : k.isSimple = true) : k.TurnsInto E k := by
  cases k with
  | var => exact .var _
  | base p => exact .base p.sameKind_self
  | function args ret fids nil =>
    refine .function rfl rfl fun slot x y hx hy => ?_
    cases hx.symm.trans hy
    exact hE.refl x
  | _ => cases h

/-- A kind turns into another one up to any greater equivalence. -/
theorem mono (hE : ∀ x y, E x y → E' x y) (h : k.TurnsInto E k') : k.TurnsInto E' k' := by
  cases h with
  | var => exact .var _
  | base h => exact .base h
  | function hk hshape hchildren =>
    exact .function hk hshape fun slot x y hx hy => hE x y (hchildren slot x y hx hy)

/-- What is known keeps its shape. -/
theorem shape (h : k.TurnsInto E k') (hvar : k ≠ .var) : k'.shape = k.shape := by
  cases h with
  | var => exact absurd rfl hvar
  | base h => rfl
  | function hk hshape hchildren => exact hshape

/-- What is known stays known. -/
theorem ne_var (h : k.TurnsInto E k') (hvar : k ≠ .var) : k' ≠ .var := by
  rintro rfl
  cases h with
  | var => exact hvar rfl
  | function hk hshape hchildren => cases isFunction_of_shape hk hshape

/-- What is known and simple stays simple. -/
theorem isSimple (h : k.TurnsInto E k') (hvar : k ≠ .var) : k'.isSimple = true := by
  cases h with
  | var => exact absurd rfl hvar
  | base h => rfl
  | function hk hshape hchildren =>
    have hk' := isFunction_of_shape hk hshape
    cases k' <;> first | rfl | cases hk'

/-- What is known keeps its slots. -/
theorem isSome_child? (h : k.TurnsInto E k') (hvar : k ≠ .var) (slot : Slot) :
    (k'.child? slot).isSome = (k.child? slot).isSome := by
  cases h with
  | var => exact absurd rfl hvar
  | base h => cases slot <;> rfl
  | function hk hshape hchildren =>
    exact isSome_child?_of_shape (isRecord_of_isFunction hk) hshape slot

/-- Children stay equivalent to those that they were. -/
theorem child? (h : k.TurnsInto E k') {slot : Slot} {x y : TermId} (hx : k.child? slot = some x)
    (hy : k'.child? slot = some y) : E x y := by
  cases h with
  | var => cases slot <;> cases hx
  | base h => cases slot <;> cases hx
  | function hk hshape hchildren => exact hchildren slot x y hx hy

/-- A child of what a kind became was a child in the same slot. -/
theorem exists_child? (h : k.TurnsInto E k') (hvar : k ≠ .var) {slot : Slot} {y : TermId}
    (hy : k'.child? slot = some y) : ∃ x, k.child? slot = some x ∧ E x y := by
  have hsome := h.isSome_child? hvar slot
  rw [hy] at hsome
  obtain ⟨x, hx⟩ := Option.isSome_iff_exists.1 hsome.symm
  exact ⟨x, hx, h.child? hx hy⟩

/-- Kinds turn into others in turn. -/
theorem trans (hE : Equivalence E) (h : k.TurnsInto E k') (h' : k'.TurnsInto E k'') :
    k.TurnsInto E k'' := by
  cases h with
  | var => exact .var _
  | base h =>
    cases h' with
    | base h' => exact .base (by rw [Flow.sameKind_congr h, h'])
    | function hk => cases hk
  | function hk hshape hchildren =>
    have hk' := isFunction_of_shape hk hshape
    have hvar' : k' ≠ .var := by
      rintro rfl
      cases hk'
    refine .function hk ((h'.shape hvar').trans hshape) fun slot x z hx hz => ?_
    obtain ⟨y, hy, hyz⟩ := h'.exists_child? hvar' hz
    exact hE.trans (hchildren slot x y hx hy) hyz

/-- A kind that became one and then another says what the first has to do with the second. -/
theorem cancel (hE : Equivalence E) (hvar : k ≠ .var) (h : k.TurnsInto E k') (h' : k.TurnsInto E k'') :
    k'.TurnsInto E k'' := by
  cases h with
  | var => exact absurd rfl hvar
  | base h =>
    cases h' with
    | base h' => exact .base (by rw [← Flow.sameKind_congr h, h'])
    | function hk => cases hk
  | function hk hshape hchildren =>
    refine .function (isFunction_of_shape hk hshape) ((h'.shape hvar).trans hshape.symm)
      fun slot y z hy hz => ?_
    obtain ⟨x, hx, hxz⟩ := h'.exists_child? hvar hz
    exact hE.trans (hE.symm (hchildren slot x y hx hy)) hxz

end TurnsInto

/-- What a kind became clashes with the same kinds. -/
theorem clashes_congr {E : TermId → TermId → Prop} {k k' : Kind} (h : k.TurnsInto E k')
    (hvar : k ≠ .var) (l : Kind) : k'.clashes l = k.clashes l := by
  cases h with
  | var => exact absurd rfl hvar
  | base h =>
    cases l with
    | base q => simp only [clashes, Flow.sameKind_congr h]
    | _ => rfl
  | function hk hshape hchildren =>
    have hk' := isFunction_of_shape hk hshape
    cases k with
    | function args ret fids nil =>
      cases k' with
      | function args' ret' fids' nil' =>
        simp only [shape, Shape.function.injEq] at hshape
        cases l with
        | function args'' ret'' fids'' nil'' => simp only [clashes, hshape]
        | _ => rfl
      | _ => cases hk'
    | _ => cases hk

/-- Two kinds that became the same do not clash. -/
theorem not_clashes_of_turnsInto {E : TermId → TermId → Prop} {k k' m : Kind} (h : k.TurnsInto E m)
    (h' : k'.TurnsInto E m) : k.clashes k' = false := by
  by_cases hvar : k = .var
  · rw [hvar]
    rfl
  by_cases hvar' : k' = .var
  · rw [hvar', clashes_comm]
    rfl
  rw [← clashes_congr h hvar, clashes_comm, ← clashes_congr h' hvar', clashes_self]

/-- Widening leaves base types what they are. -/
theorem turnsInto_widenedKind {E : TermId → TermId → Prop} (hE : Equivalence E) {k : Kind}
    (h : k.isSimple = true) : k.TurnsInto E (Forest.widenedKind k) := by
  cases k with
  | base p => exact .base p.sameKind_widen
  | _ => exact .refl hE h

/-- Looking up children replaces them by terms of their classes. -/
theorem Refreshed.turnsInto {E : TermId → TermId → Prop} (hE : Equivalence E) {r : TermId → TermId}
    (hr : ∀ x, r (r x) = r x) (hrep : ∀ x, E x (r x)) {k k' : Kind} (hk : k.isSimple = true)
    (h : k.Refreshed r k') : k.TurnsInto E k' := by
  cases k with
  | var => exact .var _
  | base p =>
    have hk' : k' = .base p := by
      induction h with
      | refl => rfl
      | tail _ hstep ih =>
        obtain ⟨slot, x, hx, rfl⟩ := hstep
        subst ih
        cases slot <;> cases hx
    rw [hk']
    exact .refl hE rfl
  | function args ret fids nil =>
    refine .function rfl h.shape fun slot x y hx hy => ?_
    obtain ⟨x', hx', hy'⟩ := h.child? hr hy
    cases hx.symm.trans hx'
    rcases hy' with rfl | rfl
    · exact hE.refl _
    · exact hrep x
  | _ => cases hk

end Kind

namespace Forest

/-! ## The closure of two terms -/

/-- The closure of a pair of terms: the least equivalence that relates the two, and terms of one class,
and whatever has the same place in two functions that it relates. -/
inductive Unified (f : Forest) (a b : TermId) : TermId → TermId → Prop
  | pair : Unified f a b a b
  | same {x y : TermId} (h : f.rep x = f.rep y) : Unified f a b x y
  | symm {x y : TermId} (h : Unified f a b x y) : Unified f a b y x
  | trans {x y z : TermId} (h : Unified f a b x y) (h' : Unified f a b y z) : Unified f a b x z
  | child {x y c d : TermId} {slot : Slot} (h : Unified f a b x y)
      (hx : (f.kind (f.rep x)).isFunction = true) (hy : (f.kind (f.rep y)).isFunction = true)
      (hc : (f.kind (f.rep x)).child? slot = some c)
      (hd : (f.kind (f.rep y)).child? slot = some d) : Unified f a b c d

/-- The closure of the two terms holds two whose kinds clash. -/
def Clashing (f : Forest) (a b : TermId) : Prop :=
  ∃ x y, f.Unified a b x y ∧ (f.kind (f.rep x)).clashes (f.kind (f.rep y)) = true

/-- The type is made of variables, base types and functions. -/
def Simple (f : Forest) (t : TermId) : Prop :=
  ∀ c, f.Reaches (f.rep t) c → (f.kind c).isSimple = true

/-- The term stands for a part of one of two types. -/
def Concerns (f : Forest) (a b x : TermId) : Prop :=
  f.Reaches (f.rep a) (f.rep x) ∨ f.Reaches (f.rep b) (f.rep x)

variable {f : Forest} {a b x y : TermId}

/-- A unification concerns its first term. -/
theorem concerns_left : f.Concerns a b a := Or.inl .refl

/-- It concerns its second term. -/
theorem concerns_right : f.Concerns a b b := Or.inr .refl

/-- All that the unification of simple types concerns is simple. -/
theorem Concerns.isSimple (ha : f.Simple a) (hb : f.Simple b) (h : f.Concerns a b x) :
    (f.kind (f.rep x)).isSimple = true :=
  h.elim (ha _) (hb _)

/-- A unification concerns the children of what it concerns. -/
theorem Concerns.child {slot : Slot} (h : f.Concerns a b x)
    (hy : (f.kind (f.rep x)).child? slot = some y) : f.Concerns a b y :=
  h.imp (.tail · ⟨slot, y, hy, rfl⟩) (.tail · ⟨slot, y, hy, rfl⟩)

private theorem Concerns.congr (h : f.Concerns a b x) (hrep : f.rep x = f.rep y) : f.Concerns a b y := by
  rwa [Concerns, ← hrep]

/-- Terms that are related without being of one class stand for parts of the two types. -/
theorem Unified.concerns (h : f.Unified a b x y) :
    f.rep x = f.rep y ∨ f.Concerns a b x ∧ f.Concerns a b y := by
  induction h with
  | pair => exact Or.inr ⟨concerns_left, concerns_right⟩
  | same h => exact Or.inl h
  | symm _ ih => exact ih.imp Eq.symm And.symm
  | trans _ _ ih ih' =>
    rcases ih with hrep | ⟨hx, hy⟩
    · rcases ih' with hrep' | ⟨hy, hz⟩
      · exact Or.inl (hrep.trans hrep')
      · exact Or.inr ⟨hy.congr hrep.symm, hz⟩
    · rcases ih' with hrep' | ⟨-, hz⟩
      · exact Or.inr ⟨hx, hy.congr hrep'⟩
      · exact Or.inr ⟨hx, hz⟩
  | child _ hx hy hc hd ih =>
    rcases ih with hrep | ⟨hx', hy'⟩
    · rw [hrep, hd] at hc
      cases hc
      exact Or.inl rfl
    · exact Or.inr ⟨hx'.child hc, hy'.child hd⟩

/-- It concerns what is unified with what it concerns. -/
theorem Concerns.of_unified (h : f.Concerns a b x) (hxy : f.Unified a b x y) :
    f.Concerns a b y := by
  rcases hxy.concerns with hrep | ⟨-, hy⟩
  · exact h.congr hrep
  · exact hy

end Forest

open Forest (IsClass Steady widenedKind)

namespace Unifier

/-! ## Merging two classes -/

/-- Kinds that clash have no merged kind, unless they are functions. -/
theorem mergedKind_of_clashes {kl kw : Kind} (h : kl.clashes kw = true)
    (harity : ∀ n m, kl.arity? = some n → kw.arity? = some m → n = m) :
    mergedKind kl kw = none := by
  cases kl with
  | base p =>
    cases kw with
    | base q =>
      have hne : p.sameKind q = false := by simpa [Kind.clashes] using h
      exact if_neg (by rw [hne]; exact Bool.false_ne_true)
    | function args ret fids nil => rfl
    | _ => cases h
  | function args ret fids nil =>
    cases kw with
    | base q => rfl
    | function args' ret' fids' nil' =>
      have hne : args.length ≠ args'.length := by simpa [Kind.clashes] using h
      exact absurd (harity _ _ rfl rfl) hne
    | _ => cases h
  | _ => cases h

/-- Of two simple kinds without slots a variable wins only over a variable. -/
theorem ranked_simple {x y : TermId} {kx ky : Kind} (hx : kx.isSimple = true) (hy : ky.isSimple = true)
    (hslots : kx.slots.isEmpty = true) (hslots' : ky.slots.isEmpty = true) :
    (ranked x y kx ky = (x, y) ∧ (ky = .var → kx = .var)) ∨
      (ranked x y kx ky = (y, x) ∧ (kx = .var → ky = .var)) := by
  cases kx with
  | var =>
    cases ky with
    | var =>
      rcases ranked_cases x y .var .var with h | h
      · exact Or.inl ⟨h, fun _ => rfl⟩
      · exact Or.inr ⟨h, fun _ => rfl⟩
    | base q => exact Or.inl ⟨rfl, fun h => by cases h⟩
    | function args ret fids nil => simp [Kind.slots] at hslots'
    | _ => cases hy
  | base p =>
    cases ky with
    | var => exact Or.inr ⟨rfl, fun h => by cases h⟩
    | base q =>
      rcases ranked_cases x y (.base p) (.base q) with h | h
      · exact Or.inl ⟨h, fun h => by cases h⟩
      · exact Or.inr ⟨h, fun h => by cases h⟩
    | function args ret fids nil => simp [Kind.slots] at hslots'
    | _ => cases hy
  | function args ret fids nil => simp [Kind.slots] at hslots
  | _ => cases hx

/-- Both kinds become the merged one, unless they clash.  The winner is no variable unless both
are. -/
theorem mergedKind_turnsInto {E : TermId → TermId → Prop} (hE : Equivalence E) {kl kw : Kind}
    (hl : kl.isSimple = true) (hw : kw.isSimple = true) (hvar : kw = .var → kl = .var)
    (hchildren : ∀ slot x y, kl.child? slot = some x → kw.child? slot = some y → E x y)
    (hclash : kl.clashes kw = false) :
    ∃ k, mergedKind kl kw = some k ∧ kl.TurnsInto E k ∧ kw.TurnsInto E k ∧ (kw = .var → k = .var) := by
  cases kl with
  | var => exact ⟨kw, rfl, .var _, .refl hE hw, id⟩
  | base p =>
    cases kw with
    | var => cases hvar rfl
    | base q =>
      have hsame : p.sameKind q = true := by simpa [Kind.clashes] using hclash
      have hmeet := Flow.sameKind_meet_of_sameKind hsame
      refine ⟨.base (p.meet q), if_pos hsame, .base hmeet, .base ?_, fun h => ?_⟩
      · rw [← Flow.sameKind_congr hsame, hmeet]
      · cases h
    | function args ret fids nil => cases hclash
    | _ => cases hw
  | function args ret fids nil =>
    cases kw with
    | var => cases hvar rfl
    | base q => cases hclash
    | function args' ret' fids' nil' =>
      have hlength : args.length = args'.length := by simpa [Kind.clashes] using hclash
      refine ⟨_, rfl, .function rfl (by rw [Kind.shape, Kind.shape, hlength]) ?_,
        .function rfl rfl ?_, fun h => ?_⟩
      · intro slot x y hx hy
        refine hchildren slot x y hx ?_
        cases slot <;> exact hy
      · intro slot x y hx hy
        have hxy : x = y := by
          cases slot <;> cases hx.symm.trans hy <;> rfl
        rw [hxy]
        exact hE.refl y
      · cases h
    | _ => cases hw
  | _ => cases hl

/-- One class was merged into another, and base types may have been widened. -/
structure Merges (loser winner : TermId) (s u : Unifier) : Prop where
  probe : u.work.isNone = s.work.isNone
  met : u.met = s.met
  size : u.forest.size = s.forest.size
  rep : ∀ x, u.forest.rep x = if s.forest.rep x = loser then winner else s.forest.rep x
  kind : ∀ c, c ≠ loser →
    u.forest.kind c = s.forest.kind c ∨ u.forest.kind c = widenedKind (s.forest.kind c)

section Merges

variable {s u : Unifier} {loser winner : TermId} {r : Bool}

/-- Redirecting a class to another one merges the two. -/
theorem redirect_merges (hs : s.Sound) (hl : s.forest.IsClass loser)
    (hw : s.forest.IsClass winner) (hne : loser ≠ winner)
    (h : redirect loser winner s = some (r, u)) : Merges loser winner s u := by
  unfold redirect at h
  rw [if_neg hne] at h
  obtain ⟨v, s₁, hlink, h⟩ := bind_eq_some.1 h
  obtain ⟨-, rfl⟩ := pure_eq_some.1 h
  obtain rfl := change_eq_some.1 hlink
  refine ⟨rfl, rfl, Forest.size_link _ _ _, fun x => ?_, fun c hc => Or.inl ?_⟩
  · exact Forest.rep_link_eq hs.forest.rooted hl.root hw.root hne hl.lt hw.lt x
  · exact (Forest.kind_link hl.lt c).trans (if_neg hc.symm)

/-- Merging two classes changes nothing else. -/
theorem settle_merges (hs : s.Sound) (hwork : s.work.isNone = false) (hl : s.forest.IsClass loser)
    (hw : s.forest.IsClass winner) (hne : loser ≠ winner)
    (h : settle loser winner s = some (r, u)) : Merges loser winner s u := by
  have hkind : ∀ c, c ≠ loser →
      u.forest.kind c = s.forest.kind c ∨ u.forest.kind c = widenedKind (s.forest.kind c) := by
    intro c hc
    rcases settle_kinds hl.lt h hc with e | e <;> rw [e]
    · exact Or.inl rfl
    · exact Forest.kind_widenInputs_or _ _ _
  rw [settle_eq hwork hne] at h
  cases h
  -- Classes are what they were when the link is made.
  have hsteady := Forest.passInput_steady hs.forest.rooted loser winner
  have hl₁ := hl.of_steady hsteady
  have hw₁ := hw.of_steady hsteady
  refine ⟨by simp, rfl, ?_, fun x => ?_, hkind⟩
  · exact (Forest.size_link _ _ _).trans (Forest.size_passInput _ _ _)
  · dsimp only
    rw [Forest.rep_link_eq hsteady.rooted hl₁.root hw₁.root hne hl₁.lt hw₁.lt, hsteady.rep]

end Merges

end Unifier

end TypeFlow
