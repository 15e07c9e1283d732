import Mathlib.Order.Defs.Unbundled

/-!
# Computations that may fail

The steps of the solver, and what they do to the forest, are computations `StateT σ Option α`: they
change a state and may have no result.  A fact about all results of such a computation is built up
along its binds.

Main definitions:

- `Keeps`: every result leaves the state in a relation to what it was before.
- `Yields`: something holds of every result.
- `Returns`: there is a result, of which something holds.
- `Outlasts`: one computation has every result that another has.

Main results:

- `bind_eq_some`: a result of two computations in turn comes from one of the first.
- `keeps_bind`: a relation that is a preorder passes through binds.
-/

namespace TypeFlow

variable {σ α β : Type}

/-! ## Results -/

/-- A result of two computations in turn is one of the second, after one of the first. -/
theorem bind_eq_some {m : StateT σ Option α} {f : α → StateT σ Option β} {s t : σ} {b : β} :
    (m >>= f) s = some (b, t) ↔ ∃ a u, m s = some (a, u) ∧ f a u = some (b, t) := by
  have h : (m >>= f) s = (m s).bind fun r => f r.1 r.2 := rfl
  rw [h]
  constructor
  · intro h
    cases hm : m s with
    | none => simp [hm] at h
    | some r =>
      rw [hm, Option.bind_some] at h
      exact ⟨r.1, r.2, rfl, h⟩
  · rintro ⟨a, u, hm, hf⟩
    rw [hm, Option.bind_some, hf]

/-- A computation goes on with the answer of its first part. -/
theorem bind_of_eq {m : StateT σ Option α} {f : α → StateT σ Option β} {s t : σ} {a : α}
    (h : m s = some (a, t)) : (m >>= f) s = f a t := by
  change (m s).bind _ = _
  rw [h]
  rfl

/-- A computation that only answers leaves the state alone. -/
theorem pure_eq_some {a b : α} {s t : σ} :
    (pure a : StateT σ Option α) s = some (b, t) ↔ a = b ∧ s = t := by
  have h : (pure a : StateT σ Option α) s = some (a, s) := rfl
  rw [h, Option.some.injEq, Prod.mk.injEq]

/-- Reading the state answers it. -/
theorem get_eq_some {s t u : σ} :
    (get : StateT σ Option σ) s = some (u, t) ↔ s = u ∧ s = t := by
  have h : (get : StateT σ Option σ) s = some (s, s) := rfl
  rw [h, Option.some.injEq, Prod.mk.injEq]

/-- Modifying the state leaves the modified one. -/
theorem modify_eq_some {f : σ → σ} {s t : σ} :
    (modify f : StateT σ Option Unit) s = some ((), t) ↔ f s = t := by
  have h : (modify f : StateT σ Option Unit) s = some ((), f s) := rfl
  rw [h, Option.some.injEq, Prod.mk.injEq]
  exact and_iff_right rfl

/-- A result of a choice is one of the computation chosen. -/
theorem ite_eq_some {c : Prop} [Decidable c] {m m' : StateT σ Option α} {s t : σ} {a : α} :
    (if c then m else m') s = some (a, t) ↔ c ∧ m s = some (a, t) ∨ ¬c ∧ m' s = some (a, t) := by
  by_cases hc : c
  · rw [if_pos hc]
    exact ⟨fun h => Or.inl ⟨hc, h⟩, fun h => h.elim And.right fun h => absurd hc h.1⟩
  · rw [if_neg hc]
    exact ⟨fun h => Or.inr ⟨hc, h⟩, fun h => h.elim (fun h => absurd h.1 hc) And.right⟩

/-- A failure has no answer. -/
theorem failure_eq_some {s : σ} {r : α × σ} :
    (failure : StateT σ Option α) s = some r ↔ False := by
  have h : (failure : StateT σ Option α) s = none := rfl
  rw [h]
  simp

/-! ## Relations kept -/

/-- Whenever the computation has a result, the relation holds between the state before and the state
after. -/
def Keeps (R : σ → σ → Prop) (m : StateT σ Option α) : Prop :=
  ∀ s a t, m s = some (a, t) → R s t

variable {R : σ → σ → Prop}

/-- A greater relation is kept as well. -/
theorem Keeps.mono {R' : σ → σ → Prop} {m : StateT σ Option α} (h : ∀ s t, R s t → R' s t)
    (hm : Keeps R m) : Keeps R' m := by
  intro s a t hst
  exact h s t (hm s a t hst)

/-- A failure keeps any relation. -/
theorem keeps_failure : Keeps R (failure : StateT σ Option α) := by
  intro s a t h
  rw [failure_eq_some] at h
  exact h.elim

/-- A modification keeps a relation that holds of each state and the modified one. -/
theorem keeps_modify {f : σ → σ} (h : ∀ s, R s (f s)) :
    Keeps R (modify f : StateT σ Option Unit) := by
  intro s a t ht
  rw [modify_eq_some] at ht
  rw [← ht]
  exact h s

section Reflexive

variable [Std.Refl R]

/-- Answering keeps any reflexive relation. -/
theorem keeps_pure (a : α) : Keeps R (pure a : StateT σ Option α) := by
  intro s b t h
  rw [pure_eq_some] at h
  rw [h.2]
  exact Std.Refl.refl t

/-- So does reading the state. -/
theorem keeps_get : Keeps R (get : StateT σ Option σ) := by
  intro s b t h
  rw [get_eq_some] at h
  rw [h.2]
  exact Std.Refl.refl t

end Reflexive

/-- Computations one after the other keep a transitive relation. -/
theorem keeps_bind [IsTrans σ R] {m : StateT σ Option α} {f : α → StateT σ Option β}
    (hm : Keeps R m) (hf : ∀ a, Keeps R (f a)) : Keeps R (m >>= f) := by
  intro s b t h
  obtain ⟨a, u, hu, ht⟩ := bind_eq_some.1 h
  exact IsTrans.trans _ _ _ (hm s a u hu) (hf a u b t ht)

/-- Either branch keeps the relation. -/
theorem keeps_ite {c : Prop} [Decidable c] {m m' : StateT σ Option α} (h : Keeps R m)
    (h' : Keeps R m') : Keeps R (if c then m else m') := by
  split
  · exact h
  · exact h'

/-- What follows something that is done in one case only comes either way. -/
theorem keeps_either {c : Prop} [Decidable c] {m rest : StateT σ Option α} (hrest : Keeps R rest)
    (hthen : Keeps R rest → Keeps R m) : Keeps R (if c then m else rest) :=
  keeps_ite (hthen hrest) hrest

/-- What follows depends on whether something was answered. -/
theorem keeps_bind_option [IsTrans σ R] {m : StateT σ Option (Option α)}
    {f : Option α → StateT σ Option β} (hm : Keeps R m) (hnone : Keeps R (f none))
    (hsome : ∀ a, Keeps R (f (some a))) : Keeps R (m >>= f) := by
  refine keeps_bind hm fun a? => ?_
  cases a? with
  | none => exact hnone
  | some a => exact hsome a

/-! ## Properties of results -/

/-- Whatever the computation answers has the property. -/
def Yields (good : α → Prop) (m : StateT σ Option α) : Prop :=
  ∀ s a t, m s = some (a, t) → good a

section Answers

variable {good : α → Prop} {good' : β → Prop}

/-- A good answer is yielded. -/
theorem yields_pure {a : α} (h : good a) : Yields good (pure a : StateT σ Option α) := by
  intro s b t hr
  rw [← (pure_eq_some.1 hr).1]
  exact h

/-- A computation yields what the rest of it does. -/
theorem yields_bind {m : StateT σ Option β} {k : β → StateT σ Option α}
    (h : ∀ b, Yields good (k b)) : Yields good (m >>= k) := by
  intro s a t hr
  obtain ⟨b, u, -, hk⟩ := bind_eq_some.1 hr
  exact h b u a t hk

/-- So it does if its first part may have no answer. -/
theorem yields_bind_option {m : StateT σ Option (Option β)} {k : Option β → StateT σ Option α}
    (hnone : Yields good (k none)) (hsome : ∀ b, Yields good (k (some b))) :
    Yields good (m >>= k) := by
  refine yields_bind fun b? => ?_
  cases b? with
  | none => exact hnone
  | some b => exact hsome b

/-- What the first part yields is known to the rest. -/
theorem Yields.bind {m : StateT σ Option β} {k : β → StateT σ Option α} (hm : Yields good' m)
    (h : ∀ b, good' b → Yields good (k b)) : Yields good (m >>= k) := by
  intro s a t hr
  obtain ⟨b, u, hb, hk⟩ := bind_eq_some.1 hr
  exact h b (hm s b u hb) u a t hk

/-- Either branch yields good answers. -/
theorem yields_ite {c : Prop} [Decidable c] {m m' : StateT σ Option α} (h : Yields good m)
    (h' : Yields good m') : Yields good (if c then m else m') := by
  split
  · exact h
  · exact h'

end Answers

/-! ## Results that agree -/

/-- From related states the computation has, if any, the same result and leaves related states. -/
def Alike (R : σ → σ → Prop) (m : StateT σ Option α) : Prop :=
  ∀ s s' a a' t t', R s s' → m s = some (a, t) → m s' = some (a', t') → a = a' ∧ R t t'

/-- Answering agrees with itself. -/
theorem alike_pure (a : α) : Alike R (pure a : StateT σ Option α) := by
  intro s s' b b' t t' hs h h'
  obtain ⟨rfl, rfl⟩ := pure_eq_some.1 h
  obtain ⟨rfl, rfl⟩ := pure_eq_some.1 h'
  exact ⟨rfl, hs⟩

private theorem alike_failure : Alike R (failure : StateT σ Option α) := by
  intro s s' a a' t t' hs h
  exact (failure_eq_some.1 h).elim

/-- Computations one after the other agree on related states if each does. -/
theorem alike_bind {m : StateT σ Option α} {f : α → StateT σ Option β} (hm : Alike R m)
    (hf : ∀ a, Alike R (f a)) : Alike R (m >>= f) := by
  intro s s' b b' t t' hs h h'
  obtain ⟨a, u, hu, ht⟩ := bind_eq_some.1 h
  obtain ⟨a', u', hu', ht'⟩ := bind_eq_some.1 h'
  obtain ⟨rfl, hR⟩ := hm s s' a a' u u' hs hu hu'
  exact hf a u u' b b' t t' hR ht ht'

/-! ## Computations that return -/

/-- The computation has a result, of which something holds. -/
def Returns (m : StateT σ Option α) (s : σ) (P : α → σ → Prop) : Prop :=
  ∃ a t, m s = some (a, t) ∧ P a t

/-- An answer is returned at once. -/
theorem returns_pure {a : α} {s : σ} {P : α → σ → Prop} (h : P a s) :
    Returns (pure a : StateT σ Option α) s P :=
  ⟨a, s, pure_eq_some.2 ⟨rfl, rfl⟩, h⟩

/-- Computations one after the other return if each does. -/
theorem returns_bind {m : StateT σ Option α} {f : α → StateT σ Option β} {s : σ}
    {P : α → σ → Prop} {P' : β → σ → Prop} (hm : Returns m s P)
    (hf : ∀ a t, m s = some (a, t) → P a t → Returns (f a) t P') : Returns (m >>= f) s P' := by
  obtain ⟨a, t, hat, ha⟩ := hm
  obtain ⟨b, u, hbu, hb⟩ := hf a t hat ha
  exact ⟨b, u, bind_eq_some.2 ⟨a, t, hat, hbu⟩, hb⟩

/-- Either branch returns. -/
theorem returns_ite {c : Prop} [Decidable c] {m m' : StateT σ Option α} {s : σ} {P : α → σ → Prop}
    (h : c → Returns m s P) (h' : ¬c → Returns m' s P) : Returns (if c then m else m') s P := by
  split
  · rename_i hc
    exact h hc
  · rename_i hc
    exact h' hc

/-- What holds of the result holds of the one that a computation is known to have. -/
theorem Returns.of_run {m : StateT σ Option α} {s t : σ} {a : α} {P : α → σ → Prop}
    (h : Returns m s P) (hrun : m s = some (a, t)) : P a t := by
  obtain ⟨b, u, hrun', hP⟩ := h
  rw [hrun] at hrun'
  cases hrun'
  exact hP

/-- What is returned satisfies any weaker condition. -/
theorem Returns.imp {m : StateT σ Option α} {s : σ} {P P' : α → σ → Prop} (h : Returns m s P)
    (himp : ∀ a t, m s = some (a, t) → P a t → P' a t) : Returns m s P' := by
  obtain ⟨a, t, hat, ha⟩ := h
  exact ⟨a, t, hat, himp a t hat ha⟩

/-! ## Computations that return more often -/

/-- Where the second computation has a result, the first one has the same. -/
def Outlasts (m' m : StateT σ Option α) : Prop := ∀ s r, m s = some r → m' s = some r

/-- A computation outlasts itself. -/
theorem outlasts_refl (m : StateT σ Option α) : Outlasts m m := fun _ _ => id

private theorem Outlasts.trans {m m' m'' : StateT σ Option α} (h : Outlasts m' m) (h' : Outlasts m'' m') :
    Outlasts m'' m := fun s r hr => h' s r (h s r hr)

/-- Any computation outlasts a failure. -/
theorem outlasts_failure (m : StateT σ Option α) : Outlasts m failure :=
  fun _ _ h => (failure_eq_some.1 h).elim

/-- Computations one after the other outlast such as do so part by part. -/
theorem outlasts_bind {m m' : StateT σ Option α} {f f' : α → StateT σ Option β}
    (hm : Outlasts m' m) (hf : ∀ a, Outlasts (f' a) (f a)) : Outlasts (m' >>= f') (m >>= f) := by
  rintro s ⟨b, t⟩ h
  obtain ⟨a, u, hu, ht⟩ := bind_eq_some.1 h
  exact bind_eq_some.2 ⟨a, u, hm s _ hu, hf a u _ ht⟩

/-- What comes first is the same. -/
theorem outlasts_then {m : StateT σ Option α} {f f' : α → StateT σ Option β}
    (hf : ∀ a, Outlasts (f' a) (f a)) : Outlasts (m >>= f') (m >>= f) :=
  outlasts_bind (outlasts_refl m) hf

/-- Either branch outlasts its counterpart. -/
theorem outlasts_ite {c : Prop} [Decidable c] {m m' n n' : StateT σ Option α} (h : Outlasts m' m)
    (h' : Outlasts n' n) : Outlasts (if c then m' else n') (if c then m else n) := by
  split
  · exact h
  · exact h'

/-! ## Properties of computations -/

/-- A property of computations that holds of those composed from such that have it. -/
structure Composes (P : (α : Type) → StateT σ Option α → Prop) : Prop where
  pure : ∀ {α : Type} (a : α), P α (pure a)
  failure : ∀ {α : Type}, P α failure
  bind : ∀ {α β : Type} {m : StateT σ Option α} {f : α → StateT σ Option β},
    P α m → (∀ a, P β (f a)) → P β (m >>= f)

/-- What computations keep is composed of what their parts keep. -/
theorem composes_keeps [IsPreorder σ R] : Composes fun α => Keeps (α := α) R :=
  ⟨keeps_pure, keeps_failure, keeps_bind⟩

/-- So is their agreement on related states. -/
theorem composes_alike : Composes fun α => Alike (α := α) R :=
  ⟨alike_pure, alike_failure, alike_bind⟩

end TypeFlow
