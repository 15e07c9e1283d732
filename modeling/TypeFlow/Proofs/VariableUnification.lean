import TypeFlow.Forest.Unify
import TypeFlow.Proofs.Growth

/-!
# Unifying a variable

Unifying a variable with another term merges the two classes and does nothing else: neither side's
children are unified, and no type is lost.  While a program is prepared all unifications are of this
kind.

Main definitions:

- `Unifier.Merged`: what a unification that merges two classes leaves.

Main results:

- `Unifier.unify_merged`: unifying a variable merges its class with that of the other term.
-/

namespace TypeFlow

namespace Forest

private theorem update_eq_self {f : Forest} {t : TermId} {change : Term → Term}
    (h : ∀ term, f.terms[t]? = some term → change term = term) : f.update t change = f := by
  obtain ⟨terms, unions⟩ := f
  have hterms : terms.modify t change = terms := by
    apply Array.ext_getElem?
    intro i
    rw [Array.getElem?_modify]
    split
    · rename_i e
      subst e
      cases hterm : terms[t]? with
      | none => rfl
      | some term => rw [Option.map_some, h term hterm]
    · rfl
  rw [update, hterms]

/-- Setting the kind that a term has changes nothing. -/
theorem setKind_kind (f : Forest) (t : TermId) : f.setKind t (f.kind t) = f := by
  apply update_eq_self
  intro term hterm
  rw [kind, hterm]

end Forest

namespace Unifier

variable {α : Type}

/-! ## Access -/

/-- Reading the forest changes nothing. -/
theorem view_eq_some {read : Forest → α} {s t : Unifier} {a : α} :
    view read s = some (a, t) ↔ read s.forest = a ∧ s = t := by
  have h : view read s = some (read s.forest, s) := rfl
  rw [h, Option.some.injEq, Prod.mk.injEq]

/-- A change of the forest changes nothing else. -/
theorem change_eq_some {f : Forest → Forest} {s t : Unifier} {u : Unit} :
    change f s = some (u, t) ↔ t = { s with forest := f s.forest } := by
  have h : change f s = some ((), { s with forest := f s.forest }) := rfl
  rw [h, Option.some.injEq, Prod.mk.injEq, eq_comm (a := t)]
  exact and_iff_right rfl

/-- A computation on the forest changes nothing else. -/
theorem onForest_eq_some {run : ForestM α} {s t : Unifier} {a : α} :
    onForest run s = some (a, t) ↔
      ∃ forest, run s.forest = some (a, forest) ∧ t = { s with forest := forest } := by
  have h : onForest run s = (run s.forest).map fun r => (r.1, { s with forest := r.2 }) := rfl
  rw [h]
  constructor
  · intro h
    obtain ⟨r, hr, e⟩ := Option.map_eq_some_iff.1 h
    rw [Prod.mk.injEq] at e
    refine ⟨r.2, ?_, e.2.symm⟩
    rw [hr, ← e.1]
  · rintro ⟨forest, hr, rfl⟩
    rw [hr, Option.map_some]

/-- A probe is told by the lack of a queue. -/
theorem isProbe_eq_some {s t : Unifier} {b : Bool} :
    isProbe s = some (b, t) ↔ s.work.isNone = b ∧ s = t := by
  have h : isProbe s = some (s.work.isNone, s) := rfl
  rw [h, Option.some.injEq, Prod.mk.injEq]

/-- What a function says of the forest is known at once. -/
theorem of_bind_view {β : Type} {read : Forest → β} {f : β → UnifyM α} {s t : Unifier} {a : α}
    (h : (view read >>= f) s = some (a, t)) : f (read s.forest) s = some (a, t) := h

/-- A probe ends where something would be changed. -/
theorem unless_probe {b : α} {rest : UnifyM α} {s t : Unifier} {a : α}
    (h : (isProbe >>= fun probing => if probing then pure b else rest) s = some (a, t)) :
    s = t ∨ s.work.isNone = false ∧ rest s = some (a, t) := by
  obtain ⟨probing, s₁, hprobe, h⟩ := bind_eq_some.1 h
  obtain ⟨rfl, rfl⟩ := isProbe_eq_some.1 hprobe
  rcases ite_eq_some.1 h with ⟨-, h⟩ | ⟨hwork, h⟩
  · exact Or.inl (pure_eq_some.1 h).2
  · exact Or.inr ⟨Bool.eq_false_iff.2 hwork, h⟩

/-- Waking a class queues its nodes. -/
theorem wake_eq_some {r : TermId} {s t : Unifier} {u : Unit} :
    wake r s = some (u, t) ↔ t = { s with work := s.work.map (s.forest.wake r) } := by
  have h : wake r s = some ((), { s with work := s.work.map (s.forest.wake r) }) := rfl
  rw [h, Option.some.injEq, Prod.mk.injEq, eq_comm (a := t)]
  exact and_iff_right rfl

/-! ## Merging -/

/-- The classes of two terms are one, what was merged or registered before still is, and nothing was
changed that both classes are new to. -/
structure Merged (a b : TermId) (s u : Unifier) : Prop where
  grows : Forest.Grows s.forest u.forest
  size : u.forest.size = s.forest.size
  rep : u.forest.rep a = u.forest.rep b
  extend : ∀ base : Forest, base.Rooted → Forest.Extends base s.forest →
    base.size ≤ s.forest.rep a → base.size ≤ s.forest.rep b → Forest.Extends base u.forest
  plain : ∀ N, s.forest.Plain N → u.forest.Plain N
  pending : ∀ work, s.work = some work →
    ∃ work', u.work = some work' ∧ ∀ n, n ∈ work.pending → n ∈ work'.pending

private theorem Merged.symm {a b : TermId} {s u : Unifier} (h : Merged a b s u) : Merged b a s u :=
  ⟨h.grows, h.size, h.rep.symm, fun base hbase hext hb ha => h.extend base hbase hext ha hb,
    h.plain, h.pending⟩

/-- Looking classes up first makes no difference. -/
theorem Merged.of_tidied {a b : TermId} {s s' u : Unifier} (hrooted : s.forest.Rooted)
    (hc : Forest.SameClasses s.forest s'.forest) (ht : Forest.SameTypes s.forest s'.forest)
    (hwork : s'.work = s.work) (h : Merged (s.forest.rep a) (s.forest.rep b) s' u) :
    Merged a b s u := by
  have hgrows := ((Forest.Extends.of_sameClasses hc).grows hrooted).trans h.grows
  have hrep : ∀ t, u.forest.rep t = u.forest.rep (s.forest.rep t) := by
    intro t
    exact hgrows.rep _ _ (Forest.rep_rep hrooted t).symm
  have hold : ∀ t, s'.forest.rep (s.forest.rep t) = s.forest.rep t := by
    intro t
    rw [hc.rep, Forest.rep_rep hrooted]
  refine ⟨hgrows, h.size.trans hc.size, ?_, ?_, ?_, ?_⟩
  · rw [hrep a, hrep b, h.rep]
  · intro base hbase hext ha hb
    refine h.extend base hbase (hext.trans (.of_sameClasses hc)) ?_ ?_
    · rw [hold]
      exact ha
    · rw [hold]
      exact hb
  · intro N hplain
    exact h.plain N (hplain.of_tidied hrooted fun _ => ⟨hc, ht⟩)
  · intro work hs
    exact h.pending work (hwork.trans hs)

/-- Two terms of one class are merged already. -/
theorem Merged.of_eq {a b : TermId} {s u : Unifier} (hrooted : s.forest.Rooted)
    (hc : Forest.SameClasses s.forest u.forest) (ht : Forest.SameTypes s.forest u.forest)
    (hwork : u.work = s.work) (h : s.forest.rep a = s.forest.rep b) : Merged a b s u where
  grows := (Forest.Extends.of_sameClasses hc).grows hrooted
  size := hc.size
  rep := by rw [hc.rep, hc.rep, h]
  extend _ _ hext _ _ := hext.trans (.of_sameClasses hc)
  plain _ hplain := hplain.of_tidied hrooted fun _ => ⟨hc, ht⟩
  pending work hs := ⟨work, hwork.trans hs, fun _ hn => hn⟩

section Settling

variable {loser winner : TermId} {s u : Unifier} {r : Bool}

/-- Redirecting a class to another one links it and counts the union. -/
theorem redirect_eq (hne : loser ≠ winner) :
    redirect loser winner s = some (true, { s with forest := s.forest.link loser winner }) := by
  unfold redirect
  rw [if_neg hne]
  rfl

/-- What merging two classes does to the forest and the worklist. -/
theorem settle_eq (hwork : s.work.isNone = false) (hne : loser ≠ winner) :
    settle loser winner s = some (true,
      ⟨(s.forest.passInput loser winner).link loser winner,
        (s.work.map ((s.forest.passInput loser winner).wake winner)).map
          ((s.forest.passInput loser winner).wake loser), s.met, s.image⟩) := by
  have hinput : view (·.isInput loser) s = some (s.forest.isInput loser, s) := rfl
  unfold settle Forest.passInput
  rw [if_neg hne, bind_of_eq (isProbe_eq_some.2 ⟨hwork, rfl⟩), if_neg Bool.false_ne_true,
    bind_of_eq hinput]
  by_cases h : s.forest.isInput loser = true
  · rw [if_pos h, if_pos h]
    exact redirect_eq hne
  · rw [if_neg h, if_neg h]
    exact redirect_eq hne

/-- A variable has nothing to hand to the class that it is merged into. -/
theorem merge_of_var (hwork : s.work.isNone = false) (hvar : s.forest.kind loser = .var) :
    merge loser winner s = settle loser winner s := by
  unfold merge
  by_cases hne : loser = winner
  · rw [if_pos hne, settle, if_pos hne]
  have hkind : ∀ t, kindOf t s = some (s.forest.kind t, s) := fun _ => rfl
  have hmerged : mergedKind .var (s.forest.kind winner) = some (s.forest.kind winner) := by
    cases s.forest.kind winner <;> rfl
  rw [if_neg hne, bind_of_eq (isProbe_eq_some.2 ⟨hwork, rfl⟩), if_neg Bool.false_ne_true,
    bind_of_eq (hkind winner)]
  by_cases herror : (s.forest.kind winner).isError = true
  · rw [if_pos herror]
  rw [if_neg herror, bind_of_eq (hkind loser), hvar]
  simp only [hmerged]
  rw [bind_of_eq ((change_eq_some (u := ())).2 rfl), Forest.setKind_kind]

/-- Merging a variable settles it with the winner. -/
theorem settle_of_merge (hwork : s.work.isNone = false) (hvar : s.forest.kind loser = .var)
    (h : merge loser winner s = some (r, u)) : settle loser winner s = some (r, u) :=
  (merge_of_var hwork hvar).symm.trans h

end Settling

section Merge

variable {loser winner : TermId} {s u : Unifier} {r : Bool} {work : Worklist}
  (hrooted : s.forest.Rooted) (hloser : s.forest.kind loser = .var)
  (hwinner : (s.forest.kind winner).isLink = false) (hne : loser ≠ winner)
  (hl : loser < s.forest.size) (hw : winner < s.forest.size) (hwork : s.work = some work)

include hrooted hloser hwinner hne hl hw hwork in
/-- Merging a variable into a settled class. -/
theorem settle_merged (h : settle loser winner s = some (r, u)) : Merged loser winner s u := by
  rw [settle_eq (by rw [hwork]; rfl) hne] at h
  cases h
  obtain ⟨hext, hsize, hplain⟩ : Forest.Extends s.forest (s.forest.passInput loser winner) ∧
      (s.forest.passInput loser winner).size = s.forest.size ∧
      ∀ N, s.forest.Plain N → (s.forest.passInput loser winner).Plain N := by
    unfold Forest.passInput
    split
    · obtain ⟨hext, hplain⟩ := Forest.widenInputs_extends hrooted winner
      exact ⟨hext, Forest.size_widenInputs _ _, hplain⟩
    · exact ⟨Forest.Extends.refl hrooted, rfl, fun _ => id⟩
  generalize s.forest.passInput loser winner = g at *
  have hlr : s.forest.rep loser = loser := Forest.rep_of_not_link (by rw [hloser]; rfl)
  have hwr : s.forest.rep winner = winner := Forest.rep_of_not_link hwinner
  have hloser₃ : (g.kind loser).isLink = false := by
    rw [hext.var loser hl hloser]
    rfl
  have hwinner₃ : (g.kind winner).isLink = false := by
    have := Forest.not_isLink_rep hext.rooted winner
    rwa [hext.rep winner hw, hwr] at this
  have hl₃ : loser < g.size := by rw [hsize]; exact hl
  have hw₃ : winner < g.size := by rw [hsize]; exact hw
  refine ⟨?_, ?_, ?_, ?_, ?_, ?_⟩
  · exact (hext.grows hrooted).trans
      (Forest.link_grows hext.rooted hloser₃ hwinner₃ hne hl₃ hw₃)
  · exact (Forest.size_link _ _ _).trans hsize
  · dsimp only
    rw [Forest.rep_link_eq hext.rooted hloser₃ hwinner₃ hne hl₃ hw₃,
      Forest.rep_link_eq hext.rooted hloser₃ hwinner₃ hne hl₃ hw₃, Forest.rep_of_not_link hloser₃,
      Forest.rep_of_not_link hwinner₃, if_pos rfl, if_neg (Ne.symm hne)]
  · intro base hbase hbext ha hb
    rw [hlr] at ha
    rw [hwr] at hb
    exact Forest.link_extends hext.rooted hloser₃ hwinner₃ hne hl₃ hw₃ hbase (hbext.trans hext)
      ha hb
  · intro N hf
    exact Forest.link_plain hl₃ (hplain N hf)
  · intro work' hwork'
    cases hwork.symm.trans hwork'
    refine ⟨g.wake loser (g.wake winner work), by rw [hwork]; rfl, fun n hn => ?_⟩
    exact Forest.mem_wake.2 (Or.inl (Forest.mem_wake.2 (Or.inl hn)))

include hrooted hloser hwinner hne hl hw hwork in
/-- Merging a variable into another class. -/
theorem merge_merged (h : merge loser winner s = some (r, u)) : Merged loser winner s u :=
  settle_merged hrooted hloser hwinner hne hl hw hwork
    (settle_of_merge (by rw [hwork]; rfl) hloser h)

end Merge

/-! ## Unifying -/

/-- Looking two classes up in turn. -/
theorem find_find {a b ra rb : TermId} {s s₁ s₂ : Unifier} (hrooted : s.forest.Rooted)
    (ha : find a s = some (ra, s₁)) (hb : find b s₁ = some (rb, s₂)) :
    ra = s.forest.rep a ∧ rb = s.forest.rep b ∧ Forest.SameClasses s.forest s₂.forest ∧
      Forest.SameTypes s.forest s₂.forest ∧ s₂.work = s.work := by
  obtain ⟨f₁, hf₁, rfl⟩ := onForest_eq_some.1 ha
  obtain ⟨f₂, hf₂, rfl⟩ := onForest_eq_some.1 hb
  obtain ⟨hc₁, ht₁, rfl⟩ := Forest.find_tidied hrooted hf₁
  obtain ⟨hc₂, ht₂, rfl⟩ := Forest.find_tidied hc₁.rooted hf₂
  exact ⟨rfl, hc₁.rep b, hc₁.trans hc₂, ht₁.trans ht₂, rfl⟩

/-- Of a variable and another class the variable loses, unless both are variables. -/
theorem ranked_var {a b : TermId} {kb : Kind} (hb : kb.isLink = false) :
    ranked a b .var kb = (a, b) ∨ kb = .var ∧ ranked a b .var kb = (b, a) := by
  cases kb with
  | var =>
    unfold ranked
    split
    · exact Or.inr ⟨rfl, rfl⟩
    · exact Or.inl rfl
  | link t => cases hb
  | _ => exact Or.inl rfl

variable {a b : TermId} {s u : Unifier} {r : Bool} {work : Worklist}

/-- Unifying a variable merges its class with that of the other term. -/
theorem unifyStep_merged {rec : TermId → TermId → UnifyM Bool} (hrooted : s.forest.Rooted)
    (hvar : s.forest.kind (s.forest.rep a) = .var) (ha : a < s.forest.size)
    (hb : b < s.forest.size) (hwork : s.work = some work)
    (h : unifyStep rec a b s = some (r, u)) : Merged a b s u := by
  unfold unifyStep at h
  obtain ⟨ra, s₁, hfind, h₁⟩ := bind_eq_some.1 h
  obtain ⟨rb, s₂, hfind', h₂⟩ := bind_eq_some.1 h₁
  obtain ⟨rfl, rfl, hc, ht, hwork₂⟩ := find_find hrooted hfind hfind'
  rcases ite_eq_some.1 h₂ with ⟨heq, h₂⟩ | ⟨hne, h₂⟩
  · obtain ⟨-, rfl⟩ := pure_eq_some.1 h₂
    exact Merged.of_eq hrooted hc ht hwork₂ heq
  obtain ⟨ka, s₃, hka, h₃⟩ := bind_eq_some.1 h₂
  obtain ⟨rfl, rfl⟩ := view_eq_some.1 hka
  obtain ⟨kb, s₄, hkb, h₄⟩ := bind_eq_some.1 h₃
  obtain ⟨rfl, rfl⟩ := view_eq_some.1 hkb
  have hroot : ∀ t, (s₂.forest.kind (s.forest.rep t)).isLink = false := by
    intro t
    rw [← hc.rep]
    exact Forest.not_isLink_rep hc.rooted t
  have hlt : ∀ {t}, t < s.forest.size → s.forest.rep t < s₂.forest.size := by
    intro t ht
    rw [hc.size]
    exact Forest.rep_lt_size hrooted ht
  have hvar₂ : s₂.forest.kind (s.forest.rep a) = .var := (hc.var _).2 hvar
  have hwork' : s₂.work = some work := hwork₂.trans hwork
  apply Merged.of_tidied hrooted hc ht hwork₂
  rw [hvar₂] at h₄
  rcases ite_eq_some.1 h₄ with ⟨-, h₄⟩ | ⟨-, h₄⟩
  · rcases ranked_var (a := s.forest.rep a) (b := s.forest.rep b) (hroot b) with hr | ⟨hkb, hr⟩
    · rw [hr] at h₄
      exact merge_merged hc.rooted hvar₂ (hroot b) hne (hlt ha) (hlt hb) hwork' h₄
    · rw [hr] at h₄
      exact (merge_merged hc.rooted hkb (hroot a) (Ne.symm hne) (hlt hb) (hlt ha) hwork' h₄).symm
  · rw [if_pos (by rfl)] at h₄
    exact merge_merged hc.rooted hvar₂ (hroot b) hne (hlt ha) (hlt hb) hwork' h₄

/-- Unifying a variable merges its class with that of the other term. -/
theorem unify_merged {depth : Nat} (hrooted : s.forest.Rooted)
    (hvar : s.forest.kind (s.forest.rep a) = .var) (ha : a < s.forest.size)
    (hb : b < s.forest.size) (hwork : s.work = some work)
    (h : unify depth a b s = some (r, u)) : Merged a b s u := by
  obtain ⟨ra, s₁, hfind, h₁⟩ := bind_eq_some.1 h
  obtain ⟨rb, s₂, hfind', h₂⟩ := bind_eq_some.1 h₁
  obtain ⟨rfl, rfl, hc, ht, hwork₂⟩ := find_find hrooted hfind hfind'
  rcases ite_eq_some.1 h₂ with ⟨heq, h₂⟩ | ⟨-, h₂⟩
  · obtain ⟨-, rfl⟩ := pure_eq_some.1 h₂
    exact Merged.of_eq hrooted hc ht hwork₂ heq
  obtain ⟨v, s₃, hmodify, h₃⟩ := bind_eq_some.1 h₂
  have hs₃ := modify_eq_some.1 hmodify
  have hforest : s₃.forest = s₂.forest := by rw [← hs₃]
  have hwork₃ : s₃.work = s.work := by
    rw [← hwork₂, ← hs₃]
  rw [← hforest] at hc ht
  apply Merged.of_tidied hrooted hc ht hwork₃
  cases depth with
  | zero => exact (failure_eq_some.1 h₃).elim
  | succ depth =>
    refine unifyStep_merged hc.rooted ?_ ?_ ?_ (hwork₃.trans hwork) h₃
    · rw [hc.rep, Forest.rep_rep hrooted]
      exact (hc.var _).2 hvar
    · rw [hc.size]
      exact Forest.rep_lt_size hrooted ha
    · rw [hc.size]
      exact Forest.rep_lt_size hrooted hb

end Unifier

end TypeFlow
