import Mathlib.Data.Finset.Prod
import TypeFlow.Proofs.Closures

/-!
# Unifications come to an end

Types may be cyclic, and still the unification of two types that lead to no wrappers returns.  It nests
only where it meets a pair of classes that it did not meet before.  Such a pair is one of terms that
there were from the start, for the terms added since are errors, and so the number of pairs bounds how
deep a unification nests.

Main definitions:

- `Unifier.Tame`: a part of the forest has no wrappers, and new terms are errors.
- `Unifier.Tends`: the part is still tame, and no pair met was forgotten.

Main results:

- `Unifier.Tame.length_le`: so many pairs are met at most.
- `Unifier.merge_returns`: merging two classes returns and keeps the part tame.
- `Unifier.unifyStep_returns`: so does one layer of unification if the next one does.
- `Unifier.unifyWithin_returns`: so does a unification that may nest once for every pair not met yet.
- `Unifier.unify_plain_returns`: the unification of two types that lead to no wrappers returns.
-/

namespace TypeFlow

namespace Kind

/-- Widening the flow of a base makes no wrapper. -/
theorem isNilable_widenedKind (k : Kind) : (Forest.widenedKind k).isNilable = k.isNilable := by
  cases k <;> rfl

private theorem isError_widenedKind (k : Kind) : (Forest.widenedKind k).isError = k.isError := by
  cases k <;> rfl

private theorem isLink_widenedKind (k : Kind) : (Forest.widenedKind k).isLink = k.isLink := by
  cases k <;> rfl

/-- Widening the flow of a base changes no child. -/
theorem child?_widenedKind (k : Kind) (slot : Slot) :
    (Forest.widenedKind k).child? slot = k.child? slot := by
  cases k with
  | base p => cases slot <;> rfl
  | _ => rfl

end Kind

open Forest (IsClass Steady widenedKind)

namespace Unifier

/-! ## Tame parts of a forest -/

/-- The classes of a part of the forest are no wrappers, and lead to none.  The part contains the terms
from some number on, all of which are errors, and only pairs of terms before those were met. -/
structure Tame (part : TermId → Prop) (base : Nat) (s : Unifier) : Prop where
  sound : s.Sound
  commits : s.work.isNone = false
  size : base ≤ s.forest.size
  fresh : ∀ c, base ≤ c → part c
  errors : ∀ c, base ≤ c → s.forest.IsClass c → (s.forest.kind c).isError = true
  plain : ∀ c, part c → s.forest.IsClass c → (s.forest.kind c).isNilable = false
  closed : ∀ c slot x, part c → s.forest.IsClass c → (s.forest.kind c).child? slot = some x →
    part (s.forest.rep x)
  nodup : s.met.Nodup
  met : ∀ p ∈ s.met, p.1 < base ∧ p.2 < base

/-- A part of the forest is tame after a computation, and has the terms that it had before. -/
structure Tends (part : TermId → Prop) (base : Nat) (s u : Unifier) : Prop where
  tame : Tame part base u
  size : s.forest.size ≤ u.forest.size
  rep : ∀ x, part (s.forest.rep x) → part (u.forest.rep x)
  met : s.met.length ≤ u.met.length

variable {part : TermId → Prop} {base : Nat} {s t u : Unifier} {x y : TermId}

namespace Tends

/-- Doing nothing makes for the end. -/
theorem refl (h : Tame part base s) : Tends part base s s := ⟨h, le_rfl, fun _ => id, le_rfl⟩

/-- Computations one after the other make for it. -/
theorem trans (h : Tends part base s t) (h' : Tends part base t u) : Tends part base s u :=
  ⟨h'.tame, h.size.trans h'.size, fun x hx => h'.rep x (h.rep x hx), h.met.trans h'.met⟩

end Tends

namespace Tame

/-- There are no more pairs to meet than there are pairs of terms. -/
theorem length_le (h : Tame part base s) : s.met.length ≤ base * base := by
  have hsub : s.met.toFinset ⊆ Finset.range base ×ˢ Finset.range base := by
    intro p hp
    obtain ⟨hx, hy⟩ := h.met p (List.mem_toFinset.1 hp)
    exact Finset.mem_product.2 ⟨Finset.mem_range.2 hx, Finset.mem_range.2 hy⟩
  have hcard := Finset.card_le_card hsub
  rwa [List.toFinset_card_of_nodup h.nodup, Finset.card_product, Finset.card_range] at hcard

/-- A class that is no error was there from the start. -/
theorem lt_base (h : Tame part base s) (hx : s.forest.IsClass x)
    (herror : (s.forest.kind x).isError = false) : x < base := by
  by_contra hle
  have herror' := h.errors x (Nat.le_of_not_lt hle) hx
  rw [herror] at herror'
  cases herror'

/-- No wrappers are nested in a term of the part. -/
theorem ends (h : Tame part base s) (hx : x < s.forest.size) (hpart : part (s.forest.rep x)) :
    s.forest.Ends x :=
  .intro fun inner hinner => by
    have hplain := h.plain _ hpart (Forest.isClass_rep h.sound.forest hx)
    rw [hinner] at hplain
    cases hplain

/-- Waking someone disturbs no part of the forest. -/
theorem wake (h : Tame part base s) (f : Forest) (x : TermId) :
    Tends part base s { s with work := s.work.map (f.wake x) } where
  tame :=
    { h with
      sound := ⟨h.sound.forest, h.sound.image⟩
      commits := by
        have hcommits := h.commits
        revert hcommits
        cases s.work <;> exact id }
  size := le_rfl
  rep _ := id
  met := le_rfl

/-- A new pair of terms may be met. -/
theorem meet (h : Tame part base s) (hx : x < base) (hy : y < base) (hnew : (x, y) ∉ s.met) :
    Tame part base { s with met := (x, y) :: s.met } :=
  { h with
    sound := ⟨h.sound.forest, h.sound.image⟩
    nodup := List.nodup_cons.2 ⟨hnew, h.nodup⟩
    met := fun p hp => by
      rcases List.mem_cons.1 hp with rfl | hp
      · exact ⟨hx, hy⟩
      · exact h.met p hp }

/-- Looking classes up disturbs no part of the forest. -/
theorem looks (h : Tame part base s) (hlooks : Looks s u) : Tends part base s u := by
  have hsteady := hlooks.steady h.sound
  have hp := hlooks.proceeds h.sound
  have hrooted := h.sound.forest.rooted
  have hclass : ∀ {c}, u.forest.IsClass c → s.forest.IsClass c := fun hc =>
    ⟨by rw [← hlooks.upkeeps.size]; exact hc.lt, by rw [← hsteady.isLink]; exact hc.root⟩
  have hrefreshed : ∀ {c}, part c → u.forest.IsClass c →
      (s.forest.kind c).Refreshed s.forest.rep (u.forest.kind c) := by
    intro c hpart hc
    have hc := hclass hc
    exact (hlooks.calm h.sound (Forest.calm_of_not_nilable hc.root (h.plain c hpart hc))).1
  refine ⟨⟨hp.sound, hp.probe.trans h.commits, ?_, h.fresh, fun c hc hclass' => ?_,
    fun c hpart hclass' => ?_, fun c slot y hpart hclass' hy => ?_, ?_, ?_⟩, hsteady.size,
    fun x hx => by rwa [hsteady.rep], ?_⟩
  · rw [hlooks.upkeeps.size]
    exact h.size
  · rw [(hrefreshed (h.fresh c hc) hclass').isError]
    exact h.errors c hc (hclass hclass')
  · have hshape := (hrefreshed hpart hclass').shape
    rw [Kind.isNilable_eq_of_shape hshape]
    exact h.plain c hpart (hclass hclass')
  · obtain ⟨z, hz, hzy⟩ := (hrefreshed hpart hclass').child? (Forest.rep_rep hrooted) hy
    have hpart' := h.closed c slot z hpart (hclass hclass') hz
    rw [hsteady.rep]
    rcases hzy with rfl | rfl
    · exact hpart'
    · rwa [Forest.rep_rep hrooted]
  · rw [hlooks.met]
    exact h.nodup
  · rw [hlooks.met]
    exact h.met
  · rw [hlooks.met]

/-- Merging two classes of the part keeps it tame. -/
theorem merges {loser winner : TermId} (h : Tame part base s)
    (hwinner : part winner) (hne : loser ≠ winner) (hsound : u.Sound)
    (hmerges : Merges loser winner s u) : Tends part base s u := by
  have hne' : ∀ {c}, u.forest.IsClass c → c ≠ loser := by
    rintro c hc rfl
    have hrep := hmerges.rep c
    rw [hc.rep_eq] at hrep
    split at hrep
    · exact hne hrep
    · rename_i e
      exact e hrep.symm
  have hclass : ∀ {c}, u.forest.IsClass c → s.forest.IsClass c := by
    intro c hc
    refine ⟨by rw [← hmerges.size]; exact hc.lt, ?_⟩
    have hroot := hc.root
    rcases hmerges.kind c (hne' hc) with e | e <;> rw [e] at hroot
    · exact hroot
    · rwa [Kind.isLink_widenedKind] at hroot
  have hrep : ∀ x, part (s.forest.rep x) → part (u.forest.rep x) := by
    intro x hx
    rw [hmerges.rep]
    split
    · exact hwinner
    · exact hx
  refine ⟨⟨hsound, hmerges.probe.trans h.commits, ?_, h.fresh, fun c hc hclass' => ?_,
    fun c hpart hclass' => ?_, fun c slot y hpart hclass' hy => hrep y ?_, ?_, ?_⟩,
    hmerges.size.ge, hrep, ?_⟩
  · rw [hmerges.size]
    exact h.size
  · have herror := h.errors c hc (hclass hclass')
    rcases hmerges.kind c (hne' hclass') with e | e <;> rw [e]
    · exact herror
    · rwa [Kind.isError_widenedKind]
  · have hplain := h.plain c hpart (hclass hclass')
    rcases hmerges.kind c (hne' hclass') with e | e <;> rw [e]
    · exact hplain
    · rwa [Kind.isNilable_widenedKind]
  · refine h.closed c slot y hpart (hclass hclass') ?_
    rcases hmerges.kind c (hne' hclass') with e | e <;> rw [e] at hy
    · exact hy
    · rwa [Kind.child?_widenedKind] at hy
  · rw [hmerges.met]
    exact h.nodup
  · rw [hmerges.met]
    exact h.met
  · rw [hmerges.met]

/-- A class of the part may take over what is known of others. -/
theorem setKind {k : Kind} (h : Tame part base s) (hx : s.forest.IsClass x)
    (hrefines : (s.forest.kind x).Refines k) (hlt : x < base) (hplain : k.isNilable = false)
    (hchildren : ∀ slot y, k.child? slot = some y → part (s.forest.rep y)) :
    Tame part base { s with forest := s.forest.setKind x k } := by
  have hsteady := Forest.refine_steady h.sound.forest.rooted hrefines
  have hclass : ∀ {c}, (s.forest.setKind x k).IsClass c → s.forest.IsClass c := fun hc =>
    ⟨by rw [← Forest.size_setKind s.forest x k]; exact hc.lt,
      by rw [← hsteady.isLink]; exact hc.root⟩
  have hkind : ∀ c, (s.forest.setKind x k).kind c = if x = c then k else s.forest.kind c := by
    intro c
    rw [Forest.kind_setKind]
    simp only [hx.lt, and_true]
  refine ⟨h.sound.change (.refine hrefines), h.commits, ?_, h.fresh, fun c hc hclass' => ?_,
    fun c hpart hclass' => ?_, fun c slot y hpart hclass' hy => ?_, h.nodup, h.met⟩
  · dsimp only
    rw [Forest.size_setKind]
    exact h.size
  · have hne : x ≠ c := (Nat.lt_of_lt_of_le hlt hc).ne
    dsimp only
    rw [hkind, if_neg hne]
    exact h.errors c hc (hclass hclass')
  · dsimp only
    rw [hkind]
    split
    · exact hplain
    · exact h.plain c hpart (hclass hclass')
  · dsimp only at hy ⊢
    rw [hsteady.rep]
    rw [hkind] at hy
    split at hy
    · exact hchildren slot y hy
    · exact h.closed c slot y hpart (hclass hclass') hy

/-- A record may gain a field whose value belongs to the part. -/
theorem withField {value : TermId} (h : Tame part base s) (x : TermId) (label : String)
    (hvalue : value < s.forest.size) (hpart : part (s.forest.rep value)) :
    Tame part base { s with forest := s.forest.withField x label value } := by
  have hsteady := Forest.withField_steady h.sound.forest.rooted x label value
  have hkind := s.forest.kind_withField x label value
  have hshape : ∀ c, ((s.forest.withField x label value).kind c).shape = (s.forest.kind c).shape := by
    intro c
    rw [hkind]
    split
    · exact Kind.shape_setChild _ _ _
    · rfl
  have hsize := s.forest.size_withField x label value
  have hclass : ∀ {c}, (s.forest.withField x label value).IsClass c → s.forest.IsClass c := fun hc =>
    ⟨hsize ▸ hc.lt, by rw [← hsteady.isLink]; exact hc.root⟩
  refine ⟨h.sound.change (.addField label hvalue), h.commits, ?_, h.fresh, fun c hc hclass' => ?_,
    fun c hpart hclass' => ?_, fun c slot y hpart' hclass' hy => ?_, h.nodup, h.met⟩
  · exact hsize ▸ h.size
  · rw [Kind.isError_eq_of_shape (hshape c)]
    exact h.errors c hc (hclass hclass')
  · rw [Kind.isNilable_eq_of_shape (hshape c)]
    exact h.plain c hpart (hclass hclass')
  · dsimp only at hy ⊢
    rw [hsteady.rep]
    rw [hkind] at hy
    split at hy
    · rcases Kind.child?_of_setChild hy with ⟨-, rfl⟩ | ⟨-, hy⟩
      · exact hpart
      · exact h.closed c slot y hpart' (hclass hclass') hy
    · exact h.closed c slot y hpart' (hclass hclass') hy

/-- A new error belongs to the part. -/
theorem alloc {cause : TypeError} (h : Tame part base s)
    (halloc : Unifier.alloc (.error cause) s = some (x, u)) :
    Tends part base s u ∧ u.forest.IsClass x ∧ part x ∧ u.forest.kind x = .error cause := by
  obtain ⟨hp, hsteady, hx, herror⟩ := alloc_error_proceeds h.sound halloc
  obtain ⟨rfl, rfl⟩ := alloc_eq_some.1 halloc
  have hkind : ∀ c, c ≠ s.forest.size → (s.forest.alloc (.error cause)).2.kind c = s.forest.kind c :=
    fun c hc => (Forest.kind_add _ _ c).trans (if_neg hc)
  have hclass : ∀ {c}, c ≠ s.forest.size → (s.forest.alloc (.error cause)).2.IsClass c →
      s.forest.IsClass c := by
    intro c hc hc'
    refine ⟨?_, by rw [← hkind c hc]; exact hc'.root⟩
    have hlt : c < s.forest.size + 1 := Forest.size_add s.forest ⟨.error cause, .empty, false⟩ ▸ hc'.lt
    exact Nat.lt_of_le_of_ne (Nat.le_of_lt_succ hlt) hc
  refine ⟨⟨⟨hp.sound, hp.probe.trans h.commits, h.size.trans hsteady.size, h.fresh,
    fun c hc hclass' => ?_, fun c hpart hclass' => ?_, fun c slot y hpart hclass' hy => ?_, h.nodup,
    h.met⟩, hsteady.size, fun y hy => by rwa [hsteady.rep], le_rfl⟩, hx, h.fresh _ h.size, herror⟩
  · by_cases e : c = s.forest.size
    · rw [e, herror]
      rfl
    · dsimp only
      rw [hkind c e]
      exact h.errors c hc (hclass e hclass')
  · by_cases e : c = s.forest.size
    · rw [e, herror]
      rfl
    · dsimp only
      rw [hkind c e]
      exact h.plain c hpart (hclass e hclass')
  · by_cases e : c = s.forest.size
    · rw [e, herror] at hy
      cases slot <;> cases hy
    · dsimp only at hy
      rw [hkind c e] at hy
      rw [hsteady.rep]
      exact h.closed c slot y hpart (hclass e hclass') hy

end Tame

/-! ## Looking up -/

section Returns

/-- A class that wraps nothing is looked up. -/
theorem find_returns (h : Tame part base s) (hx : x < s.forest.size) (hpart : part (s.forest.rep x)) :
    Returns (find x) s fun r u => r = s.forest.rep x ∧ Looks s u ∧ Tends part base s u := by
  obtain ⟨⟨r, g⟩, hfind⟩ := Option.isSome_iff_exists.1
    ((Forest.find_isSome_iff h.sound.forest.rooted x).2 (h.ends hx hpart))
  have hfind : find x s = some (r, { s with forest := g }) :=
    onForest_eq_some.2 ⟨g, hfind, rfl⟩
  obtain ⟨hr, hlooks⟩ := find_looks h.sound hfind
  exact ⟨r, _, hfind, hr, hlooks, h.looks hlooks⟩

/-- The child in a slot is looked up. -/
theorem child_returns (h : Tame part base s) (hx : s.forest.IsClass x) (hpart : part x) (slot : Slot) :
    Returns (child x slot) s fun r u => Looks s u ∧ Tends part base s u ∧
      ∀ y, r = some y → u.forest.IsClass y ∧ part y := by
  suffices hreturns : ∃ r u, child x slot s = some (r, u) by
    obtain ⟨r, u, hchild⟩ := hreturns
    obtain ⟨hlooks, hclass⟩ := child_looks h.sound hchild
    refine ⟨r, u, hchild, hlooks, h.looks hlooks, fun y hy => ⟨hclass y hy, ?_⟩⟩
    rw [child_eq h.sound hchild] at hy
    obtain ⟨z, hz, rfl⟩ := Option.map_eq_some_iff.1 hy
    exact h.closed x slot z hpart hx hz
  suffices hreturns : ∃ r g, Forest.child x slot s.forest = some (r, g) by
    obtain ⟨r, g, hchild⟩ := hreturns
    exact ⟨r, _, onForest_eq_some.2 ⟨g, hchild, rfl⟩⟩
  exact Forest.child_returns h.sound.forest.rooted fun raw hraw =>
    h.ends (h.sound.forest.child_lt hraw) (h.closed x slot raw hpart hx hraw)

/-- Two terms of the part are looked up one after the other. -/
theorem find_both_returns {α : Type} {c d : TermId} {k : TermId → TermId → UnifyM α}
    {P : α → Unifier → Prop} (h : Tame part base s) (hc : c < s.forest.size) (hd : d < s.forest.size)
    (hpc : part (s.forest.rep c)) (hpd : part (s.forest.rep d))
    (hk : ∀ u, Tends part base s u → u.forest.IsClass (s.forest.rep c) →
      u.forest.IsClass (s.forest.rep d) → Returns (k (s.forest.rep c) (s.forest.rep d)) u P) :
    Returns (do let x ← find c; let y ← find d; k x y) s P := by
  refine returns_bind (find_returns h hc hpc) ?_
  rintro _ s₁ hfind ⟨rfl, hlooks₁, ht₁⟩
  refine returns_bind (find_returns ht₁.tame (Nat.lt_of_lt_of_le hd ht₁.size) (ht₁.rep d hpd)) ?_
  rintro _ s₂ hfind' ⟨rfl, hlooks₂, ht₂⟩
  obtain ⟨-, -, ⟨-, hrep⟩, hx, hy⟩ := find_both h.sound hc hd hfind hfind'
  rw [hrep] at hy ⊢
  exact hk s₂ (ht₁.trans ht₂) hx hy

/-- What a function says of the forest is known at once. -/
theorem returns_view {α β : Type} {read : Forest → β} {k : β → UnifyM α} {P : α → Unifier → Prop}
    (h : Returns (k (read s.forest)) s P) : Returns (view read >>= k) s P := h

/-- Whether changes are made is known at once. -/
theorem returns_isProbe {α : Type} {k : Bool → UnifyM α} {P : α → Unifier → Prop}
    (hcommits : s.work.isNone = false) (h : Returns (k false) s P) :
    Returns (isProbe >>= k) s P := by
  obtain ⟨a, t, hat, ha⟩ := h
  exact ⟨a, t, bind_eq_some.2 ⟨false, s, isProbe_eq_some.2 ⟨hcommits, rfl⟩, hat⟩, ha⟩

/-! ## Merging classes -/

section Merging

variable {loser winner : TermId}

private theorem redirect_total : Returns (redirect loser winner) s fun _ _ => True := by
  by_cases hne : loser = winner
  · rw [redirect, if_pos hne]
    exact returns_pure trivial
  · exact ⟨_, _, redirect_eq hne, trivial⟩

private theorem settle_total : Returns (settle loser winner) s fun _ _ => True := by
  by_cases hne : loser = winner
  · rw [settle, if_pos hne]
    exact returns_pure trivial
  rcases Bool.eq_false_or_eq_true s.work.isNone with hwork | hwork
  · rw [settle, if_neg hne]
    refine returns_bind (P := fun b t => b = true ∧ t = s) ⟨_, _, rfl, hwork, rfl⟩ ?_
    rintro b t - ⟨rfl, rfl⟩
    exact returns_pure trivial
  · exact ⟨_, _, settle_eq hwork hne, trivial⟩

/-- One class is made a link to another. -/
theorem redirect_returns (h : Tame part base s) (hl : s.forest.IsClass loser)
    (hw : s.forest.IsClass winner) (hwinner : part winner)
    (haccrues : (s.forest.kind loser).Accrues (s.forest.kind winner)) :
    Returns (redirect loser winner) s fun _ u => Tends part base s u := by
  refine redirect_total.imp fun r u hredirect _ => ?_
  by_cases hne : loser = winner
  · rw [redirect, if_pos hne] at hredirect
    obtain ⟨-, rfl⟩ := pure_eq_some.1 hredirect
    exact .refl h
  · refine h.merges hwinner hne ?_ (redirect_merges h.sound hl hw hne hredirect)
    rw [redirect, if_neg hne] at hredirect
    obtain ⟨v, s₁, hlink, hredirect⟩ := bind_eq_some.1 hredirect
    obtain ⟨-, rfl⟩ := pure_eq_some.1 hredirect
    rw [change_eq_some.1 hlink]
    exact h.sound.change (.link hl.root hw.root hne hl.lt hw.lt haccrues)

/-- One class is merged into another that says as much. -/
theorem settle_returns (h : Tame part base s) (hl : s.forest.IsClass loser)
    (hw : s.forest.IsClass winner) (hwinner : part winner)
    (haccrues : (s.forest.kind loser).Accrues (s.forest.kind winner)) :
    Returns (settle loser winner) s fun _ u =>
      Tends part base s u ∧ Proceeds s u ∧ u.forest.rep loser = u.forest.rep winner := by
  refine settle_total.imp fun r u hsettle _ => ?_
  obtain ⟨hp, hjoins, -⟩ := settle_proceeds h.sound h.commits hl hw haccrues hsettle
  refine ⟨?_, hp, hjoins.rep⟩
  by_cases hne : loser = winner
  · rw [settle, if_pos hne] at hsettle
    obtain ⟨-, rfl⟩ := pure_eq_some.1 hsettle
    exact .refl h
  · exact h.merges hwinner hne hp.sound (settle_merges h.sound h.commits hl hw hne hsettle)

/-- Two classes become an error together. -/
theorem clash_returns {cause : TypeError} (h : Tame part base s) (hx : s.forest.IsClass x)
    (hy : s.forest.IsClass y) (hpx : part x) (hpy : part y) :
    Returns (clash x y cause) s fun _ u => Tends part base s u := by
  obtain ⟨e, s₁, halloc⟩ : ∃ e s₁, alloc (.error cause) s = some (e, s₁) := ⟨_, _, rfl⟩
  obtain ⟨ht₁, he, hpe, herror⟩ := h.alloc halloc
  obtain ⟨-, hsteady₁, -, -⟩ := alloc_error_proceeds h.sound halloc
  have hx₁ := hx.of_steady hsteady₁
  have hy₁ := hy.of_steady hsteady₁
  obtain ⟨first, s₂, hsettle, ht₂, hp₂, hrep₂⟩ := settle_returns ht₁.tame hx₁ he hpe
    (by rw [herror]; exact .error hx₁.root cause)
  have hx₂ : x < s₂.forest.size := Nat.lt_of_lt_of_le hx₁.lt ht₂.size
  have hpx₂ : part (s₂.forest.rep x) := ht₂.rep x (by rwa [hx₁.rep_eq])
  obtain ⟨_, s₃, hfind, rfl, hlooks₃, ht₃⟩ := find_returns ht₂.tame hx₂ hpx₂
  have hy₃ : y < s₃.forest.size := Nat.lt_of_lt_of_le hy₁.lt (ht₂.size.trans ht₃.size)
  have hpy₃ : part (s₃.forest.rep y) := ht₃.rep y (ht₂.rep y (by rwa [hy₁.rep_eq]))
  obtain ⟨_, s₄, hfind', rfl, hlooks₄, ht₄⟩ := find_returns ht₃.tame hy₃ hpy₃
  -- The error is still one when the other class is merged into it.
  have hsteady₄ := (hlooks₃.trans hlooks₄).steady ht₂.tame.sound
  have hp₄ := hp₂.trans ((hlooks₃.trans hlooks₄).proceeds ht₂.tame.sound)
  obtain ⟨cause', hstill⟩ : ∃ cause', s₄.forest.kind (s₂.forest.rep x) = .error cause' := by
    refine Kind.isError_iff.1 ?_
    have herror' := (hp₄.leads.accrues ht₁.tame.sound.forest e).isError
      (by rw [he.rep_eq, herror]; rfl)
    rwa [hsteady₄.rep, ← hrep₂] at herror'
  have hy₄ := (Forest.isClass_rep ht₃.tame.sound.forest hy₃).of_steady
    (hlooks₄.steady ht₃.tame.sound)
  obtain ⟨second, u, hsettle', ht₅, -⟩ := settle_returns ht₄.tame hy₄
    ((Forest.isClass_rep ht₂.tame.sound.forest hx₂).of_steady hsteady₄) hpx₂
    (by rw [hstill]; exact .error hy₄.root cause')
  refine ⟨true, u, ?_, ht₁.trans (ht₂.trans (ht₃.trans (ht₄.trans ht₅)))⟩
  exact bind_eq_some.2 ⟨e, s₁, halloc, bind_eq_some.2 ⟨first, s₂, hsettle, bind_eq_some.2 ⟨_, s₃, hfind,
    bind_eq_some.2 ⟨_, s₄, hfind', bind_eq_some.2 ⟨second, u, hsettle', pure_eq_some.2 ⟨rfl, rfl⟩⟩⟩⟩⟩⟩

/-- A merged kind has the shape of one of the two, and children of theirs. -/
theorem mergedKind_shape {kl kw k : Kind} (h : mergedKind kl kw = some k) :
    (k.shape = kl.shape ∨ k.shape = kw.shape) ∧ ∀ slot z, k.child? slot = some z →
      kl.child? slot = some z ∨ kw.child? slot = some z := by
  unfold mergedKind at h
  split at h
  · cases h
    exact ⟨Or.inr rfl, fun _ _ => Or.inr⟩
  · cases h
    exact ⟨Or.inr rfl, fun _ _ => Or.inr⟩
  · cases h
    exact ⟨Or.inl rfl, fun _ _ => Or.inl⟩
  · cases h
    exact ⟨Or.inl rfl, fun _ _ => Or.inl⟩
  · split at h
    · cases h
      refine ⟨Or.inr rfl, fun slot z hz => ?_⟩
      cases slot <;> cases hz
    · cases h
  · cases h
    refine ⟨Or.inr rfl, fun slot z hz => Or.inr ?_⟩
    cases slot <;> exact hz
  · cases h
    refine ⟨Or.inr rfl, fun slot z hz => Or.inr ?_⟩
    cases slot <;> exact hz
  · cases h

/-- Merging two classes returns and keeps the part tame. -/
theorem merge_returns (h : Tame part base s) (hl : s.forest.IsClass loser)
    (hw : s.forest.IsClass winner) (hloser : part loser) (hwinner : part winner)
    (hchildren : s.forest.kind winner = .var → (s.forest.kind loser).children = [])
    (harity : ∀ n m, (s.forest.kind loser).arity? = some n →
      (s.forest.kind winner).arity? = some m → n = m) :
    Returns (merge loser winner) s fun _ u => Tends part base s u := by
  unfold merge
  split
  · exact returns_pure (.refl h)
  rename_i hne
  refine returns_isProbe h.commits (returns_view ?_)
  split
  · rename_i herror
    obtain ⟨cause, herror⟩ := Kind.isError_iff.1 herror
    exact (settle_returns h hl hw hwinner (by rw [herror]; exact .error hl.root cause)).imp
      fun _ _ _ => And.left
  rename_i herror
  refine returns_view ?_
  cases hk : mergedKind (s.forest.kind loser) (s.forest.kind winner) with
  | none => exact returns_view (clash_returns h hl hw hloser hwinner)
  | some k =>
    obtain ⟨hrefines, haccrues⟩ := mergedKind_refines hl.root hw.root hchildren harity hk
    obtain ⟨hshape, hchild⟩ := mergedKind_shape hk
    have hsteady := Forest.refine_steady h.sound.forest.rooted hrefines
    have hplain : k.isNilable = false := by
      rcases hshape with hshape | hshape <;> rw [Kind.isNilable_eq_of_shape hshape]
      · exact h.plain loser hloser hl
      · exact h.plain winner hwinner hw
    have h₁ := h.setKind hw hrefines (h.lt_base hw (Bool.eq_false_iff.2 herror)) hplain
      fun slot z hz => (hchild slot z hz).elim (h.closed loser slot z hloser hl)
        (h.closed winner slot z hwinner hw)
    refine returns_bind (P := fun _ t => t = { s with forest := s.forest.setKind winner k })
      ⟨(), _, rfl, rfl⟩ ?_
    rintro v t - rfl
    refine (settle_returns h₁ (hl.of_steady hsteady) (hw.of_steady hsteady) hwinner ?_).imp
      fun r u _ hu => ⟨hu.1.tame, ?_, fun z hz => hu.1.rep z ?_, hu.1.met⟩
    · dsimp only
      rw [Forest.kind_setKind, if_neg fun e => hne e.1.symm, Forest.kind_setKind, if_pos ⟨rfl, hw.lt⟩]
      exact haccrues
    · exact hsteady.size.trans hu.1.size
    · dsimp only
      rwa [hsteady.rep]

end Merging

/-! ## Fields of records -/

section Fields

variable {label : String}

/-- A record gains a field. -/
theorem addField_returns {value : TermId} (h : Tame part base s) (hvalue : value < s.forest.size)
    (hpart : part (s.forest.rep value)) :
    Returns (addField x label value) s fun _ u => Tends part base s u := by
  cases hrecord : (s.forest.kind x).isRecord with
  | true =>
    have h₁ := h.withField x label hvalue hpart
    have hsteady := Forest.withField_steady h.sound.forest.rooted x label value
    have ht : Tends part base s { s with forest := s.forest.withField x label value } :=
      ⟨h₁, hsteady.size, fun y hy => by rwa [hsteady.rep], le_rfl⟩
    exact ⟨true, _, addField_record hrecord, ht.trans (h₁.wake _ x)⟩
  | false => exact ⟨false, s, addField_of_not_isRecord hrecord, .refl h⟩

/-- A record loses a field. -/
theorem dropField_returns (h : Tame part base s) (hpart : part x) :
    Returns (dropField x label) s fun _ u => Tends part base s u := by
  have ht := h.wake s.forest x
  cases hchild : (s.forest.kind x).child? (.field label) with
  | none => exact ⟨false, _, dropField_of_none hchild, ht⟩
  | some y =>
    obtain ⟨fields, sites, isOpen, nil, hk, hy⟩ := Kind.eq_record_of_child? hchild
    have hx := Forest.isClass_of_isRecord (f := s.forest) (t := x) (by rw [hk]; rfl)
    have hrefines := Kind.refines_erase fields sites isOpen nil label
    rw [← hk] at hrefines
    have hsteady := Forest.refine_steady h.sound.forest.rooted hrefines
    refine ⟨true, _, dropField_record hk (by rw [hy]; rfl), ?_, hsteady.size,
      fun z hz => by rwa [hsteady.rep], le_rfl⟩
    refine ht.tame.setKind hx hrefines (h.lt_base hx (by rw [hk]; rfl)) rfl fun slot z hz => ?_
    refine h.closed x slot z hpart hx ?_
    rw [hk]
    cases slot with
    | field l => exact Fields.find?_of_erase hz
    | _ => cases hz

/-- Two records get the same labels. -/
theorem balanceLabels_returns {labels : List String} {this that : TermId} {progress : Bool}
    (h : Tame part base s) (hthat : s.forest.IsClass that) (hpthat : part that) :
    Returns (balanceLabels this that labels progress) s fun _ u => Tends part base s u := by
  induction labels generalizing progress s with
  | nil => exact returns_pure (.refl h)
  | cons label rest ih =>
    have hrest : ∀ changed s₁, Tends part base s s₁ → s₁.forest.IsClass that →
        Returns (balanceLabels this that rest (progress || changed)) s₁
          fun _ u => Tends part base s u :=
      fun changed s₁ ht hthat₁ => (ih ht.tame hthat₁).imp fun _ _ _ hu => ht.trans hu
    unfold balanceLabels
    refine returns_view ?_
    split
    · exact ih h hthat
    refine returns_view ?_
    split
    · refine returns_bind (child_returns h hthat hpthat (.field label)) ?_
      rintro rhs? s₁ - ⟨hlooks₁, ht₁, hrhs⟩
      have hthat₁ := hthat.of_steady (hlooks₁.steady h.sound)
      cases rhs? with
      | none => exact hrest false s₁ ht₁ hthat₁
      | some rhs =>
        obtain ⟨hrhs, hprhs⟩ := hrhs rhs rfl
        refine returns_bind (addField_returns ht₁.tame hrhs.lt (by rwa [hrhs.rep_eq])) ?_
        intro changed s₂ hadd ht₂
        exact hrest changed s₂ (ht₁.trans ht₂) (hthat₁.of_steady
          (addField_proceeds ht₁.tame.sound ht₁.tame.commits hrhs.lt hadd).2)
    · refine returns_bind (dropField_returns h hpthat) fun changed s₁ hdrop ht₁ => ?_
      exact hrest changed s₁ ht₁
        (hthat.of_steady (dropField_proceeds h.sound h.commits hdrop).2)

end Fields

/-! ## Unifying -/

/-- The computation returns on terms of the part, if it may nest once for every pair not met yet. -/
def Ending (part : TermId → Prop) (base depth : Nat) (rec : TermId → TermId → UnifyM Bool) : Prop :=
  ∀ c d s, Tame part base s → c < s.forest.size → d < s.forest.size → part (s.forest.rep c) →
    part (s.forest.rep d) → base * base < depth + s.met.length →
      Returns (rec c d) s fun _ u => Tends part base s u

section Unify

variable {rec : TermId → TermId → UnifyM Bool} {depth : Nat} (hrec : Ending part base depth rec)

include hrec in
/-- The children of two classes are unified in turn. -/
theorem unifySlots_returns {slots : List Slot} {this that : TermId} {progress : Bool}
    (h : Tame part base s) (hthis : s.forest.IsClass this) (hthat : s.forest.IsClass that)
    (hpthis : part this) (hpthat : part that) (hdepth : base * base < depth + s.met.length) :
    Returns (unifySlots rec slots this that progress) s fun result u => Tends part base s u ∧
      part result.1 ∧ part result.2.1 := by
  induction slots generalizing this that progress s with
  | nil => exact returns_pure ⟨.refl h, hpthis, hpthat⟩
  | cons slot rest ih =>
    unfold unifySlots
    refine returns_bind (child_returns h hthis hpthis slot) ?_
    rintro lhs? s₁ - ⟨hlooks₁, ht₁, hlhs⟩
    have hsteady₁ := hlooks₁.steady h.sound
    have hthis₁ := hthis.of_steady hsteady₁
    have hthat₁ := hthat.of_steady hsteady₁
    cases lhs? with
    | none =>
      exact (ih ht₁.tame hthis₁ hthat₁ hpthis hpthat (by have := ht₁.met; omega)).imp
        fun _ _ _ hu => ⟨ht₁.trans hu.1, hu.2⟩
    | some lhs =>
      refine returns_bind (child_returns ht₁.tame hthat₁ hpthat slot) ?_
      rintro rhs? s₂ - ⟨hlooks₂, ht₂, hrhs⟩
      obtain ⟨hlhs, hplhs⟩ := hlhs lhs rfl
      have hlhs₂ := hlhs.of_steady (hlooks₂.steady ht₁.tame.sound)
      have hthis₂ := hthis₁.of_steady (hlooks₂.steady ht₁.tame.sound)
      have hthat₂ := hthat₁.of_steady (hlooks₂.steady ht₁.tame.sound)
      have ht₂' := ht₁.trans ht₂
      -- Whatever happened to the children, the two classes are looked up again.
      have hrest : ∀ changed s₃, Tends part base s₂ s₃ → Returns (do
          let this ← find this
          let that ← find that
          if (← kindOf this).isError || (← kindOf that).isError then
            return (this, that, progress || changed)
          unifySlots rec rest this that (progress || changed)) s₃ fun result u =>
            Tends part base s u ∧ part result.1 ∧ part result.2.1 := by
        intro changed s₃ ht₃
        have hthis₃ : this < s₃.forest.size := Nat.lt_of_lt_of_le hthis₂.lt ht₃.size
        have hthat₃ : that < s₃.forest.size := Nat.lt_of_lt_of_le hthat₂.lt ht₃.size
        have hpthis₃ : part (s₃.forest.rep this) := ht₃.rep this (by rwa [hthis₂.rep_eq])
        have hpthat₃ : part (s₃.forest.rep that) := ht₃.rep that (by rwa [hthat₂.rep_eq])
        refine find_both_returns ht₃.tame hthis₃ hthat₃ hpthis₃ hpthat₃ fun s₄ ht₄ hthis₄ hthat₄ => ?_
        have hall := ht₂'.trans (ht₃.trans ht₄)
        refine returns_view (returns_view ?_)
        split
        · exact returns_pure ⟨hall, hpthis₃, hpthat₃⟩
        · exact (ih ht₄.tame hthis₄ hthat₄ hpthis₃ hpthat₃ (by have := hall.met; omega)).imp
            fun _ _ _ hu => ⟨hall.trans hu.1, hu.2⟩
      cases rhs? with
      | some rhs =>
        obtain ⟨hrhs, hprhs⟩ := hrhs rhs rfl
        have hunify := hrec lhs rhs s₂ ht₂.tame hlhs₂.lt hrhs.lt (by rwa [hlhs₂.rep_eq])
          (by rwa [hrhs.rep_eq]) (by have := ht₂'.met; omega)
        exact returns_bind hunify fun changed s₃ _ ht₃ => hrest changed s₃ ht₃
      | none =>
        have hnothing : Returns (pure false : UnifyM Bool) s₂ fun _ u => Tends part base s₂ u :=
          returns_pure (.refl ht₂.tame)
        cases slot with
        | field label =>
          refine returns_view ?_
          split
          · have hadd : Returns (addField that label lhs) s₂ fun _ u => Tends part base s₂ u :=
              addField_returns ht₂.tame hlhs₂.lt (by rwa [hlhs₂.rep_eq])
            exact returns_bind hadd fun changed s₃ _ ht₃ => hrest changed s₃ ht₃
          · exact returns_bind hnothing fun changed s₃ _ ht₃ => hrest changed s₃ ht₃
        | _ => exact returns_bind hnothing fun changed s₃ _ ht₃ => hrest changed s₃ ht₃

/-- Classes without slots are no functions and have no children, so that nothing is lost when one wins
over the other. -/
theorem merge_leaf_returns {loser winner : TermId} (h : Tame part base s)
    (hl : s.forest.IsClass loser) (hw : s.forest.IsClass winner) (hloser : part loser)
    (hwinner : part winner) (hslots : (s.forest.kind loser).slots.isEmpty = true) :
    Returns (merge loser winner) s fun _ u => Tends part base s u := by
  refine merge_returns h hl hw hloser hwinner (fun _ => Kind.children_of_slots hl.root hslots)
    fun n m hn => ?_
  rw [Kind.arity?_of_slots hslots] at hn
  cases hn

/-- An error wins over anything, and a variable has no slots to lose. -/
theorem merge_joined_returns {loser winner : TermId} (h : Tame part base s)
    (hl : s.forest.IsClass loser) (hw : s.forest.IsClass winner) (hloser : part loser)
    (hwinner : part winner)
    (hcase : ((s.forest.kind loser).isVar || (s.forest.kind winner).isError) = true) :
    Returns (merge loser winner) s fun _ u => Tends part base s u := by
  rw [Bool.or_eq_true, Kind.isVar_iff, Kind.isError_iff] at hcase
  rcases hcase with hvar | ⟨cause, herror⟩
  · exact merge_leaf_returns h hl hw hloser hwinner (by rw [hvar]; rfl)
  · refine merge_returns h hl hw hloser hwinner (fun hvar => ?_) fun n m _ hm => ?_
    · rw [herror] at hvar
      cases hvar
    · rw [herror] at hm
      cases hm

/-- If an error came up in the first of two classes meanwhile, the second one is merged into it. -/
theorem mergeHalves_returns {this that : TermId} (h : Tame part base s)
    (hthis : s.forest.IsClass this) (hthat : s.forest.IsClass that) (hpthis : part this)
    (hpthat : part that) (hknown : s.forest.kind that ≠ .var)
    (harity : ∀ n m, (s.forest.kind this).arity? = some n →
      (s.forest.kind that).arity? = some m → n = m) (progress : Bool) :
    Returns (mergeHalves this that progress) s fun _ u => Tends part base s u := by
  refine returns_view (returns_view ?_)
  split
  · rename_i herror
    rw [Bool.and_eq_true] at herror
    obtain ⟨cause, herror⟩ := Kind.isError_iff.1 herror.1
    have ht := h.wake s.forest that
    refine returns_bind (P := fun _ t =>
      t = { s with work := s.work.map (s.forest.wake that) }) ⟨(), _, rfl, rfl⟩ ?_
    rintro v t - rfl
    refine returns_bind (redirect_returns ht.tame hthat hthis hpthis ?_) fun merged u _ hu =>
      returns_pure (ht.trans hu)
    dsimp only
    rw [herror]
    exact .error hthat.root cause
  · exact returns_bind (merge_returns h hthis hthat hpthis hpthat
      (fun hvar => absurd hvar hknown) harity) fun merged u _ hu => returns_pure hu

variable (hproceeds : Proceeding rec)

include hrec hproceeds in
/-- Two classes of one shape are merged once their children are unified. -/
theorem unifyChildren_returns (h : Tame part base s) (hx : s.forest.IsClass x)
    (hy : s.forest.IsClass y) (hpx : part x) (hpy : part y) (hvar : s.forest.kind x ≠ .var)
    (hvar' : s.forest.kind y ≠ .var) (hshape : (s.forest.kind x).shape = (s.forest.kind y).shape)
    (hdepth : base * base < depth + s.met.length) :
    Returns (unifyChildren rec x y) s fun _ u => Tends part base s u := by
  unfold unifyChildren
  refine returns_view (returns_bind (unifySlots_returns hrec h hx hy hpx hpy hdepth) ?_)
  rintro ⟨this, that, progress⟩ s₁ hslots ⟨ht₁, hpthis, hpthat⟩
  obtain ⟨hp₁, rfl, rfl⟩ := unifySlots_proceeds hproceeds h.sound h.commits hx hy hslots
  have hthis := Forest.isClass_rep hp₁.sound.forest (hp₁.lt h.sound hx.lt)
  have hthat := Forest.isClass_rep hp₁.sound.forest (hp₁.lt h.sound hy.lt)
  refine Returns.imp (P := fun _ u => Tends part base s₁ u) ?_ fun _ _ _ hu => ht₁.trans hu
  -- Functions of one arity stay so while their children are unified and their labels settled.
  have hmerge : ∀ s₂, Tends part base s₁ s₂ → Proceeds s₁ s₂ → Steady s₁.forest s₂.forest →
      ∀ progress', Returns (mergeHalves (s₁.forest.rep x) (s₁.forest.rep y) progress') s₂
        fun _ u => Tends part base s₁ u := by
    intro s₂ ht₂ hp₂ hsteady progress'
    have hp := hp₁.trans hp₂
    have harity : ∀ n m, (s₂.forest.kind (s₁.forest.rep x)).arity? = some n →
        (s₂.forest.kind (s₁.forest.rep y)).arity? = some m → n = m := by
      intro n m hn hm
      rw [← hsteady.rep] at hn hm
      have hn := hp.arity? h.sound hx hvar (h.plain x hpx hx) hn
      have hm := hp.arity? h.sound hy hvar' (h.plain y hpy hy) hm
      rw [Kind.arity?_eq_of_shape hshape, hm] at hn
      exact (Option.some.inj hn).symm
    have hknown : s₂.forest.kind (s₁.forest.rep y) ≠ .var := by
      rw [← hsteady.rep]
      exact (hp.evolves h.sound).firm y (hy.known hvar')
    exact (mergeHalves_returns ht₂.tame (hthis.of_steady hsteady) (hthat.of_steady hsteady) hpthis
      hpthat hknown harity progress').imp fun _ _ _ hu => ht₂.trans hu
  refine returns_view (returns_view ?_)
  dsimp only
  split
  · exact returns_bind (P := fun _ t => t = s₁) (returns_pure rfl) fun progress' t _ e =>
      e ▸ hmerge s₁ (.refl ht₁.tame) (.refl hp₁.sound) (.refl hp₁.sound.forest.rooted) progress'
  · refine returns_view (returns_bind (balanceLabels_returns ht₁.tame hthat hpthat) ?_)
    intro progress' s₂ hbalance ht₂
    obtain ⟨hp₂, hsteady⟩ := balanceLabels_proceeds hp₁.sound ht₁.tame.commits hbalance
    exact hmerge s₂ ht₂ hp₂ hsteady progress'

include hrec hproceeds in
/-- One layer of unification returns if the next one does. -/
theorem unifyStep_returns : Ending part base (depth + 1) (unifyStep rec) := by
  intro c d s h hc hd hpc hpd hdepth
  unfold unifyStep
  refine find_both_returns h hc hd hpc hpd fun s₂ ht hx hy => ?_
  have h₂ := ht.tame
  refine Returns.imp (P := fun _ u => Tends part base s₂ u) ?_ fun _ _ _ hu => ht.trans hu
  generalize s.forest.rep c = x at hx hpc
  generalize s.forest.rep d = y at hy hpd
  refine returns_ite (fun _ => returns_pure (.refl h₂)) fun hne => ?_
  refine returns_view (returns_view (returns_ite (fun hslots => ?_) fun _ => ?_))
  · rw [Bool.and_eq_true] at hslots
    have hleaf : Returns (merge (ranked x y (s₂.forest.kind x) (s₂.forest.kind y)).1
        (ranked x y (s₂.forest.kind x) (s₂.forest.kind y)).2) s₂ fun _ u => Tends part base s₂ u := by
      rcases ranked_cases x y (s₂.forest.kind x) (s₂.forest.kind y) with hr | hr <;> rw [hr]
      · exact merge_leaf_returns h₂ hx hy hpc hpd hslots.1
      · exact merge_leaf_returns h₂ hy hx hpd hpc hslots.2
    exact hleaf
  refine returns_ite (merge_joined_returns h₂ hx hy hpc hpd) fun hknown => ?_
  refine returns_ite (merge_joined_returns h₂ hy hx hpd hpc) fun hknown' => ?_
  rw [Bool.or_eq_true, Kind.isVar_iff, not_or, Bool.not_eq_true] at hknown hknown'
  rw [h₂.plain x hpc hx, h₂.plain y hpd hy, Bool.false_and, if_neg Bool.false_ne_true,
    if_neg Bool.false_ne_true]
  refine returns_bind (P := fun met t => s₂.met.contains (x, y) = met ∧ s₂ = t)
    ⟨_, _, rfl, rfl, rfl⟩ ?_
  rintro met t - ⟨rfl, rfl⟩
  refine returns_ite (fun _ => returns_pure (.refl h₂)) fun hmet => ?_
  rw [List.contains_iff_mem] at hmet
  have h₃ := h₂.meet (h₂.lt_base hx hknown'.2) (h₂.lt_base hy hknown.2) hmet
  have ht₃ : Tends part base s₂ { s₂ with met := (x, y) :: s₂.met } :=
    ⟨h₃, le_rfl, fun _ => id, Nat.le_succ _⟩
  refine returns_bind (P := fun _ t => t = { s₂ with met := (x, y) :: s₂.met }) ⟨(), _, rfl, rfl⟩ ?_
  rintro v t - rfl
  refine returns_isProbe h₃.commits ?_
  refine Returns.imp (P := fun _ u => Tends part base { s₂ with met := (x, y) :: s₂.met } u) ?_
    fun _ _ _ hu => ht₃.trans hu
  rw [if_neg Bool.false_ne_true]
  refine returns_ite (fun _ => returns_view (clash_returns h₃ hx hy hpc hpd)) fun hshape => ?_
  refine unifyChildren_returns hrec hproceeds h₃ hx hy hpc hpd hknown.1 hknown'.1
    (not_not.1 hshape) ?_
  have hlonger := ht.met
  rw [List.length_cons]
  omega

end Unify

/-- A unification returns if it may nest once for every pair not met yet. -/
theorem unifyWithin_returns (depth : Nat) : Ending part base depth (unifyWithin depth) := by
  induction depth with
  | zero =>
    intro c d s h _ _ _ _ hdepth
    have hle := h.length_le
    omega
  | succ depth ih => exact unifyStep_returns ih (unifyWithin_proceeding depth)

/-- The parts of two types that lead to no wrappers are tame before anything is merged. -/
theorem tame_start {f : Forest} (hf : f.Sound) {a b : TermId}
    (ha : ∀ c, f.Reaches (f.rep a) c → (f.kind c).isNilable = false)
    (hb : ∀ c, f.Reaches (f.rep b) c → (f.kind c).isNilable = false) (work : Worklist) :
    Tame (fun c => f.Reaches (f.rep a) c ∨ f.Reaches (f.rep b) c ∨ f.size ≤ c) f.size
      ⟨f, some work, [], []⟩ where
  sound := ⟨hf, fun _ hp => absurd hp List.not_mem_nil⟩
  commits := rfl
  size := le_rfl
  fresh _ hc := Or.inr (Or.inr hc)
  errors _ hc hclass := absurd hclass.lt (Nat.not_lt.2 hc)
  plain c hpart hclass := by
    rcases hpart with hreach | hreach | hle
    · exact ha c hreach
    · exact hb c hreach
    · exact absurd hclass.lt (Nat.not_lt.2 hle)
  closed c slot x hpart hclass hx := by
    rcases hpart with hreach | hreach | hle
    · exact Or.inl (hreach.tail ⟨slot, x, hx, rfl⟩)
    · exact Or.inr (Or.inl (hreach.tail ⟨slot, x, hx, rfl⟩))
    · exact absurd hclass.lt (Nat.not_lt.2 hle)
  nodup := List.nodup_nil
  met _ hp := absurd hp List.not_mem_nil

/-- The unification of two types that lead to no wrappers returns, however their classes lead to each
other. -/
theorem unify_plain_returns {f : Forest} (hf : f.Sound) {a b : TermId} (ha : a < f.size)
    (hb : b < f.size) (hplain : ∀ c, f.Reaches (f.rep a) c → (f.kind c).isNilable = false)
    (hplain' : ∀ c, f.Reaches (f.rep b) c → (f.kind c).isNilable = false) (work : Worklist)
    {depth : Nat} (hdepth : f.size * f.size < depth) :
    Returns (unify depth a b) ⟨f, some work, [], []⟩ fun _ _ => True := by
  have h := tame_start hf hplain hplain' work
  unfold unify
  refine find_both_returns h ha hb (Or.inl .refl) (Or.inr (Or.inl .refl)) fun s₂ ht hra hrb => ?_
  split
  · exact returns_pure trivial
  have hempty : Tame _ f.size { s₂ with met := [] } :=
    { ht.tame with
      sound := ⟨ht.tame.sound.forest, ht.tame.sound.image⟩
      nodup := List.nodup_nil
      met := fun _ hp => absurd hp List.not_mem_nil }
  refine returns_bind (P := fun _ t => t = { s₂ with met := [] }) ⟨(), _, rfl, rfl⟩ ?_
  rintro v t - rfl
  refine (unifyWithin_returns depth _ _ _ hempty hra.lt hrb.lt ?_ ?_ hdepth).imp fun _ _ _ _ => trivial
  · dsimp only
    rw [hra.rep_eq]
    exact Or.inl .refl
  · dsimp only
    rw [hrb.rep_eq]
    exact Or.inr (Or.inl .refl)

/-- The unification of two types that are made of variables, base types and functions returns. -/
theorem unify_returns {f : Forest} (hf : f.Sound) {a b : TermId} (ha : a < f.size) (hb : b < f.size)
    (hsimple : f.Simple a) (hsimple' : f.Simple b) (work : Worklist) {depth : Nat}
    (hdepth : f.size * f.size < depth) :
    Returns (unify depth a b) ⟨f, some work, [], []⟩ fun _ _ => True :=
  unify_plain_returns hf ha hb (fun c hc => Kind.isNilable_of_isSimple (hsimple c hc))
    (fun c hc => Kind.isNilable_of_isSimple (hsimple' c hc)) work hdepth

end Returns

end Unifier

end TypeFlow
