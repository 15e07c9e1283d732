import TypeFlow.Proofs.UnifierProgress

/-!
# Merged classes

A class that is merged into another is a class of its own at that moment: the steps before may have merged it
elsewhere, and then its new class is looked up first.  Merging tells all who are registered with either
class, and so does adding a field to a record or dropping one.

Main results:

- `Unifier.settle_proceeds`, `Unifier.merge_proceeds`: merging two classes proceeds.
- `Unifier.addField_proceeds`, `Unifier.dropField_proceeds`: so does changing the fields of a record.
-/

namespace TypeFlow

open Forest (IsClass Steady Evolves absorbedKind strippedKind)

namespace Unifier

variable {α : Type} {s t u : Unifier}

/-! ## Merging -/

/-- The two terms are one class now, and all classes but the first still are. -/
structure Joins (loser winner : TermId) (f g : Forest) : Prop where
  rep : g.rep loser = g.rep winner
  isLink : ∀ x, x ≠ loser → (g.kind x).isLink = (f.kind x).isLink

/-- A change of a class that is woken afterwards. -/
theorem refine_proceeds (hs : s.Sound) (hwork : s.work.isNone = false) {x : TermId} {k : Kind}
    (hx : s.forest.IsClass x) (hk : (s.forest.kind x).Refines k) :
    Proceeds s ⟨s.forest.setKind x k, s.work.map ((s.forest.setKind x k).wake x), s.met,
      s.image⟩ := by
  have hchange : s.forest.Change (s.forest.setKind x k) := .refine hk
  have hs₁ := hs.change hchange
  refine .head hchange (.wake hs₁ _ x) fun c n hc hn => ?_
  rw [Forest.disturbs_refine hc] at hn
  refine waiting_wake hs₁.forest hwork ?_ (c := x) ?_ ?_
  · rw [Forest.size_setKind]
    exact hx.lt
  · rw [Forest.deps_setKind]
    exact hn
  · rw [(hx.of_steady (Forest.refine_steady hs.forest.rooted hk)).rep_eq]
    exact .refl

/-- A link between two classes, once who is registered with the first waits. -/
theorem redirect_proceeds (hs : s.Sound) {loser winner : TermId} {r : Bool}
    (hl : s.forest.IsClass loser) (hw : s.forest.IsClass winner)
    (haccrues : (s.forest.kind loser).Accrues (s.forest.kind winner))
    (htold : ∀ n ∈ s.forest.deps loser, Waiting s.work n)
    (h : redirect loser winner s = some (r, u)) :
    Proceeds s u ∧ Joins loser winner s.forest u.forest := by
  unfold redirect at h
  rcases ite_eq_some.1 h with ⟨e, h⟩ | ⟨hne, h⟩
  · obtain ⟨-, rfl⟩ := pure_eq_some.1 h
    exact ⟨.refl hs, by rw [e], fun _ _ => rfl⟩
  obtain ⟨v, s₁, hlink, h⟩ := bind_eq_some.1 h
  obtain ⟨-, rfl⟩ := pure_eq_some.1 h
  rw [change_eq_some.1 hlink]
  have hchange : s.forest.Change (s.forest.link loser winner) :=
    .link hl.root hw.root hne hl.lt hw.lt haccrues
  refine ⟨.head hchange (.refl (hs.change hchange)) fun c n hc hn => ?_, ?_, fun x hx => ?_⟩
  · rw [Forest.disturbs_link hl.lt hc] at hn
    exact htold n hn
  · have hrep := Forest.rep_link_eq hs.forest.rooted hl.root hw.root hne hl.lt hw.lt
    dsimp only
    rw [hrep, hrep, hl.rep_eq, hw.rep_eq, if_pos rfl, if_neg (Ne.symm hne)]
  · dsimp only
    rw [Forest.kind_link hl.lt, if_neg (Ne.symm hx)]

/-- Widening the inputs of a class that is woken afterwards. -/
theorem widen_proceeds (hs : s.Sound) (hwork : s.work.isNone = false) {x : TermId}
    (hx : x < s.forest.size) :
    Proceeds s ⟨s.forest.widenInputs x, s.work.map ((s.forest.widenInputs x).wake x), s.met,
      s.image⟩ := by
  have hchange : s.forest.Change (s.forest.widenInputs x) := .widen x
  have hs₁ := hs.change hchange
  have hsteady := Forest.widenInputs_steady hs.forest.rooted x
  refine .head hchange (.wake hs₁ _ x) fun c n hc hn => ?_
  refine waiting_wake hs₁.forest hwork (Nat.lt_of_lt_of_le hx hsteady.size) (c := c) ?_ ?_
  · rw [Forest.deps_widenInputs]
    exact hn
  · rw [hsteady.rep]
    exact (Forest.disturbs_widenInputs hs.forest.rooted hc).widenInputs hs.forest.rooted x

section Settle

variable {loser winner : TermId} {r : Bool}

/-- The inputs of a class are widened before it is woken, if they are. -/
theorem passInput_proceeds (hs : s.Sound) (hwork : s.work.isNone = false) (loser : TermId)
    (hw : winner < s.forest.size) :
    Proceeds s ⟨s.forest.passInput loser winner,
      s.work.map ((s.forest.passInput loser winner).wake winner), s.met, s.image⟩ := by
  unfold Forest.passInput
  split
  · exact widen_proceeds hs hwork hw
  · exact .wake hs _ winner

/-- Merging two classes wakes who is registered with either. -/
theorem settle_proceeds (hs : s.Sound) (hwork : s.work.isNone = false)
    (hl : s.forest.IsClass loser) (hw : s.forest.IsClass winner)
    (haccrues : (s.forest.kind loser).Accrues (s.forest.kind winner))
    (h : settle loser winner s = some (r, u)) :
    Proceeds s u ∧ Joins loser winner s.forest u.forest ∧
      (loser ≠ winner → ∀ n ∈ s.forest.deps winner, Waiting u.work n) := by
  by_cases hne : loser = winner
  · rw [settle, if_pos hne] at h
    obtain ⟨-, rfl⟩ := pure_eq_some.1 h
    exact ⟨.refl hs, ⟨by rw [hne], fun _ _ => rfl⟩, fun hne' => absurd hne hne'⟩
  rw [settle_eq hwork hne] at h
  cases h
  have hsteady := Forest.passInput_steady hs.forest.rooted loser winner
  have hp₁ := passInput_proceeds hs hwork loser hw.lt
  have haccrues : ((s.forest.passInput loser winner).kind loser).Accrues
      ((s.forest.passInput loser winner).kind winner) := by
    unfold Forest.passInput
    split
    · exact Forest.accrues_widenInputs_winner hs.forest.rooted hne hw.root haccrues
    · exact haccrues
  generalize s.forest.passInput loser winner = g at *
  have hl₁ := hl.of_steady hsteady
  have hw₁ := hw.of_steady hsteady
  have hp₂ := Proceeds.wake hp₁.sound g loser
  obtain ⟨hp₃, hjoins⟩ := redirect_proceeds hp₂.sound hl₁ hw₁ haccrues (fun n hn => by
    refine waiting_wake hp₁.sound.forest (by rw [hp₁.probe, hwork]) hl₁.lt hn ?_
    rw [hl₁.rep_eq]
    exact .refl) (redirect_eq hne)
  refine ⟨(hp₁.trans hp₂).trans hp₃, ⟨hjoins.rep, fun x hx => ?_⟩, fun _ n hn => ?_⟩
  · rw [hjoins.isLink x hx]
    exact hsteady.isLink x
  · refine hp₃.waiting n (hp₂.waiting n (waiting_wake hp₁.sound.forest hwork hw₁.lt (c := winner)
      (hsteady.deps _ _ hn) ?_))
    rw [hw₁.rep_eq]
    exact .refl

/-- Merging two classes widens inputs of the winner at most. -/
theorem settle_kinds (hl : loser < s.forest.size) (h : settle loser winner s = some (r, u))
    {x : TermId} (hx : x ≠ loser) :
    u.forest.kind x = s.forest.kind x ∨
      u.forest.kind x = (s.forest.widenInputs winner).kind x := by
  by_cases hne : loser = winner
  · rw [settle, if_pos hne] at h
    rw [← (pure_eq_some.1 h).2]
    exact Or.inl rfl
  rcases Bool.eq_false_or_eq_true s.work.isNone with hwork | hwork
  · rw [settle, if_neg hne] at h
    obtain rfl | ⟨hcommits, -⟩ := unless_probe h
    · exact Or.inl rfl
    · rw [hwork] at hcommits
      cases hcommits
  rw [settle_eq hwork hne] at h
  cases h
  dsimp only
  rw [Forest.kind_link (by rw [Forest.size_passInput]; exact hl), if_neg hx.symm]
  exact Forest.kind_passInput_or _ _ _ _

/-- The winner of a merge may take over what is known of the loser first. -/
theorem settle_refined (hs : s.Sound) (hwork : s.work.isNone = false)
    (hl : s.forest.IsClass loser) (hw : s.forest.IsClass winner) (hne : loser ≠ winner) {k : Kind}
    (hk : (s.forest.kind winner).Refines k) (haccrues : (s.forest.kind loser).Accrues k)
    (h : settle loser winner { s with forest := s.forest.setKind winner k } = some (r, u)) :
    Proceeds s u ∧ Joins loser winner s.forest u.forest := by
  have hchange : s.forest.Change (s.forest.setKind winner k) := .refine hk
  have hsteady := Forest.refine_steady hs.forest.rooted hk
  obtain ⟨hp, hjoins, hwoken⟩ := settle_proceeds (hs.change hchange) hwork (hl.of_steady hsteady)
    (hw.of_steady hsteady) (by
      dsimp only
      rw [Forest.kind_setKind, if_neg fun e => hne e.1.symm, Forest.kind_setKind,
        if_pos ⟨rfl, hw.lt⟩]
      exact haccrues) h
  refine ⟨.head hchange hp fun c n hc hn => ?_, hjoins.rep, fun x hx => ?_⟩
  · rw [Forest.disturbs_refine hc] at hn
    refine hwoken hne n ?_
    dsimp only
    rw [Forest.deps_setKind]
    exact hn
  · rw [hjoins.isLink x hx]
    exact hsteady.isLink x

/-- Two classes become an error together, which is a new term. -/
theorem clash_forms {a b : TermId} {cause : TypeError} (hs : s.Sound)
    (hwork : s.work.isNone = false) (ha : s.forest.IsClass a) (hb : b < s.forest.size)
    (h : clash a b cause s = some (r, u)) :
    ∃ s₁, Proceeds s s₁ ∧ s₁.forest.IsClass s.forest.size ∧
      s₁.forest.kind s.forest.size = .error cause ∧ Proceeds s₁ u ∧
        u.forest.rep a = u.forest.rep b := by
  obtain ⟨e, s₁, halloc, h⟩ := bind_eq_some.1 h
  obtain ⟨first, s₂, hsettle, h⟩ := bind_eq_some.1 h
  obtain ⟨error, s₃, hfind, h⟩ := bind_eq_some.1 h
  obtain ⟨b', s₄, hfind', h⟩ := bind_eq_some.1 h
  obtain ⟨second, s₅, hsettle', h⟩ := bind_eq_some.1 h
  obtain ⟨-, rfl⟩ := pure_eq_some.1 h
  have hnew : e = s.forest.size := (alloc_eq_some.1 halloc).1
  obtain ⟨hp₁, hsteady₁, he, herror⟩ := alloc_error_proceeds hs halloc
  have hwork₁ : s₁.work.isNone = false := by rw [hp₁.probe, hwork]
  have ha₁ := ha.of_steady hsteady₁
  have haccrues : (s₁.forest.kind a).Accrues (s₁.forest.kind e) := by
    rw [herror]
    exact .error ha₁.root cause
  obtain ⟨hp₂, hjoins, -⟩ := settle_proceeds hp₁.sound hwork₁ ha₁ he haccrues hsettle
  have hs₂ := hp₂.sound
  obtain ⟨rfl, hlooks₃⟩ := find_looks hs₂ hfind
  have hp₃ := hlooks₃.proceeds hs₂
  obtain ⟨rfl, hlooks₄⟩ := find_looks hp₃.sound hfind'
  have hp₄ := hp₃.trans (hlooks₄.proceeds hp₃.sound)
  have hsteady₄ := (hlooks₃.trans hlooks₄).steady hs₂
  have ha₂ : a < s₂.forest.size := hp₂.lt hp₁.sound ha₁.lt
  have hb₃ : b < s₃.forest.size := hp₃.lt hs₂ (hp₂.lt hp₁.sound (hp₁.lt hs hb))
  -- The error stays one when its class is merged and looked up.
  obtain ⟨cause', hstill⟩ : ∃ cause', s₄.forest.kind (s₂.forest.rep a) = .error cause' := by
    refine Kind.isError_iff.1 ?_
    have herror' := ((hp₂.trans hp₄).leads.accrues hp₁.sound.forest e).isError
      (by rw [he.rep_eq, herror]; rfl)
    rwa [hsteady₄.rep, ← hjoins.rep] at herror'
  have hwork₄ : s₄.work.isNone = false := by rw [hp₄.probe, hp₂.probe, hwork₁]
  have hb₄ := (Forest.isClass_rep hp₃.sound.forest hb₃).of_steady (hlooks₄.steady hp₃.sound)
  obtain ⟨hp₅, hjoins', -⟩ := settle_proceeds hp₄.sound hwork₄ hb₄
    ((Forest.isClass_rep hs₂.forest ha₂).of_steady hsteady₄)
    (by rw [hstill]; exact .error hb₄.root cause') hsettle'
  refine ⟨s₁, hp₁, hnew ▸ he, hnew ▸ herror, (hp₂.trans hp₄).trans hp₅, ?_⟩
  have ha₅ := ((hp₄.trans hp₅).evolves hs₂).rep_rep hs₂.forest.rooted a
  have hb₅ := (((hlooks₄.proceeds hp₃.sound).trans hp₅).evolves hp₃.sound).rep_rep
    hp₃.sound.forest.rooted b
  rw [← ha₅, ← hb₅, hjoins'.rep]

/-- Two classes that clash become one. -/
theorem clash_proceeds {a b : TermId} {cause : TypeError} (hs : s.Sound)
    (hwork : s.work.isNone = false) (ha : s.forest.IsClass a) (hb : b < s.forest.size)
    (h : clash a b cause s = some (r, u)) :
    Proceeds s u ∧ u.forest.rep a = u.forest.rep b := by
  obtain ⟨s₁, hp₁, -, -, hp, hrep⟩ := clash_forms hs hwork ha hb h
  exact ⟨hp₁.trans hp, hrep⟩

/-- The merged kind of two classes refines that of the winner, and says at least as much as that of
the loser.  A variable gains no children, so it must not win over a type that has some. -/
theorem mergedKind_refines {kl kw k : Kind} (hl : kl.isLink = false) (hw : kw.isLink = false)
    (hchildren : kw = .var → kl.children = [])
    (harity : ∀ n m, kl.arity? = some n → kw.arity? = some m → n = m)
    (h : mergedKind kl kw = some k) : kw.Refines k ∧ kl.Accrues k := by
  unfold mergedKind at h
  split at h
  · cases h
    exact ⟨⟨hw, hw, .refl hw, fun _ hx => hx⟩, .var _⟩
  · cases h
    exact ⟨⟨hw, hw, .refl hw, fun _ hx => hx⟩, .nilable rfl⟩
  · cases h
    exact ⟨⟨hw, rfl, .error hw _, fun _ hx => absurd hx List.not_mem_nil⟩, .error rfl _⟩
  · cases h
    refine ⟨⟨rfl, hl, .var _, fun x hx => ?_⟩, .refl hl⟩
    rw [hchildren rfl] at hx
    exact absurd hx List.not_mem_nil
  · split at h
    · cases h
      exact ⟨⟨rfl, rfl, .base (Flow.covers_meet_right _ _), fun _ hx => hx⟩,
        .base (Flow.covers_meet_left _ _)⟩
    · cases h
  · rename_i args' ret' s n args ret t m
    cases h
    exact ⟨⟨rfl, rfl, .function rfl (fun x hx => IdSet.mem_union.2 (Or.inr hx)) (by simp +contextual),
      fun _ hx => hx⟩,
      .function (harity _ _ rfl rfl).symm (fun x hx => IdSet.mem_union.2 (Or.inl hx))
        (by simp +contextual)⟩
  · rename_i fields' s o n fields t p m
    cases h
    exact ⟨⟨rfl, rfl, .record (fun x hx => IdSet.mem_union.2 (Or.inr hx)) (by simp +contextual)
      (by simp +contextual), fun _ hx => hx⟩,
      .record (fun x hx => IdSet.mem_union.2 (Or.inl hx)) (by simp +contextual)
        (by simp +contextual)⟩
  · cases h

/-- Merging two classes proceeds, and unless it only probes they are one class then. -/
theorem merge_proceeds (hs : s.Sound) (hl : s.forest.IsClass loser) (hw : s.forest.IsClass winner)
    (hchildren : s.forest.kind winner = .var → (s.forest.kind loser).children = [])
    (harity : ∀ n m, (s.forest.kind loser).arity? = some n →
      (s.forest.kind winner).arity? = some m → n = m)
    (h : merge loser winner s = some (r, u)) :
    Proceeds s u ∧ (s.work.isNone = false → u.forest.rep loser = u.forest.rep winner) := by
  unfold merge at h
  rcases ite_eq_some.1 h with ⟨e, h⟩ | ⟨hne, h⟩
  · obtain ⟨-, rfl⟩ := pure_eq_some.1 h
    exact ⟨.refl hs, fun _ => by rw [e]⟩
  obtain ⟨probing, s₁, hprobe, h⟩ := bind_eq_some.1 h
  obtain ⟨rfl, rfl⟩ := isProbe_eq_some.1 hprobe
  rcases ite_eq_some.1 h with ⟨hwork, h⟩ | ⟨hwork, h⟩
  · obtain ⟨-, rfl⟩ := pure_eq_some.1 h
    exact ⟨.refl hs, fun hcommit => absurd hcommit (by rw [hwork]; exact Bool.noConfusion)⟩
  rw [Bool.not_eq_true] at hwork
  replace h := of_bind_view h
  rcases ite_eq_some.1 h with ⟨herror, h⟩ | ⟨-, h⟩
  · obtain ⟨cause, herror⟩ := Kind.isError_iff.1 herror
    obtain ⟨hp, hjoins, -⟩ :=
      settle_proceeds hs hwork hl hw (by rw [herror]; exact .error hl.root cause) h
    exact ⟨hp, fun _ => hjoins.rep⟩
  replace h := of_bind_view h
  cases hk : mergedKind (s.forest.kind loser) (s.forest.kind winner) with
  | none =>
    simp only [hk] at h
    replace h := of_bind_view h
    exact (clash_proceeds hs hwork hl hw.lt h).imp_right fun hrep _ => hrep
  | some k =>
    simp only [hk] at h
    obtain ⟨hrefines, haccrues⟩ := mergedKind_refines hl.root hw.root hchildren harity hk
    obtain ⟨v, s₁, hset, h⟩ := bind_eq_some.1 h
    rw [change_eq_some.1 hset] at h
    obtain ⟨hp, hjoins⟩ := settle_refined hs hwork hl hw hne hrefines haccrues h
    exact ⟨hp, fun _ => hjoins.rep⟩

/-- A variable never clashes. -/
theorem merge_var (hs : s.Sound) (hwork : s.work.isNone = false) (hl : s.forest.IsClass loser)
    (hw : s.forest.IsClass winner) (hvar : s.forest.kind loser = .var)
    (h : merge loser winner s = some (r, u)) :
    Proceeds s u ∧ Joins loser winner s.forest u.forest := by
  obtain ⟨hp, hjoins, -⟩ :=
    settle_proceeds hs hwork hl hw (by rw [hvar]; exact .var _) (settle_of_merge hwork hvar h)
  exact ⟨hp, hjoins⟩

/-- A variable that is merged into another class changes no wrapper. -/
theorem merge_var_wraps (hwork : s.work.isNone = false) (hl : s.forest.IsClass loser)
    (hvar : s.forest.kind loser = .var) (h : merge loser winner s = some (r, u)) {w x : TermId}
    (hx : s.forest.kind w = .nilable x) : u.forest.kind w = .nilable x := by
  have hne : w ≠ loser := by
    rintro rfl
    rw [hvar] at hx
    cases hx
  rcases settle_kinds hl.lt (settle_of_merge hwork hvar h) hne with e | e <;> rw [e]
  · exact hx
  rcases Forest.kind_widenInputs s.forest winner w with e' | ⟨-, flow, -, hflow, -⟩
  · rw [e', hx]
  · rw [hx] at hflow
    cases hflow

/-- A variable that a variable is merged into stays one. -/
theorem merge_vars (hwork : s.work.isNone = false) (hl : s.forest.IsClass loser)
    (hvar : s.forest.kind loser = .var) (hvar' : s.forest.kind winner = .var)
    (h : merge loser winner s = some (r, u)) : u.forest.kind winner = .var := by
  have hsettle := settle_of_merge hwork hvar h
  by_cases hne : winner = loser
  · rw [settle, if_pos hne.symm] at hsettle
    rw [← (pure_eq_some.1 hsettle).2, hvar']
  · rcases settle_kinds hl.lt hsettle hne with e | e <;> rw [e]
    · exact hvar'
    · exact (Forest.widenInputs_eq_var _ _ _).2 hvar'

end Settle

/-! ## Wrappers -/

/-- Looking up what a calm wrapper wraps returns. -/
theorem child_of_wrapper {wrapper x : TermId} (hs : s.Sound) (hcalm : s.forest.Calm wrapper)
    (hx : s.forest.kind wrapper = .nilable x) :
    ∃ t, child wrapper .inner s = some (some (s.forest.rep x), t) := by
  obtain ⟨r, g, hchild⟩ : ∃ r g, Forest.child wrapper .inner s.forest = some (r, g) := by
    refine Forest.child_returns hs.forest.rooted fun raw hraw => .intro fun inner hinner => ?_
    rw [hx] at hraw
    cases hraw
    rw [hcalm.wraps x hx] at hinner
    cases hinner
  have hrun : child wrapper .inner s = some (r, { s with forest := g }) :=
    onForest_eq_some.2 ⟨g, hchild, rfl⟩
  have hr := child_eq hs hrun
  rw [hx] at hr
  exact ⟨_, hr ▸ hrun⟩

/-- A variable became a copy without nil of another class, which stayed what it was. -/
structure Stripped (leaf that : TermId) (s u : Unifier) : Prop where
  proceeds : Proceeds s u
  met : u.met = s.met
  rep : ∀ x, u.forest.rep x = if s.forest.rep x = leaf then s.forest.size else s.forest.rep x
  copy : u.forest.kind s.forest.size =
    strippedKind (s.forest.isInput leaf) (s.forest.kind that)
  that : u.forest.kind that = s.forest.kind that
  wraps : ∀ w x, s.forest.kind w = .nilable x → u.forest.kind w = .nilable x

/-- A variable is merged into a copy without nil of another class. -/
theorem merge_strips {leaf that : TermId} (hs : s.Sound) (hwork : s.work.isNone = false)
    (hleaf : s.forest.IsClass leaf) (hvar : s.forest.kind leaf = .var)
    (hthat : s.forest.IsClass that) (hkthat : s.forest.kind that ≠ .var) :
    ∃ u, merge leaf s.forest.size ⟨s.forest.withStripped that,
        s.work.map ((s.forest.withStripped that).wake leaf), s.met, s.image⟩ = some (true, u) ∧
      Stripped leaf that s u := by
  obtain ⟨hp₁, hsteady, hc, hkc, hold⟩ := withStripped_proceeds hs hthat
  generalize s.forest.withStripped that = g at *
  have hne : leaf ≠ s.forest.size := Nat.ne_of_lt hleaf.lt
  have hleaf₁ := hleaf.of_steady hsteady
  have hvar₁ : g.kind leaf = .var := by rw [(hold _ hleaf.lt).1, hvar]
  have hp₂ := hp₁.trans (.wake hp₁.sound g leaf)
  have hwork₂ : (s.work.map (g.wake leaf)).isNone = false := by rw [Option.isNone_map, hwork]
  have hrun := (merge_of_var (s := ⟨g, s.work.map (g.wake leaf), s.met, s.image⟩) hwork₂ hvar₁).trans
    (settle_eq hwork₂ hne)
  obtain ⟨hp₃, -⟩ := merge_var hp₂.sound hwork₂ hleaf₁ hc hvar₁ hrun
  have hpass := Forest.passInput_steady hsteady.rooted leaf s.forest.size
  have hkind : ∀ x, x ≠ leaf → ((g.passInput leaf s.forest.size).link leaf s.forest.size).kind x =
      (g.passInput leaf s.forest.size).kind x := fun x hx => by
    rw [Forest.kind_link (hleaf₁.of_steady hpass).lt, if_neg hx.symm]
  refine ⟨_, hrun, hp₂.trans hp₃, rfl, fun x => ?_, ?_, ?_, fun w x hx => ?_⟩
  · dsimp only
    rw [Forest.rep_link_eq hpass.rooted (hleaf₁.of_steady hpass).root (hc.of_steady hpass).root hne
      (hleaf₁.of_steady hpass).lt (hc.of_steady hpass).lt, hpass.rep, hsteady.rep]
  · dsimp only
    rw [hkind _ hne.symm, Forest.kind_passInput_winner hc.root, hkc, (hold _ hleaf.lt).2]
    rfl
  · -- Only the copy is widened if the class is a base type.
    have hnethat : that ≠ leaf := by
      rintro rfl
      exact hkthat hvar
    dsimp only
    rw [hkind _ hnethat, ← (hold _ hthat.lt).1]
    rcases Forest.kind_passInput_or g leaf s.forest.size that with e | e <;> rw [e]
    rcases Forest.kind_widenInputs g s.forest.size that with e' | ⟨-, flow, -, hflow, -⟩
    · exact e'
    refine Forest.kind_widenInputs_of_ne hsteady.rooted hc.root ?_ (Nat.ne_of_lt hthat.lt)
    rw [hkc, ← (hold _ hthat.lt).1, hflow]
    rfl
  · exact merge_var_wraps (s := ⟨g, s.work.map (g.wake leaf), s.met, s.image⟩) hwork₂ hleaf₁ hvar₁ hrun
      ((hold _ (Forest.lt_size_of_kind (by rw [hx]; exact Kind.noConfusion))).1.trans hx)

/-- A wrapper takes over what it wraps when it is looked up, and then another class joins it. -/
theorem redirect_wrapper {wrapper that x c : TermId} (hs : s.Sound) (hwork : s.work.isNone = false)
    (hx : s.forest.kind wrapper = .nilable x) (hc : s.forest.rep x = c)
    (hplain : (s.forest.kind c).isNilable = false) (hthat : s.forest.IsClass that)
    (hne : that ≠ wrapper)
    (haccrues : (s.forest.kind that).Accrues (absorbedKind c (s.forest.kind c))) :
    ∃ t u, find wrapper s = some (wrapper, t) ∧
      redirect that wrapper { t with work := t.work.map (t.forest.wake that) } = some (true, u) ∧
      Proceeds s u ∧ u.met = s.met ∧
      (∀ y, u.forest.rep y = if s.forest.rep y = that then wrapper else s.forest.rep y) ∧
      (c ≠ that → u.forest.kind c = s.forest.kind c) ∧
        u.forest.kind wrapper = absorbedKind c (s.forest.kind c) := by
  have hwrapper : s.forest.IsClass wrapper :=
    ⟨Forest.lt_size_of_kind (by rw [hx]; exact Kind.noConfusion), by rw [hx]; rfl⟩
  obtain ⟨r, f, hfind⟩ : ∃ r f, Forest.find wrapper s.forest = some (r, f) := by
    have hends : s.forest.Ends wrapper := .intro fun y hy => by
      rw [hwrapper.rep_eq, hx] at hy
      cases hy
      refine .intro fun z hz => ?_
      rw [hc] at hz
      rw [hz] at hplain
      cases hplain
    obtain ⟨⟨r, f⟩, hrf⟩ := Option.isSome_iff_exists.1
      ((Forest.find_isSome_iff hs.forest.rooted wrapper).2 hends)
    exact ⟨r, f, hrf⟩
  obtain ⟨hkwrapper, hkinds⟩ := Forest.find_wrapper hs.forest.rooted
    (by rw [hwrapper.rep_eq, hx]) (by rw [hc]; exact hplain) hfind
  rw [hwrapper.rep_eq] at hkwrapper hkinds
  rw [hc] at hkwrapper
  have hrun : find wrapper s = some (r, { s with forest := f }) := onForest_eq_some.2 ⟨f, hfind, rfl⟩
  obtain ⟨rfl, hlooks⟩ := find_looks hs hrun
  rw [hwrapper.rep_eq] at hrun
  have hsteady := hlooks.steady hs
  have hp₁ := hlooks.proceeds hs
  have hthat₁ := hthat.of_steady hsteady
  have hwrapper₁ := hwrapper.of_steady hsteady
  have hp₂ := hp₁.trans (.wake hp₁.sound f that)
  have hredirect := redirect_eq (s := ⟨f, s.work.map (f.wake that), s.met, s.image⟩) hne
  obtain ⟨hp₃, -⟩ := redirect_proceeds hp₂.sound hthat₁ hwrapper₁ (by
      dsimp only
      rw [hkwrapper, hkinds that hthat.root hne]
      exact haccrues) (fun n hn => by
      refine waiting_wake hp₁.sound.forest hwork hthat₁.lt hn ?_
      rw [hthat₁.rep_eq]
      exact .refl) hredirect
  have hkind : ∀ y, that ≠ y → (f.link that wrapper).kind y = f.kind y := fun y hy => by
    rw [Forest.kind_link hthat₁.lt, if_neg hy]
  refine ⟨_, _, hrun, hredirect, hp₂.trans hp₃, rfl, fun y => ?_, fun hcthat => ?_, ?_⟩
  · dsimp only
    rw [Forest.rep_link_eq hsteady.rooted hthat₁.root hwrapper₁.root hne hthat₁.lt hwrapper₁.lt]
    rw [hsteady.rep]
  · dsimp only
    rw [hkind c hcthat.symm, hkinds c]
    · rw [← hc]
      exact Forest.not_isLink_rep hs.forest.rooted x
    · rintro rfl
      rw [hx] at hplain
      cases hplain
  · dsimp only
    rw [hkind wrapper hne, hkwrapper]

/-! ## Fields -/

section Fields

variable {x : TermId} {r : Bool}

/-- A record gains the field, whose value hears of whoever is registered with the record. -/
theorem addField_record {label : String} {value : TermId} (h : (s.forest.kind x).isRecord = true) :
    addField x label value s = some (true, ⟨s.forest.withField x label value,
      s.work.map ((s.forest.withField x label value).wake x), s.met, s.image⟩) := by
  refine bind_eq_some.2 ⟨s.forest.kind x, s, rfl, ?_⟩
  rw [if_pos h]
  have hdeps : (s.forest.setChild x (.field label) value).deps x = s.forest.deps x :=
    Forest.deps_setChild _ _ _ _ _
  rw [Forest.withField, ← hdeps]
  rfl

/-- Nothing but a record gets a field. -/
theorem addField_of_not_isRecord {label : String} {value : TermId}
    (h : (s.forest.kind x).isRecord = false) : addField x label value s = some (false, s) := by
  refine bind_eq_some.2 ⟨s.forest.kind x, s, rfl, ?_⟩
  rw [h]
  rfl

/-- The nodes of a record wait once it has got a field. -/
theorem addField_proceeds (hs : s.Sound) (hwork : s.work.isNone = false) {label : String}
    {value : TermId} (hvalue : value < s.forest.size)
    (h : addField x label value s = some (r, u)) : Proceeds s u ∧ Steady s.forest u.forest := by
  cases hrecord : (s.forest.kind x).isRecord with
  | true =>
    have hx := Forest.isClass_of_isRecord hrecord
    rw [addField_record hrecord] at h
    cases h
    have hchange : s.forest.Change (s.forest.withField x label value) := .addField label hvalue
    have hsteady := Forest.withField_steady hs.forest.rooted x label value
    have hx' := hx.of_steady hsteady
    have hsound := hs.change hchange
    refine ⟨.head hchange (.wake hsound _ x) fun c n hc hn => ?_, hsteady⟩
    rw [Forest.disturbs_withField hc] at hn
    refine waiting_wake hsound.forest hwork hx'.lt (hsteady.deps x n hn) ?_
    dsimp only
    rw [hx'.rep_eq]
    exact .refl
  | false =>
    rw [addField_of_not_isRecord hrecord] at h
    cases h
    exact ⟨.refl hs, .refl hs.forest.rooted⟩

/-- A record loses the field. -/
theorem dropField_record {label : String} {fields : Fields TermId none} {sites : IdSet}
    {isOpen nil : Bool} (h : s.forest.kind x = .record fields sites isOpen nil)
    (hlabel : (fields.find? label).isSome = true) :
    dropField x label s = some (true,
      ⟨s.forest.setKind x (.record (fields.erase label) sites isOpen nil),
        s.work.map (s.forest.wake x), s.met, s.image⟩) := by
  refine bind_eq_some.2 ⟨(), _, rfl, bind_eq_some.2 ⟨_, _, rfl, ?_⟩⟩
  simp only [h, hlabel, if_true]
  rfl

/-- A field that is not there is not dropped. -/
theorem dropField_of_none {label : String} (h : (s.forest.kind x).child? (.field label) = none) :
    dropField x label s = some (false, { s with work := s.work.map (s.forest.wake x) }) := by
  refine bind_eq_some.2 ⟨(), _, rfl, bind_eq_some.2 ⟨_, _, rfl, ?_⟩⟩
  dsimp only
  cases hk : s.forest.kind x with
  | record fields sites isOpen nil =>
    rw [hk] at h
    simp only [show fields.find? label = none from h]
    rfl
  | _ => rfl

/-- Dropping a field proceeds, and moves no term to another class. -/
theorem dropField_proceeds (hs : s.Sound) (hwork : s.work.isNone = false) {label : String}
    (h : dropField x label s = some (r, u)) : Proceeds s u ∧ Steady s.forest u.forest := by
  have hp := Proceeds.wake hs s.forest x
  cases hchild : (s.forest.kind x).child? (.field label) with
  | none =>
    rw [dropField_of_none hchild] at h
    cases h
    exact ⟨hp, .refl hs.forest.rooted⟩
  | some y =>
    obtain ⟨fields, sites, isOpen, nil, hk, hy⟩ := Kind.eq_record_of_child? hchild
    have hx := Forest.isClass_of_isRecord (f := s.forest) (t := x) (by rw [hk]; rfl)
    rw [dropField_record hk (by rw [hy]; rfl)] at h
    cases h
    have hrefines := Kind.refines_erase fields sites isOpen nil label
    rw [← hk] at hrefines
    refine ⟨hp.trans (.head (.refine hrefines) (.refl (hp.sound.change (.refine hrefines)))
      fun c n hc hn => ?_), Forest.refine_steady hs.forest.rooted hrefines⟩
    rw [Forest.disturbs_refine hc] at hn
    refine waiting_wake hs.forest hwork hx.lt hn ?_
    rw [hx.rep_eq]
    exact .refl

end Fields

end Unifier

end TypeFlow
