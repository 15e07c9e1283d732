import TypeFlow.Proofs.Closures
import TypeFlow.Proofs.MetPairs

/-!
# Unifications close pairs of types

While two types are unified the forest says of every term what became of its class, up to pairs of
classes whose children are still being unified.  Nothing is merged that the closure of the two types
does not relate, and once the last of those pairs is merged nothing is missing.  The unification goes on
like this until it comes upon two kinds that clash: then it makes an error of them, which nothing undoes.

Main definitions:

- `Forest.GainsError`: there is a new term that is an error.
- `Unifier.Joined`: terms of one class, or of classes whose children are being unified.
- `Unifier.Closing`: the state of a unification that met no clash.
- `Unifier.Erred`: the unification met a clash.

Main results:

- `Unifier.Closing.looks`, `Unifier.Closing.merge`: looking up and merging classes goes on closing.
- `Unifier.unifyStep_closes`: so does one layer of unification if the next one does.
- `Unifier.unifyWithin_closes`: so does the unification of any two parts of the types.
-/

namespace TypeFlow

namespace Forest

/-- A term that there was not before is an error. -/
def GainsError (f g : Forest) : Prop :=
  ∃ t, f.size ≤ t ∧ t < g.size ∧ (g.kind (g.rep t)).isError = true

end Forest

open Forest (IsClass Steady widenedKind)

namespace Unifier

/-! ## The state of a unification -/

/-- The terms are of one class, or of classes whose children are being unified, or linked by a row of
such terms. -/
def Joined (s : Unifier) : TermId → TermId → Prop :=
  Relation.EqvGen fun x y => s.forest.rep x = s.forest.rep y ∨ (x, y) ∈ s.met

/-- Two types of a forest are being unified, and there was no clash so far. -/
structure Closing (f : Forest) (a b : TermId) (s : Unifier) : Prop where
  sound : s.Sound
  commits : s.work.isNone = false
  size : s.forest.size = f.size
  grows : ∀ x y, f.rep x = f.rep y → s.forest.rep x = s.forest.rep y
  /-- Only what the closure relates was merged, or is to be merged. -/
  sub : ∀ x y, s.forest.rep x = s.forest.rep y → f.Unified a b x y
  met : ∀ p ∈ s.met, f.Unified a b p.1 p.2
  /-- Every class bears out what was known of its terms. -/
  tracks : ∀ x, f.Concerns a b x →
    (f.kind (f.rep x)).TurnsInto s.Joined (s.forest.kind (s.forest.rep x))
  /-- What is known of a class was known of one of its terms. -/
  source : ∀ x, f.Concerns a b x → s.forest.kind (s.forest.rep x) = .var ∨
    ∃ y, s.forest.rep y = s.forest.rep x ∧ f.kind (f.rep y) ≠ .var

/-- The two types clash, and an error was made of what clashed. -/
structure Erred (f : Forest) (a b : TermId) (u : Unifier) : Prop where
  gains : f.GainsError u.forest
  clashing : f.Clashing a b

variable {f : Forest} {a b x y : TermId} {s t u : Unifier} {r : Bool}

/-- Being joined is an equivalence. -/
theorem joined_equivalence (s : Unifier) : Equivalence s.Joined := Relation.EqvGen.is_equivalence _

/-- Terms of one class are joined. -/
theorem joined_of_rep (h : s.forest.rep x = s.forest.rep y) : s.Joined x y := .rel _ _ (Or.inl h)

/-- Pairs that were met are joined. -/
theorem joined_of_met (h : (x, y) ∈ s.met) : s.Joined x y := .rel _ _ (Or.inr h)

/-- What was joined stays so. -/
theorem Advances.joined (h : Advances s u) (hxy : s.Joined x y) : u.Joined x y :=
  hxy.mono fun _ _ hxy => hxy.imp (h.rep _ _) (h.met _)

/-- An error stays one. -/
theorem Erred.proceeds (h : Erred f a b t) (ht : t.Sound) (hp : Proceeds t u) : Erred f a b u := by
  obtain ⟨⟨x, hnew, hx, herror⟩, hclash⟩ := h
  exact ⟨⟨x, hnew, hp.lt ht hx, (hp.leads.accrues ht.forest x).isError herror⟩, hclash⟩

namespace Closing

/-- What is joined is related by the closure. -/
theorem unified (hs : Closing f a b s) (h : s.Joined x y) : f.Unified a b x y := by
  induction h with
  | rel x y h => exact h.elim (hs.sub x y) (hs.met (x, y))
  | refl x => exact .same rfl
  | symm x y _ ih => exact ih.symm
  | trans x y z _ _ ih ih' => exact ih.trans ih'

/-- A unification concerns the class of what it concerns. -/
theorem concerns_rep (hs : Closing f a b s) (hx : f.Concerns a b x) :
    f.Concerns a b (s.forest.rep x) :=
  hx.of_unified (hs.sub _ _ (Forest.rep_rep hs.sound.forest.rooted x).symm)

/-- What is known of a class was known of one of its terms, and may have changed since. -/
theorem origin (hs : Closing f a b s) (hx : f.Concerns a b x)
    (hvar : s.forest.kind (s.forest.rep x) ≠ .var) :
    ∃ y, f.Concerns a b y ∧ f.Unified a b x y ∧ s.forest.rep y = s.forest.rep x ∧
      f.kind (f.rep y) ≠ .var ∧
      (f.kind (f.rep y)).TurnsInto s.Joined (s.forest.kind (s.forest.rep x)) := by
  rcases hs.source x hx with h | ⟨y, hrep, hy⟩
  · exact absurd h hvar
  have hxy := hs.sub x y hrep.symm
  have hturns := hs.tracks y (hx.of_unified hxy)
  rw [hrep] at hturns
  exact ⟨y, hx.of_unified hxy, hxy, hrep, hy, hturns⟩

private theorem isSimple (hs : Closing f a b s) (hx : f.Concerns a b x) :
    (s.forest.kind (s.forest.rep x)).isSimple = true := by
  by_cases hvar : s.forest.kind (s.forest.rep x) = .var
  · rw [hvar]
    rfl
  · obtain ⟨y, -, -, -, hy, hturns⟩ := hs.origin hx hvar
    exact hturns.isSimple hy

/-- The closure relates what has the same place in two types that it relates. -/
theorem unified_child (hs : Closing f a b s) (hx : f.Concerns a b x) (hy : f.Concerns a b y)
    (hxy : f.Unified a b x y) {slot : Slot} {c d : TermId}
    (hc : (s.forest.kind (s.forest.rep x)).child? slot = some c)
    (hd : (s.forest.kind (s.forest.rep y)).child? slot = some d) :
    f.Concerns a b c ∧ f.Concerns a b d ∧ f.Unified a b c d := by
  have hne : ∀ {k : Kind} {e : TermId}, k.child? slot = some e → k ≠ .var := by
    rintro k e he rfl
    cases slot <;> cases he
  obtain ⟨x', hx', hxx', -, hvar, hturns⟩ := hs.origin hx (hne hc)
  obtain ⟨y', hy', hyy', -, hvar', hturns'⟩ := hs.origin hy (hne hd)
  obtain ⟨c', hc', hcc'⟩ := hturns.exists_child? hvar hc
  obtain ⟨d', hd', hdd'⟩ := hturns'.exists_child? hvar' hd
  have hfunction : ∀ {k k' : Kind} {e : TermId}, k.TurnsInto s.Joined k' → k ≠ .var →
      k.child? slot = some e → k.isFunction = true := by
    intro k k' e hk hvar he
    cases hk with
    | var => exact absurd rfl hvar
    | base h => cases slot <;> cases he
    | function hk hshape hchildren => exact hk
  have hunified : f.Unified a b c' d' :=
    .child (hxx'.symm.trans (hxy.trans hyy')) (hfunction hturns hvar hc') (hfunction hturns' hvar' hd')
      hc' hd'
  have hcc' := hs.unified hcc'
  have hdd' := hs.unified hdd'
  exact ⟨(hx'.child hc').of_unified hcc', (hy'.child hd').of_unified hdd',
    hcc'.symm.trans (hunified.trans hdd')⟩

/-- If two kinds clash now, two kinds that the closure relates clashed from the start. -/
theorem clashing (hs : Closing f a b s) (hx : f.Concerns a b x) (hy : f.Concerns a b y)
    (hxy : f.Unified a b x y)
    (h : (s.forest.kind (s.forest.rep x)).clashes (s.forest.kind (s.forest.rep y)) = true) :
    f.Clashing a b := by
  have hvar : s.forest.kind (s.forest.rep x) ≠ .var := by
    intro e
    rw [e] at h
    cases h
  have hvar' : s.forest.kind (s.forest.rep y) ≠ .var := by
    intro e
    rw [e, Kind.clashes_comm] at h
    cases h
  obtain ⟨x', -, hxx', -, hne, hturns⟩ := hs.origin hx hvar
  obtain ⟨y', -, hyy', -, hne', hturns'⟩ := hs.origin hy hvar'
  refine ⟨x', y', hxx'.symm.trans (hxy.trans hyy'), ?_⟩
  rwa [Kind.clashes_congr hturns hne, Kind.clashes_comm, Kind.clashes_congr hturns' hne',
    Kind.clashes_comm] at h

/-- What a kind was turns into what it is. -/
theorem turnsInto (hs : Closing f a b s) (hu : Closing f a b u) (h : Advances s u)
    (hx : f.Concerns a b x) : (s.forest.kind (s.forest.rep x)).TurnsInto u.Joined
      (u.forest.kind (u.forest.rep x)) := by
  by_cases hvar : s.forest.kind (s.forest.rep x) = .var
  · rw [hvar]
    exact .var _
  obtain ⟨y, hy, -, hrep, hne, hturns⟩ := hs.origin hx hvar
  have hlater := hu.tracks y hy
  rw [h.rep y x hrep] at hlater
  exact (hturns.mono fun _ _ => h.joined).cancel (joined_equivalence u) hne hlater

/-- A unification goes on closing if it merges what the closure relates and kinds turn into others,
none of which comes from nowhere. -/
theorem step (hs : Closing f a b s) (hadvances : Advances s u) (hsound : u.Sound)
    (hcommits : u.work.isNone = false) (hsize : u.forest.size = s.forest.size)
    (hsub : ∀ x, f.Unified a b x (u.forest.rep x)) (hmet : ∀ p ∈ u.met, f.Unified a b p.1 p.2)
    (hturns : ∀ x, f.Concerns a b x → (s.forest.kind (s.forest.rep x)).TurnsInto u.Joined
      (u.forest.kind (u.forest.rep x)))
    (hsource : ∀ x, f.Concerns a b x → u.forest.kind (u.forest.rep x) = .var ∨
      ∃ y, f.Concerns a b y ∧ u.forest.rep y = u.forest.rep x ∧
        s.forest.kind (s.forest.rep y) ≠ .var) : Closing f a b u where
  sound := hsound
  commits := hcommits
  size := hsize.trans hs.size
  grows x y hxy := hadvances.rep x y (hs.grows x y hxy)
  sub x y hxy := by
    have hx := hsub x
    rw [hxy] at hx
    exact hx.trans (hsub y).symm
  met := hmet
  tracks x hx := ((hs.tracks x hx).mono fun _ _ => hadvances.joined).trans (joined_equivalence u)
    (hturns x hx)
  source x hx := by
    rcases hsource x hx with hvar | ⟨y, hy, hrep, hvar⟩
    · exact Or.inl hvar
    obtain ⟨z, -, -, hzy, hz, -⟩ := hs.origin hy hvar
    exact Or.inr ⟨z, (hadvances.rep z y hzy).trans hrep, hz⟩

/-- A term is unified with the representative that it got. -/
theorem unified_rep (hs : Closing f a b s) (x : TermId) : f.Unified a b x (s.forest.rep x) :=
  hs.sub _ _ (Forest.rep_rep hs.sound.forest.rooted x).symm

/-- Looking classes up goes on closing. -/
theorem looks (hs : Closing f a b s) (h : Looks s u) : Closing f a b u ∧ Advances s u := by
  have hsteady := h.steady hs.sound
  have hrooted := hs.sound.forest.rooted
  have hp := h.proceeds hs.sound
  have hadvances : Advances s u := .of_met h.met fun x y hxy => by
    rw [hsteady.rep, hsteady.rep, hxy]
  have hrefreshed : ∀ x, f.Concerns a b x →
      (s.forest.kind (s.forest.rep x)).Refreshed s.forest.rep (u.forest.kind (u.forest.rep x)) := by
    intro x hx
    rw [hsteady.rep]
    exact (h.calm hs.sound (Forest.calm_of_not_nilable (Forest.not_isLink_rep hrooted x)
      (Kind.isNilable_of_isSimple (hs.isSimple hx)))).1
  refine ⟨hs.step hadvances hp.sound (hp.probe.trans hs.commits) h.upkeeps.size (fun x => ?_)
    (fun p hp => ?_) (fun x hx => ?_) (fun x hx => ?_), hadvances⟩
  · rw [hsteady.rep]
    exact hs.unified_rep x
  · rw [h.met] at hp
    exact hs.met p hp
  · refine (hrefreshed x hx).turnsInto (joined_equivalence u) (Forest.rep_rep hrooted) (fun y => ?_)
      (hs.isSimple hx)
    exact joined_of_rep (hadvances.rep_rep hrooted y).symm
  · by_cases hvar : u.forest.kind (u.forest.rep x) = .var
    · exact Or.inl hvar
    · exact Or.inr ⟨x, hx, rfl, fun e => hvar ((hrefreshed x hx).eq_var.2 e)⟩

/-- A pair that the closure relates may be met. -/
theorem meet (hs : Closing f a b s) (hxy : f.Unified a b x y) :
    Closing f a b { s with met := (x, y) :: s.met } where
  sound := ⟨hs.sound.forest, hs.sound.image⟩
  commits := hs.commits
  size := hs.size
  grows := hs.grows
  sub := hs.sub
  met p hp := by
    rcases List.mem_cons.1 hp with rfl | hp
    · exact hxy
    · exact hs.met p hp
  tracks z hz := (hs.tracks z hz).mono fun _ _ h =>
    h.mono fun _ _ h => h.imp_right (List.mem_cons_of_mem _)
  source := hs.source

/-- A class may take over more of what is known of its parts. -/
theorem setKind (hs : Closing f a b s) {k : Kind} (hy : s.forest.IsClass y)
    (hrefines : (s.forest.kind y).Refines k) (hturns : (s.forest.kind y).TurnsInto s.Joined k)
    (hvar : s.forest.kind y = .var → k = .var) :
    Closing f a b { s with forest := s.forest.setKind y k } ∧
      Advances s { s with forest := s.forest.setKind y k } := by
  have hsteady := Forest.refine_steady hs.sound.forest.rooted hrefines
  have hadvances : Advances s { s with forest := s.forest.setKind y k } := by
    refine .of_met rfl fun x y hxy => ?_
    dsimp only
    rw [hsteady.rep, hsteady.rep, hxy]
  have hkind : ∀ x, (s.forest.setKind y k).kind ((s.forest.setKind y k).rep x) =
      if y = s.forest.rep x then k else s.forest.kind (s.forest.rep x) := by
    intro x
    rw [hsteady.rep, Forest.kind_setKind]
    simp only [hy.lt, and_true]
  refine ⟨hs.step hadvances (hs.sound.change (.refine hrefines)) hs.commits
    (Forest.size_setKind _ _ _) (fun x => ?_) hs.met (fun x hx => ?_) (fun x hx => ?_), hadvances⟩
  · dsimp only
    rw [hsteady.rep]
    exact hs.unified_rep x
  · dsimp only
    rw [hkind]
    split
    · rename_i e
      exact e ▸ hturns.mono fun _ _ => hadvances.joined
    · exact .refl (joined_equivalence _) (hs.isSimple hx)
  · dsimp only
    rw [hkind]
    split
    · rename_i e
      by_cases hk : s.forest.kind y = .var
      · exact Or.inl (hvar hk)
      · exact Or.inr ⟨x, hx, rfl, e ▸ hk⟩
    · rename_i e
      by_cases hk : s.forest.kind (s.forest.rep x) = .var
      · exact Or.inl hk
      · exact Or.inr ⟨x, hx, rfl, hk⟩

/-- Merging two classes goes on closing if the closure relates them and the winner says what the loser
does. -/
theorem merges {loser winner : TermId} (hs : Closing f a b s) (hw : s.forest.IsClass winner)
    (hcw : f.Concerns a b winner)
    (hunified : f.Unified a b loser winner)
    (hturns : (s.forest.kind loser).TurnsInto s.Joined (s.forest.kind winner))
    (hne : loser ≠ winner) (hsound : u.Sound) (h : Merges loser winner s u) :
    Closing f a b u ∧ Advances s u := by
  have hadvances : Advances s u := .of_met h.met fun x y hxy => by rw [h.rep, h.rep, hxy]
  have hE := joined_equivalence u
  have hsimple : ∀ {x}, f.Concerns a b x → s.forest.IsClass x → (s.forest.kind x).isSimple = true := by
    intro x hx hclass
    have hsimple := hs.isSimple hx
    rwa [hclass.rep_eq] at hsimple
  have hkind : ∀ c, c ≠ loser → (s.forest.kind c).isSimple = true →
      (s.forest.kind c).TurnsInto u.Joined (u.forest.kind c) := by
    intro c hc hc'
    rcases h.kind c hc with e | e <;> rw [e]
    · exact .refl hE hc'
    · exact Kind.turnsInto_widenedKind hE hc'
  have hvar : ∀ c, c ≠ loser → s.forest.kind c = .var → u.forest.kind c = .var := by
    intro c hc hvar
    rcases h.kind c hc with e | e <;> rw [e, hvar]
    rfl
  have hwinner : u.forest.rep winner = winner := by rw [h.rep, hw.rep_eq, if_neg (Ne.symm hne)]
  refine ⟨hs.step hadvances hsound (h.probe.trans hs.commits) h.size (fun x => ?_) (fun p hp => ?_)
    (fun x hx => ?_) (fun x hx => ?_), hadvances⟩
  · have hx := hs.unified_rep x
    rw [h.rep]
    split
    · rename_i e
      rw [e] at hx
      exact hx.trans hunified
    · exact hx
  · rw [h.met] at hp
    exact hs.met p hp
  · rw [h.rep]
    split
    · rename_i e
      rw [e]
      exact (hturns.mono fun _ _ => hadvances.joined).trans hE
        (hkind winner (Ne.symm hne) (hsimple hcw hw))
    · rename_i e
      exact hkind _ e (hs.isSimple hx)
  · rw [h.rep]
    split
    · by_cases hk : s.forest.kind winner = .var
      · exact Or.inl (hvar winner (Ne.symm hne) hk)
      · exact Or.inr ⟨winner, hcw, hwinner, by rwa [hw.rep_eq]⟩
    · rename_i e
      by_cases hk : s.forest.kind (s.forest.rep x) = .var
      · exact Or.inl (hvar _ e hk)
      · exact Or.inr ⟨x, hx, by rw [h.rep, if_neg e], hk⟩

end Closing

/-! ## Merging classes -/

/-- Two classes that clash become a new error. -/
theorem clash_gainsError {x y : TermId} {cause : TypeError} (hs : s.Sound)
    (hcommits : s.work.isNone = false) (hx : s.forest.IsClass x) (hy : y < s.forest.size)
    (h : clash x y cause s = some (r, u)) : s.forest.GainsError u.forest := by
  obtain ⟨s₁, hp₁, he, herror, hp, -⟩ := clash_forms hs hcommits hx hy h
  refine ⟨s.forest.size, le_rfl, hp.lt hp₁.sound he.lt, ?_⟩
  refine (hp.leads.accrues hp₁.sound.forest _).isError ?_
  rw [he.rep_eq, herror]
  rfl

private theorem Closing.erred (hs : Closing f a b s) (hgains : s.forest.GainsError u.forest)
    (hclash : f.Clashing a b) : Erred f a b u := by
  obtain ⟨x, hx, hlt, herror⟩ := hgains
  exact ⟨⟨x, hs.size ▸ hx, hlt, herror⟩, hclash⟩

/-- Merging two classes that the closure relates goes on closing, or finds that they clash. -/
theorem Closing.merge {loser winner : TermId} (hs : Closing f a b s) (hl : s.forest.IsClass loser)
    (hw : s.forest.IsClass winner) (hcl : f.Concerns a b loser) (hcw : f.Concerns a b winner)
    (hunified : f.Unified a b loser winner)
    (hvar : s.forest.kind winner = .var → s.forest.kind loser = .var)
    (harity : ∀ n m, (s.forest.kind loser).arity? = some n →
      (s.forest.kind winner).arity? = some m → n = m)
    (hchildren : ∀ slot c d, (s.forest.kind loser).child? slot = some c →
      (s.forest.kind winner).child? slot = some d → s.Joined c d)
    (h : merge loser winner s = some (r, u)) :
    Erred f a b u ∨ Closing f a b u ∧ Advances s u ∧ u.forest.rep loser = u.forest.rep winner := by
  have hsimple := hs.isSimple hcl
  have hsimple' := hs.isSimple hcw
  rw [hl.rep_eq] at hsimple
  rw [hw.rep_eq] at hsimple'
  have hnone : s.forest.kind winner = .var → (s.forest.kind loser).children = [] := by
    intro e
    rw [hvar e]
    rfl
  obtain ⟨hp, hrep⟩ := merge_proceeds hs.sound hl hw hnone harity h
  have hrep := hrep hs.commits
  unfold Unifier.merge at h
  rcases ite_eq_some.1 h with ⟨-, h⟩ | ⟨hne, h⟩
  · obtain ⟨-, rfl⟩ := pure_eq_some.1 h
    exact Or.inr ⟨hs, .refl s, hrep⟩
  obtain ⟨probing, s₁, hprobe, h⟩ := bind_eq_some.1 h
  obtain ⟨rfl, rfl⟩ := isProbe_eq_some.1 hprobe
  rw [hs.commits, if_neg Bool.false_ne_true] at h
  replace h := of_bind_view h
  rw [Kind.isError_of_isSimple hsimple', if_neg Bool.false_ne_true] at h
  replace h := of_bind_view h
  cases hclash : (s.forest.kind loser).clashes (s.forest.kind winner) with
  | true =>
    simp only [mergedKind_of_clashes hclash harity] at h
    replace h := of_bind_view h
    refine Or.inl (hs.erred (clash_gainsError hs.sound hs.commits hl hw.lt h)
      (hs.clashing hcl hcw hunified ?_))
    rwa [hl.rep_eq, hw.rep_eq]
  | false =>
    obtain ⟨k, hk, hturns, hturns', hvar'⟩ :=
      mergedKind_turnsInto (joined_equivalence s) hsimple hsimple' hvar hchildren hclash
    simp only [hk] at h
    obtain ⟨v, s₁, hset, h⟩ := bind_eq_some.1 h
    obtain rfl := change_eq_some.1 hset
    -- The winner takes over what is known of the loser, and then the loser is merged into it.
    obtain ⟨hrefines, -⟩ := mergedKind_refines hl.root hw.root hnone harity hk
    have hsteady := Forest.refine_steady hs.sound.forest.rooted hrefines
    obtain ⟨hs₁, hadvances⟩ := hs.setKind hw hrefines hturns' hvar'
    have hmerges := settle_merges hs₁.sound hs₁.commits (hl.of_steady hsteady)
      (hw.of_steady hsteady) hne h
    obtain ⟨hu, hadvances'⟩ := hs₁.merges (hw.of_steady hsteady) hcw hunified
      (by
        dsimp only
        rw [Forest.kind_setKind, if_neg fun e => hne e.1.symm, Forest.kind_setKind, if_pos ⟨rfl, hw.lt⟩]
        exact hturns.mono fun _ _ => hadvances.joined)
      hne hp.sound hmerges
    exact Or.inr ⟨hu, hadvances.trans hadvances', hrep⟩

/-- Nothing has to match when a class without slots is merged into another. -/
theorem Closing.merge_leaf {loser winner : TermId} (hs : Closing f a b s)
    (hl : s.forest.IsClass loser) (hw : s.forest.IsClass winner) (hcl : f.Concerns a b loser)
    (hcw : f.Concerns a b winner) (hunified : f.Unified a b loser winner)
    (hslots : (s.forest.kind loser).slots.isEmpty = true)
    (hvar : s.forest.kind winner = .var → s.forest.kind loser = .var)
    (h : Unifier.merge loser winner s = some (r, u)) :
    Erred f a b u ∨ Closing f a b u ∧ Advances s u ∧ u.forest.rep loser = u.forest.rep winner := by
  refine hs.merge hl hw hcl hcw hunified hvar (fun n m hn _ => ?_) (fun slot c d hc _ => ?_) h
  · rw [Kind.arity?_of_slots hslots] at hn
    cases hn
  · have hmem := Kind.mem_slots.2 (Option.isSome_of_eq_some hc)
    rw [List.isEmpty_iff.1 hslots] at hmem
    cases hmem

/-! ## Unifying -/

/-- What has the same place in two types is joined. -/
def Matched (s : Unifier) (x y : TermId) (slot : Slot) : Prop :=
  ∀ c d, (s.forest.kind (s.forest.rep x)).child? slot = some c →
    (s.forest.kind (s.forest.rep y)).child? slot = some d → s.Joined c d

/-- The computation goes on closing, whatever parts of the two types it unifies, or meets a clash. -/
def Closes (f : Forest) (a b : TermId) (rec : TermId → TermId → UnifyM Bool) : Prop :=
  ∀ c d s r u, Closing f a b s → f.Concerns a b c → f.Concerns a b d → f.Unified a b c d →
    c < s.forest.size → d < s.forest.size → rec c d s = some (r, u) →
      Erred f a b u ∨ Closing f a b u ∧ Advances s u ∧ u.Joined c d

/-- Two classes of one shape that are known, as a unification meets them. -/
structure Peers (f : Forest) (a b : TermId) (s : Unifier) (x y : TermId) : Prop where
  left : f.Concerns a b x
  right : f.Concerns a b y
  unified : f.Unified a b x y
  isClass : s.forest.IsClass x
  isClass' : s.forest.IsClass y
  ne_var : s.forest.kind x ≠ .var
  ne_var' : s.forest.kind y ≠ .var
  shape : (s.forest.kind y).shape = (s.forest.kind x).shape

namespace Peers

/-- Classes of one shape stay so, wherever they are merged. -/
theorem advances (h : Peers f a b s x y) (hs : Closing f a b s) (hu : Closing f a b u)
    (hadvances : Advances s u) : Peers f a b u (u.forest.rep x) (u.forest.rep y) := by
  have hx := hs.turnsInto hu hadvances h.left
  have hy := hs.turnsInto hu hadvances h.right
  rw [h.isClass.rep_eq] at hx
  rw [h.isClass'.rep_eq] at hy
  have hsize : u.forest.size = s.forest.size := hu.size.trans hs.size.symm
  refine ⟨hu.concerns_rep h.left, hu.concerns_rep h.right,
    (hu.unified_rep x).symm.trans (h.unified.trans (hu.unified_rep y)),
    Forest.isClass_rep hu.sound.forest (by rw [hsize]; exact h.isClass.lt),
    Forest.isClass_rep hu.sound.forest (by rw [hsize]; exact h.isClass'.lt), hx.ne_var h.ne_var,
    hy.ne_var h.ne_var', ?_⟩
  rw [hx.shape h.ne_var, hy.shape h.ne_var', h.shape]

/-- What is matched stays so. -/
theorem matched {slot : Slot} (h : Peers f a b s (s.forest.rep x) (s.forest.rep y))
    (hs : Closing f a b s) (hu : Closing f a b u) (hadvances : Advances s u)
    (hmatched : s.Matched x y slot) : u.Matched x y slot := by
  intro c d hc hd
  have hrooted := hs.sound.forest.rooted
  have hx := hs.turnsInto hu hadvances h.left
  have hy := hs.turnsInto hu hadvances h.right
  rw [Forest.rep_rep hrooted, hadvances.rep_rep hrooted] at hx hy
  obtain ⟨c', hc', hcc'⟩ := hx.exists_child? h.ne_var hc
  obtain ⟨d', hd', hdd'⟩ := hy.exists_child? h.ne_var' hd
  have hE := joined_equivalence u
  exact hE.trans (hE.symm hcc') (hE.trans (hadvances.joined (hmatched c' d' hc' hd')) hdd')

/-- A slot that is passed over is empty. -/
theorem matched_of_none {slot : Slot} (h : Peers f a b s x y) (hs : Closing f a b s)
    (hchild : child x slot s = some (none, u)) : u.Matched x y slot := by
  obtain ⟨hlooks, -⟩ := child_looks hs.sound hchild
  obtain ⟨hu, hadvances⟩ := hs.looks hlooks
  intro c d hc hd
  have hx := hs.turnsInto hu hadvances h.left
  rw [h.isClass.rep_eq] at hx
  obtain ⟨c', hc', -⟩ := hx.exists_child? h.ne_var hc
  have hnone := child_eq hs.sound hchild
  rw [hc'] at hnone
  cases hnone

/-- Two classes of one shape have children in the same slots.  Once those are joined the slot is
matched. -/
theorem children {slot : Slot} {lhs : TermId} {rhs? : Option TermId} (h : Peers f a b s x y)
    (hs : Closing f a b s) (hchild : child x slot s = some (some lhs, t))
    (hchild' : child y slot t = some (rhs?, u)) :
    Closing f a b u ∧ Advances s u ∧ ∃ rhs, rhs? = some rhs ∧ f.Concerns a b lhs ∧
      f.Concerns a b rhs ∧ f.Unified a b lhs rhs ∧ u.forest.IsClass lhs ∧ u.forest.IsClass rhs ∧
        ∀ v, Closing f a b v → Advances u v → v.Joined lhs rhs → v.Matched x y slot := by
  obtain ⟨hlooks, hlhs⟩ := child_looks hs.sound hchild
  obtain ⟨ht, hadvances⟩ := hs.looks hlooks
  obtain ⟨hlooks', hrhs⟩ := child_looks ht.sound hchild'
  obtain ⟨hu, hadvances'⟩ := ht.looks hlooks'
  have hpeers := h.advances hs ht hadvances
  have hsteady := hlooks.steady hs.sound
  rw [hsteady.rep, hsteady.rep, h.isClass.rep_eq, h.isClass'.rep_eq] at hpeers
  have hx := hs.turnsInto ht hadvances h.left
  rw [h.isClass.rep_eq, hpeers.isClass.rep_eq] at hx
  obtain ⟨c, hc, rfl⟩ := Option.map_eq_some_iff.1 (child_eq hs.sound hchild).symm
  -- The slot is occupied in both.
  have hsome : ((t.forest.kind x).child? slot).isSome = true := by
    rw [hx.isSome_child? h.ne_var, hc]
    rfl
  obtain ⟨c', hc'⟩ := Option.isSome_iff_exists.1 hsome
  have hsimple := ht.isSimple hpeers.left
  rw [hpeers.isClass.rep_eq] at hsimple
  rw [← Kind.isSome_child?_of_shape (Kind.isRecord_of_isSimple hsimple) hpeers.shape] at hsome
  obtain ⟨d, hd⟩ := Option.isSome_iff_exists.1 hsome
  obtain rfl : rhs? = some (t.forest.rep d) := by
    rw [child_eq ht.sound hchild', hd]
    rfl
  have hc₁ : (t.forest.kind (t.forest.rep x)).child? slot = some c' := by
    rwa [hpeers.isClass.rep_eq]
  have hd₁ : (t.forest.kind (t.forest.rep y)).child? slot = some d := by
    rwa [hpeers.isClass'.rep_eq]
  obtain ⟨hcc, hcd, hunified⟩ := ht.unified_child hpeers.left hpeers.right h.unified hc₁ hd₁
  have hlhs' : f.Unified a b c' (s.forest.rep c) :=
    (ht.unified (hx.child? hc hc')).symm.trans (hs.unified_rep c)
  refine ⟨hu, hadvances.trans hadvances', t.forest.rep d, rfl, hcc.of_unified hlhs',
    ht.concerns_rep hcd, hlhs'.symm.trans (hunified.trans (ht.unified_rep d)),
    (hlhs _ rfl).of_steady (hlooks'.steady ht.sound), hrhs _ rfl, fun v hv hlater hjoined => ?_⟩
  have hadvances₁ := hadvances'.trans hlater
  intro e g he hg
  have hxv := ht.turnsInto hv hadvances₁ hpeers.left
  have hyv := ht.turnsInto hv hadvances₁ hpeers.right
  rw [hpeers.isClass.rep_eq] at hxv
  rw [hpeers.isClass'.rep_eq] at hyv
  have hE := joined_equivalence v
  have hlhs₁ : v.Joined (s.forest.rep c) c' := by
    refine hE.trans (joined_of_rep ?_) (hadvances₁.joined (hx.child? hc hc'))
    exact (hadvances.trans hadvances₁).rep_rep hs.sound.forest.rooted c
  have hrhs₁ : v.Joined (t.forest.rep d) d :=
    joined_of_rep (hadvances₁.rep_rep ht.sound.forest.rooted d)
  exact hE.trans (hE.symm (hE.trans hlhs₁ (hxv.child? hc' he)))
    (hE.trans hjoined (hE.trans hrhs₁ (hyv.child? hd hg)))

end Peers

section Unify

variable {rec : TermId → TermId → UnifyM Bool} (hrec : Proceeding rec) (hcloses : Closes f a b rec)

include hrec hcloses in
/-- The children of two classes are unified in turn. -/
theorem unifySlots_closes {slots : List Slot} {this that : TermId} {progress : Bool}
    {result : TermId × TermId × Bool} (hs : Closing f a b s) (hpeers : Peers f a b s this that)
    (h : unifySlots rec slots this that progress s = some (result, u)) :
    Erred f a b u ∨ Closing f a b u ∧ Advances s u ∧ ∀ slot ∈ slots, u.Matched this that slot := by
  induction slots generalizing this that progress s with
  | nil =>
    obtain ⟨-, rfl⟩ := pure_eq_some.1 h
    exact Or.inr ⟨hs, .refl s, fun slot hslot => absurd hslot List.not_mem_nil⟩
  | cons slot rest ih =>
    -- What is matched when the classes are looked up again stays so while the other slots follow.
    have hrest : ∀ {s₅ : Unifier} (progress : Bool), Closing f a b s₅ → Advances s s₅ →
        s₅.Matched this that slot →
        unifySlots rec rest (s₅.forest.rep this) (s₅.forest.rep that) progress s₅ =
          some (result, u) →
        Erred f a b u ∨
          Closing f a b u ∧ Advances s u ∧ ∀ slot' ∈ slot :: rest, u.Matched this that slot' := by
      intro s₅ progress hs₅ hadvances₅ hmatched h
      have hpeers₅ := hpeers.advances hs hs₅ hadvances₅
      refine (ih hs₅ hpeers₅ h).imp_right ?_
      rintro ⟨hu, hadvances, hmatches⟩
      refine ⟨hu, hadvances₅.trans hadvances, fun slot' hslot' => ?_⟩
      rcases List.mem_cons.1 hslot' with rfl | hslot'
      · exact hpeers₅.matched hs₅ hu hadvances hmatched
      · have hrooted := hs₅.sound.forest.rooted
        have hmatch := hmatches slot' hslot'
        rwa [Matched, hadvances.rep_rep hrooted, hadvances.rep_rep hrooted] at hmatch
    rcases unifySlots_cons h with ⟨s₁, hchild, h⟩ | ⟨lhs, s₁, rhs?, s₂, changed, s₃, this₁, s₄, that₁,
      s₅, hchild, hchild', hstep, hfind, hfind', h⟩
    · obtain ⟨hlooks₁, -⟩ := child_looks hs.sound hchild
      obtain ⟨hs₁, hadvances₁⟩ := hs.looks hlooks₁
      have hsteady₁ := hlooks₁.steady hs.sound
      refine hrest progress hs₁ hadvances₁ (hpeers.matched_of_none hs hchild) ?_
      rwa [hsteady₁.rep, hsteady₁.rep, hpeers.isClass.rep_eq, hpeers.isClass'.rep_eq]
    obtain ⟨hs₂, hadvances₂, rhs, rfl, hcl, hcr, hunified, hlhs, hrhs, hmatch⟩ :=
      hpeers.children hs hchild hchild'
    have hunify : rec lhs rhs s₂ = some (changed, s₃) := by
      cases hstep with
      | unified hr hunify =>
        cases hr
        exact hunify
      | added hr => cases hr
      | kept hr => cases hr
    have hp₃ := hrec _ _ _ _ _ hs₂.sound hlhs.lt hrhs.lt hunify
    have hlt : ∀ {z}, s.forest.IsClass z → z < s₃.forest.size := fun hz =>
      hp₃.lt hs₂.sound (by rw [hs₂.size, ← hs.size]; exact hz.lt)
    obtain ⟨hlooks₅, -, ⟨rfl, rfl⟩, hthis₅, hthat₅⟩ :=
      find_both hp₃.sound (hlt hpeers.isClass) (hlt hpeers.isClass') hfind hfind'
    rcases hcloses _ _ _ _ _ hs₂ hcl hcr hunified hlhs.lt hrhs.lt hunify with
      herred | ⟨hs₃, hadvances₃, hjoined⟩
    · have hp₅ := hlooks₅.proceeds hp₃.sound
      have herred₅ := herred.proceeds hp₃.sound hp₅
      refine Or.inl ?_
      rcases h with ⟨-, -, rfl⟩ | h
      · exact herred₅
      · obtain ⟨this', that', progress'⟩ := result
        have hwork₅ : s₅.work.isNone = false := by rw [hp₅.probe, hp₃.probe, hs₂.commits]
        exact herred₅.proceeds hp₅.sound
          (unifySlots_proceeds hrec hp₅.sound hwork₅ hthis₅ hthat₅ h).1
    obtain ⟨hs₅, hadvances₅⟩ := hs₃.looks hlooks₅
    have hadvances : Advances s₂ s₅ := hadvances₃.trans hadvances₅
    have hrep : ∀ z, s₃.forest.rep z = s₅.forest.rep z := fun z =>
      ((hlooks₅.steady hp₃.sound).rep z).symm
    rw [hrep, hrep] at h
    rcases h with ⟨herror, -, -⟩ | h
    · rw [Kind.isError_of_isSimple (hs₅.isSimple hpeers.left),
        Kind.isError_of_isSimple (hs₅.isSimple hpeers.right)] at herror
      cases herror
    · exact hrest _ hs₅ (hadvances₂.trans hadvances)
        (hmatch s₅ hs₅ hadvances (hadvances₅.joined hjoined)) h

variable (hvars : VarsMeet rec)

include hrec hvars hcloses in
/-- Two classes of one shape are merged, once what has the same place in both is joined. -/
theorem unifyChildren_closes (hs : Closing f a b s) (hpeers : Peers f a b s x y)
    (h : unifyChildren rec x y s = some (r, u)) :
    Erred f a b u ∨ Closing f a b u ∧ Advances s u ∧ u.forest.rep x = u.forest.rep y := by
  have hcalm : ∀ {z}, f.Concerns a b z → s.forest.IsClass z → s.forest.Calm z := by
    intro z hz hclass
    have hsimple := hs.isSimple hz
    rw [hclass.rep_eq] at hsimple
    exact Forest.calm_of_not_nilable hclass.root (Kind.isNilable_of_isSimple hsimple)
  obtain ⟨progress, s₁, hslots, hp₁, hp₂, hrep, hmerge⟩ := unifyChildren_halves hrec hvars hs.sound
    hs.commits hpeers.isClass hpeers.isClass' (hcalm hpeers.left hpeers.isClass)
    (hcalm hpeers.right hpeers.isClass') hpeers.ne_var hpeers.ne_var' hpeers.shape.symm h
  rcases unifySlots_closes hrec hcloses hs hpeers hslots with herred | ⟨hs₁, hadvances, hmatches⟩
  · exact Or.inl (herred.proceeds hp₁.sound hp₂)
  have hpeers₁ := hpeers.advances hs hs₁ hadvances
  have hsimple := hs₁.isSimple hpeers.left
  have hsimple' := hs₁.isSimple hpeers.right
  obtain ⟨merged, hmerge⟩ := hmerge (Kind.isError_of_isSimple hsimple)
    (Kind.isRecord_of_isSimple hsimple')
  refine (hs₁.merge hpeers₁.isClass hpeers₁.isClass' hpeers₁.left hpeers₁.right hpeers₁.unified
    (fun e => absurd e hpeers₁.ne_var') (fun n m hn hm => ?_) (fun slot c d hc hd => ?_)
    hmerge).imp_right fun hu => ⟨hu.1, hadvances.trans hu.2.1, hrep⟩
  · rw [Kind.arity?_eq_of_shape hpeers₁.shape.symm, hm] at hn
    exact (Option.some.inj hn).symm
  · have hx := hs.turnsInto hs₁ hadvances hpeers.left
    rw [hpeers.isClass.rep_eq] at hx
    obtain ⟨c', hc', -⟩ := hx.exists_child? hpeers.ne_var hc
    exact hmatches slot (Kind.mem_slots.2 (Option.isSome_of_eq_some hc')) c d hc hd

include hrec hvars hcloses in
/-- What one layer of unification does with two classes goes on closing, or meets a clash. -/
theorem Layer.closes (hs : Closing f a b s) (hcx : f.Concerns a b x) (hcy : f.Concerns a b y)
    (hxy : f.Unified a b x y) (hx : s.forest.IsClass x) (hy : s.forest.IsClass y)
    (h : Layer rec x y r s u) :
    Erred f a b u ∨ Closing f a b u ∧ Advances s u ∧ u.Joined x y := by
  have hsimple := hs.isSimple hcx
  have hsimple' := hs.isSimple hcy
  rw [hx.rep_eq] at hsimple
  rw [hy.rep_eq] at hsimple'
  -- A class without slots is merged into the other, whichever of the two it is.
  have hmerge : ∀ {loser winner}, loser = x ∧ winner = y ∨ loser = y ∧ winner = x →
      (s.forest.kind loser).slots.isEmpty = true →
      (s.forest.kind winner = .var → s.forest.kind loser = .var) →
      merge loser winner s = some (r, u) →
      Erred f a b u ∨ Closing f a b u ∧ Advances s u ∧ u.Joined x y := by
    rintro loser winner (⟨rfl, rfl⟩ | ⟨rfl, rfl⟩) hslots hvar h
    · exact (hs.merge_leaf hx hy hcx hcy hxy hslots hvar h).imp_right
        fun hu => ⟨hu.1, hu.2.1, joined_of_rep hu.2.2⟩
    · exact (hs.merge_leaf hy hx hcy hcx hxy.symm hslots hvar h).imp_right
        fun hu => ⟨hu.1, hu.2.1, joined_of_rep hu.2.2.symm⟩
  cases h with
  | same heq hr hu =>
    subst hu
    exact Or.inr ⟨hs, .refl s, joined_of_rep (by rw [heq])⟩
  | leaves hne hslots hslots' h =>
    rcases ranked_simple (x := x) (y := y) hsimple hsimple' hslots hslots' with
      ⟨hranked, hvar⟩ | ⟨hranked, hvar⟩ <;> rw [hranked] at h
    · exact hmerge (Or.inl ⟨rfl, rfl⟩) hslots hvar h
    · exact hmerge (Or.inr ⟨rfl, rfl⟩) hslots' hvar h
  | @joined loser winner hne hpair hcase h =>
    have hvar : s.forest.kind loser = .var := by
      rcases hcase with hvar | herror
      · exact hvar
      · rcases hpair with ⟨-, rfl⟩ | ⟨-, rfl⟩
        · rw [Kind.isError_of_isSimple hsimple'] at herror
          cases herror
        · rw [Kind.isError_of_isSimple hsimple] at herror
          cases herror
    exact hmerge hpair (by rw [hvar]; rfl) (fun _ => hvar) h
  | wrapped hne hpair hnilable hplain hknown h =>
    rcases hpair with ⟨rfl, -⟩ | ⟨rfl, -⟩
    · rw [Kind.isNilable_of_isSimple hsimple] at hnilable
      cases hnilable
    · rw [Kind.isNilable_of_isSimple hsimple'] at hnilable
      cases hnilable
  | met hne hmet hr hu =>
    subst hu
    exact Or.inr ⟨hs, .refl s, joined_of_met hmet⟩
  | probed hne hwork =>
    rw [hs.commits] at hwork
    cases hwork
  | clashed hne hwork hvar hvar' hshape h =>
    have hclash := Kind.clashes_of_shape hsimple hsimple' hvar hvar' hshape
    have hgains := clash_gainsError (hs.meet hxy).sound hwork hx hy.lt h
    refine Or.inl (hs.erred hgains (hs.clashing hcx hcy hxy ?_))
    rwa [hx.rep_eq, hy.rep_eq]
  | paired hne hwork hmet hvar hvar' hshape h =>
    have hpeers : Peers f a b { s with met := (x, y) :: s.met } x y :=
      ⟨hcx, hcy, hxy, hx, hy, hvar, hvar', hshape.symm⟩
    refine (unifyChildren_closes hrec hcloses hvars (hs.meet hxy) hpeers h).imp_right ?_
    rintro ⟨hu, hadvances, hrep⟩
    refine ⟨hu, ⟨hadvances.rep, fun p hp => ?_, fun p hp => ?_⟩, joined_of_rep hrep⟩
    · exact hadvances.met p (List.mem_cons_of_mem _ hp)
    · rcases hadvances.merged p hp with hp | hp
      · rcases List.mem_cons.1 hp with rfl | hp
        · exact Or.inr hrep
        · exact Or.inl hp
      · exact Or.inr hp

include hrec hvars hcloses in
/-- One layer of unification goes on closing if the next one does. -/
theorem unifyStep_closes : Closes f a b (unifyStep rec) := by
  intro c d s r u hs hcc hcd hunified hc hd h
  obtain ⟨x, s₁, y, s₂, hfind, hfind', hlayer⟩ := unifyStep_layer h
  obtain ⟨hlooks, -, ⟨rfl, rfl⟩, hx, hy⟩ := find_both hs.sound hc hd hfind hfind'
  obtain ⟨hs₂, hadvances⟩ := hs.looks hlooks
  have hrooted := hs.sound.forest.rooted
  refine (hlayer.closes hrec hcloses hvars hs₂ (hs.concerns_rep hcc) (hs.concerns_rep hcd)
    ((hs.unified_rep c).symm.trans (hunified.trans (hs.unified_rep d))) hx hy).imp_right ?_
  rintro ⟨hu, hadvances', hjoined⟩
  have hall := hadvances.trans hadvances'
  have hE := joined_equivalence u
  exact ⟨hu, hall, hE.trans (joined_of_rep (hall.rep_rep hrooted c).symm)
    (hE.trans hjoined (joined_of_rep (hall.rep_rep hrooted d)))⟩

end Unify

/-- A unification joins no more than the closure of its two terms. -/
theorem unifyWithin_closes (depth : Nat) : Closes f a b (unifyWithin depth) := by
  induction depth with
  | zero => exact fun c d s r u _ _ _ _ _ _ h => (failure_eq_some.1 h).elim
  | succ depth ih =>
    exact unifyStep_closes (unifyWithin_proceeding depth) ih (unifyWithin_varsMeet depth)

/-! ## The closure at the end -/

namespace Closing

/-- Before anything is merged nothing is missing and nothing clashed. -/
theorem start (hf : f.Sound) (ha : f.Simple a) (hb : f.Simple b) (work : Worklist) :
    Closing f a b ⟨f, some work, [], []⟩ where
  sound := ⟨hf, fun _ hp => absurd hp List.not_mem_nil⟩
  commits := rfl
  size := rfl
  grows _ _ := id
  sub _ _ := .same
  met _ hp := absurd hp List.not_mem_nil
  tracks _ hx := .refl (joined_equivalence _) (hx.isSimple ha hb)
  source x _ := by
    by_cases hvar : f.kind (f.rep x) = .var
    · exact Or.inl hvar
    · exact Or.inr ⟨x, rfl, hvar⟩

/-- As long as there was no clash no error was made. -/
theorem not_gainsError (hu : Closing f a b u) : ¬f.GainsError u.forest := by
  rintro ⟨x, hnew, hx, -⟩
  exact absurd hx (Nat.not_lt.2 (by rw [hu.size]; exact hnew))

variable (hu : Closing f a b u) (hmerged : ∀ p ∈ u.met, u.forest.rep p.1 = u.forest.rep p.2)
  (hab : u.forest.rep a = u.forest.rep b)

include hmerged in
/-- Once all pairs are merged, what is joined is one class. -/
theorem rep_of_joined (h : u.Joined x y) : u.forest.rep x = u.forest.rep y := by
  induction h with
  | rel x y h => exact h.elim id (hmerged (x, y))
  | refl x => rfl
  | symm x y _ ih => exact ih.symm
  | trans x y z _ _ ih ih' => exact ih.trans ih'

include hu hmerged hab in
/-- Once all pairs are merged, the classes are those of the closure. -/
theorem rep_eq_iff : u.forest.rep x = u.forest.rep y ↔ f.Unified a b x y := by
  refine ⟨hu.sub x y, fun h => ?_⟩
  induction h with
  | pair => exact hab
  | same h => exact hu.grows _ _ h
  | symm _ ih => exact ih.symm
  | trans _ _ ih ih' => exact ih.trans ih'
  | @child x y c d slot h hx hy hc hd ih =>
    rcases h.concerns with hrep | ⟨hcx, hcy⟩
    · rw [hrep, hd] at hc
      cases hc
      rfl
    -- Both functions became the one that their class is now.
    have htracks := hu.tracks x hcx
    have htracks' := hu.tracks y hcy
    rw [← ih] at htracks'
    have hvar : f.kind (f.rep x) ≠ .var := by
      intro e
      rw [e] at hx
      cases hx
    obtain ⟨e, he⟩ : ∃ e, (u.forest.kind (u.forest.rep x)).child? slot = some e :=
      Option.isSome_iff_exists.1 (by rw [htracks.isSome_child? hvar, hc]; rfl)
    exact (rep_of_joined hmerged (htracks.child? hc he)).trans
      (rep_of_joined hmerged (htracks'.child? hd he)).symm

include hu hmerged hab in
/-- If all pairs could be merged, the closure holds no clash. -/
theorem not_clashing : ¬f.Clashing a b := by
  rintro ⟨x, y, hxy, hclash⟩
  rcases hxy.concerns with hrep | ⟨hx, hy⟩
  · rw [hrep, Kind.clashes_self] at hclash
    cases hclash
  · have htracks := hu.tracks y hy
    rw [← (hu.rep_eq_iff hmerged hab).2 hxy] at htracks
    rw [Kind.not_clashes_of_turnsInto (hu.tracks x hx) htracks] at hclash
    cases hclash

end Closing

end Unifier

end TypeFlow
