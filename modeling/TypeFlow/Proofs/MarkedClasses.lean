import TypeFlow.Proofs.InputMarks

/-!
# Marks of inputs where classes are merged

Where two classes are merged, the mark of the one that is given up passes to the other, whose inputs are
widened.  Only a class that joins a wrapper is redirected as it is, and its mark is lost if the wrapper
has none; which classes these are is told by the terms that were such wrappers before.

Main definitions:

- `Forest.Holds`: the class of a term holds a term of a set.
- `Forest.Excuses`: a term was a wrapper without a mark, or counts as a copy.
- `Forest.Accounted`: all wrappers are marked or in the class of a term that excuses them.
- `Forest.Secured`: every marked type is guarded, unless its class holds a copy.
- `Forest.Heeds`: marks are kept, but for classes that hold a term that excuses it.

Main results:

- `Unifier.merge_heeds`: merging two classes heeds marks.
- `Unifier.addField_heeds`, `Unifier.dropField_heeds`: so does changing the fields of a record.
-/

namespace TypeFlow

open Forest (widenedKind strippedKind absorbedKind)

namespace Kind

variable {k kl kw : Kind}

/-- What two types become is as decided and as wide as the winner was, or the winner itself. -/
theorem mergedKind_winner (h : Unifier.mergedKind kl kw = some k)
    (hvar : kw = .var → kl.isBase = false ∧ kl.isNilable = false) :
    k = kw ∨ (widenedKind kw = kw → widenedKind k = k) ∧ k.isUndecided = false := by
  unfold Unifier.mergedKind at h
  split at h
  · cases h
    exact Or.inl rfl
  · cases h
    exact Or.inl rfl
  · cases h
    exact Or.inr ⟨fun _ => rfl, rfl⟩
  · rename_i hne herror
    cases h
    obtain ⟨hbase, hnilable⟩ := hvar rfl
    refine Or.inr ⟨fun _ => widenedKind_eq hbase, ?_⟩
    cases k <;> first | rfl | exact absurd rfl hne | cases hnilable
  · split at h
    · rename_i hkind
      cases h
      exact Or.inr ⟨fun hwide =>
        widenedKind_base.2 (Flow.widen_meet hkind (Or.inr (widenedKind_base.1 hwide))), rfl⟩
    · cases h
  · cases h
    exact Or.inr ⟨fun _ => rfl, rfl⟩
  · cases h
    exact Or.inr ⟨fun _ => rfl, rfl⟩
  · cases h

/-- What two types become is decided and wide if the loser was. -/
theorem mergedKind_loser (h : Unifier.mergedKind kl kw = some k) (hwide : widenedKind kl = kl)
    (hu : kl.isUndecided = false) : widenedKind k = k ∧ k.isUndecided = false := by
  unfold Unifier.mergedKind at h
  split at h
  · cases hu
  · cases hu
  · cases h
    exact ⟨rfl, rfl⟩
  · cases h
    exact ⟨hwide, hu⟩
  · split at h
    · rename_i hkind
      cases h
      exact ⟨widenedKind_base.2 (Flow.widen_meet hkind (Or.inl (widenedKind_base.1 hwide))), rfl⟩
    · cases h
  · cases h
    exact ⟨rfl, rfl⟩
  · cases h
    exact ⟨rfl, rfl⟩
  · cases h

private theorem isUndecided_withoutNil (k : Kind) : k.withoutNil.isUndecided = k.isUndecided := by
  cases k <;> rfl

/-- A variable is undecided. -/
theorem ne_var_of_decided (hu : k.isUndecided = false) : k ≠ .var := by
  rintro rfl
  cases hu

/-- What is known and no wrapper is decided. -/
theorem isUndecided_eq_false (hvar : k ≠ .var) (hplain : k.isNilable = false) :
    k.isUndecided = false := by
  cases k <;> first | rfl | exact absurd rfl hvar | cases hplain

/-- A copy without nil that may be widened is as decided and as wide as what it was made of. -/
theorem strippedKind_guards (input : Bool) (hwide : widenedKind k = k)
    (hu : k.isUndecided = false) :
    widenedKind (strippedKind input k) = strippedKind input k ∧
      (strippedKind input k).isUndecided = false := by
  have hplain := widenedKind_withoutNil hwide
  have hdecided := (isUndecided_withoutNil k).trans hu
  cases input with
  | false => exact ⟨hplain, hdecided⟩
  | true =>
    rw [strippedKind, if_pos rfl, hplain]
    exact ⟨hplain, hdecided⟩

end Kind

namespace Forest

variable {f₀ f g h : Forest} {C T : TermId → Prop} {t x : TermId}

/-! ## Former wrappers and copies -/

/-- The class of the term holds a term of the set. -/
def Holds (T : TermId → Prop) (f : Forest) (t : TermId) : Prop := ∃ x, T x ∧ f.rep x = f.rep t

/-- A class that holds a term does so when classes are merged. -/
theorem Holds.mono (hrep : ∀ x y, f.rep x = f.rep y → g.rep x = g.rep y) (ht : f.Holds T t) :
    g.Holds T t := by
  obtain ⟨x, hx, hxt⟩ := ht
  exact ⟨x, hx, hrep x t hxt⟩

/-- Some term is a nilable wrapper. -/
def HasWrappers (f : Forest) : Prop := ∃ w, (f.kind w).isNilable = true

/-- The term was a wrapper without a mark at first, or counts as a copy. -/
def Excuses (f₀ : Forest) (C : TermId → Prop) (x : TermId) : Prop :=
  (f₀.kind x).isNilable = true ∧ ¬f₀.IsMarked x ∨ C x

/-- Every wrapper is marked or in a class with a former wrapper that was not, or with a copy; there are
wrappers only if there were some at first or there are copies; and once there are copies all terms to
come count as such. -/
structure Accounted (f f₀ : Forest) (C : TermId → Prop) : Prop where
  wrapped : ∀ w, (f.kind w).isNilable = true → f.IsMarked w ∨ f.Holds (Excuses f₀ C) w
  origin : f.HasWrappers → f₀.HasWrappers ∨ ∃ x, C x
  late : (∃ x, C x) → ∀ y, f.size ≤ y → C y

/-- At first all wrappers are accounted for. -/
theorem accounted_self (hlate : (∃ x, C x) → ∀ y, f.size ≤ y → C y) : f.Accounted f C where
  wrapped w hw := by
    by_cases hmarked : f.IsMarked w
    · exact Or.inl hmarked
    · exact Or.inr ⟨w, Or.inl ⟨hw, hmarked⟩, rfl⟩
  origin h := Or.inl h
  late := hlate

/-- Every marked type is guarded, unless its class holds a copy. -/
def Secured (C : TermId → Prop) (f : Forest) : Prop :=
  ∀ t, f.IsMarked t → f.Guarded t ∨ f.Holds C t

/-- No term was made a wrapper. -/
def NoNewWrappers (f g : Forest) : Prop :=
  ∀ w, (g.kind w).isNilable = true → (f.kind w).isNilable = true

/-- Wrappers stay accounted for while none are made and their marks are kept. -/
theorem Accounted.of_old (hacc : f.Accounted f₀ C) (hold : NoNewWrappers f g)
    (hmarked : ∀ w, (g.kind w).isNilable = true → f.IsMarked w → g.IsMarked w)
    (hrep : ∀ x y, f.rep x = f.rep y → g.rep x = g.rep y) (hsize : f.size ≤ g.size) :
    g.Accounted f₀ C where
  wrapped w hw := (hacc.wrapped w (hold w hw)).imp (hmarked w hw) (Holds.mono hrep)
  origin hsome := hacc.origin (Exists.imp hold hsome)
  late hC y hy := hacc.late hC y (hsize.trans hy)

/-- Marks are kept, unless by then the class is an error or holds a term that excuses the loss; guarded
types stay guarded, and what is marked anew is guarded or in one class with a copy. -/
structure Heeds (f₀ : Forest) (C : TermId → Prop) (f g : Forest) : Prop where
  becomes : f.Becomes g
  accounted : f.Accounted f₀ C → g.Accounted f₀ C
  marked : f.Accounted f₀ C → ∀ t, f.IsMarked t →
    g.IsMarked t ∨ g.IsError t ∨ g.Holds (Excuses f₀ C) t
  guarded : ∀ t, f.Guarded t → g.Guarded t
  secured : f.Accounted f₀ C → f.Secured C → g.Secured C

/-- Errors stay errors. -/
theorem Becomes.isError (hf : f.Sound) (h : f.Becomes g) (ht : f.IsError t) : g.IsError t :=
  (h.accrues hf t).isError ht

/-- A forest stays secured if what is newly marked is guarded or of a class that was marked. -/
theorem Secured.of_fresh (hf : f.Secured C) (hrep : ∀ x y, f.rep x = f.rep y → g.rep x = g.rep y)
    (hguarded : ∀ t, f.Guarded t → g.Guarded t)
    (hfresh : ∀ t, g.IsMarked t → g.Guarded t ∨ ∃ x, f.IsMarked x ∧ g.rep x = g.rep t) :
    g.Secured C := by
  intro t ht
  rcases hfresh t ht with h | ⟨x, hx, hxt⟩
  · exact Or.inl h
  rcases hf x hx with h | ⟨y, hy, hyx⟩
  · exact Or.inl ((hguarded x h).congr hxt.symm)
  · exact Or.inr ⟨y, hy, (hrep y x hyx).trans hxt⟩

/-- What is secured for some classes is so for more. -/
theorem Secured.mono {D : TermId → Prop} (h : f.Secured C) (hCD : ∀ x, C x → D x) :
    f.Secured D := by
  intro t ht
  rcases h t ht with hguarded | ⟨x, hx, hxt⟩
  · exact Or.inl hguarded
  · exact Or.inr ⟨x, hCD x hx, hxt⟩

/-- Terms to come are in no class that is marked. -/
theorem Secured.of_lt_size (hf : f.Sound) (h : f.Secured C) :
    f.Secured fun x => C x ∧ x < f.size := by
  intro t ht
  rcases h t ht with hguarded | ⟨x, hx, hxt⟩
  · exact Or.inl hguarded
  · exact Or.inr ⟨x, ⟨hx, lt_size_of_rep_lt (hxt ▸ rep_lt_size hf.rooted ht.lt_size)⟩, hxt⟩

namespace Heeds

/-- A forest heeds its own marks. -/
theorem refl (f : Forest) : Heeds f₀ C f f :=
  ⟨.refl, id, fun _ _ ht => Or.inl ht, fun _ => id, fun _ => id⟩

/-- Marks are heeded in turn. -/
theorem trans (hf : f.Sound) (hfg : Heeds f₀ C f g) (hgh : Heeds f₀ C g h) : Heeds f₀ C f h where
  becomes := hfg.becomes.trans hgh.becomes
  accounted hacc := hgh.accounted (hfg.accounted hacc)
  marked hacc t ht := by
    have hg := hfg.becomes.sound hf
    rcases hfg.marked hacc t ht with ht | ht | ht
    · exact hgh.marked (hfg.accounted hacc) t ht
    · exact Or.inr (Or.inl (hgh.becomes.isError hg ht))
    · exact Or.inr (Or.inr (ht.mono (hgh.becomes.evolves hg).grows.rep))
  guarded t ht := hgh.guarded t (hfg.guarded t ht)
  secured hacc hsec := hgh.secured (hfg.accounted hacc) (hfg.secured hacc hsec)

/-- What upholds marks and makes no wrappers heeds them. -/
theorem of_upholds (hf : f.Sound) (hb : f.Becomes g) (h : Upholds f g) (hw : NoNewWrappers f g) :
    Heeds f₀ C f g where
  becomes := hb
  accounted hacc := hacc.of_old hw (fun w _ => h.marked w) h.rep (hb.evolves hf).grows.size
  marked _ t ht := Or.inl (h.marked t ht)
  guarded := h.guarded
  secured _ hsec := hsec.of_fresh h.rep h.guarded h.fresh

end Heeds

/-! ## Wrappers -/

private theorem NoNewWrappers.trans (hfg : NoNewWrappers f g) (hgh : NoNewWrappers g h) :
    NoNewWrappers f h := fun w hw => hfg w (hgh w hw)

private theorem noNewWrappers_setKind {k : Kind} (hk : k.isNilable = true → (f.kind x).isNilable = true) :
    NoNewWrappers f (f.setKind x k) := by
  intro w hw
  rw [kind_setKind] at hw
  split at hw
  · rename_i e
    rw [← e.1]
    exact hk hw
  · exact hw

private theorem noNewWrappers_setKind_decided {k : Kind} (hu : k.isUndecided = false) :
    NoNewWrappers f (f.setKind x k) := by
  refine noNewWrappers_setKind fun hk => ?_
  rw [Kind.isUndecided_of_isNilable hk] at hu
  cases hu

/-- Setting a child makes no wrapper. -/
theorem noNewWrappers_setChild (t : TermId) (slot : Slot) (child : TermId) :
    NoNewWrappers f (f.setChild t slot child) := by
  intro w hw
  rw [kind_setChild] at hw
  split at hw
  · obtain ⟨y, hy⟩ := Kind.isNilable_eq_true.1 hw
    rcases Kind.setChild_eq_nilable hy with h | ⟨-, -, z, h⟩ <;> rw [h] <;> rfl
  · exact hw

/-- Neither does tidying up. -/
theorem noNewWrappers_upkeeps (hf : f.Rooted) (hup : f.Upkeeps g) : NoNewWrappers f g := by
  induction hup with
  | refl => exact fun _ => id
  | @tail g g' hg hstep ih =>
    have hs := Upkeeps.steady hf hg
    refine ih.trans ?_
    cases hstep with
    | shorten h => exact noNewWrappers_setKind fun h => absurd h Bool.false_ne_true
    | remember h => exact noNewWrappers_setChild _ _ _
    | absorb h =>
      intro w hw
      rw [kind_absorb (not_isLink_rep hs.rooted _)] at hw
      split at hw
      · rename_i e
        rw [← e.1, h]
        rfl
      · exact hw

private theorem noNewWrappers_widenInputs (f : Forest) (t : TermId) :
    NoNewWrappers f (f.widenInputs t) := by
  intro w hw
  rcases kind_widenInputs f t w with e | ⟨-, flow, flow', -, e⟩ <;> rw [e] at hw
  · exact hw
  · cases hw

private theorem noNewWrappers_link {loser winner : TermId} (hl : loser < f.size) :
    NoNewWrappers f (f.link loser winner) := by
  intro w hw
  rw [kind_link hl] at hw
  split at hw
  · cases hw
  · exact hw

/-! ## New terms -/

/-- A new term that is no wrapper is guarded if it is marked, or counts as a copy. -/
theorem heeds_add (hf : f.Sound) {term : Term} (hlink : term.kind.isLink = false)
    (hrange : ∀ x ∈ term.kind.children, x < f.size) (hplain : term.kind.isNilable = false)
    (hsecure : f.Accounted f₀ C → f.Secured C → term.isInput = true →
      widenedKind term.kind = term.kind ∧ term.kind.isUndecided = false ∨ ∃ x, C x) :
    Heeds f₀ C f (f.add term).2 := by
  have hs := steady_add hf.rooted hlink
  have hguarded : ∀ t, f.Guarded t → (f.add term).2.Guarded t := by
    rintro t ⟨S, hS, ht⟩
    exact ⟨S, hS.add hf.rooted hlink, by rwa [hs.rep]⟩
  have hmarked : ∀ t, f.IsMarked t → (f.add term).2.IsMarked t := fun t ht => by
    rw [IsMarked, hs.rep, isInput_add, if_neg (Nat.ne_of_lt (lt_size_of_isInput ht))]
    exact ht
  have hkind : (f.add term).2.kind f.size = term.kind := by rw [kind_add, if_pos rfl]
  have hold : NoNewWrappers f (f.add term).2 := fun w hw => by
    rw [kind_add] at hw
    split at hw
    · rw [hplain] at hw
      cases hw
    · exact hw
  refine ⟨.single (.sprouts (.single (.add hlink hrange))),
    fun hacc => hacc.of_old hold (fun w _ => hmarked w) hs.grows.rep hs.size,
    fun _ t ht => Or.inl (hmarked t ht), hguarded, fun hacc hsec t ht => ?_⟩
  · rw [IsMarked, hs.rep, isInput_add] at ht
    split at ht
    · rename_i e
      rcases hsecure hacc hsec ht with ⟨hwide, hu⟩ | hC
      · refine Or.inl (.of_decided ?_ ?_) <;> rw [hs.rep, e, hkind]
        · exact hwide
        · exact hu
      · exact Or.inr ⟨f.size, hacc.late hC _ le_rfl, by
          rw [hs.rep, hs.rep, e, rep_of_size_le le_rfl]⟩
    · exact (hsec t ht).imp (hguarded t) (Holds.mono hs.grows.rep)

/-- A copy without nil of a decided type heeds marks. -/
theorem heeds_withStripped (hf : f.Sound) (hx : f.IsClass x)
    (hu : (f.kind x).isUndecided = false) : Heeds f₀ C f (f.withStripped x) := by
  have hu' := (Kind.isUndecided_withoutNil (f.kind x)).trans hu
  refine heeds_add hf (by rw [Kind.isLink_withoutNil, hx.root])
    (fun y hy => hf.inRange x y (by rwa [Kind.children_withoutNil] at hy)) ?_ fun _ hsec hinput => ?_
  · cases h : (f.kind x).withoutNil.isNilable with
    | false => rfl
    | true =>
      rw [Kind.isUndecided_of_isNilable h] at hu'
      cases hu'
  have hmarked : f.IsMarked x := by
    rw [IsMarked, hx.rep_eq]
    revert hinput
    unfold isInput
    cases f.terms[x]? with
    | none => exact fun h => absurd h Bool.false_ne_true
    | some term => exact id
  rcases hsec x hmarked with hguarded | ⟨y, hy, -⟩
  · have hwide := hguarded.widened
    rw [hx.rep_eq] at hwide
    exact Or.inl ⟨Kind.widenedKind_withoutNil hwide, hu'⟩
  · exact Or.inr ⟨y, hy⟩

/-- A class that is redirected as it is may lose its mark, so its new class must be marked or an error,
or hold a wrapper that was not marked. -/
theorem Heeds.redirect {loser winner : TermId} (hf : f.Sound) (hfg : Heeds f₀ C f g)
    (hl : g.IsClass loser) (hw : g.IsClass winner) (hne : loser ≠ winner)
    (hb : g.Becomes (g.link loser winner))
    (hheld : f.Accounted f₀ C →
      g.IsMarked winner ∨ g.IsError winner ∨ g.Holds (Excuses f₀ C) winner)
    (hguarded : g.Guarded loser → g.Guarded winner) : Heeds f₀ C f (g.link loser winner) := by
  have hg := hfg.becomes.sound hf
  have hrep := rep_link_eq hg.rooted hl.root hw.root hne hl.lt hw.lt
  have hgrows := (hb.evolves hg).grows.rep
  have hjoined : ∀ t, g.rep t = loser →
      (g.link loser winner).rep t = (g.link loser winner).rep winner := fun t ht => by
    rw [hrep, hrep, if_pos ht, hw.rep_eq, if_neg hne.symm]
  have hguarded' : ∀ t, g.Guarded t → (g.link loser winner).Guarded t := fun t =>
    guarded_link hg.rooted hl hw hne hguarded
  have hmarked : ∀ t, g.rep t ≠ loser → g.IsMarked t → (g.link loser winner).IsMarked t :=
    fun t e ht => by
      rw [IsMarked, hrep, if_neg e, isInput_link hl.lt, if_neg (Ne.symm e)]
      exact ht
  refine ⟨hfg.becomes.trans hb, fun hacc => ?_, fun hacc t ht => ?_,
    fun t ht => hguarded' t (hfg.guarded t ht), fun hacc hsec => ?_⟩
  · have hold : NoNewWrappers g (g.link loser winner) := noNewWrappers_link hl.lt
    refine (hfg.accounted hacc).of_old hold (fun w hk => hmarked w fun e => ?_) hgrows
      (hb.evolves hg).grows.size
    -- The loser is a link by now and no wrapper.
    obtain ⟨y, hy⟩ := Kind.isNilable_eq_true.1 (hold w hk)
    rw [rep_of_not_link (by rw [hy]; rfl)] at e
    rw [kind_link hl.lt, if_pos e.symm] at hk
    cases hk
  · rcases hfg.marked hacc t ht with ht | ht | ht
    · by_cases e : g.rep t = loser
      · rcases hheld hacc with hinput | herror | ⟨x, hx, hxw⟩
        · refine Or.inl ?_
          rw [IsMarked, hjoined t e]
          exact hmarked winner (by rw [hw.rep_eq]; exact hne.symm) hinput
        · refine Or.inr (Or.inl ?_)
          rw [IsError, hjoined t e]
          exact hb.isError hg herror
        · exact Or.inr (Or.inr ⟨x, hx, (hgrows x winner hxw).trans (hjoined t e).symm⟩)
      · exact Or.inl (hmarked t e ht)
    · exact Or.inr (Or.inl (hb.isError hg ht))
    · exact Or.inr (Or.inr (ht.mono hgrows))
  · exact (hfg.secured hacc hsec).of_fresh hgrows hguarded' fun t ht =>
      Or.inr (isMarked_of_link hg.rooted hl hw hne ht)

end Forest

open Forest (IsClass Steady Upholds Heeds NoNewWrappers)

namespace Unifier

variable {f₀ : Forest} {s t u : Unifier} {C : TermId → Prop} {r : Bool} {loser winner : TermId}

/-- What proceeds is a history of the forest. -/
theorem Proceeds.becomes (h : Proceeds s u) : s.forest.Becomes u.forest :=
  h.leads.mono fun _ _ => trivial

/-- Looking classes up heeds marks. -/
theorem Looks.heeds (hs : s.Sound) (h : Looks s u) : Heeds f₀ C s.forest u.forest :=
  .of_upholds hs.forest (h.proceeds hs).becomes
    (Forest.upholds_upkeeps hs.forest.rooted h.upkeeps)
    (Forest.noNewWrappers_upkeeps hs.forest.rooted h.upkeeps)

/-! ## Merging -/

/-- The mark of a class that is given up passes to the winner, whose inputs are widened. -/
theorem settle_upholds (hs : s.Sound) (hwork : s.work.isNone = false)
    (hl : s.forest.IsClass loser) (hw : s.forest.IsClass winner)
    (hguarded : s.forest.isInput loser = false → s.forest.Guarded loser → s.forest.Guarded winner)
    (h : settle loser winner s = some (r, u)) :
    Upholds s.forest u.forest ∧ NoNewWrappers s.forest u.forest := by
  by_cases hne : loser = winner
  · rw [settle, if_pos hne] at h
    obtain ⟨-, rfl⟩ := pure_eq_some.1 h
    exact ⟨.refl _, fun _ => id⟩
  rw [settle_eq hwork hne] at h
  cases h
  dsimp only
  have hsteady := Forest.passInput_steady hs.forest.rooted loser winner
  have hl₁ := hl.of_steady hsteady
  have hw₁ := hw.of_steady hsteady
  unfold Forest.passInput at *
  split at hsteady
  · rename_i hinput
    rw [if_pos hinput] at *
    have hreach : s.forest.rep winner ∈ s.forest.reachBy Kind.inputs winner :=
      Forest.rep_mem_reachBy _ _ _
    refine ⟨(Forest.upholds_widenInputs hs.forest hw.lt).trans
      (Forest.upholds_link hsteady.rooted hl₁ hw₁ hne (fun _ => ?_) fun _ => ?_),
      (Forest.noNewWrappers_widenInputs _ _).trans (Forest.noNewWrappers_link hl₁.lt)⟩
    · rw [hw.rep_eq] at hreach
      exact (Forest.isInput_widenInputs _ _ _).2 (Or.inr ⟨hreach, hw.lt⟩)
    · exact Forest.guarded_of_mem_reachBy hs.forest hw.lt hreach
  · rename_i hinput
    rw [if_neg hinput] at *
    rw [Bool.not_eq_true] at hinput
    refine ⟨Forest.upholds_link hs.forest.rooted hl hw hne (fun h => ?_) (hguarded hinput),
      Forest.noNewWrappers_link hl.lt⟩
    rw [hinput] at h
    cases h

/-- What is merged into an error needs no guard. -/
theorem settle_error_heeds (hs : s.Sound) (hwork : s.work.isNone = false)
    (hl : s.forest.IsClass loser) (hw : s.forest.IsClass winner)
    (herror : (s.forest.kind winner).isError = true)
    (h : settle loser winner s = some (r, u)) : Heeds f₀ C s.forest u.forest := by
  obtain ⟨cause, hcause⟩ := Kind.isError_iff.1 herror
  obtain ⟨hup, hnew⟩ := settle_upholds hs hwork hl hw
    (fun _ _ => .of_isError (by rwa [Forest.IsError, hw.rep_eq])) h
  exact .of_upholds hs.forest (settle_proceeds hs hwork hl hw
    (by rw [hcause]; exact .error hl.root cause) h).1.becomes hup hnew

/-- Making an error heeds marks. -/
theorem alloc_error_heeds (hs : s.Sound) {cause : TypeError} {x : TermId}
    (h : alloc (.error cause) s = some (x, u)) : Heeds f₀ C s.forest u.forest := by
  obtain ⟨-, rfl⟩ := alloc_eq_some.1 h
  exact Forest.heeds_add hs.forest rfl (fun y hy => absurd hy List.not_mem_nil) rfl
    fun _ _ h => absurd h Bool.false_ne_true

/-- Two classes become an error, which keeps no marks. -/
theorem clash_heeds {a b : TermId} {cause : TypeError} (hs : s.Sound)
    (hwork : s.work.isNone = false) (ha : s.forest.IsClass a) (hb : b < s.forest.size)
    (h : clash a b cause s = some (r, u)) : Heeds f₀ C s.forest u.forest := by
  obtain ⟨e, s₁, halloc, h⟩ := bind_eq_some.1 h
  obtain ⟨first, s₂, hsettle, h⟩ := bind_eq_some.1 h
  obtain ⟨error, s₃, hfind, h⟩ := bind_eq_some.1 h
  obtain ⟨b', s₄, hfind', h⟩ := bind_eq_some.1 h
  obtain ⟨second, s₅, hsettle', h⟩ := bind_eq_some.1 h
  obtain ⟨-, rfl⟩ := pure_eq_some.1 h
  obtain ⟨hp₁, hsteady₁, he, herror⟩ := alloc_error_proceeds hs halloc
  have hwork₁ : s₁.work.isNone = false := by rw [hp₁.probe, hwork]
  have ha₁ := ha.of_steady hsteady₁
  have hheeds₂ : Heeds f₀ C s.forest s₂.forest := (alloc_error_heeds hs halloc).trans hs.forest
    (settle_error_heeds hp₁.sound hwork₁ ha₁ he (by rw [herror]; rfl) hsettle)
  obtain ⟨hp₂, hjoins, -⟩ := settle_proceeds hp₁.sound hwork₁ ha₁ he
    (by rw [herror]; exact .error ha₁.root cause) hsettle
  have ha₂ := hp₂.lt hp₁.sound ha₁.lt
  have hb₂ := hp₂.lt hp₁.sound (hp₁.lt hs hb)
  obtain ⟨hlooks, -, ⟨rfl, rfl⟩, hra, hrb⟩ := find_both hp₂.sound ha₂ hb₂ hfind hfind'
  have hp₄ := hlooks.proceeds hp₂.sound
  -- The error stays one when its class is looked up.
  have hstill : (s₄.forest.kind (s₂.forest.rep a)).isError = true := by
    have herror' := (hp₂.trans hp₄).becomes.isError hp₁.sound.forest (t := e)
      (by rw [Forest.IsError, he.rep_eq, herror]; rfl)
    rwa [Forest.IsError, (hlooks.steady hp₂.sound).rep, ← hjoins.rep] at herror'
  exact (hheeds₂.trans hs.forest (hlooks.heeds hp₂.sound)).trans hs.forest
    (settle_error_heeds hp₄.sound (by rw [hp₄.probe, hp₂.probe, hwork₁]) hrb hra hstill hsettle')

section MergedKind

variable {k : Kind} (hl : s.forest.IsClass loser) (hw : s.forest.IsClass winner)
  (hsteady : Steady s.forest (s.forest.setKind winner k))
  (hk : mergedKind (s.forest.kind loser) (s.forest.kind winner) = some k)

include hw hsteady hk

/-- A class upholds marks when it becomes what it is merged with. -/
theorem upholds_mergedKind (hvar : s.forest.kind winner = .var →
      (s.forest.kind loser).isBase = false ∧ (s.forest.kind loser).isNilable = false) :
    Upholds s.forest (s.forest.setKind winner k) ∧
      NoNewWrappers s.forest (s.forest.setKind winner k) := by
  rcases Kind.mergedKind_winner hk hvar with rfl | ⟨hwide, hu⟩
  · rw [Forest.setKind_kind]
    exact ⟨.refl _, fun _ => id⟩
  · refine ⟨Forest.upholds_setKind hsteady (fun hguarded => ⟨hwide ?_, hu⟩) hw.rep_eq,
      Forest.noNewWrappers_setKind_decided hu⟩
    have hwinner := hguarded.widened
    rwa [hw.rep_eq] at hwinner

include hl in
/-- What is merged with a guarded class that has no mark is guarded, for that class is decided. -/
theorem guarded_mergedKind (hne : loser ≠ winner)
    (hinput : (s.forest.setKind winner k).isInput loser = false)
    (hguarded : (s.forest.setKind winner k).Guarded loser) :
    (s.forest.setKind winner k).Guarded winner := by
  have hkl : (s.forest.setKind winner k).kind loser = s.forest.kind loser := by
    rw [Forest.kind_setKind, if_neg fun e => hne e.1.symm]
  have hwide := hguarded.widened
  have hmarked := hguarded.marked
  rw [Forest.IsMarked, (hl.of_steady hsteady).rep_eq, hkl, hinput] at hmarked
  rw [(hl.of_steady hsteady).rep_eq, hkl] at hwide
  have hdecided := Kind.mergedKind_loser hk hwide
    (Bool.eq_false_iff.2 fun hu => Bool.false_ne_true (hmarked hu))
  refine .of_decided ?_ ?_ <;>
    rw [(hw.of_steady hsteady).rep_eq, Forest.kind_setKind, if_pos ⟨rfl, hw.lt⟩]
  · exact hdecided.1
  · exact hdecided.2

end MergedKind

/-- Merging two classes heeds marks, unless a variable takes in a base type or a wrapper. -/
theorem merge_heeds (hs : s.Sound) (hwork : s.work.isNone = false) (hl : s.forest.IsClass loser)
    (hw : s.forest.IsClass winner)
    (hvar : s.forest.kind winner = .var →
      (s.forest.kind loser).children = [] ∧ (s.forest.kind loser).isBase = false)
    (harity : ∀ n m, (s.forest.kind loser).arity? = some n →
      (s.forest.kind winner).arity? = some m → n = m)
    (h : merge loser winner s = some (r, u)) : Heeds f₀ C s.forest u.forest := by
  have hp := (merge_proceeds hs hl hw (fun h => (hvar h).1) harity h).1
  unfold merge at h
  rcases ite_eq_some.1 h with ⟨-, h⟩ | ⟨hne, h⟩
  · obtain ⟨-, rfl⟩ := pure_eq_some.1 h
    exact .refl _
  obtain rfl | ⟨-, h⟩ := unless_probe h
  · exact .refl _
  replace h := of_bind_view h
  rcases ite_eq_some.1 h with ⟨herror, h⟩ | ⟨-, h⟩
  · exact settle_error_heeds hs hwork hl hw herror h
  replace h := of_bind_view h
  cases hk : mergedKind (s.forest.kind loser) (s.forest.kind winner) with
  | none =>
    simp only [hk] at h
    exact clash_heeds hs hwork hl hw.lt (of_bind_view h)
  | some k =>
    simp only [hk] at h
    obtain ⟨hrefines, haccrues⟩ :=
      mergedKind_refines hl.root hw.root (fun h => (hvar h).1) harity hk
    obtain ⟨v, s₁, hset, h⟩ := bind_eq_some.1 h
    obtain rfl := change_eq_some.1 hset
    have hsteady := Forest.refine_steady hs.forest.rooted hrefines
    have hs₁ := hs.change (.refine hrefines)
    have hplain : s.forest.kind winner = .var → (s.forest.kind loser).isBase = false ∧
        (s.forest.kind loser).isNilable = false := fun h => by
      refine ⟨(hvar h).2, ?_⟩
      have hchildren := (hvar h).1
      revert hchildren
      cases s.forest.kind loser <;> first | exact fun _ => rfl | exact fun h => nomatch h
    -- The winner takes over what is known of the loser, and then its mark.
    obtain ⟨hup, hnew⟩ := upholds_mergedKind hw hsteady hk hplain
    obtain ⟨hup', hnew'⟩ := settle_upholds hs₁ hwork (hl.of_steady hsteady) (hw.of_steady hsteady)
      (guarded_mergedKind hl hw hsteady hk hne) h
    exact .of_upholds hs.forest hp.becomes (hup.trans hup') (hnew.trans hnew')

/-! ## Fields -/

/-- So does adding a field. -/
theorem addField_heeds {x value : TermId} {label : String} (hs : s.Sound)
    (hwork : s.work.isNone = false) (hvalue : value < s.forest.size)
    (h : addField x label value s = some (r, u)) : Heeds f₀ C s.forest u.forest := by
  have hp := (addField_proceeds hs hwork hvalue h).1
  cases hrecord : (s.forest.kind x).isRecord with
  | false =>
    rw [addField_of_not_isRecord hrecord] at h
    cases h
    exact .refl _
  | true =>
    rw [addField_record hrecord] at h
    cases h
    have hsteady := Forest.setChild_steady hs.forest.rooted x (.field label) value
    have hset : Upholds s.forest (s.forest.setChild x (.field label) value) :=
      .of_isInput hsteady (Forest.isInput_setChild _ _ · _ _) fun _ hS =>
        hS.setChild hs.forest.rooted fun _ _ hslot => Slot.noConfusion hslot
    refine .of_upholds hs.forest hp.becomes
      (hset.trans (Forest.upholds_addDeps hsteady.rooted _ _)) fun w hw => ?_
    refine Forest.noNewWrappers_setChild x (.field label) value w ?_
    rwa [Forest.withField, Forest.kind_addDeps] at hw

/-- A class that becomes another record or function heeds marks. -/
theorem heeds_setKind {x : TermId} {k : Kind} (hs : s.Sound) (hx : s.forest.IsClass x)
    (hk : (s.forest.kind x).Refines k) (hu : k.isUndecided = false)
    (hwide : widenedKind (s.forest.kind x) = s.forest.kind x → widenedKind k = k) :
    Heeds f₀ C s.forest (s.forest.setKind x k) := by
  refine .of_upholds hs.forest (.single (.refine hk))
    (Forest.upholds_setKind (Forest.refine_steady hs.forest.rooted hk) (fun h => ⟨hwide ?_, hu⟩)
      hx.rep_eq) (Forest.noNewWrappers_setKind_decided hu)
  have hkind := h.widened
  rwa [hx.rep_eq] at hkind

/-- So does dropping one. -/
theorem dropField_heeds {x : TermId} {label : String} (hs : s.Sound)
    (h : dropField x label s = some (r, u)) : Heeds f₀ C s.forest u.forest := by
  cases hchild : (s.forest.kind x).child? (.field label) with
  | none =>
    rw [dropField_of_none hchild] at h
    cases h
    exact .refl _
  | some y =>
    obtain ⟨fields, sites, isOpen, nil, hk, hy⟩ := Kind.eq_record_of_child? hchild
    have hx := Forest.isClass_of_isRecord (f := s.forest) (t := x) (by rw [hk]; rfl)
    rw [dropField_record hk (by rw [hy]; rfl)] at h
    cases h
    have hrefines := Kind.refines_erase fields sites isOpen nil label
    rw [← hk] at hrefines
    exact heeds_setKind hs hx hrefines rfl fun _ => rfl

end Unifier

end TypeFlow
