import TypeFlow.Proofs.MergedClasses

/-!
# Unifications

Whatever two types look like, their unification is a row of changes of the forest, each of which
tells who is registered with the classes that it disturbs.

Main results:

- `Unifier.unifyStep_proceeds`: one layer of unification proceeds if the next one does.
- `Unifier.unify_proceeds`: so does the unification of any two terms.
-/

namespace TypeFlow

open Forest (IsClass Steady Evolves absorbedKind strippedKind)

namespace Unifier

variable {α : Type} {s t u : Unifier}

/-! ## Unifying -/

/-- What the computation does to two terms proceeds. -/
def Proceeding (rec : TermId → TermId → UnifyM Bool) : Prop :=
  ∀ a b s r u, s.Sound → a < s.forest.size → b < s.forest.size → rec a b s = some (r, u) →
    Proceeds s u

/-- What the computation makes of two variables is a variable, and it changes no wrapper. -/
def VarsMeet (rec : TermId → TermId → UnifyM Bool) : Prop :=
  ∀ a b s r u, s.Sound → a < s.forest.size → b < s.forest.size → s.work.isNone = false →
    s.forest.kind (s.forest.rep a) = .var → s.forest.kind (s.forest.rep b) = .var →
    rec a b s = some (r, u) →
      u.forest.kind (u.forest.rep a) = .var ∧
        ∀ w inner, s.forest.kind w = .nilable inner → u.forest.kind w = .nilable inner

section Unify

variable {rec : TermId → TermId → UnifyM Bool} (hrec : Proceeding rec) (hvars : VarsMeet rec)
  {r : Bool}

/-- What becomes of a child of one class for which another class has the child `rhs?`. -/
inductive SlotStep (rec : TermId → TermId → UnifyM Bool) (slot : Slot) (that lhs : TermId)
    (rhs? : Option TermId) (changed : Bool) (s u : Unifier) : Prop
  | unified {rhs : TermId} (hrhs : rhs? = some rhs) (h : rec lhs rhs s = some (changed, u))
  | added {label : String} (hrhs : rhs? = none) (hslot : slot = .field label)
      (hopen : (s.forest.kind that).isOpen = true) (h : addField that label lhs s = some (changed, u))
  | kept (hrhs : rhs? = none)
      (hclosed : ∀ label, slot = .field label → (s.forest.kind that).isOpen = false)
      (hchanged : changed = false) (h : s = u)

/-- The first of several slots is passed over, or its children are settled, both classes are looked
up again, and if none of them is an error by then the other slots follow. -/
theorem unifySlots_cons {slot : Slot} {rest : List Slot} {this that : TermId} {progress : Bool}
    {result : TermId × TermId × Bool}
    (h : unifySlots rec (slot :: rest) this that progress s = some (result, u)) :
    (∃ s₁, child this slot s = some (none, s₁) ∧
      unifySlots rec rest this that progress s₁ = some (result, u)) ∨
    ∃ lhs s₁ rhs? s₂ changed s₃ this' s₄ that' s₅, child this slot s = some (some lhs, s₁) ∧
      child that slot s₁ = some (rhs?, s₂) ∧ SlotStep rec slot that lhs rhs? changed s₂ s₃ ∧
      find this s₃ = some (this', s₄) ∧ find that s₄ = some (that', s₅) ∧
      (((s₅.forest.kind this').isError || (s₅.forest.kind that').isError) = true ∧
          result = (this', that', progress || changed) ∧ s₅ = u ∨
        unifySlots rec rest this' that' (progress || changed) s₅ = some (result, u)) := by
  obtain ⟨lhs?, s₁, hchild, h⟩ := bind_eq_some.1 h
  cases lhs? with
  | none => exact Or.inl ⟨s₁, hchild, h⟩
  | some lhs =>
    obtain ⟨rhs?, s₂, hchild', h⟩ := bind_eq_some.1 h
    obtain ⟨changed, s₃, hstep, h⟩ : ∃ changed s₃, SlotStep rec slot that lhs rhs? changed s₂ s₃ ∧ (do
        let this ← find this
        let that ← find that
        if (← kindOf this).isError || (← kindOf that).isError then
          return (this, that, progress || changed)
        unifySlots rec rest this that (progress || changed)) s₃ = some (result, u) := by
      cases rhs? with
      | some rhs =>
        obtain ⟨changed, s₃, hunify, h⟩ := bind_eq_some.1 h
        exact ⟨changed, s₃, .unified rfl hunify, h⟩
      | none =>
        cases slot with
        | field label =>
          replace h := of_bind_view h
          rcases ite_eq_some.1 h with ⟨hopen, h⟩ | ⟨hclosed, h⟩
          · obtain ⟨changed, s₃, hadd, h⟩ := bind_eq_some.1 h
            exact ⟨changed, s₃, .added rfl rfl hopen hadd, h⟩
          · obtain ⟨changed, s₃, hpure, h⟩ := bind_eq_some.1 h
            obtain ⟨rfl, rfl⟩ := pure_eq_some.1 hpure
            exact ⟨_, s₂, .kept rfl (fun _ _ => Bool.eq_false_iff.2 hclosed) rfl rfl, h⟩
        | _ =>
          obtain ⟨changed, s₃, hpure, h⟩ := bind_eq_some.1 h
          obtain ⟨rfl, rfl⟩ := pure_eq_some.1 hpure
          exact ⟨_, s₂, .kept rfl (fun _ e => by cases e) rfl rfl, h⟩
    obtain ⟨this', s₄, hfind, h⟩ := bind_eq_some.1 h
    obtain ⟨that', s₅, hfind', h⟩ := bind_eq_some.1 h
    refine Or.inr ⟨lhs, s₁, rhs?, s₂, changed, s₃, this', s₄, that', s₅, hchild, hchild', hstep, hfind,
      hfind', ?_⟩
    replace h := of_bind_view h
    replace h := of_bind_view h
    rcases ite_eq_some.1 h with ⟨herror, h⟩ | ⟨-, h⟩
    · obtain ⟨hr, hu⟩ := pure_eq_some.1 h
      exact Or.inl ⟨herror, hr.symm, hu⟩
    · exact Or.inr h

include hrec in
/-- A step for one slot proceeds. -/
theorem SlotStep.proceeds {slot : Slot} {that lhs : TermId} {rhs? : Option TermId} {changed : Bool}
    (hs : s.Sound) (hwork : s.work.isNone = false) (hlhs : lhs < s.forest.size)
    (hrhs : ∀ rhs, rhs? = some rhs → s.forest.IsClass rhs)
    (h : SlotStep rec slot that lhs rhs? changed s u) : Proceeds s u := by
  cases h with
  | unified hr h => exact hrec _ _ _ _ _ hs hlhs (hrhs _ hr).lt h
  | added hr hslot hopen h => exact (addField_proceeds hs hwork hlhs h).1
  | kept hr hclosed hchanged h => exact h ▸ .refl hs

include hrec in
/-- The children of two classes are unified in turn, which may merge either class with others. -/
theorem unifySlots_proceeds {slots : List Slot} {this that this' that' : TermId}
    {progress : Bool} (hs : s.Sound) (hwork : s.work.isNone = false)
    (hthis : s.forest.IsClass this) (hthat : s.forest.IsClass that)
    (h : unifySlots rec slots this that progress s = some ((this', that', r), u)) :
    Proceeds s u ∧ this' = u.forest.rep this ∧ that' = u.forest.rep that := by
  induction slots generalizing this that progress s with
  | nil =>
    obtain ⟨hr, rfl⟩ := pure_eq_some.1 h
    cases hr
    exact ⟨.refl hs, hthis.rep_eq.symm, hthat.rep_eq.symm⟩
  | cons slot rest ih =>
    rcases unifySlots_cons h with ⟨s₁, hchild, h⟩ | ⟨lhs, s₁, rhs?, s₂, changed, s₃, this₁, s₄, that₁,
      s₅, hchild, hchild', hstep, hfind, hfind', h⟩
    · obtain ⟨hlooks₁, -⟩ := child_looks hs hchild
      have hp₁ := hlooks₁.proceeds hs
      have hsteady₁ := hlooks₁.steady hs
      obtain ⟨hp, hr⟩ := ih hp₁.sound (by rw [hp₁.probe, hwork]) (hthis.of_steady hsteady₁)
        (hthat.of_steady hsteady₁) h
      exact ⟨hp₁.trans hp, hr⟩
    obtain ⟨hlooks₁, hlhs⟩ := child_looks hs hchild
    have hp₁ := hlooks₁.proceeds hs
    obtain ⟨hlooks₂, hrhs⟩ := child_looks hp₁.sound hchild'
    have hp₂ := hp₁.trans (hlooks₂.proceeds hp₁.sound)
    have hlhs₂ := (hlhs lhs rfl).of_steady (hlooks₂.steady hp₁.sound)
    have hp₃ := hp₂.trans
      (hstep.proceeds hrec hp₂.sound (by rw [hp₂.probe, hwork]) hlhs₂.lt hrhs)
    -- Whatever happened to the children, the two classes are looked up again.
    obtain ⟨hlooks₅, -, ⟨rfl, rfl⟩, hthis₅, hthat₅⟩ :=
      find_both hp₃.sound (hp₃.lt hs hthis.lt) (hp₃.lt hs hthat.lt) hfind hfind'
    have hp₅ := hp₃.trans (hlooks₅.proceeds hp₃.sound)
    have hrep := (hlooks₅.steady hp₃.sound).rep
    rcases h with ⟨-, hr, rfl⟩ | h
    · cases hr
      exact ⟨hp₅, (hrep this).symm, (hrep that).symm⟩
    · obtain ⟨hp, hr, hr'⟩ := ih hp₅.sound (by rw [hp₅.probe, hwork]) hthis₅ hthat₅ h
      have hagain : ∀ x, u.forest.rep (s₃.forest.rep x) = u.forest.rep x := by
        intro x
        rw [← hrep]
        exact (hp.evolves hp₅.sound).rep_rep hp₅.sound.forest.rooted x
      rw [hagain] at hr hr'
      exact ⟨hp₅.trans hp, hr, hr'⟩

/-- The label sets of two records are settled without any merge. -/
theorem balanceLabels_proceeds {labels : List String} {this that : TermId} {progress : Bool}
    (hs : s.Sound) (hwork : s.work.isNone = false)
    (h : balanceLabels this that labels progress s = some (r, u)) :
    Proceeds s u ∧ Steady s.forest u.forest := by
  induction labels generalizing progress s with
  | nil =>
    obtain ⟨-, rfl⟩ := pure_eq_some.1 h
    exact ⟨.refl hs, .refl hs.forest.rooted⟩
  | cons label rest ih =>
    replace h := of_bind_view h
    rcases ite_eq_some.1 h with ⟨-, h⟩ | ⟨-, h⟩
    · exact ih hs hwork h
    obtain ⟨changed, s₁, ⟨hp₁, hsteady₁⟩, h⟩ : ∃ (changed : Bool) (s₁ : Unifier),
        (Proceeds s s₁ ∧ Steady s.forest s₁.forest) ∧
          balanceLabels this that rest (progress || changed) s₁ = some (r, u) := by
      replace h := of_bind_view h
      rcases ite_eq_some.1 h with ⟨-, h⟩ | ⟨-, h⟩
      · obtain ⟨rhs?, s₁, hchild, h⟩ := bind_eq_some.1 h
        obtain ⟨hlooks, hrhs⟩ := child_looks hs hchild
        have hp₁ := hlooks.proceeds hs
        have hsteady₁ := hlooks.steady hs
        cases rhs? with
        | none =>
          obtain ⟨changed, s₂, hpure, h⟩ := bind_eq_some.1 h
          obtain ⟨rfl, rfl⟩ := pure_eq_some.1 hpure
          exact ⟨_, s₁, ⟨hp₁, hsteady₁⟩, h⟩
        | some rhs =>
          obtain ⟨changed, s₂, hadd, h⟩ := bind_eq_some.1 h
          obtain ⟨hp₂, hsteady₂⟩ :=
            addField_proceeds hp₁.sound (by rw [hp₁.probe, hwork]) (hrhs rhs rfl).lt hadd
          exact ⟨changed, s₂, ⟨hp₁.trans hp₂, hsteady₁.trans hsteady₂⟩, h⟩
      · obtain ⟨changed, s₁, hdrop, h⟩ := bind_eq_some.1 h
        exact ⟨changed, s₁, dropField_proceeds hs hwork hdrop, h⟩
    obtain ⟨hp, hsteady⟩ := ih hp₁.sound (by rw [hp₁.probe, hwork]) h
    exact ⟨hp₁.trans hp, hsteady₁.trans hsteady⟩

include hrec hvars in
/-- The wrapper whose variable is unified with that of another stays one. -/
theorem unifySlots_inner {a b this that : TermId} {progress : Bool} (hs : s.Sound)
    (hwork : s.work.isNone = false) (hca : s.forest.Calm a) (hcb : s.forest.Calm b)
    (hka : (s.forest.kind a).isNilable = true) (hkb : (s.forest.kind b).isNilable = true)
    (h : unifySlots rec [.inner] a b false s = some ((this, that, progress), u)) :
    (u.forest.kind (u.forest.rep a)).isNilable = true := by
  obtain ⟨x, hx⟩ := Kind.isNilable_eq_true.1 hka
  obtain ⟨y, hy⟩ := Kind.isNilable_eq_true.1 hkb
  rcases unifySlots_cons h with ⟨s₁, hchild, -⟩ | ⟨lhs, s₁, rhs?, s₂, changed, s₃, this₁, s₄, that₁,
    s₅, hchild, hchild', hstep, hfind, hfind', h⟩
  · have hnone := child_eq hs hchild
    rw [hx] at hnone
    cases hnone
  obtain ⟨hlooks₁, hlhs⟩ := child_looks hs hchild
  obtain rfl : lhs = s.forest.rep x := by
    have hlhs := child_eq hs hchild
    rw [hx] at hlhs
    exact Option.some.inj hlhs
  have hp₁ := hlooks₁.proceeds hs
  obtain ⟨hlooks₂, hrhs⟩ := child_looks hp₁.sound hchild'
  obtain ⟨y₁, hy₁, hyy⟩ := hlooks₁.wraps hs hcb hy
  obtain rfl : rhs? = some (s.forest.rep y) := by
    rw [child_eq hp₁.sound hchild', hy₁, ← hyy, ← (hlooks₁.steady hs).rep]
    rfl
  have hp₂ := hlooks₂.proceeds hp₁.sound
  have hlooks := hlooks₁.trans hlooks₂
  have hsteady := hlooks.steady hs
  have hlhs₂ := (hlhs _ rfl).of_steady (hlooks₂.steady hp₁.sound)
  have hrhs₂ := hrhs _ rfl
  -- Both wrappers wrap variables, which become one variable.
  obtain ⟨hp₃, hvar, hwraps⟩ : Proceeds s₂ s₃ ∧
      s₃.forest.kind (s₃.forest.rep (s.forest.rep x)) = .var ∧
      ∀ w inner, s₂.forest.kind w = .nilable inner → s₃.forest.kind w = .nilable inner := by
    cases hstep with
    | unified hr hunify =>
      cases hr
      exact ⟨hrec _ _ _ _ _ hp₂.sound hlhs₂.lt hrhs₂.lt hunify,
        hvars _ _ _ _ _ hp₂.sound hlhs₂.lt hrhs₂.lt (by rw [hlooks.work, hwork])
          (by rw [hlhs₂.rep_eq]; exact hlooks.var hs (hca.wraps x hx))
          (by rw [hrhs₂.rep_eq]; exact hlooks.var hs (hcb.wraps y hy)) hunify⟩
    | added hr => cases hr
    | kept hr => cases hr
  obtain ⟨x₂, hx₂, hxx⟩ := hlooks.wraps hs hca hx
  have hx₃ := hwraps a x₂ hx₂
  have hcalm₃ : s₃.forest.Calm a := by
    refine ⟨by rw [hx₃]; rfl, fun z hz => ?_⟩
    rw [hx₃] at hz
    cases hz
    rwa [← (hp₃.evolves hp₂.sound).rep_rep hp₂.sound.forest.rooted x₂, hsteady.rep, hxx]
  -- The wrappers are looked up again, and that is all.
  obtain ⟨-, hlooks₄⟩ := find_looks hp₃.sound hfind
  have hp₄ := hlooks₄.proceeds hp₃.sound
  obtain ⟨-, hlooks₅⟩ := find_looks hp₄.sound hfind'
  obtain rfl : s₅ = u := by
    rcases h with ⟨-, -, h⟩ | h
    · exact h
    · exact (pure_eq_some.1 h).2
  obtain ⟨x₅, hx₅, -⟩ := (hlooks₄.trans hlooks₅).wraps hp₃.sound hcalm₃ hx₃
  rw [Forest.rep_of_not_link (by rw [hx₅]; rfl), hx₅]
  rfl

/-- The fields of a type that is no record are balanced as they are. -/
theorem balanceLabels_of_not_isRecord {this that : TermId} {progress : Bool} {k : Kind}
    (hk : k.isRecord = false)
    (h : balanceLabels this that k.labels progress s = some (r, u)) : s = u := by
  cases k with
  | record fields sites isOpen nil => cases hk
  | _ => exact (pure_eq_some.1 h).2

/-- Two classes with the same labels are merged.  If one became an error meanwhile, that wins. -/
def mergeHalves (this that : TermId) (progress : Bool) : UnifyM Bool := do
  let merged ← do
    if (← kindOf this).isError && !(← kindOf that).isError then
      wake that
      redirect that this
    else merge this that
  return merged || progress

/-- Once their children are unified, two classes get the same labels and are merged. -/
def mergeChildren (this that : TermId) (progress : Bool) : UnifyM Bool := do
  let failed := (← kindOf this).isError || (← kindOf that).isError
  let progress ← do
    if failed then pure progress
    else balanceLabels this that (← kindOf that).labels progress
  mergeHalves this that progress

/-- Merging two classes whose children were unified makes them one. -/
theorem mergeHalves_proceeds {this that : TermId} {progress : Bool} (hs : s.Sound)
    (hwork : s.work.isNone = false) (hthis : s.forest.IsClass this) (hthat : s.forest.IsClass that)
    (hkthat : s.forest.kind that ≠ .var)
    (harity : ∀ n m, (s.forest.kind this).arity? = some n →
      (s.forest.kind that).arity? = some m → n = m)
    (h : mergeHalves this that progress s = some (r, u)) :
    Proceeds s u ∧ u.forest.rep this = u.forest.rep that := by
  replace h := of_bind_view h
  replace h := of_bind_view h
  rcases ite_eq_some.1 h with ⟨herror, h⟩ | ⟨-, h⟩
  · obtain ⟨v, s₁, hwake, h⟩ := bind_eq_some.1 h
    obtain ⟨merged, s₂, hredirect, h⟩ := bind_eq_some.1 h
    obtain ⟨-, rfl⟩ := pure_eq_some.1 h
    obtain rfl := wake_eq_some.1 hwake
    rw [Bool.and_eq_true] at herror
    obtain ⟨cause, herror⟩ := Kind.isError_iff.1 herror.1
    have hp₁ := Proceeds.wake hs s.forest that
    obtain ⟨hp₂, hjoins⟩ := redirect_proceeds hp₁.sound hthat hthis
      (by rw [herror]; exact .error hthat.root cause) (fun n hn => by
        refine waiting_wake hs.forest hwork hthat.lt hn ?_
        rw [hthat.rep_eq]
        exact .refl) hredirect
    exact ⟨hp₁.trans hp₂, hjoins.rep.symm⟩
  · obtain ⟨merged, s₁, hmerge, h⟩ := bind_eq_some.1 h
    obtain ⟨-, rfl⟩ := pure_eq_some.1 h
    obtain ⟨hp, hjoined⟩ := merge_proceeds hs hthis hthat (fun hvar => absurd hvar hkthat) harity
      hmerge
    exact ⟨hp, hjoined hwork⟩

/-- Between the children and the merge only labels change. -/
theorem mergeChildren_halves {this that : TermId} {progress : Bool} (hs : s.Sound)
    (hwork : s.work.isNone = false) (h : mergeChildren this that progress s = some (r, u)) :
    ∃ progress' t, (Proceeds s t ∧ Steady s.forest t.forest) ∧
      ((s.forest.kind that).isRecord = false → s = t) ∧
        mergeHalves this that progress' t = some (r, u) := by
  replace h := of_bind_view h
  replace h := of_bind_view h
  rcases ite_eq_some.1 h with ⟨-, h⟩ | ⟨-, h⟩
  · obtain ⟨progress', t, hpure, h⟩ := bind_eq_some.1 h
    obtain ⟨rfl, rfl⟩ := pure_eq_some.1 hpure
    exact ⟨_, s, ⟨.refl hs, .refl hs.forest.rooted⟩, fun _ => rfl, h⟩
  · replace h := of_bind_view h
    obtain ⟨progress', t, hbalance, h⟩ := bind_eq_some.1 h
    exact ⟨progress', t, balanceLabels_proceeds hs hwork hbalance,
      fun hk => balanceLabels_of_not_isRecord hk hbalance, h⟩

/-- Settling the labels of two types makes no functions of them. -/
theorem arities_of_labels {this that : TermId} (hs : s.Sound) (hp : Proceeds s t)
    (hsteady : Steady s.forest t.forest) (hthat : s.forest.IsClass that)
    (hkthat : s.forest.kind that ≠ .var) (hsame : (s.forest.kind that).isRecord = false → s = t)
    (harity : ∀ n m, (s.forest.kind this).arity? = some n →
      (s.forest.kind that).arity? = some m → n = m) :
    ∀ n m, (t.forest.kind this).arity? = some n → (t.forest.kind that).arity? = some m → n = m := by
  intro n m hn hm
  cases hrecord : (s.forest.kind that).isRecord with
  | false =>
    rw [← hsame hrecord] at hn hm
    exact harity n m hn hm
  | true =>
    have haccrues := hp.leads.accrues hs.forest that
    rw [hthat.rep_eq, (hthat.of_steady hsteady).rep_eq] at haccrues
    have hnone : (s.forest.kind that).arity? = none ∧ (s.forest.kind that).isNilable = false := by
      revert hrecord
      cases s.forest.kind that <;> first | exact fun _ => ⟨rfl, rfl⟩ | exact fun h => absurd h Bool.false_ne_true
    rw [haccrues.arity?_eq_some hkthat hnone.2 hm] at hnone
    cases hnone.1

/-- Once the children of two classes are unified and their labels are the same, the classes are
merged. -/
theorem mergeChildren_proceeds {this that : TermId} {progress : Bool} (hs : s.Sound)
    (hwork : s.work.isNone = false) (hthis : s.forest.IsClass this) (hthat : s.forest.IsClass that)
    (hkthat : s.forest.kind that ≠ .var)
    (harity : ∀ n m, (s.forest.kind this).arity? = some n →
      (s.forest.kind that).arity? = some m → n = m)
    (h : mergeChildren this that progress s = some (r, u)) :
    Proceeds s u ∧ u.forest.rep this = u.forest.rep that := by
  obtain ⟨progress', s₁, ⟨hp₁, hsteady⟩, hsame, h⟩ := mergeChildren_halves hs hwork h
  have hthis₁ := hthis.of_steady hsteady
  have hthat₁ := hthat.of_steady hsteady
  have harity₁ := arities_of_labels hs hp₁ hsteady hthat hkthat hsame harity
  obtain ⟨hp₂, hrep⟩ := mergeHalves_proceeds hp₁.sound (by rw [hp₁.probe, hwork]) hthis₁ hthat₁
    (fun hvar => hkthat (hsteady.firm _ hvar)) harity₁ h
  exact ⟨hp₁.trans hp₂, hrep⟩

/-- Unless a child's unification made an error of one of two classes, all that is left to do with
types that are no records is to merge them. -/
theorem merge_of_mergeChildren {this that : TermId} {progress : Bool} (hs : s.Sound)
    (hwork : s.work.isNone = false) (hthis : (s.forest.kind this).isError = false)
    (hrecord : (s.forest.kind that).isRecord = false)
    (h : mergeChildren this that progress s = some (r, u)) :
    ∃ merged, merge this that s = some (merged, u) := by
  obtain ⟨progress', s₁, -, hsame, h⟩ := mergeChildren_halves hs hwork h
  obtain rfl := hsame hrecord
  replace h := of_bind_view h
  replace h := of_bind_view h
  rw [hthis, Bool.false_and, if_neg Bool.false_ne_true] at h
  obtain ⟨merged, s₂, hmerge, h⟩ := bind_eq_some.1 h
  obtain ⟨-, rfl⟩ := pure_eq_some.1 h
  exact ⟨merged, hmerge⟩

/-- A class that is no wrapper becomes a function only of the arity that it had. -/
theorem Proceeds.arity? (hs : s.Sound) (hp : Proceeds s u) {x : TermId} (hx : s.forest.IsClass x)
    (hvar : s.forest.kind x ≠ .var) (hplain : (s.forest.kind x).isNilable = false) {n : Nat}
    (hn : (u.forest.kind (u.forest.rep x)).arity? = some n) : (s.forest.kind x).arity? = some n := by
  have haccrues := hp.leads.accrues hs.forest x
  rw [hx.rep_eq] at haccrues
  exact haccrues.arity?_eq_some hvar hplain hn

include hrec hvars in
/-- Two classes of one shape are functions of one arity at most once their children are unified. -/
theorem unifySlots_arities {a b : TermId} {progress : Bool} (hs : s.Sound)
    (hwork : s.work.isNone = false) (ha : s.forest.IsClass a) (hb : s.forest.IsClass b)
    (hca : s.forest.Calm a) (hcb : s.forest.Calm b) (hka : s.forest.kind a ≠ .var)
    (hkb : s.forest.kind b ≠ .var) (hshape : (s.forest.kind a).shape = (s.forest.kind b).shape)
    (h : unifySlots rec (s.forest.kind a).slots a b false s =
      some ((u.forest.rep a, u.forest.rep b, progress), u)) :
    ∀ n m, (u.forest.kind (u.forest.rep a)).arity? = some n →
      (u.forest.kind (u.forest.rep b)).arity? = some m → n = m := by
  obtain ⟨hp, -⟩ := unifySlots_proceeds hrec hs hwork ha hb h
  intro n m hn hm
  cases hnilable : (s.forest.kind a).isNilable with
  | false =>
    have hn := hp.arity? hs ha hka hnilable hn
    have hm := hp.arity? hs hb hkb (by rw [← Kind.isNilable_eq_of_shape hshape, hnilable]) hm
    rw [Kind.arity?_eq_of_shape hshape, hm] at hn
    exact (Option.some.inj hn).symm
  | true =>
    have hnilable' : (s.forest.kind b).isNilable = true := by
      rw [← Kind.isNilable_eq_of_shape hshape, hnilable]
    obtain ⟨inner, hinner⟩ := Kind.isNilable_eq_true.1 hnilable
    rw [hinner] at h
    have ha₂ := unifySlots_inner hrec hvars hs hwork hca hcb hnilable hnilable' h
    rw [Kind.arity?_of_isNilable ha₂] at hn
    cases hn

include hrec hvars in
/-- The children of two classes of one shape are unified, and then the classes are merged. -/
theorem unifyChildren_halves {a b : TermId} (hs : s.Sound) (hwork : s.work.isNone = false)
    (ha : s.forest.IsClass a) (hb : s.forest.IsClass b) (hca : s.forest.Calm a)
    (hcb : s.forest.Calm b) (hka : s.forest.kind a ≠ .var) (hkb : s.forest.kind b ≠ .var)
    (hshape : (s.forest.kind a).shape = (s.forest.kind b).shape)
    (h : unifyChildren rec a b s = some (r, u)) :
    ∃ progress s₁, unifySlots rec (s.forest.kind a).slots a b false s =
        some ((s₁.forest.rep a, s₁.forest.rep b, progress), s₁) ∧ Proceeds s s₁ ∧ Proceeds s₁ u ∧
      u.forest.rep a = u.forest.rep b ∧
      ((s₁.forest.kind (s₁.forest.rep a)).isError = false →
        (s₁.forest.kind (s₁.forest.rep b)).isRecord = false →
          ∃ merged, merge (s₁.forest.rep a) (s₁.forest.rep b) s₁ = some (merged, u)) := by
  replace h := of_bind_view h
  obtain ⟨⟨this, that, progress⟩, s₁, hunify, h⟩ := bind_eq_some.1 h
  obtain ⟨hp₁, rfl, rfl⟩ := unifySlots_proceeds hrec hs hwork ha hb hunify
  have hwork₁ : s₁.work.isNone = false := by rw [hp₁.probe, hwork]
  have hevolves := hp₁.evolves hs
  have hrooted₁ := hp₁.sound.forest.rooted
  have harity := unifySlots_arities hrec hvars hs hwork ha hb hca hcb hka hkb hshape hunify
  obtain ⟨hp₂, hjoined⟩ := mergeChildren_proceeds hp₁.sound hwork₁
    (Forest.isClass_rep hp₁.sound.forest (hp₁.lt hs ha.lt))
    (Forest.isClass_rep hp₁.sound.forest (hp₁.lt hs hb.lt)) (hevolves.firm b (hb.known hkb))
    harity h
  rw [(hp₂.evolves hp₁.sound).rep_rep hrooted₁, (hp₂.evolves hp₁.sound).rep_rep hrooted₁] at hjoined
  exact ⟨progress, s₁, hunify, hp₁, hp₂, hjoined, fun hthis hrecord =>
    merge_of_mergeChildren hp₁.sound hwork₁ hthis hrecord h⟩

include hrec hvars in
/-- Two classes of one shape become one class, once their children are unified. -/
theorem unifyChildren_proceeds {a b : TermId} (hs : s.Sound) (hwork : s.work.isNone = false)
    (ha : s.forest.IsClass a) (hb : s.forest.IsClass b) (hca : s.forest.Calm a)
    (hcb : s.forest.Calm b) (hka : s.forest.kind a ≠ .var) (hkb : s.forest.kind b ≠ .var)
    (hshape : (s.forest.kind a).shape = (s.forest.kind b).shape)
    (h : unifyChildren rec a b s = some (r, u)) :
    Proceeds s u ∧ u.forest.rep a = u.forest.rep b := by
  obtain ⟨progress, s₁, -, hp₁, hp₂, hrep, -⟩ :=
    unifyChildren_halves hrec hvars hs hwork ha hb hca hcb hka hkb hshape h
  exact ⟨hp₁.trans hp₂, hrep⟩

private theorem unifyNilable_of_runs {wrapper that leaf nilable : TermId} {s₁ s₂ s₃ : Unifier}
    {merged joined : Bool} (hwork : s.work.isNone = false)
    (hchild : child wrapper .inner s = some (some leaf, s₁)) (hvar : s₁.forest.kind leaf = .var)
    (hmerge : merge leaf s₁.forest.size ⟨s₁.forest.withStripped that,
      s₁.work.map ((s₁.forest.withStripped that).wake leaf), s₁.met, s₁.image⟩ = some (merged, s₂))
    (hfind : find wrapper s₂ = some (nilable, s₃))
    (hredirect : redirect that nilable { s₃ with work := s₃.work.map (s₃.forest.wake that) } =
      some (joined, u)) :
    unifyNilable rec wrapper that s = some (merged || joined, u) := by
  unfold unifyNilable
  refine bind_eq_some.2 ⟨false, s, isProbe_eq_some.2 ⟨hwork, rfl⟩, ?_⟩
  rw [if_neg Bool.false_ne_true]
  refine bind_eq_some.2 ⟨_, _, hchild, ?_⟩
  change (if !(s₁.forest.kind leaf).isVar then _ else _ : UnifyM Bool) s₁ = _
  rw [hvar]
  refine bind_eq_some.2 ⟨_, _, copy_eq_some.2 ⟨rfl, rfl⟩, ?_⟩
  refine bind_eq_some.2 ⟨(), _, change_eq_some.2 rfl, ?_⟩
  refine bind_eq_some.2 ⟨(), _, wake_eq_some.2 rfl, ?_⟩
  refine bind_eq_some.2 ⟨merged, s₂, ?_, ?_⟩
  · rw [← hmerge, ← Forest.setKind_copy]
  · exact bind_eq_some.2 ⟨_, _, hfind, bind_eq_some.2 ⟨(), _, wake_eq_some.2 rfl,
      bind_eq_some.2 ⟨_, _, hredirect, rfl⟩⟩⟩

variable (rec) in
/-- The unification of a wrapper with another type returns and collapses the wrapper. -/
theorem unifyNilable_collapses {wrapper that x : TermId} (hs : s.Sound)
    (hwork : s.work.isNone = false) (hthat : s.forest.IsClass that) (hcalm : s.forest.Calm wrapper)
    (hx : s.forest.kind wrapper = .nilable x) (hkthat : s.forest.kind that ≠ .var)
    (hplain : (s.forest.kind that).isNilable = false) :
    ∃ u, unifyNilable rec wrapper that s = some (true, u) ∧ Proceeds s u ∧ u.met = s.met ∧
      s.forest.Collapses wrapper (s.forest.rep x) that u.forest := by
  have hvar := hcalm.wraps x hx
  set leaf := s.forest.rep x with hleaf
  obtain ⟨s₁, hchild⟩ := child_of_wrapper hs hcalm hx
  obtain ⟨hlooks, hinner⟩ := child_looks hs hchild
  have hp₁ := hlooks.proceeds hs
  have hsteady := hlooks.steady hs
  have hwork₁ : s₁.work.isNone = false := by rw [hp₁.probe, hwork]
  have hthat₁ := hthat.of_steady hsteady
  have hplain₁ := hlooks.plain hs hthat.root hplain
  have hkthat₁ : s₁.forest.kind that ≠ .var := fun hvar => hkthat (hsteady.firm _ hvar)
  obtain ⟨x₁, hx₁, hxx⟩ := hlooks.wraps hs hcalm hx
  have hsize : s₁.forest.size = s.forest.size := hlooks.upkeeps.size
  obtain ⟨s₂, hmerge, hstripped⟩ := merge_strips hp₁.sound hwork₁ (hinner _ rfl)
    (hlooks.var hs hvar) hthat₁ hkthat₁
  have hx₂ := hstripped.wraps _ _ hx₁
  have hrep₂ : s₂.forest.rep x₁ = s₁.forest.size := by
    rw [hstripped.rep, hsteady.rep, hxx, if_pos hleaf]
  -- The wrapper takes the copy over, which may be widened.
  obtain ⟨haccrues, hplainc⟩ := Forest.accrues_rewrapped s₁.forest.size (s₁.forest.isInput leaf)
    hthat₁.root hkthat₁ hplain₁
  rw [← hstripped.copy] at haccrues hplainc
  have hne : that ≠ wrapper := by
    rintro rfl
    rw [hx] at hplain
    cases hplain
  have hnec : s₁.forest.size ≠ that := (Nat.ne_of_lt hthat₁.lt).symm
  have hp₂ := hp₁.trans hstripped.proceeds
  have hthat₂ : s₂.forest.IsClass that :=
    ⟨hstripped.proceeds.lt hp₁.sound hthat₁.lt, by rw [hstripped.that, hthat₁.root]⟩
  obtain ⟨s₃, u, hfind, hredirect, hp₃, hmet, hrep, hkc, hkwrapper⟩ :=
    redirect_wrapper hp₂.sound (by rw [hp₂.probe, hwork]) hx₂ hrep₂ hplainc hthat₂ hne
      (hstripped.that ▸ haccrues)
  refine ⟨u, unifyNilable_of_runs hwork hchild (hlooks.var hs hvar) hmerge hfind hredirect,
    hp₂.trans hp₃, hmet.trans (hstripped.met.trans hlooks.met), fun y => ?_,
    ⟨s₁.forest.kind that, ?_, ?_⟩, ?_⟩
  · rw [hrep, hstripped.rep, hsteady.rep, ← hsize]
    by_cases hy : s.forest.rep y = leaf
    · rw [if_pos hy, if_neg hnec, if_pos hy]
    · rw [if_neg hy, if_neg hy]
  · exact (hlooks.calm hs (Forest.calm_of_not_nilable hthat.root hplain)).1
  · rw [← hsize, hkc hnec, hstripped.copy, hlooks.upkeeps.isInput]
  · rw [← hsize, hkwrapper, hkc hnec]

/-- The unification of a wrapper with another type always reports progress and remembers no pair, and
unless it only probes the two are one class then. -/
theorem unifyNilable_proceeds {wrapper that : TermId} (hs : s.Sound)
    (hthat : s.forest.IsClass that) (hcalm : s.forest.Calm wrapper)
    (hnilable : (s.forest.kind wrapper).isNilable = true) (hkthat : s.forest.kind that ≠ .var)
    (hplain : (s.forest.kind that).isNilable = false)
    (h : unifyNilable rec wrapper that s = some (r, u)) :
    Proceeds s u ∧ u.met = s.met ∧ r = true ∧
      (s.work.isNone = false → u.forest.rep wrapper = u.forest.rep that) := by
  rcases Bool.eq_false_or_eq_true s.work.isNone with hwork | hwork
  · obtain ⟨probing, s₁, hprobe, h⟩ := bind_eq_some.1 h
    obtain ⟨rfl, rfl⟩ := isProbe_eq_some.1 hprobe
    rw [hwork, if_pos rfl] at h
    obtain ⟨rfl, rfl⟩ := pure_eq_some.1 h
    exact ⟨.refl hs, rfl, rfl, fun hcommit => absurd hcommit (by rw [hwork]; exact Bool.noConfusion)⟩
  obtain ⟨x, hx⟩ := Kind.isNilable_eq_true.1 hnilable
  obtain ⟨v, hv, hp, hmet, hcollapses⟩ :=
    unifyNilable_collapses rec hs hwork hthat hcalm hx hkthat hplain
  cases hv.symm.trans h
  obtain ⟨hwrapper, hthat⟩ := hcollapses.rep_both hthat hx (hcalm.wraps x hx) hkthat
  exact ⟨hp, hmet, rfl, fun _ => hwrapper.trans hthat.symm⟩

/-- What one layer of unification does with the classes of its terms. -/
inductive Layer (rec : TermId → TermId → UnifyM Bool) (a b : TermId) (r : Bool) (s u : Unifier) : Prop
  | same (heq : a = b) (hr : r = false) (hu : s = u)
  /-- Neither class has children. -/
  | leaves (hne : a ≠ b) (hslots : (s.forest.kind a).slots.isEmpty = true)
      (hslots' : (s.forest.kind b).slots.isEmpty = true)
      (h : merge (ranked a b (s.forest.kind a) (s.forest.kind b)).1
        (ranked a b (s.forest.kind a) (s.forest.kind b)).2 s = some (r, u))
  /-- A variable joins the other class, or an error takes the other class in. -/
  | joined {loser winner : TermId} (hne : a ≠ b)
      (hpair : loser = a ∧ winner = b ∨ loser = b ∧ winner = a)
      (hcase : s.forest.kind loser = .var ∨ (s.forest.kind winner).isError = true)
      (h : merge loser winner s = some (r, u))
  | wrapped {wrapper that : TermId} (hne : a ≠ b)
      (hpair : wrapper = a ∧ that = b ∨ wrapper = b ∧ that = a)
      (hnilable : (s.forest.kind wrapper).isNilable = true)
      (hplain : (s.forest.kind that).isNilable = false) (hknown : s.forest.kind that ≠ .var)
      (h : unifyNilable rec wrapper that s = some (r, u))
  | met (hne : a ≠ b) (hmet : (a, b) ∈ s.met) (hr : r = false) (hu : s = u)
  | probed (hne : a ≠ b) (hwork : s.work.isNone = true) (hr : r = true)
      (hu : { s with met := (a, b) :: s.met } = u)
  | clashed {cause : TypeError} (hne : a ≠ b) (hwork : s.work.isNone = false)
      (hvar : s.forest.kind a ≠ .var) (hvar' : s.forest.kind b ≠ .var)
      (hshape : (s.forest.kind a).shape ≠ (s.forest.kind b).shape)
      (h : clash a b cause { s with met := (a, b) :: s.met } = some (r, u))
  | paired (hne : a ≠ b) (hwork : s.work.isNone = false) (hmet : (a, b) ∉ s.met)
      (hvar : s.forest.kind a ≠ .var) (hvar' : s.forest.kind b ≠ .var)
      (hshape : (s.forest.kind a).shape = (s.forest.kind b).shape)
      (h : unifyChildren rec a b { s with met := (a, b) :: s.met } = some (r, u))

/-- A unification looks both classes up and then goes by what is known of them. -/
theorem unifyStep_layer {a b : TermId} (h : unifyStep rec a b s = some (r, u)) :
    ∃ ra s₁ rb s₂, find a s = some (ra, s₁) ∧ find b s₁ = some (rb, s₂) ∧
      Layer rec ra rb r s₂ u := by
  unfold unifyStep at h
  obtain ⟨ra, s₁, hfind, h⟩ := bind_eq_some.1 h
  obtain ⟨rb, s₂, hfind', h⟩ := bind_eq_some.1 h
  refine ⟨ra, s₁, rb, s₂, hfind, hfind', ?_⟩
  rcases ite_eq_some.1 h with ⟨heq, h⟩ | ⟨hne, h⟩
  · obtain ⟨hr, hu⟩ := pure_eq_some.1 h
    exact .same heq hr.symm hu
  replace h := of_bind_view h
  replace h := of_bind_view h
  rcases ite_eq_some.1 h with ⟨hslots, h⟩ | ⟨-, h⟩
  · rw [Bool.and_eq_true] at hslots
    exact .leaves hne hslots.1 hslots.2 h
  rcases ite_eq_some.1 h with ⟨hcase, h⟩ | ⟨hknown, h⟩
  · rw [Bool.or_eq_true, Kind.isVar_iff] at hcase
    exact .joined hne (Or.inl ⟨rfl, rfl⟩) hcase h
  rw [Bool.or_eq_true, Kind.isVar_iff, not_or] at hknown
  rcases ite_eq_some.1 h with ⟨hcase, h⟩ | ⟨hknown', h⟩
  · rw [Bool.or_eq_true, Kind.isVar_iff] at hcase
    exact .joined hne (Or.inr ⟨rfl, rfl⟩) hcase h
  rw [Bool.or_eq_true, Kind.isVar_iff, not_or] at hknown'
  rcases ite_eq_some.1 h with ⟨hcase, h⟩ | ⟨-, h⟩
  · rw [Bool.and_eq_true, Bool.not_eq_true'] at hcase
    exact .wrapped hne (Or.inl ⟨rfl, rfl⟩) hcase.1 hcase.2 hknown'.1 h
  rcases ite_eq_some.1 h with ⟨hcase, h⟩ | ⟨-, h⟩
  · rw [Bool.and_eq_true, Bool.not_eq_true'] at hcase
    exact .wrapped hne (Or.inr ⟨rfl, rfl⟩) hcase.1 hcase.2 hknown.1 h
  obtain ⟨met, s₃, hmet, h⟩ := bind_eq_some.1 h
  cases hmet
  rcases ite_eq_some.1 h with ⟨hmet, h⟩ | ⟨hmet, h⟩
  · obtain ⟨hr, hu⟩ := pure_eq_some.1 h
    exact .met hne (List.contains_iff_mem.1 hmet) hr.symm hu
  rw [List.contains_iff_mem] at hmet
  obtain ⟨v, s₃, hmodify, h⟩ := bind_eq_some.1 h
  obtain rfl := modify_eq_some.1 hmodify
  obtain ⟨probing, s₃, hprobe, h⟩ := bind_eq_some.1 h
  obtain ⟨rfl, rfl⟩ := isProbe_eq_some.1 hprobe
  rcases ite_eq_some.1 h with ⟨hwork, h⟩ | ⟨hwork, h⟩
  · obtain ⟨hr, hu⟩ := pure_eq_some.1 h
    exact .probed hne hwork hr.symm hu
  rw [Bool.not_eq_true] at hwork
  rcases ite_eq_some.1 h with ⟨hshape, h⟩ | ⟨hshape, h⟩
  · exact .clashed hne hwork hknown.1 hknown'.1 hshape (of_bind_view h)
  · exact .paired hne hwork hmet hknown.1 hknown'.1 (not_not.1 hshape) h

/-- The loser and the winner of two classes without children are the two classes. -/
theorem ranked_cases (a b : TermId) (ka kb : Kind) :
    ranked a b ka kb = (a, b) ∨ ranked a b ka kb = (b, a) := by
  unfold ranked
  split
  · exact Or.inr rfl
  split
  · exact Or.inr rfl
  · exact Or.inl rfl

/-- One layer of unification makes two variables a variable. -/
theorem unifyStep_varsMeet : VarsMeet (unifyStep rec) := by
  intro a b s r u hs ha hb hwork hka hkb h
  obtain ⟨ra, s₁, rb, s₂, hfind, hfind', hlayer⟩ := unifyStep_layer h
  obtain ⟨hlooks, -, ⟨rfl, rfl⟩, hra, hrb⟩ := find_both hs ha hb hfind hfind'
  have hs₂ := (hlooks.proceeds hs).sound
  have hwork₂ : s₂.work.isNone = false := by rw [hlooks.work, hwork]
  have hka₂ := hlooks.var hs hka
  have hkb₂ := hlooks.var hs hkb
  have hwraps₂ : ∀ w inner, s.forest.kind w = .nilable inner →
      s₂.forest.kind w = .nilable inner := by
    intro w inner hw
    obtain ⟨-, hlooks₁⟩ := find_looks hs hfind
    have hs₁ := (hlooks₁.proceeds hs).sound
    have hw₁ := find_of_not_nilable hs (by rw [hka]; rfl) hfind (c := w) (by rw [hw]; rfl)
    have hkb₁ : s₁.forest.kind (s₁.forest.rep b) = .var := by
      rw [(hlooks₁.steady hs).rep, hlooks₁.var hs hkb]
    rw [find_of_not_nilable hs₁ (by rw [hkb₁]; rfl) hfind' (by rw [hw₁, hw]; rfl), hw₁, hw]
  -- It is enough to follow the two classes.
  suffices hmerged : Proceeds s₂ u ∧ u.forest.kind (u.forest.rep (s.forest.rep a)) = .var ∧
      ∀ w inner, s₂.forest.kind w = .nilable inner → u.forest.kind w = .nilable inner by
    obtain ⟨hp, hvar, hwraps⟩ := hmerged
    refine ⟨?_, fun w inner hw => hwraps w inner (hwraps₂ w inner hw)⟩
    rwa [(((hlooks.proceeds hs).trans hp).evolves hs).rep_rep hs.forest.rooted a] at hvar
  have hidle : s₂ = u → Proceeds s₂ u ∧ u.forest.kind (u.forest.rep (s.forest.rep a)) = .var ∧
      ∀ w inner, s₂.forest.kind w = .nilable inner → u.forest.kind w = .nilable inner := by
    rintro rfl
    exact ⟨.refl hs₂, by rw [hra.rep_eq, hka₂], fun _ _ hw => hw⟩
  have hmerge : ∀ {x y}, s₂.forest.IsClass x → s₂.forest.IsClass y → s₂.forest.kind x = .var →
      s₂.forest.kind y = .var → merge x y s₂ = some (r, u) →
      Proceeds s₂ u ∧
        (u.forest.kind (u.forest.rep x) = .var ∧ u.forest.kind (u.forest.rep y) = .var) ∧
        ∀ w inner, s₂.forest.kind w = .nilable inner → u.forest.kind w = .nilable inner := by
    intro x y hx hy hkx hky h
    obtain ⟨hp, hjoins⟩ := merge_var hs₂ hwork₂ hx hy hkx h
    have hvar := merge_vars hwork₂ hx hkx hky h
    have hroot : u.forest.rep y = y := Forest.rep_of_not_link (by rw [hvar]; rfl)
    rw [hjoins.rep, hroot]
    exact ⟨hp, ⟨hvar, hvar⟩, fun w inner => merge_var_wraps hwork₂ hx hkx h⟩
  have hmerge_ab : merge (s.forest.rep a) (s.forest.rep b) s₂ = some (r, u) →
      Proceeds s₂ u ∧ u.forest.kind (u.forest.rep (s.forest.rep a)) = .var ∧
      ∀ w inner, s₂.forest.kind w = .nilable inner → u.forest.kind w = .nilable inner :=
    fun h => (hmerge hra hrb hka₂ hkb₂ h).imp_right (And.imp_left And.left)
  have hmerge_ba : merge (s.forest.rep b) (s.forest.rep a) s₂ = some (r, u) →
      Proceeds s₂ u ∧ u.forest.kind (u.forest.rep (s.forest.rep a)) = .var ∧
      ∀ w inner, s₂.forest.kind w = .nilable inner → u.forest.kind w = .nilable inner :=
    fun h => (hmerge hrb hra hkb₂ hka₂ h).imp_right (And.imp_left And.right)
  cases hlayer with
  | same heq hr hu => exact hidle hu
  | met hne hmet hr hu => exact hidle hu
  | leaves hne hslots hslots' h =>
    rcases ranked_cases (s.forest.rep a) (s.forest.rep b) (s₂.forest.kind (s.forest.rep a))
      (s₂.forest.kind (s.forest.rep b)) with hr | hr <;> rw [hr] at h
    · exact hmerge_ab h
    · exact hmerge_ba h
  | joined hne hpair hcase h =>
    rcases hpair with ⟨rfl, rfl⟩ | ⟨rfl, rfl⟩
    · exact hmerge_ab h
    · exact hmerge_ba h
  | wrapped hne hpair hnilable hplain hknown h =>
    rcases hpair with ⟨rfl, rfl⟩ | ⟨rfl, rfl⟩
    · exact absurd hkb₂ hknown
    · exact absurd hka₂ hknown
  | probed hne hwork' => exact absurd hwork' (by rw [hwork₂]; exact Bool.noConfusion)
  | clashed hne hwork' hvar => exact absurd hka₂ hvar
  | paired hne hwork' hmet hvar => exact absurd hka₂ hvar

include hrec hvars in
/-- What one layer of unification does proceeds if the next layer does.  Unless it only probes, the two
classes are one then, or their pair was met before. -/
theorem Layer.proceeds {a b : TermId} (hs : s.Sound) (ha : s.forest.IsClass a)
    (hb : s.forest.IsClass b) (hca : s.forest.Calm a) (hcb : s.forest.Calm b)
    (h : Layer rec a b r s u) :
    Proceeds s u ∧ (s.work.isNone = false →
      u.forest.rep a = u.forest.rep b ∨ (a, b) ∈ s.met) := by
  have hpaired : ∀ {x y}, x = a ∧ y = b ∨ x = b ∧ y = a →
      (Proceeds s u ∧ (s.work.isNone = false → u.forest.rep x = u.forest.rep y)) →
      Proceeds s u ∧ (s.work.isNone = false →
        u.forest.rep a = u.forest.rep b ∨ (a, b) ∈ s.met) := by
    rintro x y (⟨rfl, rfl⟩ | ⟨rfl, rfl⟩) ⟨hp, hrep⟩
    · exact ⟨hp, fun hwork => Or.inl (hrep hwork)⟩
    · exact ⟨hp, fun hwork => Or.inl (hrep hwork).symm⟩
  have hmet : Proceeds s { s with met := (a, b) :: s.met } := .of_memory hs hs.image
  cases h with
  | same heq hr hu =>
    subst hu
    exact ⟨.refl hs, fun _ => Or.inl (by rw [heq])⟩
  | leaves hne hslots hslots' h =>
    have hchildren := Kind.children_of_slots ha.root hslots
    have hchildren' := Kind.children_of_slots hb.root hslots'
    rcases ranked_cases a b (s.forest.kind a) (s.forest.kind b) with hr | hr
    · rw [hr] at h
      refine hpaired (Or.inl ⟨rfl, rfl⟩) (merge_proceeds hs ha hb (fun _ => hchildren)
        (fun n m hn => ?_) h)
      rw [Kind.arity?_of_slots hslots] at hn
      cases hn
    · rw [hr] at h
      refine hpaired (Or.inr ⟨rfl, rfl⟩) (merge_proceeds hs hb ha (fun _ => hchildren')
        (fun n m hn => ?_) h)
      rw [Kind.arity?_of_slots hslots'] at hn
      cases hn
  | @joined loser winner hne hpair hcase h =>
    have hclasses : s.forest.IsClass loser ∧ s.forest.IsClass winner := by
      rcases hpair with ⟨rfl, rfl⟩ | ⟨rfl, rfl⟩
      · exact ⟨ha, hb⟩
      · exact ⟨hb, ha⟩
    rw [Kind.isError_iff] at hcase
    refine hpaired hpair (merge_proceeds hs hclasses.1 hclasses.2 (fun hvar => ?_)
      (fun n m hn hm => ?_) h)
    · rcases hcase with hcase | ⟨cause, hcase⟩
      · rw [hcase]
        rfl
      · rw [hvar] at hcase
        cases hcase
    · rcases hcase with hcase | ⟨cause, hcase⟩
      · rw [hcase] at hn
        cases hn
      · rw [hcase] at hm
        cases hm
  | wrapped hne hpair hnilable hplain hknown h =>
    refine hpaired hpair ?_
    rcases hpair with ⟨rfl, rfl⟩ | ⟨rfl, rfl⟩
    · have h := unifyNilable_proceeds hs hb hca hnilable hknown hplain h
      exact ⟨h.1, h.2.2.2⟩
    · have h := unifyNilable_proceeds hs ha hcb hnilable hknown hplain h
      exact ⟨h.1, h.2.2.2⟩
  | met hne hmet hr hu =>
    subst hu
    exact ⟨.refl hs, fun _ => Or.inr hmet⟩
  | probed hne hwork hr hu =>
    subst hu
    exact ⟨hmet, fun hcommit => absurd hcommit (by rw [hwork]; exact Bool.noConfusion)⟩
  | clashed hne hwork hvar hvar' hshape h =>
    obtain ⟨hp, hrep⟩ := clash_proceeds hmet.sound hwork ha hb.lt h
    exact ⟨hmet.trans hp, fun _ => Or.inl hrep⟩
  | paired hne hwork hfresh hvar hvar' hshape h =>
    obtain ⟨hp, hrep⟩ := unifyChildren_proceeds hrec hvars hmet.sound hwork ha hb hca hcb hvar hvar'
      hshape h
    exact ⟨hmet.trans hp, fun _ => Or.inl hrep⟩

include hrec hvars in
/-- One layer of unification proceeds if the next one does.  Unless it only probes, the two terms are
one class then, or their pair was met before. -/
theorem unifyStep_proceeds {a b : TermId} (hs : s.Sound) (ha : a < s.forest.size)
    (hb : b < s.forest.size) (h : unifyStep rec a b s = some (r, u)) :
    Proceeds s u ∧ (s.work.isNone = false →
      u.forest.rep a = u.forest.rep b ∨ (s.forest.rep a, s.forest.rep b) ∈ s.met) := by
  obtain ⟨ra, s₁, rb, s₂, hfind, hfind', hlayer⟩ := unifyStep_layer h
  obtain ⟨hlooks, hcalm, ⟨rfl, rfl⟩, hra, hrb⟩ := find_both hs ha hb hfind hfind'
  have hp₂ := hlooks.proceeds hs
  obtain ⟨hp, hjoined⟩ := hlayer.proceeds hrec hvars hp₂.sound hra hrb hcalm.1 hcalm.2
  refine ⟨hp₂.trans hp, fun hwork => ?_⟩
  have hrep := ((hp₂.trans hp).evolves hs).rep_rep hs.forest.rooted
  have hmerged := hjoined (by rw [hp₂.probe, hwork])
  rwa [hrep, hrep, hlooks.met] at hmerged

end Unify

/-- Nested unifications of variables make them one class. -/
theorem unifyWithin_varsMeet (depth : Nat) : VarsMeet (unifyWithin depth) := by
  cases depth with
  | zero => exact fun a b s r u _ _ _ _ _ _ h => (failure_eq_some.1 h).elim
  | succ depth => exact unifyStep_varsMeet

/-- A unification proceeds, and makes its terms one class unless it is a probe or the pair was met. -/
theorem unifyWithin_proceeds {depth : Nat} {a b : TermId} {r : Bool} (hs : s.Sound)
    (ha : a < s.forest.size) (hb : b < s.forest.size)
    (h : unifyWithin depth a b s = some (r, u)) :
    Proceeds s u ∧ (s.work.isNone = false →
      u.forest.rep a = u.forest.rep b ∨ (s.forest.rep a, s.forest.rep b) ∈ s.met) := by
  induction depth generalizing a b s r u with
  | zero => exact (failure_eq_some.1 h).elim
  | succ depth ih =>
    exact unifyStep_proceeds (fun a b s r u hs ha hb h => (ih hs ha hb h).1)
      (unifyWithin_varsMeet depth) hs ha hb h

/-- Nested unifications proceed. -/
theorem unifyWithin_proceeding (depth : Nat) : Proceeding (unifyWithin depth) :=
  fun _ _ _ _ _ hs ha hb h => (unifyWithin_proceeds hs ha hb h).1

/-- The unification of two terms proceeds, whatever their types are.  Unless it only probes, the two
are one class then. -/
theorem unify_proceeds {depth : Nat} {a b : TermId} {r : Bool} (hs : s.Sound)
    (ha : a < s.forest.size) (hb : b < s.forest.size) (h : unify depth a b s = some (r, u)) :
    Proceeds s u ∧ (s.work.isNone = false → u.forest.rep a = u.forest.rep b) := by
  obtain ⟨ra, s₁, hfind, h⟩ := bind_eq_some.1 h
  obtain ⟨rb, s₂, hfind', h⟩ := bind_eq_some.1 h
  obtain ⟨hlooks, -, ⟨hra', hrb'⟩, hra, hrb⟩ := find_both hs ha hb hfind hfind'
  have hp₂ := hlooks.proceeds hs
  rcases ite_eq_some.1 h with ⟨heq, h⟩ | ⟨-, h⟩
  · obtain ⟨-, rfl⟩ := pure_eq_some.1 h
    refine ⟨hp₂, fun _ => ?_⟩
    rw [(hlooks.steady hs).rep, (hlooks.steady hs).rep, ← hra', ← hrb', heq]
  obtain ⟨v, s₃, hmodify, h⟩ := bind_eq_some.1 h
  obtain rfl := modify_eq_some.1 hmodify
  have hp₃ : Proceeds s₂ { s₂ with met := [] } := .of_memory hp₂.sound hp₂.sound.image
  obtain ⟨hp₄, hjoined⟩ := unifyWithin_proceeds hp₃.sound hra.lt hrb.lt h
  refine ⟨(hp₂.trans hp₃).trans hp₄, fun hwork => ?_⟩
  rcases hjoined (by rw [← hwork, ← hp₂.probe]) with hrep | hmet
  · have hlast := (((hp₂.trans hp₃).trans hp₄).evolves hs).rep_rep hs.forest.rooted
    rwa [hra', hrb', hlast, hlast] at hrep
  · exact absurd hmet List.not_mem_nil

end Unifier

end TypeFlow
