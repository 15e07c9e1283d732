import TypeFlow.Proofs.MarkedClasses

/-!
# Marks of inputs in unifications

Unifying two types heeds the marks of inputs as merging their classes does.  No unification makes a constant
of a type that is guarded, and no mark without a guard.

Main results:

- `Unifier.unifyStep_heeds`: one layer of unification heeds marks if the next one does.
- `Unifier.unifyWithin_heeding`: so does the unification of any two terms.
-/

namespace TypeFlow

open Forest (IsClass Steady Upholds Heeds NoNewWrappers strippedKind)

namespace Unifier

variable {f₀ : Forest} {s t u : Unifier} {C : TermId → Prop} {r : Bool} {loser winner : TermId}

/-! ## Unifying -/

variable (f₀ C) in
/-- The computation heeds marks. -/
def Heeding (rec : TermId → TermId → UnifyM Bool) : Prop :=
  ∀ a b s r u, s.Sound → s.work.isNone = false → a < s.forest.size → b < s.forest.size →
    rec a b s = some (r, u) → Heeds f₀ C s.forest u.forest

section Unify

variable {rec : TermId → TermId → UnifyM Bool} (hrec : Proceeding rec) (hvars : VarsMeet rec)
  (hheeding : Heeding f₀ C rec)

include hheeding in
private theorem SlotStep.heeds {slot : Slot} {that lhs : TermId} {rhs? : Option TermId} {changed : Bool}
    (hs : s.Sound) (hwork : s.work.isNone = false) (hlhs : lhs < s.forest.size)
    (hrhs : ∀ rhs, rhs? = some rhs → s.forest.IsClass rhs)
    (h : SlotStep rec slot that lhs rhs? changed s u) : Heeds f₀ C s.forest u.forest := by
  cases h with
  | unified hr h => exact hheeding _ _ _ _ _ hs hwork hlhs (hrhs _ hr).lt h
  | added hr hslot hopen h => exact addField_heeds hs hwork hlhs h
  | kept hr hclosed hchanged h => exact h ▸ .refl _

include hrec hheeding in
/-- Unifying the children of two classes heeds marks. -/
theorem unifySlots_heeds {slots : List Slot} {this that : TermId} {progress : Bool}
    {result : TermId × TermId × Bool} (hs : s.Sound) (hwork : s.work.isNone = false)
    (hthis : s.forest.IsClass this) (hthat : s.forest.IsClass that)
    (h : unifySlots rec slots this that progress s = some (result, u)) :
    Heeds f₀ C s.forest u.forest := by
  induction slots generalizing this that progress s with
  | nil =>
    obtain ⟨-, rfl⟩ := pure_eq_some.1 h
    exact .refl _
  | cons slot rest ih =>
    rcases unifySlots_cons h with ⟨s₁, hchild, h⟩ | ⟨lhs, s₁, rhs?, s₂, changed, s₃, this₁, s₄, that₁,
      s₅, hchild, hchild', hstep, hfind, hfind', h⟩
    · obtain ⟨hlooks₁, -⟩ := child_looks hs hchild
      have hp₁ := hlooks₁.proceeds hs
      have hsteady₁ := hlooks₁.steady hs
      exact (hlooks₁.heeds hs).trans hs.forest (ih hp₁.sound (by rw [hp₁.probe, hwork])
        (hthis.of_steady hsteady₁) (hthat.of_steady hsteady₁) h)
    obtain ⟨hlooks₁, hlhs⟩ := child_looks hs hchild
    have hp₁ := hlooks₁.proceeds hs
    obtain ⟨hlooks₂, hrhs⟩ := child_looks hp₁.sound hchild'
    have hp₂ := hp₁.trans (hlooks₂.proceeds hp₁.sound)
    have hwork₂ : s₂.work.isNone = false := by rw [hp₂.probe, hwork]
    have hlhs₂ := (hlhs lhs rfl).of_steady (hlooks₂.steady hp₁.sound)
    have hp₃ := hp₂.trans (hstep.proceeds hrec hp₂.sound hwork₂ hlhs₂.lt hrhs)
    obtain ⟨hlooks₅, -, ⟨rfl, rfl⟩, hthis₅, hthat₅⟩ :=
      find_both hp₃.sound (hp₃.lt hs hthis.lt) (hp₃.lt hs hthat.lt) hfind hfind'
    have hp₅ := hp₃.trans (hlooks₅.proceeds hp₃.sound)
    have hheeds₅ := (((hlooks₁.trans hlooks₂).heeds hs).trans hs.forest
      (hstep.heeds hheeding hp₂.sound hwork₂ hlhs₂.lt hrhs)).trans hs.forest
      (hlooks₅.heeds hp₃.sound)
    rcases h with ⟨-, -, rfl⟩ | h
    · exact hheeds₅
    · exact hheeds₅.trans hs.forest (ih hp₅.sound (by rw [hp₅.probe, hwork]) hthis₅ hthat₅ h)

/-- Settling the labels of two records heeds marks. -/
theorem balanceLabels_heeds {labels : List String} {this that : TermId} {progress : Bool}
    (hs : s.Sound) (hwork : s.work.isNone = false)
    (h : balanceLabels this that labels progress s = some (r, u)) :
    Heeds f₀ C s.forest u.forest := by
  induction labels generalizing progress s with
  | nil =>
    obtain ⟨-, rfl⟩ := pure_eq_some.1 h
    exact .refl _
  | cons label rest ih =>
    replace h := of_bind_view h
    rcases ite_eq_some.1 h with ⟨-, h⟩ | ⟨-, h⟩
    · exact ih hs hwork h
    obtain ⟨changed, s₁, hp₁, hheeds₁, h⟩ : ∃ (changed : Bool) (s₁ : Unifier),
        Proceeds s s₁ ∧ Heeds f₀ C s.forest s₁.forest ∧
          balanceLabels this that rest (progress || changed) s₁ = some (r, u) := by
      replace h := of_bind_view h
      rcases ite_eq_some.1 h with ⟨-, h⟩ | ⟨-, h⟩
      · obtain ⟨rhs?, s₁, hchild, h⟩ := bind_eq_some.1 h
        obtain ⟨hlooks, hrhs⟩ := child_looks hs hchild
        have hp₁ := hlooks.proceeds hs
        cases rhs? with
        | none =>
          obtain ⟨changed, s₂, hpure, h⟩ := bind_eq_some.1 h
          obtain ⟨rfl, rfl⟩ := pure_eq_some.1 hpure
          exact ⟨_, s₁, hp₁, hlooks.heeds hs, h⟩
        | some rhs =>
          obtain ⟨changed, s₂, hadd, h⟩ := bind_eq_some.1 h
          have hwork₁ : s₁.work.isNone = false := by rw [hp₁.probe, hwork]
          exact ⟨changed, s₂,
            hp₁.trans (addField_proceeds hp₁.sound hwork₁ (hrhs rhs rfl).lt hadd).1,
            (hlooks.heeds hs).trans hs.forest
              (addField_heeds hp₁.sound hwork₁ (hrhs rhs rfl).lt hadd), h⟩
      · obtain ⟨changed, s₁, hdrop, h⟩ := bind_eq_some.1 h
        exact ⟨changed, s₁, (dropField_proceeds hs hwork hdrop).1, dropField_heeds hs hdrop, h⟩
    exact hheeds₁.trans hs.forest (ih hp₁.sound (by rw [hp₁.probe, hwork]) h)

/-- The merge of two classes heeds marks, also if an error takes the other class in as it is. -/
theorem mergeHalves_heeds {this that : TermId} {progress : Bool} (hs : s.Sound)
    (hwork : s.work.isNone = false) (hthis : s.forest.IsClass this) (hthat : s.forest.IsClass that)
    (hkthat : s.forest.kind that ≠ .var)
    (harity : ∀ n m, (s.forest.kind this).arity? = some n →
      (s.forest.kind that).arity? = some m → n = m)
    (h : mergeHalves this that progress s = some (r, u)) : Heeds f₀ C s.forest u.forest := by
  have hp := (mergeHalves_proceeds hs hwork hthis hthat hkthat harity h).1
  replace h := of_bind_view h
  replace h := of_bind_view h
  rcases ite_eq_some.1 h with ⟨herror, h⟩ | ⟨-, h⟩
  · obtain ⟨v, s₁, hwake, h⟩ := bind_eq_some.1 h
    obtain ⟨merged, s₂, hredirect, h⟩ := bind_eq_some.1 h
    obtain ⟨-, rfl⟩ := pure_eq_some.1 h
    obtain rfl := wake_eq_some.1 hwake
    by_cases hne : that = this
    · rw [redirect, if_pos hne] at hredirect
      obtain ⟨-, rfl⟩ := pure_eq_some.1 hredirect
      exact .refl _
    rw [redirect_eq hne] at hredirect
    cases hredirect
    rw [Bool.and_eq_true] at herror
    have herror : s.forest.IsError this := by rw [Forest.IsError, hthis.rep_eq, herror.1]
    exact (Heeds.refl _).redirect hs.forest hthat hthis hne hp.becomes
      (fun _ => Or.inr (Or.inl herror)) fun _ => .of_isError herror
  · obtain ⟨merged, s₁, hmerge, h⟩ := bind_eq_some.1 h
    obtain ⟨-, rfl⟩ := pure_eq_some.1 h
    exact merge_heeds hs hwork hthis hthat (fun hvar => absurd hvar hkthat) harity hmerge

private theorem mergeChildren_heeds {this that : TermId} {progress : Bool} (hs : s.Sound)
    (hwork : s.work.isNone = false) (hthis : s.forest.IsClass this) (hthat : s.forest.IsClass that)
    (hkthat : s.forest.kind that ≠ .var)
    (harity : ∀ n m, (s.forest.kind this).arity? = some n →
      (s.forest.kind that).arity? = some m → n = m)
    (h : mergeChildren this that progress s = some (r, u)) : Heeds f₀ C s.forest u.forest := by
  obtain ⟨progress', s₁, ⟨hp₁, hsteady⟩, hsame, hlabels, h⟩ : ∃ (progress' : Bool) (s₁ : Unifier),
      (Proceeds s s₁ ∧ Forest.Steady s.forest s₁.forest) ∧
        ((s.forest.kind that).isRecord = false → s = s₁) ∧ Heeds f₀ C s.forest s₁.forest ∧
          mergeHalves this that progress' s₁ = some (r, u) := by
    replace h := of_bind_view h
    replace h := of_bind_view h
    rcases ite_eq_some.1 h with ⟨-, h⟩ | ⟨-, h⟩
    · obtain ⟨progress', s₁, hpure, h⟩ := bind_eq_some.1 h
      obtain ⟨rfl, rfl⟩ := pure_eq_some.1 hpure
      exact ⟨_, s, ⟨.refl hs, .refl hs.forest.rooted⟩, fun _ => rfl, .refl _, h⟩
    · replace h := of_bind_view h
      obtain ⟨progress', s₁, hbalance, h⟩ := bind_eq_some.1 h
      exact ⟨progress', s₁, balanceLabels_proceeds hs hwork hbalance,
        fun hk => balanceLabels_of_not_isRecord hk hbalance, balanceLabels_heeds hs hwork hbalance, h⟩
  exact hlabels.trans hs.forest (mergeHalves_heeds hp₁.sound (by rw [hp₁.probe, hwork])
    (hthis.of_steady hsteady) (hthat.of_steady hsteady) (fun hvar => hkthat (hsteady.firm _ hvar))
    (arities_of_labels hs hp₁ hsteady hthat hkthat hsame harity) h)

include hrec hvars hheeding in
private theorem unifyChildren_heeds {a b : TermId} (hs : s.Sound) (hwork : s.work.isNone = false)
    (ha : s.forest.IsClass a) (hb : s.forest.IsClass b) (hca : s.forest.Calm a)
    (hcb : s.forest.Calm b) (hka : s.forest.kind a ≠ .var) (hkb : s.forest.kind b ≠ .var)
    (hshape : (s.forest.kind a).shape = (s.forest.kind b).shape)
    (h : unifyChildren rec a b s = some (r, u)) : Heeds f₀ C s.forest u.forest := by
  replace h := of_bind_view h
  obtain ⟨⟨this, that, progress⟩, s₁, hunify, h⟩ := bind_eq_some.1 h
  obtain ⟨hp₁, rfl, rfl⟩ := unifySlots_proceeds hrec hs hwork ha hb hunify
  exact (unifySlots_heeds hrec hheeding hs hwork ha hb hunify).trans hs.forest
    (mergeChildren_heeds hp₁.sound (by rw [hp₁.probe, hwork])
      (Forest.isClass_rep hp₁.sound.forest (hp₁.lt hs ha.lt))
      (Forest.isClass_rep hp₁.sound.forest (hp₁.lt hs hb.lt))
      ((hp₁.evolves hs).firm b (hb.known hkb))
      (unifySlots_arities hrec hvars hs hwork ha hb hca hcb hka hkb hshape hunify) h)

/-- The steps of the unification of a wrapper with another type. -/
theorem runs_of_unifyNilable {wrapper that x : TermId} (hs : s.Sound)
    (hwork : s.work.isNone = false) (hcalm : s.forest.Calm wrapper)
    (hx : s.forest.kind wrapper = .nilable x) (h : unifyNilable rec wrapper that s = some (r, u)) :
    ∃ s₁ s₂ s₃ merged nilable joined, Looks s s₁ ∧ s₁.forest.IsClass (s.forest.rep x) ∧
      merge (s.forest.rep x) s₁.forest.size ⟨s₁.forest.withStripped that,
        s₁.work.map ((s₁.forest.withStripped that).wake (s.forest.rep x)), s₁.met, s₁.image⟩ =
          some (merged, s₂) ∧
      find wrapper s₂ = some (nilable, s₃) ∧
      redirect that nilable { s₃ with work := s₃.work.map (s₃.forest.wake that) } =
        some (joined, u) := by
  obtain ⟨probing, s₀, hprobe, h⟩ := bind_eq_some.1 h
  obtain ⟨rfl, rfl⟩ := isProbe_eq_some.1 hprobe
  rw [hwork, if_neg Bool.false_ne_true] at h
  obtain ⟨leaf?, s₁, hchild, h⟩ := bind_eq_some.1 h
  obtain ⟨hlooks, hleaf⟩ := child_looks hs hchild
  obtain rfl : leaf? = some (s.forest.rep x) := by
    rw [child_eq hs hchild, hx]
    rfl
  replace h := of_bind_view h
  rw [hlooks.var hs (hcalm.wraps x hx), if_neg (by exact Bool.noConfusion)] at h
  obtain ⟨c, s₂, hcopy, h⟩ := bind_eq_some.1 h
  obtain ⟨rfl, rfl⟩ := copy_eq_some.1 hcopy
  obtain ⟨v, s₃, hstrip, h⟩ := bind_eq_some.1 h
  obtain rfl := change_eq_some.1 hstrip
  dsimp only at h
  rw [Forest.setKind_copy] at h
  obtain ⟨v', s₄, hwake, h⟩ := bind_eq_some.1 h
  obtain rfl := wake_eq_some.1 hwake
  obtain ⟨merged, s₅, hmerge, h⟩ := bind_eq_some.1 h
  obtain ⟨nilable, s₆, hfind, h⟩ := bind_eq_some.1 h
  obtain ⟨v'', s₇, hwake', h⟩ := bind_eq_some.1 h
  obtain rfl := wake_eq_some.1 hwake'
  obtain ⟨joined, s₈, hredirect, h⟩ := bind_eq_some.1 h
  obtain ⟨-, rfl⟩ := pure_eq_some.1 h
  exact ⟨s₁, s₅, s₆, merged, nilable, joined, hlooks, hleaf _ rfl, hmerge, hfind, hredirect⟩

/-- A variable hands its mark on to the copy without nil that it is merged into. -/
theorem merge_withStripped_heeds {leaf that : TermId} (hs : s.Sound)
    (hwork : s.work.isNone = false) (hleaf : s.forest.IsClass leaf)
    (hvar : s.forest.kind leaf = .var) (hthat : s.forest.IsClass that)
    (hdecided : (s.forest.kind that).isUndecided = false)
    (h : merge leaf s.forest.size ⟨s.forest.withStripped that,
      s.work.map ((s.forest.withStripped that).wake leaf), s.met, s.image⟩ = some (r, u)) :
    Heeds f₀ C s.forest u.forest := by
  obtain ⟨hp, hsteady, hc, -, hold⟩ := withStripped_proceeds hs hthat
  have hvar' : (s.forest.withStripped that).kind leaf = .var := by
    rw [(hold _ hleaf.lt).1, hvar]
  have hmerged : Heeds f₀ C (s.forest.withStripped that) u.forest :=
    merge_heeds (hp.trans (.wake hp.sound _ _)).sound (by rw [Option.isNone_map, hwork])
      (hleaf.of_steady hsteady) hc (fun _ => by dsimp only; rw [hvar']; exact ⟨rfl, rfl⟩)
      (fun n m hn => by dsimp only at hn; rw [hvar'] at hn; cases hn) h
  exact (Forest.heeds_withStripped hs.forest hthat hdecided).trans hs.forest hmerged

/-- A class that joins the wrapper of its copy loses its mark at most, for what the wrapper takes over
is guarded if the class is. -/
theorem redirect_wrapper_heeds {wrapper that x c nilable : TermId} {input : Bool} (hs : s.Sound)
    (hx : s.forest.kind wrapper = .nilable x) (hc : s.forest.rep x = c)
    (hcopy : s.forest.kind c = strippedKind input (s.forest.kind that))
    (hthat : s.forest.IsClass that) (hkthat : s.forest.kind that ≠ .var)
    (hplain : (s.forest.kind that).isNilable = false) (hfind : find wrapper s = some (nilable, t))
    (hredirect : redirect that nilable { t with work := t.work.map (t.forest.wake that) } =
      some (r, u)) : Heeds f₀ C s.forest u.forest := by
  have hne : that ≠ wrapper := by
    rintro rfl
    rw [hx] at hplain
    cases hplain
  have hwrapper : s.forest.IsClass wrapper :=
    ⟨Forest.lt_size_of_kind (by rw [hx]; exact Kind.noConfusion), by rw [hx]; rfl⟩
  obtain ⟨haccrues, hplainc⟩ := Forest.accrues_rewrapped c input hthat.root hkthat hplain
  obtain ⟨rfl, hlooks⟩ := find_looks hs hfind
  obtain ⟨f, hf, rfl⟩ := onForest_eq_some.1 hfind
  obtain ⟨hkwrapper, hkinds⟩ := Forest.find_wrapper hs.forest.rooted
    (by rw [hwrapper.rep_eq, hx]) (by rw [hc, hcopy, hplainc]) hf
  rw [hwrapper.rep_eq] at hkwrapper hkinds hredirect
  rw [hc, hcopy] at hkwrapper
  have hkthat' := hkinds that hthat.root hne
  have hsteady := hlooks.steady hs
  have hthat' : f.IsClass that := hthat.of_steady hsteady
  have hwrapper' : f.IsClass wrapper := hwrapper.of_steady hsteady
  have hheeds : Heeds f₀ C s.forest f := hlooks.heeds hs
  rw [redirect_eq hne] at hredirect
  cases hredirect
  refine hheeds.redirect hs.forest hthat' hwrapper' hne
    (.single (.link hthat'.root hwrapper'.root hne hthat'.lt hwrapper'.lt ?_))
    (fun hacc => (hacc.wrapped wrapper (by rw [hx]; rfl)).elim (hheeds.marked hacc wrapper)
      fun hheld => Or.inr (Or.inr (hheld.mono hsteady.grows.rep))) fun hguarded => ?_
  · rw [hkthat', hkwrapper]
    exact haccrues
  · have hwide := hguarded.widened
    rw [hthat'.rep_eq, hkthat'] at hwide
    obtain ⟨hcopied, hdecided⟩ := Kind.strippedKind_guards input hwide
      (Kind.isUndecided_eq_false hkthat hplain)
    refine .of_decided ?_ ?_ <;> rw [hwrapper'.rep_eq, hkwrapper,
      Forest.absorbedKind_eq_orNil _ (Kind.ne_var_of_decided hdecided)]
    · exact Kind.widenedKind_orNil hcopied
    · rw [Kind.isUndecided_orNil, hdecided]

/-- The unification of a wrapper with another type heeds marks. -/
theorem unifyNilable_heeds {wrapper that : TermId} (hs : s.Sound) (hwork : s.work.isNone = false)
    (hthat : s.forest.IsClass that) (hcalm : s.forest.Calm wrapper)
    (hnilable : (s.forest.kind wrapper).isNilable = true) (hkthat : s.forest.kind that ≠ .var)
    (hplain : (s.forest.kind that).isNilable = false)
    (h : unifyNilable rec wrapper that s = some (r, u)) : Heeds f₀ C s.forest u.forest := by
  obtain ⟨x, hx⟩ := Kind.isNilable_eq_true.1 hnilable
  obtain ⟨s₁, s₂, s₃, merged, nilable, joined, hlooks, hleaf, hmerge, hfind, hredirect⟩ :=
    runs_of_unifyNilable hs hwork hcalm hx h
  have hp₁ := hlooks.proceeds hs
  have hsteady := hlooks.steady hs
  have hwork₁ : s₁.work.isNone = false := by rw [hp₁.probe, hwork]
  have hvar₁ := hlooks.var hs (hcalm.wraps x hx)
  have hthat₁ := hthat.of_steady hsteady
  have hkthat₁ : s₁.forest.kind that ≠ .var := fun hvar => hkthat (hsteady.firm _ hvar)
  have hplain₁ := hlooks.plain hs hthat.root hplain
  obtain ⟨s₂', hmerge', hstripped⟩ := merge_strips hp₁.sound hwork₁ hleaf hvar₁ hthat₁ hkthat₁
  cases hmerge'.symm.trans hmerge
  have hp₂ := hp₁.trans hstripped.proceeds
  obtain ⟨x₁, hx₁, hxx⟩ := hlooks.wraps hs hcalm hx
  refine ((hlooks.heeds hs).trans hs.forest (merge_withStripped_heeds hp₁.sound hwork₁ hleaf hvar₁
    hthat₁ (Kind.isUndecided_eq_false hkthat₁ hplain₁) hmerge)).trans hs.forest
      (redirect_wrapper_heeds hp₂.sound (hstripped.wraps _ _ hx₁) ?_ (hstripped.that ▸ hstripped.copy)
        ⟨hstripped.proceeds.lt hp₁.sound hthat₁.lt, ?_⟩ ?_ ?_ hfind hredirect)
  · rw [hstripped.rep, hsteady.rep, hxx, if_pos rfl]
  · rw [hstripped.that, hthat₁.root]
  · rw [hstripped.that]
    exact hkthat₁
  · rw [hstripped.that, hplain₁]

/-- Of two classes without children a variable takes in no base type. -/
theorem ranked_winner (a b : TermId) (ka kb : Kind) :
    ranked a b ka kb = (b, a) ∧ (ka = .var → kb.isBase = false) ∨
      ranked a b ka kb = (a, b) ∧ (kb = .var → ka.isBase = false) := by
  unfold ranked
  split
  · rename_i h
    rw [Bool.and_eq_true, decide_eq_true_eq] at h
    refine Or.inl ⟨rfl, fun hvar => ?_⟩
    have hshape := h.1
    rw [hvar] at hshape
    cases kb <;> first | rfl | cases hshape
  split
  · rename_i h
    refine Or.inl ⟨rfl, fun hvar => ?_⟩
    rw [hvar] at h
    simp [Kind.isError, Kind.isBase] at h
  · rename_i h
    refine Or.inr ⟨rfl, fun hvar => Bool.eq_false_iff.2 fun hbase => h ?_⟩
    rw [hvar, hbase]
    simp [Kind.isError]

include hrec hvars hheeding in
/-- What one layer of unification does heeds marks if the next layer does. -/
theorem Layer.heeds {a b : TermId} (hs : s.Sound) (hwork : s.work.isNone = false)
    (ha : s.forest.IsClass a) (hb : s.forest.IsClass b) (hca : s.forest.Calm a)
    (hcb : s.forest.Calm b) (h : Layer rec a b r s u) : Heeds f₀ C s.forest u.forest := by
  have hmet : Proceeds s { s with met := (a, b) :: s.met } := .of_memory hs hs.image
  cases h with
  | same heq hr hu => exact hu ▸ .refl _
  | leaves hne hslots hslots' h =>
    have hchildren := Kind.children_of_slots ha.root hslots
    have hchildren' := Kind.children_of_slots hb.root hslots'
    rcases ranked_winner a b (s.forest.kind a) (s.forest.kind b) with ⟨hr, hvar⟩ | ⟨hr, hvar⟩ <;>
      rw [hr] at h
    · refine merge_heeds hs hwork hb ha (fun hk => ⟨hchildren', hvar hk⟩) (fun n m hn => ?_) h
      rw [Kind.arity?_of_slots hslots'] at hn
      cases hn
    · refine merge_heeds hs hwork ha hb (fun hk => ⟨hchildren, hvar hk⟩) (fun n m hn => ?_) h
      rw [Kind.arity?_of_slots hslots] at hn
      cases hn
  | @joined loser winner hne hpair hcase h =>
    have hclasses : s.forest.IsClass loser ∧ s.forest.IsClass winner := by
      rcases hpair with ⟨rfl, rfl⟩ | ⟨rfl, rfl⟩
      · exact ⟨ha, hb⟩
      · exact ⟨hb, ha⟩
    rw [Kind.isError_iff] at hcase
    refine merge_heeds hs hwork hclasses.1 hclasses.2 (fun hvar => ?_) (fun n m hn hm => ?_) h
    · rcases hcase with hcase | ⟨cause, hcase⟩
      · rw [hcase]
        exact ⟨rfl, rfl⟩
      · rw [hvar] at hcase
        cases hcase
    · rcases hcase with hcase | ⟨cause, hcase⟩
      · rw [hcase] at hn
        cases hn
      · rw [hcase] at hm
        cases hm
  | wrapped hne hpair hnilable hplain hknown h =>
    rcases hpair with ⟨rfl, rfl⟩ | ⟨rfl, rfl⟩
    · exact unifyNilable_heeds hs hwork hb hca hnilable hknown hplain h
    · exact unifyNilable_heeds hs hwork ha hcb hnilable hknown hplain h
  | met hne hmet hr hu => exact hu ▸ .refl _
  | probed hne hwork' => exact absurd hwork' (by rw [hwork]; exact Bool.noConfusion)
  | clashed hne hwork' hvar hvar' hshape h =>
    exact clash_heeds (s := { s with met := (a, b) :: s.met }) hmet.sound hwork ha hb.lt h
  | paired hne hwork' hfresh hvar hvar' hshape h =>
    exact unifyChildren_heeds (s := { s with met := (a, b) :: s.met }) hrec hvars hheeding hmet.sound
      hwork ha hb hca hcb hvar hvar' hshape h

include hrec hvars hheeding in
/-- One layer of unification heeds marks if the next one does. -/
theorem unifyStep_heeds : Heeding f₀ C (unifyStep rec) := by
  intro a b s r u hs hwork ha hb h
  obtain ⟨ra, s₁, rb, s₂, hfind, hfind', hlayer⟩ := unifyStep_layer h
  obtain ⟨hlooks, hcalm, ⟨rfl, rfl⟩, hra, hrb⟩ := find_both hs ha hb hfind hfind'
  have hp := hlooks.proceeds hs
  exact (hlooks.heeds hs).trans hs.forest (hlayer.heeds hrec hvars hheeding hp.sound
    (by rw [hp.probe, hwork]) hra hrb hcalm.1 hcalm.2)

end Unify

/-- The unification of any two terms heeds marks. -/
theorem unifyWithin_heeding (depth : Nat) : Heeding f₀ C (unifyWithin depth) := by
  induction depth with
  | zero => exact fun _ _ _ _ _ _ _ _ _ h => (failure_eq_some.1 h).elim
  | succ depth ih =>
    exact unifyStep_heeds (unifyWithin_proceeding depth) (unifyWithin_varsMeet depth) ih

end Unifier

end TypeFlow
