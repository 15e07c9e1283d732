import TypeFlow.Proofs.SeatedTwins
import TypeFlow.Proofs.SeatedWrappers

/-!
# Uses in seats

Whatever the use is where a class of a definition has its place, it is an instance of the class when the class was
instantiated for it.  A variable of the definition is recorded, or what stands for it is unified with what stood
for it before.  A wrapper asks for nil only.  A use that is alike to a class is a twin of it, and otherwise what is
known of the two tells what is done.

Main results:

- `Unifier.instantiateKinds_seats`: what is known of a class and its use makes that an instance.
- `Unifier.instantiateStep_visits`: one layer of instantiation makes the use an instance if the next one does.
- `Unifier.instantiateWithin_visits`: instantiation makes the use an instance.
-/

namespace TypeFlow

open Forest (IsClass Steady Template Zone)

namespace Unifier

variable {f : Forest} {d : TermId} {pinned : List TermId} {A : TermId → Prop} {zone zone' : TermId → Zone}
  {s t u : Unifier} {a b c x y : TermId} {depth : Nat} {r : Bool} {inst : TermId → TermId → UnifyM Bool}

section Use

variable (hf : f.Template d pinned) (hs : Laid f d pinned zone s) (ha : f.Reaches d a)
  (hb : s.forest.IsClass b) (hcalm : s.forest.Calm b) (hplain : (s.forest.kind b).isError = false)
  (hzone : (f.place d a).Allows (zone b)) (hvacant : Vacant f d zone s a) (herror : (f.kind a).isError = false)

include hf hs ha hb hcalm hplain hzone hvacant herror

/-- A use becomes an instance by what is known of the class and of it, if one of the two is no base type. -/
theorem instantiateKnown_seats (hinst : Visits f d pinned inst) (hfills : Fills f d pinned inst)
    (hvar : f.kind a ≠ .var) (hkb : s.forest.kind b ≠ .var)
    (hbase : (s.forest.kind a).baseFlow? = none ∨ (s.forest.kind b).baseFlow? = none) (h : (
      let kthis := s.forest.kind a
      let kthat := s.forest.kind b
      if kthis.isNilable && !kthat.isNilable then instantiateNilable b
      else if kthat.isNilable && !kthis.isNilable then instantiateInner inst a b
      else if kthis.shape ≠ kthat.shape then reject (unifyWithin depth) a b
      else instantiateChildren inst pinned a b : UnifyM Bool) s = some (r, u)) :
    ∃ zone', Works f d pinned (f.Reaches a) zone s zone' u ∧ Seated f zone' u True a b := by
  have hsame := hs.stands.same a ha
  dsimp only at h
  rw [hsame.isNilable] at h
  cases hnilable : (f.kind a).isNilable with
  | true =>
    rw [Forest.place_of_wrapper hnilable] at hzone
    rw [hnilable] at h
    rcases ite_eq_some.1 h with ⟨-, h⟩ | ⟨hwrapper, h⟩
    · exact instantiateNilable_seats hs hnilable hb hzone hkb hplain h
    have hwrapper : (s.forest.kind b).isNilable = true := by simpa using hwrapper
    have hshape : (s.forest.kind a).shape = (s.forest.kind b).shape := by
      obtain ⟨x, hx⟩ := Kind.isNilable_eq_true.1 (hsame.isNilable.trans hnilable)
      obtain ⟨y, hy⟩ := Kind.isNilable_eq_true.1 hwrapper
      rw [hx, hy]
      rfl
    rw [if_neg (by simp), if_neg (not_not.2 hshape)] at h
    exact instantiateWrappers_seats hf hs ha hnilable hb hzone hinst hcalm hwrapper h
  | false =>
    rw [Forest.place_of_known hvar hnilable] at hzone
    rw [hnilable, if_neg (by exact Bool.false_ne_true)] at h
    rcases ite_eq_some.1 h with ⟨hwrapper, h⟩ | ⟨-, h⟩
    · obtain ⟨zone', hworks, hseated⟩ := instantiateInner_seats hfills hf hs ha hvar herror hnilable hvacant hcalm
        (Bool.and_eq_true_iff.1 hwrapper).1 hzone h
      exact ⟨zone', hworks, hseated.mono⟩
    rcases ite_eq_some.1 h with ⟨-, h⟩ | ⟨hshape, h⟩
    · exact reject_seats hf hs ha hvar hb hcalm hplain hzone h
    rw [not_not, hsame.shape] at hshape
    have hbase : (f.kind a).baseFlow? = none := by
      rcases hbase with hbase | hbase
      · rw [← hsame.baseFlow?, hbase]
      · cases hk : f.kind a <;> first | rfl | rw [hk] at hshape
        cases hk' : s.forest.kind b <;> rw [hk'] at hshape hbase
        case base => cases hbase
        all_goals cases hshape
    exact instantiateChildren_seats hf hs ha herror hinst hvar hnilable hbase hb hzone hshape.symm hvacant h

/-- What is known of a class and its use makes that an instance. -/
theorem instantiateKinds_seats (hinst : Visits f d pinned inst) (hfills : Fills f d pinned inst)
    (hnew : s.image.lookup a = none) (h : (do
      let kthis ← kindOf a
      let kthat ← kindOf b
      if kthis.isVar then
        setImage a b
        return false
      if kthat.isVar then
        if ← isProbe then return true
        let c ← freshCopy pinned a
        let progress ← merge b c
        setImage a b
        return progress
      match kthis.baseFlow?, kthat.baseFlow? with
      | some p, some q => instantiateBase (unifyWithin depth) a b p q
      | _, _ =>
        if kthis.isNilable && !kthat.isNilable then instantiateNilable b
        else if kthat.isNilable && !kthis.isNilable then instantiateInner inst a b
        else if kthis.shape ≠ kthat.shape then reject (unifyWithin depth) a b
        else instantiateChildren inst pinned a b : UnifyM Bool) s = some (r, u)) :
    ∃ zone', Works f d pinned (f.Reaches a) zone s zone' u ∧ Seated f zone' u True a b := by
  have hsame := hs.stands.same a ha
  replace h := of_bind_view h
  replace h := of_bind_view h
  rcases ite_eq_some.1 h with ⟨hvar, h⟩ | ⟨hknown, h⟩
  · obtain ⟨v, s₁, hset, h⟩ := bind_eq_some.1 h
    obtain ⟨-, rfl⟩ := pure_eq_some.1 h
    obtain rfl := modify_eq_some.1 hset
    rw [hsame.isVar, Kind.isVar_iff] at hvar
    exact ⟨zone, record_seats hf hs ha hvar hnew hb.lt hzone⟩
  rw [hsame.isVar, Kind.isVar_iff] at hknown
  rcases ite_eq_some.1 h with ⟨hvar, h⟩ | ⟨hkb, h⟩
  · replace h := of_commits hs.commits h
    cases hnilable : (f.kind a).isNilable with
    | true =>
      rw [Forest.place_of_wrapper hnilable] at hzone
      exact instantiateWrapper_fills hf hs ha hnilable hb hzone hvacant
        (Kind.isVar_iff.1 hvar) h
    | false =>
    obtain ⟨hnew, hbarred⟩ := hvacant a .refl (.of_known hknown)
    rw [Forest.place_of_known hknown hnilable] at hzone
    have hclass : s.forest.IsClass a := ⟨hs.lt_of_reaches hf ha, by
      rw [hsame.isLink, (hf.tree.reaches ha).calm.root]⟩
    obtain ⟨zone', htakes⟩ := instantiateVar_fills hf hs ha hnilable
      ⟨hknown, Or.inl rfl, hclass, hsame, fun _ => rfl⟩ hbarred hnew
      (fun slot x hx => hvacant.of_reaches (.single ⟨slot, x, hx, rfl⟩)) hb (Kind.isVar_iff.1 hvar) hzone h
    obtain ⟨k, hstamped⟩ := htakes.stamped
    exact ⟨zone', htakes.works, (hstamped.seated hknown).mono⟩
  rw [Kind.isVar_iff] at hkb
  cases hp : (s.forest.kind a).baseFlow? with
  | none =>
    simp only [hp] at h
    exact instantiateKnown_seats hf hs ha hb hcalm hplain hzone hvacant herror hinst hfills hknown hkb (Or.inl hp) h
  | some p =>
    cases hq : (s.forest.kind b).baseFlow? with
    | none =>
      simp only [hp, hq] at h
      exact instantiateKnown_seats hf hs ha hb hcalm hplain hzone hvacant herror hinst hfills hknown hkb (Or.inr hq) h
    | some q =>
      simp only [hp, hq] at h
      rw [hsame.baseFlow?] at hp
      have hp := Kind.baseFlow?_eq_some.1 hp
      rw [Forest.place_of_known hknown (by rw [hp]; rfl)] at hzone
      exact instantiateBase_seats hf hs ha hknown hb hcalm hplain hzone hp (Kind.baseFlow?_eq_some.1 hq) h

omit hcalm hplain herror in
/-- A use that is found alike to a class is an instance. -/
theorem alike_seats (hroot : s.forest.rep a = a) (h : (do
      setImage a b
      return false : UnifyM Bool) t = some (r, u)) (halike : onForest (Forest.alike a b) s = some (true, t)) :
    ∃ zone', Works f d pinned (f.Reaches a) zone s zone' u ∧ Seated f zone' u True a b := by
  have hlooks := looks_onForest (Forest.keepsUp_alike _ _) hs.sound halike
  obtain ⟨g, hrun, rfl⟩ := onForest_eq_some.1 halike
  obtain ⟨v, s₁, hset, h⟩ := bind_eq_some.1 h
  obtain ⟨-, rfl⟩ := pure_eq_some.1 h
  obtain rfl := modify_eq_some.1 hset
  have htwin := Forest.alike_twin hf.tree ha (fun c hc => (hvacant.of_reaches hc).barred hs (ha.trans hc))
    hs.sound.forest.rooted hs.stands hs.zoned hroot (by rwa [hb.rep_eq]) hrun
  have hworks : Works f d pinned (f.Reaches a) zone s zone { s with forest := g } := hs.looks hf hlooks
  exact ⟨zone, hworks.trans hs (hworks.laid.setImage (hworks.laid.lt_of_reaches hf ha)
    (Nat.lt_of_lt_of_le hb.lt hworks.size) (fun _ => .refl) fun _ hvar => absurd hvar (htwin.ne_var .refl)),
    .twin trivial htwin⟩

end Use

/-- A class of the use may stand where a class of the definition has its place, for which nothing was done yet. -/
private structure Awaits (f : Forest) (d : TermId) (pinned : List TermId) (zone : TermId → Zone) (a : TermId)
    (s : Unifier) (b : TermId) : Prop where
  laid : Laid f d pinned zone s
  isClass : s.forest.IsClass b
  calm : s.forest.Calm b
  place : (f.place d a).Allows (zone b)
  vacant : Vacant f d zone s a

/-- So it is when classes have been looked up. -/
private theorem Awaits.looks (hf : f.Template d pinned) (ha : f.Reaches d a) (hlooks : Looks s t)
    (h : Awaits f d pinned zone a s b) : Awaits f d pinned zone a t b where
  laid := (h.laid.looks (A := fun _ => False) hf hlooks).laid
  isClass := h.isClass.of_steady (hlooks.steady h.laid.sound)
  calm := (hlooks.upkeeps.calm h.laid.sound.forest.rooted h.calm).2
  place := h.place
  vacant := h.vacant.works hf h.laid (h.laid.looks (A := fun _ => False) hf hlooks) ha fun _ _ _ => id

/-- An error of the use is left to itself. -/
private theorem error_seats (hf : f.Template d pinned) (ha : f.Reaches d a) (hs : Awaits f d pinned zone a s b)
    (hnew : s.image.lookup a = none) (herror : (s.forest.kind b).isError = true) (h : (do
      setImage a b
      return false : UnifyM Bool) s = some (r, u)) :
    ∃ zone', Works f d pinned (f.Reaches a) zone s zone' u ∧ Seated f zone' u True a b := by
  obtain ⟨v, s₁, hset, h⟩ := bind_eq_some.1 h
  obtain ⟨-, rfl⟩ := pure_eq_some.1 h
  obtain rfl := modify_eq_some.1 hset
  by_cases hvar : f.kind a = .var
  · exact ⟨zone, record_seats hf hs.laid ha hvar hnew hs.isClass.lt hs.place⟩
  · refine ⟨zone, hs.laid.setImage (hs.laid.lt_of_reaches hf ha) hs.isClass.lt (fun _ => .refl) fun _ hvar' =>
      absurd hvar' hvar, .dead hvar ?_⟩
    dsimp only [Forest.Dead]
    rwa [hs.isClass.rep_eq]

/-- One layer of instantiation makes the use an instance if the next one does. -/
theorem instantiateStep_visits (hf : f.Template d pinned) (hinst : Visits f d pinned inst)
    (hfills : Fills f d pinned inst) : Visits f d pinned (instantiateStep inst (unifyWithin depth) pinned) := by
  intro zone s x y r u hs ha hy hzone hvacant h
  obtain ⟨a, s₁, hfind, h⟩ := bind_eq_some.1 h
  obtain ⟨b, s₂, hfind', h⟩ := bind_eq_some.1 h
  obtain ⟨hlooks, ⟨-, hcalm⟩, ⟨rfl, rfl⟩, hclass, hb⟩ := find_both hs.sound
    (Forest.lt_size_of_rep_lt (hs.lt_of_reaches hf ha)) hy hfind hfind'
  have hplace := hs.zoned.allows_rep (f.place_ne_barred d _) hzone
  have hroot := hclass.rep_eq
  generalize s.forest.rep x = a at ha hvacant h hroot hplace ⊢
  -- What the class of the use is holds of the use, whatever is looked up.
  have hafter : ∀ {t b}, Looks s t → s.forest.rep y = b →
      (∃ zone', Works f d pinned (f.Reaches a) zone t zone' u ∧ Seated f zone' u True a b) →
      ∃ zone', Works f d pinned (f.Reaches a) zone s zone' u ∧ Seated f zone' u True a y := by
    rintro t b hlooks rfl ⟨zone', hworks, hseated⟩
    have hworks := (hs.looks hf hlooks).trans hs hworks
    exact ⟨zone', hworks, hseated.of_rep (hworks.rep_rep hs y)⟩
  have hs₂ : Awaits f d pinned zone a s₂ (s.forest.rep y) :=
    ⟨(hs.looks (A := fun _ => False) hf hlooks).laid, hb, hcalm, hplace,
      hvacant.works hf hs (hs.looks (A := fun _ => False) hf hlooks) ha fun _ _ _ => id⟩
  generalize hyb : s.forest.rep y = b at hs₂ h
  obtain ⟨image, s₃, himage, h⟩ := bind_eq_some.1 h
  obtain ⟨rfl, rfl⟩ := imageOf_eq_some.1 himage
  cases hprior : s₂.image.lookup a with
  | some prior =>
    simp only [hprior] at h
    have hnot : ¬f.Single d a := fun hsingle => by
      rw [(hs₂.vacant a .refl hsingle).1] at hprior
      cases hprior
    have hfree := hs₂.place
    rw [Forest.place_of_not_single hnot] at hfree
    exact hafter hlooks hyb ⟨zone, unifyPrior_seats hf hs₂.laid ha hnot hprior hs₂.isClass.lt hfree h⟩
  | none =>
    simp only [hprior] at h
    obtain ⟨same, s₃, halike, h⟩ := bind_eq_some.1 h
    cases same with
    | true => exact hafter hlooks hyb (alike_seats hf hs₂.laid ha hs₂.isClass hs₂.place hs₂.vacant hroot h halike)
    | false =>
    have hlooks₃ := looks_onForest (Forest.keepsUp_alike _ _) hs₂.laid.sound halike
    have hs₃ := hs₂.looks hf ha hlooks₃
    have hnew₃ : s₃.image.lookup a = none := by rw [hlooks₃.image, hprior]
    rw [if_neg Bool.false_ne_true] at h
    replace h := of_bind_view h
    rcases ite_eq_some.1 h with ⟨herror, h⟩ | ⟨hplain, h⟩
    · exact hafter (hlooks.trans hlooks₃) hyb (error_seats hf ha hs₃ hnew₃ herror h)
    rw [Bool.not_eq_true] at hplain
    obtain ⟨shared, s₄, hshared, h⟩ := bind_eq_some.1 h
    have hlooks₄ := shared_looks hs₃.laid.sound hshared
    have hs₄ := hs₃.looks hf ha hlooks₄
    have hplain₄ := (hlooks₄.upkeeps.same hs₃.laid.sound.forest.rooted hs₃.calm).isError.trans hplain
    refine hafter ((hlooks.trans hlooks₃).trans hlooks₄) hyb ?_
    obtain rfl := hs₃.laid.shared_eq (hs₃.laid.stands.rep a ha) (hs₃.vacant.barred hs₃.laid ha) hshared
    rw [(hs₃.laid.stands.same a ha).isError] at h
    rcases ite_eq_some.1 h with ⟨herror, h⟩ | ⟨herror, h⟩
    · obtain ⟨cause, hcause⟩ := Kind.isError_iff.1 herror
      have hvar : f.kind a ≠ .var := by rw [hcause]; exact Kind.noConfusion
      have hseat := hs₄.place
      rw [Forest.place_of_known hvar (by rw [hcause]; rfl)] at hseat
      exact unifyOwn_seats hf hs₄.laid ha hvar hs₄.isClass hs₄.calm hplain₄ hseat (hs₄.vacant.barred hs₄.laid ha)
        herror h
    · exact instantiateKinds_seats hf hs₄.laid ha hs₄.isClass hs₄.calm hplain₄ hs₄.place hs₄.vacant
        (Bool.eq_false_iff.2 herror) hinst hfills (by rw [hlooks₄.image, hnew₃]) h

/-- Instantiation makes the use an instance. -/
theorem instantiateWithin_visits (hf : f.Template d pinned) (depth : Nat) :
    Visits f d pinned (instantiateWithin pinned depth) := by
  induction depth with
  | zero => exact fun zone s x y r u _ _ _ _ _ h => (failure_eq_some.1 h).elim
  | succ depth ih => exact instantiateStep_visits hf ih (instantiateWithin_fills hf depth)

end Unifier

end TypeFlow
