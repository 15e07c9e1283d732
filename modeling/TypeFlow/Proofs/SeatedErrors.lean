import TypeFlow.Proofs.SeatedVariables

/-!
# Errors and base types in seats

A use that does not match the definition becomes an error of its seat, and so it does where the definition is one:
then the class of the definition has the seat as well.  A base type takes over what the definition says of it.
What stands for a variable is recorded as its image, or unified with that.

Main results:

- `Unifier.unifyWithin_error`: a class that is unified with an error is merged into that.
- `Unifier.reject_seats`, `Unifier.unifyError_seats`: uses that are made errors are instances.
- `Unifier.instantiateBase_seats`: so are base types that were met with those of the definition.
- `Unifier.unifyPrior_seats`, `Unifier.record_seats`: so is what stands for a variable.
-/

namespace TypeFlow

open Forest (IsClass Steady Enters Template Touched Zone)

namespace Unifier

variable {f : Forest} {d : TermId} {pinned : List TermId} {A : TermId → Prop} {zone zone' : TermId → Zone}
  {s t u : Unifier} {a b c e x y : TermId} {k l : Kind} {slot : Slot} {depth : Nat} {r : Bool}

/-! ## Errors -/

/-- A new error belongs wherever it is put. -/
theorem Laid.allocError (hf : f.Template d pinned) (hs : Laid f d pinned zone s) {cause : TypeError} (z : Zone)
    (h : alloc (.error cause) s = some (e, u)) :
    Works f d pinned A zone s (Function.update zone e z) u ∧ u.forest.IsClass e ∧ u.forest.kind e = .error cause ∧
      u.image = s.image ∧ ∀ c, s.forest.IsClass c → s.forest.Calm c → c ≠ e ∧ u.forest.IsClass c ∧
        u.forest.Calm c ∧ u.forest.kind c = s.forest.kind c := by
  obtain ⟨-, hsteady, he, hcause⟩ := alloc_error_proceeds hs.sound h
  obtain ⟨rfl, rfl⟩ := alloc_eq_some.1 h
  have hworks : Works f d pinned A zone s (Function.update zone s.forest.size z)
      { s with forest := (s.forest.add ⟨.error cause, .empty, false⟩).2 } :=
    hs.add hf rfl (fun x hx => absurd hx List.not_mem_nil) (Forest.admits_of_children rfl rfl _)
  refine ⟨hworks, he, hcause, rfl, fun c hc hcalm => ?_⟩
  have hold : ∀ {c}, c < s.forest.size → (s.forest.add ⟨.error cause, .empty, false⟩).2.kind c = s.forest.kind c :=
    fun hc => (Forest.kind_add _ _ _).trans (if_neg (Nat.ne_of_lt hc))
  refine ⟨Nat.ne_of_lt hc.lt, hc.of_steady hsteady, ⟨?_, fun x hx => ?_⟩, hold hc.lt⟩
  · exact (congrArg Kind.isLink (hold hc.lt)).trans hcalm.root
  · have hx : s.forest.kind c = .nilable x := (hold hc.lt).symm.trans hx
    have hchild : (s.forest.kind c).child? .inner = some x := by rw [hx]; rfl
    rw [hsteady.rep]
    exact (hold (Forest.rep_lt_size hs.sound.forest.rooted (hs.sound.forest.child_lt hchild))).trans
      (hcalm.wraps x hx)

private theorem ranked_error {ka kb : Kind} (ha : ka.isError = false) (hb : kb.isError = true) :
    ranked x y ka kb = (x, y) ∧ ranked x y kb ka = (y, x) := by
  have hshape : ka.shape ≠ kb.shape := fun h => by
    rw [Kind.isError_eq_of_shape h, hb] at ha
    cases ha
  simp [ranked, hshape, hshape.symm, ha, hb]

/-- A class that is unified with an error is merged into that, on whichever side it is. -/
theorem unifyWithin_error (hs : s.Sound) (hb : s.forest.IsClass b) (he : s.forest.IsClass e)
    (hcalm : s.forest.Calm b) (hplain : (s.forest.kind b).isError = false)
    (herror : (s.forest.kind e).isError = true) (hpair : x = b ∧ y = e ∨ x = e ∧ y = b)
    (h : unifyWithin depth x y s = some (r, u)) : ∃ t, Looks s t ∧ merge b e t = some (r, u) := by
  cases depth with
  | zero => exact (failure_eq_some.1 h).elim
  | succ depth =>
    obtain ⟨rx, s₁, hfind, h⟩ := bind_eq_some.1 h
    obtain ⟨ry, t, hfind', h⟩ := bind_eq_some.1 h
    have hlt : x < s.forest.size ∧ y < s.forest.size := by
      rcases hpair with ⟨rfl, rfl⟩ | ⟨rfl, rfl⟩
      · exact ⟨hb.lt, he.lt⟩
      · exact ⟨he.lt, hb.lt⟩
    obtain ⟨hlooks, -, ⟨rfl, rfl⟩, -, -⟩ := find_both hs hlt.1 hlt.2 hfind hfind'
    refine ⟨t, hlooks, ?_⟩
    have hrooted := hs.forest.rooted
    have hplain : (t.forest.kind b).isError = false := (hlooks.upkeeps.same hrooted hcalm).isError.trans hplain
    have herror : (t.forest.kind e).isError = true := by
      obtain ⟨cause, hcause⟩ := Kind.isError_iff.1 herror
      rw [(hlooks.upkeeps.same hrooted (Forest.calm_of_not_nilable he.root (by rw [hcause]; rfl))).isError, herror]
    have hne : b ≠ e := fun heq => by
      rw [heq, herror] at hplain
      cases hplain
    have hvar : (t.forest.kind e).isVar = false := by
      obtain ⟨cause, hcause⟩ := Kind.isError_iff.1 herror
      rw [hcause]
      rfl
    have hranked := (ranked_error (x := b) (y := e) hplain herror).1
    have hranked' := (ranked_error (x := e) (y := b) hplain herror).2
    rcases hpair with ⟨rfl, rfl⟩ | ⟨rfl, rfl⟩
    · rw [hb.rep_eq, he.rep_eq, if_neg hne] at h
      replace h := of_bind_view h
      replace h := of_bind_view h
      rcases ite_eq_some.1 h with ⟨-, h⟩ | ⟨-, h⟩
      · rwa [hranked] at h
      · rwa [if_pos (by rw [herror, Bool.or_true])] at h
    · rw [hb.rep_eq, he.rep_eq, if_neg (Ne.symm hne)] at h
      replace h := of_bind_view h
      replace h := of_bind_view h
      rcases ite_eq_some.1 h with ⟨-, h⟩ | ⟨-, h⟩
      · rwa [hranked'] at h
      · rw [hvar, hplain, Bool.or_false, if_neg Bool.false_ne_true, herror, Bool.or_true, if_pos rfl] at h
        exact h

/-- A class of the seat that is merged into an error of it is an instance. -/
theorem merge_error_seats (hs : Laid f d pinned zone s) (hb : s.forest.IsClass b) (he : s.forest.IsClass e)
    (hzone : zone b = .seat a) (hzone' : zone e = .seat a) (hplain : (s.forest.kind b).isError = false)
    (herror : (s.forest.kind e).isError = true) (h : merge b e s = some (r, u)) :
    Works f d pinned (f.Reaches a) zone s zone u ∧ u.forest.Dead b ∧ u.image = s.image := by
  have hne : b ≠ e := fun heq => by
    rw [heq, herror] at hplain
    cases hplain
  obtain ⟨cause, hcause⟩ := Kind.isError_iff.1 herror
  have henters := merge_error_enters hs.sound hs.commits hb he herror hne h
  have hp : Proceeds s u := (merge_proceeds hs.sound hb he (fun hvar => by rw [hcause] at hvar; cases hvar)
    (fun n m _ hm => by rw [hcause] at hm; cases hm) h).1
  have himage := image_of_merge h
  -- The error leads nowhere.
  have hsealed : f.Sealed zone a s.forest e := .of_children hzone' fun slot y hy => by
    rw [hcause] at hy
    cases slot <;> cases hy
  refine ⟨hs.enters hzone hzone' hsealed hplain hp henters (edits_sameMet.merge b e s r u h) himage, ?_, himage⟩
  rw [Forest.Dead, henters.rep, hb.rep_eq, if_pos rfl]
  rcases henters.kinds e (Ne.symm hne) with e' | ⟨-, flow, hflow, -⟩
  · rw [e', herror]
  · rw [hflow] at hcause
    cases hcause

section Use

variable (hf : f.Template d pinned) (hs : Laid f d pinned zone s) (ha : f.Reaches d a) (hvar : f.kind a ≠ .var)
  (hb : s.forest.IsClass b) (hcalm : s.forest.Calm b) (hplain : (s.forest.kind b).isError = false)
  (hzone : zone b = .seat a)

include hf hs ha hvar hb hcalm hplain hzone

/-- A class of the seat that is unified with an error of it is an instance. -/
theorem unifyError_seats (he : s.forest.IsClass e) (hzone' : zone e = .seat a)
    (herror : (s.forest.kind e).isError = true) (hpair : x = b ∧ y = e ∨ x = e ∧ y = b) (h : (do
      let progress ← unifyWithin depth x y
      setImage a b
      return progress) s = some (r, u)) :
    Works f d pinned (f.Reaches a) zone s zone u ∧ Seated f zone u True a b := by
  obtain ⟨progress, s₁, hunify, h⟩ := bind_eq_some.1 h
  obtain ⟨v, s₂, hset, h⟩ := bind_eq_some.1 h
  obtain ⟨-, rfl⟩ := pure_eq_some.1 h
  obtain rfl := modify_eq_some.1 hset
  obtain ⟨t, hlooks, hmerge⟩ := unifyWithin_error hs.sound hb he hcalm hplain herror hpair hunify
  have hrooted := hs.sound.forest.rooted
  have hworks₁ : Works f d pinned (f.Reaches a) zone s zone t := hs.looks hf hlooks
  have hsteady := hlooks.steady hs.sound
  obtain ⟨cause, hcause⟩ := Kind.isError_iff.1 herror
  have hcalm' : s.forest.Calm e := Forest.calm_of_not_nilable he.root (by rw [hcause]; rfl)
  obtain ⟨hworks₂, hdead, -⟩ := merge_error_seats hworks₁.laid (hb.of_steady hsteady) (he.of_steady hsteady) hzone
    hzone' ((hlooks.upkeeps.same hrooted hcalm).isError.trans hplain)
    ((hlooks.upkeeps.same hrooted hcalm').isError.trans herror) hmerge
  have hworks := hworks₁.trans hs hworks₂
  refine ⟨hworks.trans hs (hworks₂.laid.setImage (hworks₂.laid.lt_of_reaches hf ha)
    (Nat.lt_of_lt_of_le hb.lt hworks.size) (fun _ => .refl) fun _ hvar' => absurd hvar' hvar), .dead hvar hdead⟩

/-- A use that does not match becomes an error. -/
theorem reject_seats (h : reject (unifyWithin depth) a b s = some (r, u)) :
    ∃ zone', Works f d pinned (f.Reaches a) zone s zone' u ∧ Seated f zone' u True a b := by
  replace h := of_bind_view (of_commits hs.commits h)
  obtain ⟨error, s₁, halloc, h⟩ := bind_eq_some.1 h
  obtain ⟨hworks₁, he, hcause, -, hold⟩ := hs.allocError (A := f.Reaches a) hf (.seat a) halloc
  obtain ⟨hne, hb₁, hcalm₁, hkind⟩ := hold b hb hcalm
  obtain ⟨hworks₂, hseated⟩ := unifyError_seats hf hworks₁.laid ha hvar hb₁ hcalm₁ (by rw [hkind, hplain])
    ((Function.update_of_ne hne _ _).trans hzone) he (Function.update_self _ _ _) (by rw [hcause]; rfl)
    (Or.inl ⟨rfl, rfl⟩) h
  exact ⟨_, hworks₁.trans hs hworks₂, hseated⟩

/-- So it does where the definition is an error, which gets the seat. -/
theorem unifyOwn_seats (hbarred : zone a = .barred) (herror : (f.kind a).isError = true) (h : (do
      let progress ← unifyWithin depth a b
      setImage a b
      return progress) s = some (r, u)) :
    ∃ zone', Works f d pinned (f.Reaches a) zone s zone' u ∧ Seated f zone' u True a b := by
  have hsame := hs.stands.same a ha
  have hlt := hs.lt_of_reaches hf ha
  have herror' : (s.forest.kind a).isError = true := hsame.isError.trans herror
  obtain ⟨cause, hcause⟩ := Kind.isError_iff.1 herror'
  have hworks : Works f d pinned (f.Reaches a) zone s (Function.update zone a (.seat a)) s := by
    refine (Works.refl hs).reseat (Or.inr .refl) hlt hbarred (fun _ => ⟨herror, rfl⟩) ?_ fun x hx => ?_
    · rw [hcause]
      exact Forest.admits_of_children rfl rfl _
    · rw [hcause] at hx
      exact absurd hx List.not_mem_nil
  have hne : b ≠ a := fun e => by
    rw [e, hbarred] at hzone
    cases hzone
  obtain ⟨hworks', hseated⟩ := unifyError_seats hf hworks.laid ha hvar hb hcalm hplain
    ((Function.update_of_ne hne _ _).trans hzone) ⟨hlt, by rw [hcause]; rfl⟩ (Function.update_self _ _ _) herror'
    (Or.inr ⟨rfl, rfl⟩) h
  exact ⟨_, hworks.trans hs hworks', hseated⟩

/-! ## Base types -/

omit hcalm hplain in
private theorem base_seats {p q : Flow} (hp : f.kind a = .base p) (hq : s.forest.kind b = .base q)
    (hkind : p.sameKind q = true) (hcovers : p.covers q = true) :
    Works f d pinned (f.Reaches a) zone s zone { s with image := (a, b) :: s.image } ∧
      Seated f zone { s with image := (a, b) :: s.image } True a b := by
  refine ⟨hs.setImage (hs.lt_of_reaches hf ha) hb.lt (fun _ => .refl) fun _ hvar' => absurd hvar' hvar,
    .known hvar (.known (k := .base q) ?_ ?_ rfl) ?_ fun slot x y hx => ?_⟩
  · dsimp only
    rw [hb.rep_eq, hzone]
  · dsimp only
    rw [hb.rep_eq, hq]
  · rw [hp]
    exact .base hkind hcovers
  · rw [hp] at hx
    cases slot <;> cases hx

/-- A base type takes over what the definition says of it. -/
theorem instantiateBase_seats {p q : Flow} (hp : f.kind a = .base p) (hq : s.forest.kind b = .base q)
    (h : instantiateBase (unifyWithin depth) a b p q s = some (r, u)) :
    ∃ zone', Works f d pinned (f.Reaches a) zone s zone' u ∧ Seated f zone' u True a b := by
  unfold instantiateBase at h
  rcases ite_eq_some.1 h with ⟨-, h⟩ | ⟨hkind, h⟩
  · exact reject_seats hf hs ha hvar hb hcalm hplain hzone h
  rw [Bool.not_eq_true, Bool.not_eq_false'] at hkind
  rcases ite_eq_some.1 h with ⟨hmeet, h⟩ | ⟨-, h⟩
  · obtain ⟨v, s₁, hset, h⟩ := bind_eq_some.1 h
    obtain ⟨-, rfl⟩ := pure_eq_some.1 h
    obtain rfl := modify_eq_some.1 hset
    exact ⟨zone, base_seats hf hs ha hvar hb hzone hp hq hkind (Flow.covers_iff.2 hmeet)⟩
  replace h := of_commits hs.commits h
  obtain ⟨v₁, s₁, hset, h⟩ := bind_eq_some.1 h
  obtain ⟨v₂, s₂, hwake, h⟩ := bind_eq_some.1 h
  obtain ⟨v₃, s₃, himage, h⟩ := bind_eq_some.1 h
  obtain ⟨-, rfl⟩ := pure_eq_some.1 h
  obtain rfl := change_eq_some.1 hset
  obtain rfl := wake_eq_some.1 hwake
  obtain rfl := modify_eq_some.1 himage
  have hrefines : (s.forest.kind b).Refines (.base (p.meet q)) := by
    rw [hq]
    exact ⟨rfl, rfl, .base (Flow.covers_meet_right p q), fun _ hx => hx⟩
  have hnew : (s.forest.setKind b (.base (p.meet q))).kind b = .base (p.meet q) :=
    (Forest.kind_setKind _ _ _ _).trans (if_pos ⟨rfl, hb.lt⟩)
  have hworks := hs.takeOver (A := f.Reaches a) hb (hs.not_reaches hzone hplain) (by rw [hzone]; exact .refl) hrefines
    (Forest.admits_of_children rfl rfl _)
    (s.work.map ((s.forest.setKind b (.base (p.meet q))).wake b)) (by simp)
  have hb' := hb.of_steady (Forest.refine_steady hs.sound.forest.rooted hrefines)
  obtain ⟨hworks', hseated⟩ := base_seats hf hworks.laid ha hvar hb' hzone hp hnew
    (Flow.sameKind_meet_of_sameKind hkind) (Flow.covers_meet_left p q)
  exact ⟨zone, hworks.trans hs hworks', hseated⟩

end Use

/-! ## Variables of the definition -/

/-- What stands for a variable that has no image is recorded for it. -/
theorem record_seats (hf : f.Template d pinned) (hs : Laid f d pinned zone s) (ha : f.Reaches d a)
    (hvar : f.kind a = .var) (hnew : s.image.lookup a = none) (hb : b < s.forest.size)
    (hzone : (f.place d a).Allows (zone b)) :
    Works f d pinned (f.Reaches a) zone s zone { s with image := (a, b) :: s.image } ∧
      Seated f zone { s with image := (a, b) :: s.image } True a b := by
  refine ⟨hs.setImage (hs.lt_of_reaches hf ha) hb (fun _ => .refl) fun _ _ => ⟨hnew, ?_⟩,
    .image hvar (lookup_cons_eq_some.2 (Or.inl ⟨rfl, rfl⟩)) rfl⟩
  rcases Forest.place_of_var (d := d) hvar with hplace | ⟨hsingle, -⟩
  · rw [hplace] at hzone
    exact Or.inr hzone
  · exact Or.inl hsingle

/-- Otherwise it is unified with the image. -/
theorem unifyPrior_seats {prior : TermId} (hf : f.Template d pinned) (hs : Laid f d pinned zone s)
    (ha : f.Reaches d a) (hnot : ¬f.Single d a) (hprior : s.image.lookup a = some prior)
    (hb : b < s.forest.size) (hzone : zone b = .free) (h : (do
      let prior ← find prior
      unifyWithin depth prior b) s = some (r, u)) :
    Works f d pinned (f.Reaches a) zone s zone u ∧ Seated f zone u True a b := by
  obtain ⟨prior', s₁, hfind, h⟩ := bind_eq_some.1 h
  obtain ⟨rfl, hlooks⟩ := find_looks hs.sound hfind
  have hworks₁ : Works f d pinned (f.Reaches a) zone s zone s₁ := hs.looks hf hlooks
  have hlt := Forest.rep_lt_size hs.sound.forest.rooted (hs.sound.image_lt hprior)
  have hfree := hs.zoned.free.rep (hs.image a prior ha hnot hprior)
  obtain ⟨hworks₂, hrep, himage⟩ := hworks₁.laid.unify (A := f.Reaches a) (Nat.lt_of_lt_of_le hlt hworks₁.size)
    (Nat.lt_of_lt_of_le hb hworks₁.size) hfree hzone h
  have hworks := hworks₁.trans hs hworks₂
  refine ⟨hworks, .image (c := prior) (Forest.eq_var_of_not_single hnot) ?_
    ((hworks.rep_rep hs prior).symm.trans hrep)⟩
  rw [himage, hlooks.image, hprior]

end Unifier

end TypeFlow
