import TypeFlow.Proofs.Faithfulness

/-!
# Probes of instantiations are faithful

The probe of an instantiation runs like the instantiation itself as long as that changes nothing, and ends
where it changes something first.  With unifications, so do the probes of all calls of the unifier.

Main definitions:

- `Forest.Preserved`: look-ups tidied the forest up, and nothing else happened to it.

Main results:

- `Unifier.instantiate_faithful`: the probe of an instantiation is faithful.
- `Forest.calls_faithful`: so is that of every call.
-/

namespace TypeFlow

open Forest (IsClass Steady)

namespace Unifier

variable {α β : Type} {s t u : Unifier}

/-! ## Instantiations -/

section Use

variable {inst inst' : TermId → TermId → UnifyM Bool} (hinst : Foretold inst inst')
  {depth depth' : Nat} {pinned : List TermId} {this that : TermId} {r : Bool}

/-- Two classes are never one before they are unified. -/
theorem unifyWithin_yields (hs : s.Sound) (hfresh : s.Fresh) {a b : TermId}
    (ha : s.forest.IsClass a) (hb : s.forest.IsClass b) (hne : a ≠ b)
    (h : unifyWithin depth a b s = some (r, u)) : r = true := by
  rcases unifyWithin_answer hs ha.lt hb.lt h with ⟨hr, -⟩ | ⟨-, -, heq | hmem⟩
  · exact hr
  · rw [ha.rep_eq, hb.rep_eq] at heq
    exact absurd heq hne
  · rw [hfresh.met] at hmem
    exact absurd hmem List.not_mem_nil

/-- A new class leaves a unifier ready and fresh. -/
theorem Fresh.of_proceeds {f : Forest} (hfresh : s.Fresh) (hsteady : Steady s.forest f) :
    Fresh { s with forest := f } :=
  ⟨hfresh.met, fun p hp => Nat.lt_of_lt_of_le (hfresh.image p hp) hsteady.size⟩

private theorem setImage_pure_faithful (hs : s.Ready) {x c : TermId} {b : Bool} (hx : x < s.forest.size)
    (hc : c < s.forest.size) :
    Faithful (· = true) (setImage x c >>= fun _ => pure b) (setImage x c >>= fun _ => pure b) s :=
  .observe (setImage_observes hs hx hc) fun _ _ _ hidle => .pure hidle.ready b

/-- A probe of a rejection tells of the change that is made. -/
theorem reject_faithful (hs : s.Ready) (hfresh : s.Fresh) (hthat : s.forest.IsClass that) :
    Faithful (· = true) (reject (unifyWithin depth) this that)
      (reject (unifyWithin depth') this that) s := by
  refine .guard hs rfl fun b u h => ?_
  replace h := of_bind_view h
  obtain ⟨error, s₁, halloc, h⟩ := bind_eq_some.1 h
  obtain ⟨progress, s₂, hunify, h⟩ := bind_eq_some.1 h
  obtain ⟨v, s₃, -, h⟩ := bind_eq_some.1 h
  obtain ⟨rfl, rfl⟩ := pure_eq_some.1 h
  obtain ⟨hp₁, hsteady, herror, -⟩ := alloc_error_proceeds hs.sound halloc
  obtain ⟨rfl, rfl⟩ := alloc_eq_some.1 halloc
  exact unifyWithin_yields hp₁.sound (hfresh.of_proceeds hsteady) (hthat.of_steady hsteady) herror
    (Nat.ne_of_lt hthat.lt) hunify

private theorem instantiateBase_faithful (hs : s.Ready) (hfresh : s.Fresh) (hthis : s.forest.IsClass this)
    (hthat : s.forest.IsClass that) (a b : Flow) :
    Faithful (· = true) (instantiateBase (unifyWithin depth) this that a b)
      (instantiateBase (unifyWithin depth') this that a b) s := by
  refine .ite (fun _ => reject_faithful hs hfresh hthat) fun _ => .ite (fun _ => ?_) fun _ => ?_
  · exact setImage_pure_faithful hs hthis.lt hthat.lt
  · refine .guard hs rfl fun b u h => ?_
    obtain ⟨v, s₁, -, h⟩ := bind_eq_some.1 h
    obtain ⟨v', s₂, -, h⟩ := bind_eq_some.1 h
    obtain ⟨v'', s₃, -, h⟩ := bind_eq_some.1 h
    exact (pure_eq_some.1 h).1.symm

private theorem instantiateNilable_faithful (hs : s.Ready) :
    Faithful (· = true) (instantiateNilable that) (instantiateNilable that) s := by
  refine .view (.ite (fun _ => .pure hs false) fun _ => .guard hs rfl fun b u h => ?_)
  obtain ⟨v, s₁, -, h⟩ := bind_eq_some.1 h
  obtain ⟨v', s₂, -, h⟩ := bind_eq_some.1 h
  exact (pure_eq_some.1 h).1.symm

/-- A variable is merged with the copy of a type. -/
theorem instantiateVar_yields (hs : s.Sound) (hthis : s.forest.IsClass this)
    (hthat : s.forest.IsClass that) (hnew : s.image.lookup this = none) (hne : this ≠ that)
    (h : (do
      let c ← freshCopy pinned this
      let progress ← merge that c
      setImage this that
      return progress) s = some (r, u)) : r = true := by
  obtain ⟨c, s₁, hcopy, h⟩ := bind_eq_some.1 h
  obtain ⟨progress, s₂, hmerge, h⟩ := bind_eq_some.1 h
  obtain ⟨v, s₃, -, h⟩ := bind_eq_some.1 h
  obtain ⟨rfl, rfl⟩ := pure_eq_some.1 h
  refine merge_answer ?_ hmerge
  rcases freshCopy_new hs (by rw [hthis.rep_eq, hnew]) hcopy with rfl | hle
  · rw [hthis.rep_eq]
    exact hne.symm
  · exact Nat.ne_of_lt (Nat.lt_of_lt_of_le hthat.lt hle)

/-- The computation changes something where a type that is known is instantiated for a variable. -/
def KnownVar (run : TermId → TermId → UnifyM Bool) : Prop :=
  ∀ s a b r u, s.Ready → s.Fresh → s.forest.IsClass a → s.forest.IsClass b →
    s.image.lookup a = none → s.forest.kind a ≠ .var → s.forest.kind b = .var →
    run a b s = some (r, u) → r = true

private theorem instantiateStep_knownVar : KnownVar (instantiateStep inst (unifyWithin depth) pinned) := by
  intro s a b r u hs hfresh ha hb hnew hka hkb h
  obtain ⟨x, s₁, hfind, h⟩ := bind_eq_some.1 h
  obtain ⟨y, s₂, hfind', h⟩ := bind_eq_some.1 h
  obtain ⟨hlooks₂, -, ⟨rfl, rfl⟩, hac, hbc⟩ := find_both hs.sound ha.lt hb.lt hfind hfind'
  rw [ha.rep_eq, hb.rep_eq] at h
  rw [ha.rep_eq] at hac
  rw [hb.rep_eq] at hbc
  have hidle₂ := Idle.of_looks hs hlooks₂
  obtain ⟨image, s₃, himage, h⟩ := bind_eq_some.1 h
  obtain ⟨rfl, rfl⟩ := imageOf_eq_some.1 himage
  have hnew₂ : s₂.image.lookup a = none := by rw [hlooks₂.image, hnew]
  have hka₂ : s₂.forest.kind a ≠ .var := fun hvar => hka ((hlooks₂.steady hs.sound).firm _ hvar)
  have hkb₂ := hlooks₂.var hs.sound hkb
  rw [hnew₂] at h
  obtain ⟨alike, s₃, halike, h⟩ := bind_eq_some.1 h
  have hlooks₃ := looks_onForest (Forest.keepsUp_alike _ _) hidle₂.ready.sound halike
  have hidle₃ := hidle₂.trans (.of_looks hidle₂.ready hlooks₃)
  obtain rfl : alike = false := by
    obtain ⟨f, hf, -⟩ := onForest_eq_some.1 halike
    exact Forest.not_alike_var hidle₂.ready.sound.forest.rooted (by rwa [hac.rep_eq])
      (by rwa [hbc.rep_eq]) hf
  have hkb₃ := hlooks₃.var hidle₂.ready.sound hkb₂
  rw [if_neg Bool.false_ne_true] at h
  replace h := of_bind_view h
  rw [hkb₃, if_neg (by exact Bool.false_ne_true)] at h
  obtain ⟨shared, s₄, hshared, h⟩ := bind_eq_some.1 h
  have hlooks₄ := shared_looks hidle₃.ready.sound hshared
  have hlooks₄' := hlooks₃.trans hlooks₄
  have hidle₄ := hidle₃.trans (.of_looks hidle₃.ready hlooks₄)
  have hsteady₄ := hlooks₄'.steady hidle₂.ready.sound
  have hac := hac.of_steady hsteady₄
  have hbc := hbc.of_steady hsteady₄
  have hka₄ : s₄.forest.kind a ≠ .var := fun hvar => hka₂ (hsteady₄.firm _ hvar)
  have hkb₄ := hlooks₄'.var hidle₂.ready.sound hkb₂
  have hne : a ≠ b := fun heq => hka₄ (heq ▸ hkb₄)
  rcases ite_eq_some.1 h with ⟨-, h⟩ | ⟨-, h⟩
  · obtain ⟨progress, s₅, hunify, h⟩ := bind_eq_some.1 h
    obtain ⟨v, s₆, -, h⟩ := bind_eq_some.1 h
    obtain ⟨rfl, rfl⟩ := pure_eq_some.1 h
    exact unifyWithin_yields hidle₄.ready.sound (hidle₄.fresh hfresh) hac hbc hne hunify
  replace h := of_bind_view h
  replace h := of_bind_view h
  rw [if_neg (by rwa [Kind.isVar_iff]), hkb₄, if_pos (by rfl)] at h
  obtain ⟨probing, s₅, hprobe, h⟩ := bind_eq_some.1 h
  obtain ⟨rfl, rfl⟩ := isProbe_eq_some.1 hprobe
  rcases ite_eq_some.1 h with ⟨-, h⟩ | ⟨-, h⟩
  · exact (pure_eq_some.1 h).1.symm
  · exact instantiateVar_yields hidle₄.ready.sound hac hbc (by rw [hlooks₄'.image, hnew₂]) hne h

/-- The variable of a nilable use takes the part of the definition without nil. -/
theorem instantiateInner_yields (hvars : KnownVar inst) (hs : s.Ready) (hfresh : s.Fresh)
    (hthis : s.forest.IsClass this) (hcalm : s.forest.Calm that)
    (hnew : s.image.lookup this = none) (hkthis : s.forest.kind this ≠ .var)
    (hnilable : (s.forest.kind that).isNilable = true)
    (h : instantiateInner inst this that s = some (r, u)) : r = true := by
  obtain ⟨probing, s₁, hprobe, h⟩ := bind_eq_some.1 h
  obtain ⟨rfl, rfl⟩ := isProbe_eq_some.1 hprobe
  rw [hs.commits, if_neg Bool.false_ne_true] at h
  obtain ⟨source, s₁, hcopy, h⟩ := source_of_mayNil hs.sound hthis h
  obtain ⟨x, hx⟩ := Kind.isNilable_eq_true.1 hnilable
  have hlt : that < s.forest.size := Forest.lt_size_of_kind (by rw [hx]; exact Kind.noConfusion)
  have hs₁ : s₁.Ready := ⟨hcopy.proceeds.sound, by rw [hcopy.proceeds.probe, hs.commits]⟩
  have hfresh₁ : s₁.Fresh := by
    refine ⟨by rw [hcopy.met, hfresh.met], fun p hp => ?_⟩
    rw [hcopy.image] at hp
    exact Nat.lt_of_lt_of_le (hfresh.image p hp) hcopy.steady.size
  -- The source is new, or the definition itself, so it has no image yet.
  have hnew₁ : s₁.image.lookup source = none := by
    rw [hcopy.image]
    rcases hcopy.new with rfl | hle
    · exact hnew
    · refine List.lookup_eq_none_iff.2 fun p hp => ?_
      rw [bne_iff_ne]
      exact Nat.ne_of_gt (Nat.lt_of_lt_of_le (hfresh.image p hp) hle)
  obtain ⟨inner?, s₂, hchild, h⟩ := bind_eq_some.1 h
  have hinner? := child_eq hs₁.sound hchild
  rw [hcopy.kinds that hlt, hx] at hinner?
  subst hinner?
  obtain ⟨hlooks, hinner⟩ := child_looks hs₁.sound hchild
  have hidle := Idle.of_looks hs₁ hlooks
  have hvar : s₁.forest.kind (s₁.forest.rep x) = .var := by
    have hx' : (s.forest.kind that).child? .inner = some x := by rw [hx]; rfl
    rw [hcopy.steady.rep, hcopy.kinds _ (Forest.rep_lt_size hs.sound.forest.rooted
      (hs.sound.forest.child_lt hx')), hcalm.wraps x hx]
  obtain ⟨progress, s₃, hrun, h⟩ := bind_eq_some.1 h
  have hsteady := hlooks.steady hs₁.sound
  have hprogress := hvars _ _ _ _ _ hidle.ready (hidle.fresh hfresh₁)
    (hcopy.isClass.of_steady hsteady) (hinner _ rfl) (by rw [hlooks.image, hnew₁])
    (fun hvar' => hcopy.known hkthis (hsteady.firm _ hvar')) (hlooks.var hs₁.sound hvar) hrun
  rcases ite_eq_some.1 h with ⟨-, h⟩ | ⟨-, h⟩
  · obtain ⟨v, s₄, -, h⟩ := bind_eq_some.1 h
    rw [← (pure_eq_some.1 h).1, hprogress]
  · rw [← (pure_eq_some.1 h).1, hprogress]

/-- A record stays one when its children are looked up. -/
theorem isRecord_of_refreshed {k k' : Kind} {rep : TermId → TermId} (h : k.Refreshed rep k')
    (hk : k.isRecord = true) : k'.isRecord = true := by
  rw [Kind.isRecord_iff_shape] at hk ⊢
  rw [h.shape, hk]

include hinst in
/-- A field that the use lacks is added to it, unless neither side is open. -/
theorem instantiateMissing_faithful (hs : s.Ready) (hfresh : s.Fresh)
    (hrecord : (s.forest.kind that).isRecord = true) {lhs : TermId} (hlhs : lhs < s.forest.size)
    (label : String) :
    Faithful (· ≠ some false) (instantiateMissing inst pinned this that lhs label)
      (instantiateMissing inst' pinned this that lhs label) s := by
  have hthat := Forest.isClass_of_isRecord hrecord
  have hcalm := Forest.calm_of_isRecord hrecord
  refine .view (.ite (fun _ => .guard hs (by simp) fun b u h => ?_) fun _ =>
    .view (.ite (fun _ => .guard hs (by simp) fun b u h => ?_) fun _ => .pure hs _))
  · obtain ⟨c, s₁, hcopy, h⟩ := bind_eq_some.1 h
    obtain ⟨added, s₂, hadd, h⟩ := bind_eq_some.1 h
    obtain ⟨-, -, -, -, hrefreshed⟩ := freshCopy_proceeds hs.sound hlhs hcopy
    have hrecord₁ := isRecord_of_refreshed (hrefreshed that hthat.lt hcalm) hrecord
    rw [← (pure_eq_some.1 h).1, addField_answer hrecord₁ hadd]
    simp
  · replace h := of_bind_view h
    obtain ⟨error, s₁, halloc, h⟩ := bind_eq_some.1 h
    obtain ⟨changed, s₂, hrun, h⟩ := bind_eq_some.1 h
    obtain ⟨added, s₃, hadd, h⟩ := bind_eq_some.1 h
    obtain ⟨hp₁, hsteady, herror, -⟩ := alloc_error_proceeds hs.sound halloc
    have hs₁ : s₁.Ready := ⟨hp₁.sound, by rw [hp₁.probe, hs.commits]⟩
    have hs₁' := (alloc_eq_some.1 halloc).2
    have hfresh₁ : s₁.Fresh := by
      rw [hs₁'] at hsteady ⊢
      exact hfresh.of_proceeds hsteady
    have hrecord₁ : (s₁.forest.kind that).isRecord = true := by
      rw [hs₁', Forest.alloc, Forest.kind_add, if_neg (Nat.ne_of_lt hthat.lt), hrecord]
    rw [← (pure_eq_some.1 h).1]
    rcases hinst _ _ _ hs₁ hfresh₁ (Nat.lt_of_lt_of_le hlhs hsteady.size) herror.lt changed s₂ hrun with
      ⟨hidle, -⟩ | ⟨hchanged, -⟩
    · have hrefreshed := (hidle.calm hs₁ (Forest.calm_of_isRecord hrecord₁)).1
      rw [addField_answer (isRecord_of_refreshed hrefreshed hrecord₁) hadd]
      simp
    · rw [hchanged]
      simp

/-- How far an instantiation got shows that something was changed. -/
def SlotOutcome.Moved : SlotOutcome → Prop
  | .finished => True
  | .ongoing _ progress _ => progress = true

/-- After the child in one slot the use is looked up again, and the other slots follow. -/
def instantiateRest (run : TermId → TermId → UnifyM Bool) (pinned : List TermId)
    (this that : TermId) (rest : List Slot) (progress missing : Bool) : UnifyM SlotOutcome := do
  let that ← find that
  if (← kindOf that).isError then return .finished
  if progress && (← isProbe) then return .finished
  instantiateSlots run pinned this rest that progress missing

/-- The remaining slots report progress once some was made. -/
theorem instantiateRest_yields {rest : List Slot}
    (h : ∀ that missing, Yields SlotOutcome.Moved
      (instantiateSlots inst pinned this rest that true missing)) (that : TermId) (missing : Bool) :
    Yields SlotOutcome.Moved (instantiateRest inst pinned this that rest true missing) :=
  yields_bind fun that' => yields_bind fun _ => yields_ite (yields_pure trivial)
    (yields_bind fun _ => yields_ite (yields_pure trivial) (h that' missing))

/-- What was changed stays to be told while slots are gone through. -/
theorem instantiateSlots_yields (slots : List Slot) (this that : TermId) (missing : Bool) :
    Yields SlotOutcome.Moved (instantiateSlots inst pinned this slots that true missing) := by
  induction slots generalizing that missing with
  | nil => exact yields_pure rfl
  | cons slot rest ih =>
    refine yields_bind fun lhs? => ?_
    cases lhs? with
    | none => exact ih _ _
    | some lhs =>
      refine yields_bind fun rhs? => ?_
      have hnext : ∀ changed : Bool, Yields SlotOutcome.Moved
          (instantiateRest inst pinned this that rest (true || changed) (missing || rhs?.isNone)) :=
        fun _ => instantiateRest_yields ih that _
      cases rhs? with
      | some rhs =>
        exact yields_bind fun _ => yields_bind_option (yields_pure trivial) hnext
      | none =>
        cases slot with
        | field label => exact yields_bind_option (yields_pure trivial) hnext
        | _ => exact yields_bind_option (yields_pure trivial) hnext

/-- As long as nothing was changed the probe goes on to the other slots like the call. -/
theorem instantiateRest_faithful {rest : List Slot} {missing : Bool} (hs : s.Ready)
    (hthat : s.forest.IsClass that)
    (h : ∀ u, Idle s u → Faithful SlotOutcome.Moved
      (instantiateSlots inst pinned this rest that false missing)
      (instantiateSlots inst' pinned this rest that false missing) u) :
    Faithful SlotOutcome.Moved (instantiateRest inst pinned this that rest false missing)
      (instantiateRest inst' pinned this that rest false missing) s := by
  refine .observe (find_observes hs that) fun that' u hfind hidle => ?_
  have hthat' := (find_looks hs.sound hfind).1
  rw [hthat.rep_eq] at hthat'
  subst hthat'
  exact .view (.ite (fun _ => .pure hidle.ready _) fun _ => h u hidle)

/-- Only the children of records are in slots of fields. -/
theorem isRecord_of_field {k : Kind} {label : String} {t : TermId}
    (h : k.child? (.field label) = some t) : k.isRecord = true := by
  cases k with
  | record => rfl
  | _ => cases h

include hinst in
/-- The probe goes through the slots like the call up to the first child that is to be changed. -/
theorem instantiateSlots_faithful (slots : List Slot) (missing : Bool) (hs : s.Ready)
    (hfresh : s.Fresh) (hthis : s.forest.Calm this) (hthat : s.forest.IsClass that)
    (hcalm : s.forest.Calm that)
    (hshape : (s.forest.kind this).shape = (s.forest.kind that).shape) :
    Faithful SlotOutcome.Moved (instantiateSlots inst pinned this slots that false missing)
      (instantiateSlots inst' pinned this slots that false missing) s := by
  induction slots generalizing s that missing with
  | nil => exact .pure hs _
  | cons slot rest ih =>
    have hkeeps : ∀ {u}, Idle s u → u.forest.Calm this ∧ u.forest.IsClass that ∧
        u.forest.Calm that ∧ (u.forest.kind this).shape = (u.forest.kind that).shape := by
      intro u hidle
      obtain ⟨hrefreshed, hcalm'⟩ := hidle.calm hs hthis
      obtain ⟨hrefreshed', hcalm''⟩ := hidle.calm hs hcalm
      exact ⟨hcalm', hthat.of_steady (hidle.steady hs), hcalm'',
        by rw [hrefreshed.shape, hrefreshed'.shape, hshape]⟩
    have hih : ∀ {u} missing, Idle s u → Faithful SlotOutcome.Moved
        (instantiateSlots inst pinned this rest that false missing)
        (instantiateSlots inst' pinned this rest that false missing) u := by
      intro u missing hidle
      obtain ⟨hthis', hthat', hcalm', hshape'⟩ := hkeeps hidle
      exact ih missing hidle.ready (hidle.fresh hfresh) hthis' hthat' hcalm' hshape'
    refine .observe (child_observes hs this slot) fun lhs? s₁ hchild hidle₁ => ?_
    have hlhs := (child_looks hs.sound hchild).2
    cases lhs? with
    | none => exact hih _ hidle₁
    | some lhs =>
      refine .observe (child_observes hidle₁.ready that slot) fun rhs? s₂ hchild' hidle₂ => ?_
      have hidle₂ := hidle₁.trans hidle₂
      have hrhs := (child_looks hidle₁.ready.sound hchild').2
      have hlhs₂ : lhs < s₂.forest.size := by
        rw [hidle₂.upkeeps.size, ← hidle₁.upkeeps.size]
        exact (hlhs lhs rfl).lt
      have hyields : ∀ run : TermId → TermId → UnifyM Bool, Yields SlotOutcome.Moved
          (instantiateRest run pinned this that rest true (missing || rhs?.isNone)) := fun run =>
        instantiateRest_yields (instantiateSlots_yields rest this) that _
      have hrest : ∀ s₃, Idle s₂ s₃ → Faithful SlotOutcome.Moved
          (instantiateRest inst pinned this that rest false (missing || rhs?.isNone))
          (instantiateRest inst' pinned this that rest false (missing || rhs?.isNone)) s₃ := by
        intro s₃ hidle₃
        have hidle₃ := hidle₂.trans hidle₃
        exact instantiateRest_faithful hidle₃.ready (hkeeps hidle₃).2.1
          fun s₄ hidle₄ => hih _ (hidle₃.trans hidle₄)
      cases rhs? with
      | some rhs =>
        refine .bind (hinst s₂ lhs rhs hidle₂.ready (hidle₂.fresh hfresh) hlhs₂ (hrhs rhs rfl).lt)
          (fun changed s₃ _ hidle₃ hchanged => ?_) ?_ ?_
        · rw [Bool.not_eq_true] at hchanged
          subst hchanged
          exact hrest s₃ hidle₃
        · rintro _ rfl
          exact hyields inst
        · rintro _ rfl
          exact hyields inst'
      | none =>
        cases slot with
        | field label =>
          have hrecord : (s₂.forest.kind that).isRecord = true := by
            obtain ⟨raw, hraw, -⟩ := Option.map_eq_some_iff.1 (child_eq hs.sound hchild).symm
            rw [Kind.isRecord_iff_shape, ← (hkeeps hidle₂).2.2.2, (hidle₂.calm hs hthis).1.shape,
              ← Kind.isRecord_iff_shape]
            exact isRecord_of_field hraw
          refine .bind (instantiateMissing_faithful hinst hidle₂.ready (hidle₂.fresh hfresh) hrecord
            hlhs₂ label) (fun changed? s₃ _ hidle₃ hchanged => ?_)
            (yields_of_ne_false (yields_pure trivial) (hyields inst))
            (yields_of_ne_false (yields_pure trivial) (hyields inst'))
          rw [not_not] at hchanged
          subst hchanged
          exact hrest s₃ hidle₃
        | _ => exact hrest s₂ (.refl hidle₂.ready)

/-- The first field beyond those of the definition is dropped unless it is kept, and the others
follow. -/
def dropUnless (this that : TermId) (label : String) (rest : List String) (progress keep : Bool) :
    UnifyM (Option Bool) := do
  if keep then dropExtra this that rest progress
  else if ← isProbe then return none
  else
    let changed ← dropField that label
    dropExtra this that rest (progress || changed)

/-- So does dropping what a closed definition lacks. -/
theorem dropExtra_yields (labels : List String) :
    Yields (· ≠ some false) (dropExtra this that labels true) := by
  induction labels with
  | nil => exact yields_pure (by simp)
  | cons label rest ih =>
    have hrest : ∀ keep : Bool, Yields (· ≠ some false) (dropUnless this that label rest true keep) :=
      fun keep =>
      yields_ite ih (yields_bind fun probing => yields_ite (yields_pure (by simp))
        (yields_bind fun changed => ih))
    refine yields_bind fun k => yields_ite ih (yields_bind fun child? => ?_)
    cases child? with
    | none => exact yields_bind fun _ => hrest _
    | some x => exact yields_bind fun _ => yields_bind fun _ => hrest _

/-- Dropping a field that is there makes progress. -/
theorem dropField_answer {label : String} {b : Bool} (hrecord : (s.forest.kind that).isRecord = true)
    (hlabel : ((s.forest.kind that).child? (.field label)).isSome = true)
    (h : dropField that label s = some (b, u)) : b = true := by
  obtain ⟨v, s₁, hwake, h⟩ := bind_eq_some.1 h
  obtain rfl := wake_eq_some.1 hwake
  replace h := of_bind_view h
  cases hk : s.forest.kind that with
  | record fields sites isOpen nil =>
    rw [hk] at hlabel
    simp only [hk] at h
    rw [if_pos (by exact hlabel)] at h
    obtain ⟨v', s₂, -, h⟩ := bind_eq_some.1 h
    exact (pure_eq_some.1 h).1.symm
  | _ =>
    rw [hk] at hrecord
    cases hrecord

/-- The first field that the use has to lose is seen by the probe. -/
theorem dropExtra_faithful (labels : List String) (hs : s.Ready)
    (hrecord : (s.forest.kind that).isRecord = true)
    (hlabels : ∀ l ∈ labels, ((s.forest.kind that).child? (.field l)).isSome = true) :
    Faithful (· ≠ some false) (dropExtra this that labels false) (dropExtra this that labels false)
      s := by
  induction labels generalizing s with
  | nil => exact .pure hs _
  | cons label rest ih =>
    have hthat := Forest.isClass_of_isRecord hrecord
    have hcalm := Forest.calm_of_isRecord hrecord
    have hkeeps : ∀ {u}, Idle s u → (u.forest.kind that).isRecord = true ∧
        ∀ l ∈ label :: rest, ((u.forest.kind that).child? (.field l)).isSome = true := by
      intro u hidle
      obtain ⟨hrefreshed, -⟩ := hidle.calm hs hcalm
      refine ⟨isRecord_of_refreshed hrefreshed hrecord, fun l hl => ?_⟩
      rw [hrefreshed.isSome_child?, hlabels l hl]
    have hih : ∀ {u}, Idle s u → Faithful (· ≠ some false) (dropExtra this that rest false)
        (dropExtra this that rest false) u := fun hidle =>
      ih hidle.ready (hkeeps hidle).1 fun l hl => (hkeeps hidle).2 l (List.mem_cons_of_mem _ hl)
    refine .view (.ite (fun _ => hih (.refl hs)) fun _ => ?_)
    refine .observe (child_observes hs that (.field label)) fun child? s₁ _ hidle₁ => ?_
    have hrest : ∀ keep : Bool, Faithful (· ≠ some false)
        (dropUnless this that label rest false keep) (dropUnless this that label rest false keep)
        s₁ := fun keep => by
      refine .ite (fun _ => hih hidle₁) fun _ => .guard hidle₁.ready (by simp) fun b u h => ?_
      obtain ⟨changed, s₂, hdrop, h⟩ := bind_eq_some.1 h
      obtain ⟨hrecord₁, hlabels₁⟩ := hkeeps hidle₁
      rw [dropField_answer hrecord₁ (hlabels₁ label List.mem_cons_self) hdrop] at h
      exact dropExtra_yields rest _ _ _ h
    cases child? with
    | none => exact hrest false
    | some x => exact hrest (s₁.forest.kind x).isError

private theorem refine_faithful (hs : s.Ready) :
    Faithful (· = true) (refine this that) (refine this that) s := by
  refine .view (.view ?_)
  cases refinedKind? (s.forest.kind this) (s.forest.kind that) with
  | none => exact .pure hs _
  | some kind =>
    refine .guard hs rfl fun b u h => ?_
    obtain ⟨v, s₁, -, h⟩ := bind_eq_some.1 h
    obtain ⟨v', s₂, -, h⟩ := bind_eq_some.1 h
    exact (pure_eq_some.1 h).1.symm

include hinst in
/-- Two types of one shape are gone through slot by slot. -/
theorem instantiateChildren_faithful (hs : s.Ready) (hfresh : s.Fresh)
    (hthis : s.forest.IsClass this) (hthat : s.forest.IsClass that) (hcalm : s.forest.Calm this)
    (hcalm' : s.forest.Calm that)
    (hshape : (s.forest.kind this).shape = (s.forest.kind that).shape) :
    Faithful (· = true) (instantiateChildren inst pinned this that)
      (instantiateChildren inst' pinned this that) s := by
  refine .view (.view (.ite (fun _ => setImage_pure_faithful hs hthis.lt hthat.lt) fun _ => ?_))
  refine .observe (setImage_observes hs hthis.lt hthat.lt) fun v s₁ hset hidle₁ => ?_
  have hforest : s₁.forest = s.forest := (setImage_proceeds hs.sound hthat.lt hset).2
  have hrefined : ∀ that', Yields (· = true) (do
      let refined ← refine this that'
      return true || refined) := fun that' => yields_bind fun refined => yields_pure rfl
  have hlast : ∀ (that' : TermId) (s₂ : Unifier), s₂.Ready → Faithful (· = true) (do
        let refined ← refine this that'
        return false || refined)
      (do
        let refined ← refine this that'
        return false || refined) s₂ := by
    intro that' s₂ hs₂
    refine .bind_same (refine_faithful hs₂) (fun refined s₃ _ hidle₃ _ => .pure hidle₃.ready _) ?_
    rintro _ rfl
    exact yields_pure rfl
  rw [← hforest] at hthat hcalm hcalm' hshape
  refine .bind_same (instantiateSlots_faithful hinst _ _ hidle₁.ready (hidle₁.fresh hfresh) hcalm
    hthat hcalm' hshape) (fun outcome s₂ _ hidle₂ hmoved => ?_) fun outcome hmoved => ?_
  · cases outcome with
    | finished => exact absurd trivial hmoved
    | ongoing that' progress missing =>
      -- After the slots, fields that the use has to lose and marks are looked at.
      obtain rfl : progress = false := Bool.not_eq_true _ ▸ hmoved
      refine .view (.view (.ite (fun hcase => .view ?_) fun _ => hlast that' s₂ hidle₂.ready))
      rw [Bool.and_eq_true] at hcase
      refine .bind_same (dropExtra_faithful _ hidle₂.ready hcase.2 fun l hl =>
        Kind.isSome_child?_of_mem_labels hl) (fun progress? s₃ _ hidle₃ hprogress => ?_)
        (yields_of_ne_false (yields_pure rfl) (hrefined that'))
      rw [not_not] at hprogress
      subst hprogress
      exact hlast that' s₃ hidle₃.ready
  · cases outcome with
    | finished => exact yields_pure rfl
    | ongoing that' progress missing =>
      obtain rfl : progress = true := hmoved
      exact yields_bind fun k => yields_bind fun k' => yields_ite
        (yields_bind fun k'' => (dropExtra_yields _).bind
          (yields_of_ne_false (yields_pure rfl) (hrefined that'))) (hrefined that')

private theorem shared_observes (hs : s.Ready) : Observes (kindOf this >>= fun k =>
    if k.isError then pure true else occursInAny this pinned) s := by
  intro a u h
  refine ⟨.of_looks hs (shared_looks hs.sound h), ?_⟩
  replace h := of_bind_view h
  show (if (s.forest.kind this).isError then pure true else occursInAny this pinned) s.probing = _
  rcases ite_eq_some.1 h with ⟨herror, h⟩ | ⟨herror, h⟩
  · obtain ⟨rfl, rfl⟩ := pure_eq_some.1 h
    rw [if_pos herror]
    rfl
  · rw [if_neg herror]
    exact (onForest_observes (Forest.keepsUp_occursInAny _ _) hs _ _ h).2

include hinst in
/-- Two types that are known and not both flows meet by their shapes. -/
theorem instantiateKnown_faithful (hvars : KnownVar inst) (hs : s.Ready) (hfresh : s.Fresh)
    (hthis : s.forest.IsClass this) (hthat : s.forest.IsClass that) (hcalm : s.forest.Calm this)
    (hcalm' : s.forest.Calm that) (hnew : s.image.lookup this = none)
    (hkthis : s.forest.kind this ≠ .var) : Faithful (· = true)
      (if (s.forest.kind this).isNilable && !(s.forest.kind that).isNilable then
        instantiateNilable that
      else if (s.forest.kind that).isNilable && !(s.forest.kind this).isNilable then
        instantiateInner inst this that
      else if (s.forest.kind this).shape ≠ (s.forest.kind that).shape then
        reject (unifyWithin depth) this that
      else instantiateChildren inst pinned this that)
      (if (s.forest.kind this).isNilable && !(s.forest.kind that).isNilable then
        instantiateNilable that
      else if (s.forest.kind that).isNilable && !(s.forest.kind this).isNilable then
        instantiateInner inst' this that
      else if (s.forest.kind this).shape ≠ (s.forest.kind that).shape then
        reject (unifyWithin depth') this that
      else instantiateChildren inst' pinned this that) s := by
  refine .ite (fun _ => instantiateNilable_faithful hs) fun _ => .ite (fun hnilable => ?_) fun _ =>
    .ite (fun _ => reject_faithful hs hfresh hthat) fun hshape =>
      instantiateChildren_faithful hinst hs hfresh hthis hthat hcalm hcalm' (not_not.1 hshape)
  rw [Bool.and_eq_true] at hnilable
  refine .guard hs rfl fun b u h => ?_
  have hinner : instantiateInner inst this that s = some (b, u) := by
    refine bind_eq_some.2 ⟨_, _, isProbe_eq_some.2 ⟨rfl, rfl⟩, ?_⟩
    rwa [hs.commits, if_neg Bool.false_ne_true]
  exact instantiateInner_yields hvars hs hfresh hthis hcalm' hnew hkthis hnilable.1 hinner

include hinst in
/-- One layer of instantiation is foretold if the next one is. -/
theorem instantiateStep_foretold (hvars : KnownVar inst) :
    Foretold (instantiateStep inst (unifyWithin depth) pinned)
      (instantiateStep inst' (unifyWithin depth') pinned) := by
  intro s x y hs hfresh hx hy
  refine .observe (find_observes hs x) fun this s₁ hfind hidle₁ => ?_
  refine .observe (find_observes hidle₁.ready y) fun that s₂ hfind' hidle₂ => ?_
  obtain ⟨-, hcalm, -, hthis, hthat⟩ := find_both hs.sound hx hy hfind hfind'
  have hidle₂ := hidle₁.trans hidle₂
  have hfresh₂ := hidle₂.fresh hfresh
  refine .observe (imageOf_observes hidle₂.ready this) fun image? s₃ himage hidle₃ => ?_
  obtain ⟨rfl, rfl⟩ := imageOf_eq_some.1 himage
  cases hprior : s₂.image.lookup this with
  | some prior =>
    have hlt := hidle₂.ready.sound.image_lt hprior
    refine .observe (find_observes hidle₂.ready prior) fun prior' s₄ hfind hidle₄ => ?_
    have hprior' := isClass_of_find hidle₂.ready.sound hlt hfind
    exact unifyWithin_foretold depth depth' s₄ prior' that hidle₄.ready (hidle₄.fresh hfresh₂)
      hprior'.lt (hthat.of_steady (hidle₄.steady hidle₂.ready)).lt
  | none =>
    have hset : ∀ {u}, Idle s₂ u → Faithful (· = true)
        (setImage this that >>= fun _ => pure false) (setImage this that >>= fun _ => pure false) u :=
      fun hidle => setImage_pure_faithful hidle.ready (hthis.of_steady (hidle.steady hidle₂.ready)).lt
        (hthat.of_steady (hidle.steady hidle₂.ready)).lt
    refine .observe (onForest_observes (Forest.keepsUp_alike this that) hidle₂.ready)
      fun alike s₄ halike hidle₄ => ?_
    refine .ite (fun _ => hset hidle₄) fun _ => .view (.ite (fun _ => hset hidle₄) fun _ => ?_)
    refine .observe (shared_observes hidle₄.ready) fun shared s₅ hshared hidle₅ => ?_
    have himage₅ : s₅.image.lookup this = none := by
      rw [(shared_looks hidle₄.ready.sound hshared).image,
        (looks_onForest (Forest.keepsUp_alike _ _) hidle₂.ready.sound halike).image, hprior]
    have hidle₅ := hidle₄.trans hidle₅
    have hsteady := hidle₅.steady hidle₂.ready
    have hfresh₅ := hidle₅.fresh hfresh₂
    have hthis := hthis.of_steady hsteady
    have hthat := hthat.of_steady hsteady
    refine .ite (fun _ => ?_) fun _ => .view (.view (.ite (fun _ => hset hidle₅) fun hvar => ?_))
    · -- The definition is an error or pinned: it is unified as it is.
      refine .bind_same (unifyWithin_foretold depth depth' s₅ this that hidle₅.ready hfresh₅ hthis.lt
        hthat.lt) (fun progress s₆ _ hidle₆ _ => setImage_pure_faithful hidle₆.ready
          (hthis.of_steady (hidle₆.steady hidle₅.ready)).lt
          (hthat.of_steady (hidle₆.steady hidle₅.ready)).lt) ?_
      rintro _ rfl
      exact yields_bind fun _ => yields_pure rfl
    rw [Kind.isVar_iff] at hvar
    refine .ite (fun huse => .guard hidle₅.ready rfl fun b u h => ?_) fun _ => ?_
    · rw [Kind.isVar_iff] at huse
      refine instantiateVar_yields hidle₅.ready.sound hthis hthat himage₅ (fun heq => ?_) h
      rw [heq] at hvar
      exact hvar huse
    have hcalm₅ := (hidle₅.calm hidle₂.ready hcalm.1).2
    have hcalm₅' := (hidle₅.calm hidle₂.ready hcalm.2).2
    cases ha : (s₅.forest.kind this).baseFlow? with
    | none =>
      exact instantiateKnown_faithful hinst hvars hidle₅.ready hfresh₅ hthis hthat hcalm₅ hcalm₅'
        himage₅ hvar
    | some a =>
      cases hb : (s₅.forest.kind that).baseFlow? with
      | none =>
        exact instantiateKnown_faithful hinst hvars hidle₅.ready hfresh₅ hthis hthat hcalm₅ hcalm₅'
          himage₅ hvar
      | some b => exact instantiateBase_faithful hidle₅.ready hfresh₅ hthis hthat a b

end Use

/-- Instantiations nested less than any depth know variables of the definition. -/
theorem instantiateWithin_knownVar (pinned : List TermId) (depth : Nat) :
    KnownVar (instantiateWithin pinned depth) := by
  cases depth with
  | zero => exact fun s a b r u _ _ _ _ _ _ _ h => (failure_eq_some.1 h).elim
  | succ depth => exact instantiateStep_knownVar

/-- Probes of nested instantiations tell of what is changed. -/
theorem instantiateWithin_foretold (pinned : List TermId) (depth depth' : Nat) :
    Foretold (instantiateWithin pinned depth) (instantiateWithin pinned depth') := by
  induction depth generalizing depth' with
  | zero => exact fun s a b _ _ _ _ r u h => (failure_eq_some.1 h).elim
  | succ depth ih =>
    cases depth' with
    | zero =>
      intro s a b hs hfresh ha hb
      have hself : Faithful (· = true) (instantiateWithin pinned (depth + 1) a b)
          (instantiateWithin pinned (depth + 1) a b) s :=
        instantiateStep_foretold (ih depth) (instantiateWithin_knownVar pinned depth) s a b hs hfresh
          ha hb
      exact hself.of_failure
    | succ depth' => exact instantiateStep_foretold (ih depth') (instantiateWithin_knownVar pinned depth)

/-- A probe of an instantiation reports progress exactly if a change is made. -/
theorem instantiate_faithful {depth depth' : Nat} {definition use : TermId} {pinned : List TermId}
    (hs : s.Ready) (hdefinition : definition < s.forest.size) (huse : use < s.forest.size) :
    Faithful (· = true) (instantiate depth definition use pinned)
      (instantiate depth' definition use pinned) s := by
  have hforget : Observes (modify fun s : Unifier => { s with met := [], image := [] }) s := by
    intro v u h
    obtain rfl := modify_eq_some.1 h
    exact ⟨⟨.refl, ⟨⟨hs.sound.forest, fun p hp => absurd hp List.not_mem_nil⟩, hs.commits⟩,
      fun _ => ⟨rfl, fun p hp => absurd hp List.not_mem_nil⟩⟩, rfl⟩
  refine .observe hforget fun v u h hidle => ?_
  obtain rfl := modify_eq_some.1 h
  exact instantiateWithin_foretold pinned depth depth' _ _ _ hidle.ready
    ⟨rfl, fun p hp => absurd hp List.not_mem_nil⟩ hdefinition huse

namespace Call

/-- Calls are ready at first. -/
theorem ready_start {f : Forest} (hf : f.Sound) (work : Worklist) : (start f (some work)).Ready :=
  ⟨sound_start hf _, rfl⟩

private theorem run_faithful {call : Call} {depth depth' : Nat} (hs : s.Ready)
    (hterms : ∀ t ∈ call.terms, t < s.forest.size) :
    Faithful (· = true) (call.run depth) (call.run depth') s := by
  cases call with
  | unify a b =>
    exact unify_faithful hs (hterms a List.mem_cons_self)
      (hterms b (List.mem_cons_of_mem _ List.mem_cons_self))
  | instantiate definition use pinned =>
    exact instantiate_faithful hs (hterms definition List.mem_cons_self)
      (hterms use (List.mem_cons_of_mem _ List.mem_cons_self))

private theorem run_spares (call : Call) (depth : Nat) : Keeps Spares (call.run depth) := by
  cases call with
  | unify a b => exact spares_unify depth a b
  | instantiate definition use pinned => exact spares_instantiate depth definition use pinned

end Call

end Unifier

namespace Forest

open Unifier (Call)

variable {f g : Forest}

/-- Look-ups tidied the forest up, and nothing else happened to it. -/
structure Preserved (f g : Forest) : Prop where
  upkeeps : f.Upkeeps g
  size : g.size = f.size
  unions : g.unions = f.unions
  rep : ∀ t, g.rep t = f.rep t
  /-- Links and wrappers of known types aside, kinds only got their children looked up. -/
  kind : ∀ c, f.Calm c → (f.kind c).Refreshed f.rep (g.kind c)

/-- Tidying up preserves a forest. -/
theorem Sound.preserved (hf : f.Sound) (h : f.Upkeeps g) : f.Preserved g where
  upkeeps := h
  size := h.size
  unions := h.unions
  rep := (h.steady hf.rooted).rep
  kind _ hc := (h.calm hf.rooted hc).1

/-- Whatever operations led to a forest, a call that only probes tidies the forest up at most.  A
call that may change something answers what its probe answers, and if that is `false` it tidied up at
most, too.  Unifications answer whether their terms were two classes, which then are one. -/
theorem calls_faithful {ops : List Operation} (hf : performAll ops empty = some f) {call : Call}
    (hterms : ∀ t ∈ call.terms, t < f.size) :
    (∀ depth r v, call.run depth (Call.start f none) = some (r, v) → f.Preserved v.forest) ∧
      ∀ depth work r u, call.run depth (Call.start f (some work)) = some (r, u) →
        (∀ depth' r' v, call.run depth' (Call.start f none) = some (r', v) → r' = r) ∧
          (r = false → f.Preserved u.forest) ∧
          ∀ a b, call = .unify a b → (r = true ↔ f.rep a ≠ f.rep b) ∧
            u.forest.rep a = u.forest.rep b ∧
            ∀ depth' work' r' v,
              call.run depth' (Call.start u.forest work') = some (r', v) → r' = false := by
  have hsound := performAll_sound hf
  refine ⟨fun depth r v h => ?_, fun depth work r u h => ⟨fun depth' r' v h' => ?_, ?_, ?_⟩⟩
  · exact hsound.preserved (call.run_spares depth _ _ _ h rfl hsound.rooted).1
  · rcases call.run_faithful (Call.ready_start hsound work) hterms r u h with
      ⟨-, hsame⟩ | ⟨hmoved, hsame⟩
    · exact (hsame r' v h').1
    · rw [hsame r' v h', hmoved]
  · rintro rfl
    have hself : Unifier.Faithful (· = true) (call.run depth) (call.run depth)
        (Call.start f (some work)) := call.run_faithful (Call.ready_start hsound work) hterms
    rcases hself false u h with ⟨hidle, -⟩ | ⟨hmoved, -⟩
    · exact hsound.preserved hidle.upkeeps
    · cases hmoved
  · rintro a b rfl
    have hs := Call.sound_start hsound (some work)
    have ha : a < f.size := hterms a List.mem_cons_self
    have hb : b < f.size := hterms b (List.mem_cons_of_mem _ List.mem_cons_self)
    obtain ⟨hproceeds, hjoined⟩ := Unifier.unify_proceeds hs ha hb h
    refine ⟨?_, hjoined rfl, fun depth' work' r' v h' => ?_⟩
    · rcases Unifier.unify_answer hs ha hb h with ⟨rfl, hne⟩ | ⟨rfl, -, heq⟩
      · exact ⟨fun _ => hne, fun _ => rfl⟩
      · exact ⟨fun hfalse => (Bool.false_ne_true hfalse).elim, fun hne => absurd heq hne⟩
    · exact (Unifier.unify_same (Call.sound_start hproceeds.sound.forest work')
        (hproceeds.lt hs ha) (hproceeds.lt hs hb) (hjoined rfl) h').1

/-- A nilable wrapper and a function that takes what it wraps: both a call and its probe answer that
there is something to change, and the call leaves nothing to change. -/
theorem calls_faithful_cycle : ∃ f u,
    performAll [.var, .var, .function false .empty [0] 1, .nilable 0] empty = some f ∧
      (Call.unify 3 2).run 5 (Call.start f (some .empty)) = some (true, u) ∧
      (∃ v, (Call.unify 3 2).run 5 (Call.start f none) = some (true, v) ∧ f.Preserved v.forest) ∧
      f.rep 3 ≠ f.rep 2 ∧ u.forest.rep 3 = u.forest.rep 2 ∧
      ∃ v, (Call.unify 3 2).run 5 (Call.start u.forest none) = some (false, v) := by
  have hrun : ((performAll [.var, .var, .function false .empty [0] 1, .nilable 0] empty).bind
      fun f => ((Call.unify 3 2).run 5 (Call.start f none)).bind fun v =>
        ((Call.unify 3 2).run 5 (Call.start f (some .empty))).bind fun u =>
          ((Call.unify 3 2).run 5 (Call.start u.2.forest none)).map fun w =>
            (v.1, u.1, w.1, f.size)) =
        some (true, true, false, 4) := by
    decide +kernel
  obtain ⟨f, hf, hrun⟩ := Option.bind_eq_some_iff.1 hrun
  obtain ⟨⟨r', v⟩, hprobe, hrun⟩ := Option.bind_eq_some_iff.1 hrun
  obtain ⟨⟨r, u⟩, hcall, hrun⟩ := Option.bind_eq_some_iff.1 hrun
  obtain ⟨⟨r'', w⟩, hagain, hanswers⟩ := Option.map_eq_some_iff.1 hrun
  simp only [Prod.mk.injEq] at hanswers
  obtain ⟨rfl, rfl, rfl, hsize⟩ := hanswers
  have hterms : ∀ t ∈ (Call.unify 3 2).terms, t < f.size := by
    rw [hsize]
    decide
  obtain ⟨hspares, hcalls⟩ := calls_faithful hf hterms
  obtain ⟨-, -, hunify⟩ := hcalls _ _ _ _ hcall
  obtain ⟨hanswer, hjoined, -⟩ := hunify 3 2 rfl
  exact ⟨f, u, hf, hcall, ⟨v, hprobe, hspares _ _ _ hprobe⟩, hanswer.1 rfl, hjoined, w, hagain⟩

end Forest

end TypeFlow
