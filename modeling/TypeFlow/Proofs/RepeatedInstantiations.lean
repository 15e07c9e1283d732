import TypeFlow.Proofs.FaithfulInstantiations
import TypeFlow.Proofs.Repetitions

/-!
# Instantiations made again

An instantiation that reports no progress has only looked classes up.  When it is made again, every look-up
answers what it answered before, so it goes the same way again and reports no progress, be it a probe or
not, and however often it is repeated.

Main results:

- `Unifier.instantiate_recurs`: an instantiation that reports no progress reports none again.
-/

namespace TypeFlow

open Forest (IsClass Steady)

namespace Unifier

variable {α β : Type} {s t u : Unifier}

/-! ## Instantiations -/

section Use

variable {inst inst' : TermId → TermId → UnifyM Bool} (hinst : Foretold inst inst)
  (hagain : Repeated inst inst') {depth depth' : Nat} {pinned : List TermId} {this that : TermId}

private theorem setImage_pure_recurs (hs : s.Ready) {x c : TermId} {b : Bool} (hx : x < s.forest.size)
    (hc : c < s.forest.size) : Recurs (· = true) (setImage x c >>= fun _ => pure b)
      (setImage x c >>= fun _ => pure b) s :=
  .see (setImage_sees hs hx hc) fun _ _ _ hidle => .pure hidle.ready b

private theorem reject_recurs (hs : s.Ready) (hfresh : s.Fresh) (hthat : s.forest.IsClass that)
    {m : UnifyM Bool} : Recurs (· = true) (reject (unifyWithin depth) this that) m s :=
  .of_probe (reject_faithful hs hfresh hthat) (rfl : _ = some (true, s.probing)) rfl

private theorem instantiateBase_recurs (hs : s.Ready) (hfresh : s.Fresh) (hthis : s.forest.IsClass this)
    (hthat : s.forest.IsClass that) (a b : Flow) :
    Recurs (· = true) (instantiateBase (unifyWithin depth) this that a b)
      (instantiateBase (unifyWithin depth') this that a b) s := by
  refine .ite Iff.rfl (fun _ => reject_recurs hs hfresh hthat) fun hkind => .ite Iff.rfl (fun _ => ?_)
    fun hmeet => ?_
  · exact setImage_pure_recurs hs hthis.lt hthat.lt
  · refine .of_yields (yields_bind fun probing => yields_ite (yields_pure rfl) ?_)
    exact yields_bind fun _ => yields_bind fun _ => yields_bind fun _ => yields_pure rfl

private theorem instantiateNilable_recurs (hs : s.Ready) (hcalm : s.forest.Calm that) :
    Recurs (· = true) (instantiateNilable that) (instantiateNilable that) s := by
  refine .kindOf hs hcalm fun k hk => .ite (by rw [hk.mayNil]) (fun _ => .pure hs false) fun _ => ?_
  refine .of_yields (yields_bind fun probing => yields_ite (yields_pure rfl) ?_)
  exact yields_bind fun _ => yields_bind fun _ => yields_pure rfl

include hinst in
private theorem instantiateMissing_recurs (hs : s.Ready) (hfresh : s.Fresh)
    (hrecord : (s.forest.kind that).isRecord = true) (hcalm : s.forest.Calm this) {lhs : TermId}
    (hlhs : lhs < s.forest.size) (label : String) :
    Recurs (· ≠ some false) (instantiateMissing inst pinned this that lhs label)
      (instantiateMissing inst' pinned this that lhs label) s := by
  have hfaithful : Faithful (· ≠ some false) (instantiateMissing inst pinned this that lhs label)
      (instantiateMissing inst pinned this that lhs label) s :=
    instantiateMissing_faithful hinst hs hfresh hrecord hlhs label
  -- If one side is open the probe stops, so the call changes something.
  cases hopen : (s.forest.kind that).isOpen with
  | true =>
    refine .of_probe hfaithful (v := s.probing) (b := none) ?_ (by simp)
    refine bind_eq_some.2 ⟨_, _, view_eq_some.2 ⟨rfl, rfl⟩, ?_⟩
    rw [if_pos (by exact hopen)]
    rfl
  | false =>
    cases hopen' : (s.forest.kind this).isOpen with
    | true =>
      refine .of_probe hfaithful (v := s.probing) (b := none) ?_ (by simp)
      refine bind_eq_some.2 ⟨_, _, view_eq_some.2 ⟨rfl, rfl⟩, ?_⟩
      rw [if_neg (by rw [show s.probing.forest = s.forest from rfl, hopen]; exact Bool.false_ne_true)]
      refine bind_eq_some.2 ⟨_, _, view_eq_some.2 ⟨rfl, rfl⟩, ?_⟩
      rw [if_pos (by exact hopen')]
      rfl
    | false =>
      refine .kindOf hs (Forest.calm_of_isRecord hrecord) fun k hk => ?_
      refine .ite (by rw [hk.isOpen]) (fun h => absurd (hopen.symm.trans h) Bool.false_ne_true)
        fun _ => .kindOf hs hcalm fun k' hk' => ?_
      exact .ite (by rw [hk'.isOpen]) (fun h => absurd (hopen'.symm.trans h) Bool.false_ne_true)
        fun _ => .pure hs _

private theorem instantiateRest_recurs {rest : List Slot} {missing : Bool} (hs : s.Ready)
    (hthat : s.forest.IsClass that) (h : ∀ u, Idle s u → Recurs SlotOutcome.Moved
      (instantiateSlots inst pinned this rest that false missing)
      (instantiateSlots inst' pinned this rest that false missing) u) :
    Recurs SlotOutcome.Moved (instantiateRest inst pinned this that rest false missing)
      (instantiateRest inst' pinned this that rest false missing) s := by
  refine .see (find_sees hs that) fun that' u hfind hidle => ?_
  have hcalm := calm_of_find hs.sound hfind
  have hthat' := (find_looks hs.sound hfind).1
  rw [hthat.rep_eq] at hthat'
  subst hthat'
  refine .kindOf hidle.ready hcalm fun k hk => .ite (by rw [hk.isError]) (fun _ => .pure hidle.ready _)
    fun _ => .probe hidle.ready fun probing => ?_
  rw [Bool.false_and, Bool.false_and, if_neg Bool.false_ne_true, if_neg Bool.false_ne_true]
  exact h u hidle

/-- A definition and a use of one shape, both looked up. -/
structure Aligned (this that : TermId) (s : Unifier) : Prop where
  ready : s.Ready
  fresh : s.Fresh
  definition : s.forest.Calm this
  isClass : s.forest.IsClass that
  use : s.forest.Calm that
  shape : (s.forest.kind this).shape = (s.forest.kind that).shape

namespace Aligned

private theorem idle (h : Aligned this that s) (hidle : Idle s u) : Aligned this that u := by
  obtain ⟨hrefreshed, hdefinition⟩ := hidle.calm h.ready h.definition
  obtain ⟨hrefreshed', huse⟩ := hidle.calm h.ready h.use
  exact ⟨hidle.ready, hidle.fresh h.fresh, hdefinition, h.isClass.of_steady (hidle.steady h.ready),
    huse, by rw [hrefreshed.shape, hrefreshed'.shape, h.shape]⟩

/-- What is of the shape of a record is one. -/
theorem isRecord {label : String} {lhs : TermId} (h : Aligned this that s)
    (hchild : child this (.field label) s = some (some lhs, u)) :
    (s.forest.kind that).isRecord = true := by
  obtain ⟨raw, hraw, -⟩ := Option.map_eq_some_iff.1 (child_eq h.ready.sound hchild).symm
  rw [Kind.isRecord_iff_shape, ← h.shape, ← Kind.isRecord_iff_shape]
  exact isRecord_of_field hraw

end Aligned

include hinst hagain in
/-- As long as nothing is changed all slots are gone through again. -/
theorem instantiateSlots_recurs (slots : List Slot) (missing : Bool) (hs : Aligned this that s) :
    Recurs SlotOutcome.Moved (instantiateSlots inst pinned this slots that false missing)
      (instantiateSlots inst' pinned this slots that false missing) s := by
  induction slots generalizing s missing with
  | nil => exact .pure hs.ready _
  | cons slot rest ih =>
    refine .see (child_sees hs.ready hs.definition slot) fun lhs? s₁ hchild hidle₁ => ?_
    have hs₁ := hs.idle hidle₁
    have hlhs := (child_looks hs.ready.sound hchild).2
    cases lhs? with
    | none => exact ih _ hs₁
    | some lhs =>
      refine .see (child_sees hs₁.ready hs₁.use slot) fun rhs? s₂ hchild' hidle₂ => ?_
      have hs₂ := hs₁.idle hidle₂
      have hrhs := (child_looks hs₁.ready.sound hchild').2
      have hlhs₂ := hidle₂.upkeeps.size.symm ▸ (hlhs lhs rfl).lt
      have hyields : Yields SlotOutcome.Moved
          (instantiateRest inst pinned this that rest true (missing || rhs?.isNone)) :=
        instantiateRest_yields (instantiateSlots_yields rest this) that _
      have hrest : ∀ s₃, Idle s₂ s₃ → Recurs SlotOutcome.Moved
          (instantiateRest inst pinned this that rest false (missing || rhs?.isNone))
          (instantiateRest inst' pinned this that rest false (missing || rhs?.isNone)) s₃ :=
        fun s₃ hidle₃ => instantiateRest_recurs hidle₃.ready (hs₂.idle hidle₃).isClass
          fun s₄ hidle₄ => ih _ ((hs₂.idle hidle₃).idle hidle₄)
      cases rhs? with
      | some rhs =>
        refine .bind (hagain s₂ lhs rhs hs₂.ready hs₂.fresh hlhs₂ (hrhs rhs rfl).lt)
          (fun changed s₃ _ hidle₃ hchanged => ?_) ?_
        · rw [Bool.not_eq_true] at hchanged
          subst hchanged
          exact hrest s₃ hidle₃
        · rintro _ rfl
          exact hyields
      | none =>
        cases slot with
        | field label =>
          have hrecord := isRecord_of_refreshed
            ((hidle₁.trans hidle₂).calm hs.ready hs.use).1 (hs.isRecord hchild)
          refine .bind (instantiateMissing_recurs hinst hs₂.ready hs₂.fresh hrecord hs₂.definition hlhs₂
            label) (fun changed? s₃ _ hidle₃ hchanged => ?_)
            (yields_of_ne_false (yields_pure trivial) hyields)
          rw [not_not] at hchanged
          subst hchanged
          exact hrest s₃ hidle₃
        | _ => exact hrest s₂ (.refl hs₂.ready)

/-- If the slots that are left are gone through to the end then of the use as it was. -/
theorem slots_of_instantiateRest {rest : List Slot} {progress missing progress' missing' : Bool}
    {that' : TermId} (hs : s.Ready) (hthat : s.forest.IsClass that)
    (h : instantiateRest inst pinned this that rest progress missing s =
      some (.ongoing that' progress' missing', u)) :
    ∃ v, Idle s v ∧ instantiateSlots inst pinned this rest that progress missing v =
      some (.ongoing that' progress' missing', u) := by
  obtain ⟨that₁, v, hfind, hrest⟩ := bind_eq_some.1 h
  obtain ⟨hthat₁, -⟩ := find_looks hs.sound hfind
  rw [hthat.rep_eq] at hthat₁
  rw [hthat₁] at hrest
  refine ⟨v, (find_observes hs _ _ _ hfind).1, ?_⟩
  replace h := of_bind_view hrest
  rcases ite_eq_some.1 h with ⟨-, h⟩ | ⟨-, h⟩
  · cases (pure_eq_some.1 h).1
  obtain ⟨probing, w, hprobe, h⟩ := bind_eq_some.1 h
  obtain ⟨-, rfl⟩ := isProbe_eq_some.1 hprobe
  rcases ite_eq_some.1 h with ⟨-, h⟩ | ⟨-, h⟩
  · cases (pure_eq_some.1 h).1
  · exact h

include hinst hagain in
/-- The use is of its class still when nothing was changed. -/
theorem instantiateSlots_stays {slots : List Slot} {progress missing missing' : Bool}
    {that' : TermId} (hs : Aligned this that s)
    (h : instantiateSlots inst pinned this slots that progress missing s =
      some (.ongoing that' false missing', u)) : that' = that := by
  induction slots generalizing progress missing s with
  | nil =>
    cases (pure_eq_some.1 h).1
    rfl
  | cons slot rest ih =>
    obtain ⟨lhs?, s₁, hchild, h⟩ := bind_eq_some.1 h
    have hidle₁ := (child_observes hs.ready this slot _ _ hchild).1
    have hs₁ := hs.idle hidle₁
    have hlhs := (child_looks hs.ready.sound hchild).2
    cases lhs? with
    | none => exact ih hs₁ h
    | some lhs =>
      obtain ⟨rhs?, s₂, hchild', h⟩ := bind_eq_some.1 h
      have hidle₂ := (child_observes hs₁.ready that slot _ _ hchild').1
      have hs₂ := hs₁.idle hidle₂
      have hrhs := (child_looks hs₁.ready.sound hchild').2
      have hlhs₂ := hidle₂.upkeeps.size.symm ▸ (hlhs lhs rfl).lt
      -- Had the child been changed, that would be told in the end.
      have hmoved : ∀ {v}, instantiateRest inst pinned this that rest (progress || true)
          (missing || rhs?.isNone) v ≠ some (.ongoing that' false missing', u) := by
        intro v h
        rw [Bool.or_true] at h
        exact Bool.false_ne_true
          (instantiateRest_yields (instantiateSlots_yields rest this) _ _ _ _ _ h)
      obtain ⟨changed, s₃, hidle₃, h⟩ : ∃ changed s₃, Idle s₂ s₃ ∧
          instantiateRest inst pinned this that rest (progress || changed) (missing || rhs?.isNone) s₃ =
            some (.ongoing that' false missing', u) := by
        cases rhs? with
        | some rhs =>
          obtain ⟨changed, s₃, hrun, h⟩ := bind_eq_some.1 h
          have hrecurs := hagain s₂ lhs rhs hs₂.ready hs₂.fresh hlhs₂ (hrhs rhs rfl).lt
          cases changed with
          | true => exact absurd h hmoved
          | false => exact ⟨false, s₃, ((hrecurs _ _ hrun).resolve_left Bool.false_ne_true).1, h⟩
        | none =>
          cases slot with
          | field label =>
            have hrecord := isRecord_of_refreshed
              ((hidle₁.trans hidle₂).calm hs.ready hs.use).1 (hs.isRecord hchild)
            obtain ⟨changed?, s₃, hmissing, h⟩ := bind_eq_some.1 h
            have hrecurs : Recurs (· ≠ some false) (instantiateMissing inst pinned this that lhs label)
                (instantiateMissing inst' pinned this that lhs label) s₂ :=
              instantiateMissing_recurs hinst hs₂.ready hs₂.fresh hrecord hs₂.definition hlhs₂ label
            cases changed? with
            | none => cases (pure_eq_some.1 h).1
            | some changed =>
              cases changed with
              | true => exact absurd h hmoved
              | false =>
                exact ⟨false, s₃, ((hrecurs _ _ hmissing).resolve_left (not_not.2 rfl)).1, h⟩
          | _ => exact ⟨false, s₂, .refl hs₂.ready, h⟩
      have hs₃ := hs₂.idle hidle₃
      obtain ⟨s₄, hidle₄, h⟩ := slots_of_instantiateRest hs₃.ready hs₃.isClass h
      exact ih (hs₃.idle hidle₄) h

/-- As long as no field is dropped the labels of the use are gone through again. -/
theorem dropExtra_recurs (labels : List String) (hs : s.Ready) (hthis : s.forest.Calm this)
    (hcalm : s.forest.Calm that) (hrecord : (s.forest.kind that).isRecord = true)
    (hlabels : ∀ l ∈ labels, ((s.forest.kind that).child? (.field l)).isSome = true) :
    Recurs (· ≠ some false) (dropExtra this that labels false) (dropExtra this that labels false)
      s := by
  induction labels generalizing s with
  | nil => exact .pure hs _
  | cons label rest ih =>
    have hkeeps : ∀ {u}, Idle s u → (u.forest.kind that).isRecord = true ∧
        ∀ l ∈ label :: rest, ((u.forest.kind that).child? (.field l)).isSome = true := by
      intro u hidle
      obtain ⟨hrefreshed, -⟩ := hidle.calm hs hcalm
      refine ⟨isRecord_of_refreshed hrefreshed hrecord, fun l hl => ?_⟩
      rw [hrefreshed.isSome_child?, hlabels l hl]
    have hih : ∀ {u}, Idle s u → Recurs (· ≠ some false) (dropExtra this that rest false)
        (dropExtra this that rest false) u := fun hidle =>
      ih hidle.ready (hidle.calm hs hthis).2 (hidle.calm hs hcalm).2 (hkeeps hidle).1
        fun l hl => (hkeeps hidle).2 l (List.mem_cons_of_mem _ hl)
    refine .kindOf hs hthis fun k hk => ?_
    have hsome : (k.child? (.field label)).isSome =
        ((s.forest.kind this).child? (.field label)).isSome := by
      rw [← Option.isSome_map, hk.child?, Option.isSome_map]
    refine .ite (by rw [hsome]) (fun _ => hih (.refl hs)) fun _ => ?_
    refine .see (child_sees hs hcalm (.field label)) fun child? s₁ hchild hidle₁ => ?_
    have hrest : ∀ keep : Bool, Recurs (· ≠ some false)
        (dropUnless this that label rest false keep) (dropUnless this that label rest false keep)
        s₁ := fun keep => by
      refine .ite Iff.rfl (fun _ => hih hidle₁) fun _ a u h => Or.inl ?_
      obtain ⟨probing, s₂, hprobe, h⟩ := bind_eq_some.1 h
      obtain ⟨-, rfl⟩ := isProbe_eq_some.1 hprobe
      rcases ite_eq_some.1 h with ⟨-, h⟩ | ⟨-, h⟩
      · rw [← (pure_eq_some.1 h).1]
        exact Option.some_ne_none false ∘ Eq.symm
      obtain ⟨changed, s₃, hdrop, h⟩ := bind_eq_some.1 h
      obtain ⟨hrecord₁, hlabels₁⟩ := hkeeps hidle₁
      rw [dropField_answer hrecord₁ (hlabels₁ label List.mem_cons_self) hdrop] at h
      exact dropExtra_yields rest _ _ _ h
    cases child? with
    | none => exact hrest false
    | some x =>
      have hx : s₁.forest.Calm x := by
        obtain ⟨f, hf, rfl⟩ := onForest_eq_some.1 hchild
        exact Forest.child_calm hs.sound.forest.rooted hf
      refine .kindOf hidle₁.ready hx fun k hk => ?_
      rw [hk.isError]
      exact hrest _

private theorem refine_recurs (hs : s.Ready) (hthis : s.forest.Calm this) (hcalm : s.forest.Calm that) :
    Recurs (· = true) (refine this that) (refine this that) s := by
  refine .kindOf hs hthis fun k hk => .kindOf hs hcalm fun k' hk' => ?_
  have hnone := hk.refinedKind? hk'
  cases hrefined : refinedKind? (s.forest.kind this) (s.forest.kind that) with
  | none =>
    rw [hrefined] at hnone
    rw [Option.isNone_iff_eq_none.1 hnone]
    exact .pure hs _
  | some kind =>
    refine .of_yields (yields_bind fun probing => yields_ite (yields_pure rfl) ?_)
    exact yields_bind fun _ => yields_bind fun _ => yields_pure rfl

include hinst hagain in
private theorem instantiateChildren_recurs (hs : s.Ready) (hfresh : s.Fresh)
    (hthis : s.forest.IsClass this) (hthat : s.forest.IsClass that) (hcalm : s.forest.Calm this)
    (hcalm' : s.forest.Calm that)
    (hshape : (s.forest.kind this).shape = (s.forest.kind that).shape) :
    Recurs (· = true) (instantiateChildren inst pinned this that)
      (instantiateChildren inst' pinned this that) s := by
  refine .view fun f hf => .view fun f' hf' => ?_
  have hslots := (hf.same hs.sound.forest.rooted hcalm).slots
  have hslots' := (hf'.same hs.sound.forest.rooted hcalm').slots
  rw [hslots, hslots']
  refine .ite Iff.rfl (fun _ => setImage_pure_recurs hs hthis.lt hthat.lt) fun _ => ?_
  refine .see (setImage_sees hs hthis.lt hthat.lt) fun v s₁ hset hidle₁ => ?_
  have hforest : s₁.forest = s.forest := (setImage_proceeds hs.sound hthat.lt hset).2
  rw [← hforest] at hthat hcalm hcalm' hshape
  have hs₁ : Aligned this that s₁ := ⟨hidle₁.ready, hidle₁.fresh hfresh, hcalm, hthat, hcalm', hshape⟩
  have hrefined : ∀ that', Yields (· = true) (do
      let refined ← refine this that'
      return true || refined) := fun that' => yields_bind fun refined => yields_pure rfl
  have hlast : ∀ s₂, Idle s₁ s₂ → Recurs (· = true) (do
        let refined ← refine this that
        return false || refined)
      (do
        let refined ← refine this that
        return false || refined) s₂ := by
    intro s₂ hidle₂
    have hs₂ := hs₁.idle hidle₂
    refine .bind (refine_recurs hs₂.ready hs₂.definition hs₂.use)
      (fun refined s₃ _ hidle₃ _ => .pure hidle₃.ready _) ?_
    rintro _ rfl
    exact yields_pure rfl
  refine .bind (instantiateSlots_recurs hinst hagain _ _ hs₁)
    (fun outcome s₂ hslots hidle₂ hmoved => ?_) fun outcome hmoved => ?_
  · cases outcome with
    | finished => exact absurd trivial hmoved
    | ongoing that' progress missing =>
      obtain rfl : progress = false := Bool.not_eq_true _ ▸ hmoved
      obtain rfl := instantiateSlots_stays hinst hagain hs₁ hslots
      have hs₂ := hs₁.idle hidle₂
      refine .kindOf hs₂.ready hs₂.definition fun k hk => .kindOf hs₂.ready hs₂.use fun k' hk' => ?_
      refine .ite (by rw [hk.isOpen, hk'.isRecord]) (fun hcase => ?_) fun _ => hlast s₂ hidle₂
      rw [Bool.and_eq_true] at hcase
      refine .kindOf hs₂.ready hs₂.use fun k'' hk'' => ?_
      rw [hk''.labels]
      refine .bind (dropExtra_recurs _ hs₂.ready hs₂.definition hs₂.use hcase.2 fun l hl =>
        Kind.isSome_child?_of_mem_labels hl) (fun progress? s₃ _ hidle₃ hprogress => ?_)
        (yields_of_ne_false (yields_pure rfl) (hrefined that'))
      rw [not_not] at hprogress
      subst hprogress
      exact hlast s₃ (hidle₂.trans hidle₃)
  · cases outcome with
    | finished => exact yields_pure rfl
    | ongoing that' progress missing =>
      obtain rfl : progress = true := hmoved
      exact yields_bind fun k => yields_bind fun k' => yields_ite
        (yields_bind fun k'' => (dropExtra_yields _).bind
          (yields_of_ne_false (yields_pure rfl) (hrefined that'))) (hrefined that')

private theorem shared_sees (hs : s.Ready) (hthis : s.forest.Calm this) : Sees (kindOf this >>= fun k =>
      if k.isError then pure true else occursInAny this pinned)
    (kindOf this >>= fun k => if k.isError then pure true else occursInAny this pinned) s :=
  .kindOf hs hthis fun k hk => .ite (by rw [hk.isError]) (fun _ => .pure hs true) fun _ =>
    onForest_sees hs (Forest.occursInAny_recurs hs.sound.forest.rooted this pinned)

variable (depth depth' pinned) in
include hinst hagain in
/-- Two types that are known and not both flows meet by their shapes again. -/
theorem instantiateKnown_recurs (hvars : KnownVar inst) (hs : s.Ready) (hfresh : s.Fresh)
    (hthis : s.forest.IsClass this) (hthat : s.forest.IsClass that) (hcalm : s.forest.Calm this)
    (hcalm' : s.forest.Calm that) (hnew : s.image.lookup this = none)
    (hkthis : s.forest.kind this ≠ .var) {k k' : Kind}
    (hk : (s.forest.kind this).Same s.forest.rep k)
    (hk' : (s.forest.kind that).Same s.forest.rep k') : Recurs (· = true)
      (if (s.forest.kind this).isNilable && !(s.forest.kind that).isNilable then
        instantiateNilable that
      else if (s.forest.kind that).isNilable && !(s.forest.kind this).isNilable then
        instantiateInner inst this that
      else if (s.forest.kind this).shape ≠ (s.forest.kind that).shape then
        reject (unifyWithin depth) this that
      else instantiateChildren inst pinned this that)
      (if k.isNilable && !k'.isNilable then instantiateNilable that
      else if k'.isNilable && !k.isNilable then instantiateInner inst' this that
      else if k.shape ≠ k'.shape then reject (unifyWithin depth') this that
      else instantiateChildren inst' pinned this that) s := by
  rw [hk.isNilable, hk'.isNilable, hk.shape, hk'.shape]
  refine .ite Iff.rfl (fun _ => instantiateNilable_recurs hs hcalm') fun _ =>
    .ite Iff.rfl (fun hnilable a u h => Or.inl ?_) fun _ => .ite Iff.rfl
      (fun _ => reject_recurs hs hfresh hthat) fun hshape =>
        instantiateChildren_recurs hinst hagain hs hfresh hthis hthat hcalm hcalm' (not_not.1 hshape)
  rw [Bool.and_eq_true] at hnilable
  exact instantiateInner_yields hvars hs hfresh hthis hcalm' hnew hkthis hnilable.1 h

include hinst hagain in
/-- One layer of an instantiation is repeated if the next one is. -/
theorem instantiateStep_repeated (hdepth : depth ≤ depth') (hvars : KnownVar inst) :
    Repeated (instantiateStep inst (unifyWithin depth) pinned)
      (instantiateStep inst' (unifyWithin depth') pinned) := by
  intro s x y hs hfresh hx hy
  refine .see (find_sees hs x) fun this s₁ hfind hidle₁ => ?_
  refine .see (find_sees hidle₁.ready y) fun that s₂ hfind' hidle₂ => ?_
  obtain ⟨-, hcalm, -, hthis, hthat⟩ := find_both hs.sound hx hy hfind hfind'
  have hidle₂ := hidle₁.trans hidle₂
  have hfresh₂ := hidle₂.fresh hfresh
  refine .see (imageOf_sees hidle₂.ready this) fun image? s₃ himage hidle₃ => ?_
  obtain ⟨rfl, rfl⟩ := imageOf_eq_some.1 himage
  cases hprior : s₂.image.lookup this with
  | some prior =>
    have hlt := hidle₂.ready.sound.image_lt hprior
    refine .see (find_sees hidle₂.ready prior) fun prior' s₄ hfind hidle₄ => ?_
    have hprior' := isClass_of_find hidle₂.ready.sound hlt hfind
    exact unifyWithin_repeated hdepth s₄ prior' that hidle₄.ready (hidle₄.fresh hfresh₂) hprior'.lt
      (hthat.of_steady (hidle₄.steady hidle₂.ready)).lt
  | none =>
    have hset : ∀ {u}, Idle s₂ u → Recurs (· = true)
        (setImage this that >>= fun _ => pure false) (setImage this that >>= fun _ => pure false) u :=
      fun hidle => setImage_pure_recurs hidle.ready (hthis.of_steady (hidle.steady hidle₂.ready)).lt
        (hthat.of_steady (hidle.steady hidle₂.ready)).lt
    refine .see (onForest_sees hidle₂.ready (Forest.alike_recurs hidle₂.ready.sound.forest.rooted _ _))
      fun alike s₄ halike hidle₄ => ?_
    have hcalm₄ := (hidle₄.calm hidle₂.ready hcalm.1).2
    have hcalm₄' := (hidle₄.calm hidle₂.ready hcalm.2).2
    refine .ite Iff.rfl (fun _ => hset hidle₄) fun _ => .kindOf hidle₄.ready hcalm₄' fun k hk =>
      .ite (by rw [hk.isError]) (fun _ => hset hidle₄) fun _ => ?_
    refine .see (shared_sees hidle₄.ready hcalm₄) fun shared s₅ hshared hidle₅ => ?_
    have himage₅ : s₅.image.lookup this = none := by
      rw [(shared_looks hidle₄.ready.sound hshared).image,
        (looks_onForest (Forest.keepsUp_alike _ _) hidle₂.ready.sound halike).image, hprior]
    have hidle₅ := hidle₄.trans hidle₅
    have hsteady := hidle₅.steady hidle₂.ready
    have hfresh₅ := hidle₅.fresh hfresh₂
    have hthis := hthis.of_steady hsteady
    have hthat := hthat.of_steady hsteady
    have hcalm₅ := (hidle₅.calm hidle₂.ready hcalm.1).2
    have hcalm₅' := (hidle₅.calm hidle₂.ready hcalm.2).2
    refine .ite Iff.rfl (fun _ => ?_) fun _ => .kindOf hidle₅.ready hcalm₅ fun k hk =>
      .kindOf hidle₅.ready hcalm₅' fun k' hk' => .ite (by rw [hk.isVar]) (fun _ => hset hidle₅)
        fun hvar => ?_
    · -- The definition is an error or pinned: it is unified as it is.
      refine .bind (unifyWithin_repeated hdepth s₅ this that hidle₅.ready hfresh₅ hthis.lt hthat.lt)
        (fun progress s₆ _ hidle₆ _ => setImage_pure_recurs hidle₆.ready
          (hthis.of_steady (hidle₆.steady hidle₅.ready)).lt
          (hthat.of_steady (hidle₆.steady hidle₅.ready)).lt) ?_
      rintro _ rfl
      exact yields_bind fun _ => yields_pure rfl
    rw [Kind.isVar_iff] at hvar
    refine .ite (by rw [hk'.isVar]) (fun huse a u h => Or.inl ?_) fun _ => ?_
    · -- A variable is merged with a copy, unless that is only probed.
      obtain ⟨probing, s₆, hprobe, h⟩ := bind_eq_some.1 h
      obtain ⟨-, rfl⟩ := isProbe_eq_some.1 hprobe
      rcases ite_eq_some.1 h with ⟨-, h⟩ | ⟨-, h⟩
      · exact (pure_eq_some.1 h).1.symm
      rw [Kind.isVar_iff] at huse
      refine instantiateVar_yields hidle₅.ready.sound hthis hthat himage₅ (fun heq => ?_) h
      rw [heq] at hvar
      exact hvar huse
    have hknown := instantiateKnown_recurs hinst hagain depth depth' pinned hvars hidle₅.ready hfresh₅
      hthis hthat hcalm₅ hcalm₅' himage₅ hvar hk hk'
    rw [hk.baseFlow?, hk'.baseFlow?]
    cases ha : (s₅.forest.kind this).baseFlow? with
    | none => exact hknown
    | some a =>
      cases hb : (s₅.forest.kind that).baseFlow? with
      | none => exact hknown
      | some b => exact instantiateBase_recurs hidle₅.ready hfresh₅ hthis hthat a b

end Use

private theorem instantiateWithin_repeated (pinned : List TermId) {depth depth' : Nat}
    (hdepth : depth ≤ depth') :
    Repeated (instantiateWithin pinned depth) (instantiateWithin pinned depth') := by
  induction depth generalizing depth' with
  | zero => exact fun s a b _ _ _ _ r u h => (failure_eq_some.1 h).elim
  | succ depth ih =>
    obtain ⟨depth', rfl⟩ := Nat.exists_eq_add_of_le' (Nat.one_le_of_lt hdepth)
    have hle := Nat.le_of_succ_le_succ hdepth
    exact instantiateStep_repeated (instantiateWithin_foretold pinned depth depth) (ih hle) hle
      (instantiateWithin_knownVar pinned depth)

/-- An instantiation that reports no progress reports none when it is made again. -/
theorem instantiate_recurs {depth depth' : Nat} (hdepth : depth ≤ depth') {definition use : TermId}
    {pinned : List TermId} (hs : s.Ready) (hdefinition : definition < s.forest.size)
    (huse : use < s.forest.size)
    (h : instantiate depth definition use pinned s = some (false, u)) (work : Option Worklist) :
    ∃ v, instantiate depth' definition use pinned (Call.start u.forest work) = some (false, v) := by
  obtain ⟨v, s₁, hmodify, h⟩ := bind_eq_some.1 h
  obtain rfl := modify_eq_some.1 hmodify
  have hs₁ : Ready { s with met := [], image := [] } :=
    ⟨⟨hs.sound.forest, fun p hp => absurd hp List.not_mem_nil⟩, hs.commits⟩
  obtain ⟨-, hagain⟩ := (instantiateWithin_repeated pinned hdepth _ _ _ hs₁
    ⟨rfl, fun p hp => absurd hp List.not_mem_nil⟩ hdefinition huse _ _ h).resolve_left
    Bool.false_ne_true
  obtain ⟨u', hrun, -⟩ := hagain (Call.start u.forest work) ⟨.refl, rfl, rfl⟩
  exact ⟨u', bind_eq_some.2 ⟨(), _, modify_eq_some.2 rfl, hrun⟩⟩

end Unifier

end TypeFlow
