import TypeFlow.Proofs.TypeSteps

/-!
# Probes of type steps

A type step that only probes tidies the forest up at most.  One that makes changes announces them to those
who are registered, unless nothing was changed.

Main results:

- `Program.spares_typeStep`: every probe of a type step tidies up at most.
-/

namespace TypeFlow

open Unifier (Continues Spares)

namespace Program

/-! ## Probes of steps -/

/-- What is done where nothing is to be changed keeps the forest. -/
theorem spares_probing {α : Type} {k : Bool → UnifyM α} (h : Keeps Spares (k true)) :
    Keeps Spares (Unifier.isProbe >>= k) := by
  intro s a u hr hwork hrooted
  have hk : k s.work.isNone s = some (a, u) := hr
  rw [hwork] at hk
  exact h s a u hk hwork hrooted

section Probing

open Unifier (spares_find spares_child spares_view spares_guard spares_unify spares_instantiate
  spares_onForest)

variable (p : Program)

private theorem spares_typeOf (id : NodeId) : Keeps Spares (p.typeOf id) := spares_find _

private theorem spares_formalsOf (id : NodeId) : Keeps Spares (p.formalsOf id) := by
  unfold formalsOf
  split
  · exact spares_onForest (Forest.keepsUp_findAll _)
  · exact keeps_pure _

private theorem spares_passError (id : NodeId) (error : TermId) (progress : Bool) :
    Keeps Spares (p.passError id error progress) :=
  keeps_bind (p.spares_typeOf id) fun _ => keeps_bind (spares_unify _ _ _) fun _ => keeps_pure _

private theorem spares_identStep (id : NodeId) (binding : TermId) :
    Keeps Spares (p.identStep id binding) :=
  keeps_bind (spares_find _) fun _ => keeps_bind (p.spares_typeOf id) fun _ =>
    keeps_bind (spares_onForest (Forest.keepsUp_findAll _)) fun _ => spares_instantiate _ _ _ _

private theorem spares_unifyParameters (fn : TermId) (i : Nat) (formals : List TermId) (progress : Bool) :
    Keeps Spares (p.unifyParameters fn i formals progress) := by
  induction formals generalizing i progress with
  | nil => exact keeps_pure _
  | cons formal rest ih =>
    refine keeps_bind_option (spares_child _ _) (ih _ _) fun arg => ?_
    exact keeps_bind (spares_unify _ _ _) fun _ => ih _ _

private theorem spares_lambdaStep (id body : NodeId) : Keeps Spares (p.lambdaStep id body) := by
  refine keeps_bind (p.spares_typeOf id) fun fn => keeps_bind (spares_view _) fun k => ?_
  refine keeps_ite (keeps_pure _) ?_
  refine keeps_bind (p.spares_formalsOf id) fun formals => ?_
  refine keeps_bind (p.spares_unifyParameters _ _ _ _) fun progress => ?_
  refine keeps_bind (p.spares_typeOf body) fun result => ?_
  refine keeps_bind_option (spares_child _ _) (keeps_pure _) fun slot => ?_
  exact keeps_bind (spares_unify _ _ _) fun _ => keeps_pure _

private theorem spares_unifyArguments (id : NodeId) (i : Nat) (args : List NodeId) (callee : TermId)
    (progress : Bool) : Keeps Spares (p.unifyArguments id i args callee progress) := by
  induction args generalizing i callee progress with
  | nil => exact keeps_pure _
  | cons arg rest ih =>
    have hrest : ∀ progress : Bool, Keeps Spares (p.nextArgument id i rest callee progress) := by
      intro progress
      refine spares_probing (keeps_ite (keeps_pure _) ?_)
      refine keeps_bind (spares_find _) fun callee' => keeps_bind (spares_view _) fun k => ?_
      exact keeps_ite (keeps_bind (p.spares_passError _ _ _) fun _ => keeps_pure _) (ih _ _ _)
    refine keeps_bind_option (spares_child _ _) (hrest _) fun formal => ?_
    exact keeps_bind (p.spares_typeOf arg) fun _ => keeps_bind (spares_unify _ _ _) fun _ => hrest _

private theorem spares_endCall (id : NodeId) (callee : TermId) (progress : Bool) :
    Keeps Spares (p.endCall id callee progress) :=
  keeps_bind (spares_find _) fun _ => keeps_bind (spares_view _) fun _ =>
    keeps_ite (p.spares_passError _ _ _) (keeps_pure _)

private theorem spares_applyStep (id fn : NodeId) (args : List NodeId) :
    Keeps Spares (p.applyStep id fn args) := by
  refine keeps_bind (p.spares_typeOf fn) fun callee => keeps_bind (spares_view _) fun kind => ?_
  refine keeps_ite (p.spares_passError _ _ _) (keeps_ite (spares_guard _ _) ?_)
  refine keeps_bind (p.spares_typeOf id) fun me => keeps_bind (spares_view _) fun k => ?_
  refine spares_probing ?_
  cases kind.arity? ≠ some args.length && !k.isError with
  | true => exact keeps_pure _
  | false =>
    refine keeps_bind (keeps_pure _) fun progress => ?_
    refine keeps_bind (p.spares_unifyArguments _ _ _ _ _) fun outcome => ?_
    cases outcome with
    | finished progress => exact keeps_pure _
    | ongoing callee progress =>
      refine keeps_bind (p.spares_typeOf id) fun me => ?_
      refine keeps_bind_option (spares_child _ _) (p.spares_endCall _ _ _) fun result => ?_
      exact keeps_bind (spares_unify _ _ _) fun _ => p.spares_endCall _ _ _

private theorem spares_rejectExtra (id : NodeId) (labels : List String) (rec : TermId)
    (remaining : List String) (progress : Bool) :
    Keeps Spares (p.rejectExtra id labels rec remaining progress) := by
  induction remaining generalizing progress with
  | nil => exact keeps_pure _
  | cons label rest ih =>
    refine keeps_ite (ih _) (keeps_bind_option (spares_child _ _) (ih _) fun extra => ?_)
    exact keeps_bind (spares_view _) fun k => keeps_ite (ih _) (spares_guard _ _)

private theorem spares_unifyParts (fields : List (String × NodeId)) (rec : TermId) (progress : Bool) :
    Keeps Spares (p.unifyParts fields rec progress) := by
  induction fields generalizing rec progress with
  | nil => exact keeps_pure _
  | cons field rest ih =>
    refine keeps_bind (spares_find _) fun rec' => ?_
    have hnext : ∀ progress : Bool, Keeps Spares (p.nextPart rest rec' progress) := fun progress =>
      spares_probing (keeps_ite (keeps_pure _) (ih _ _))
    refine keeps_bind_option (spares_child _ _) (hnext _) fun slot => ?_
    exact keeps_bind (p.spares_typeOf _) fun _ => keeps_bind (spares_unify _ _ _) fun _ => hnext _

private theorem spares_recordStep (id : NodeId) (site : SiteId) (labels : List String)
    (parts : List NodeId) : Keeps Spares (p.recordStep id site labels parts) := by
  refine keeps_bind (p.spares_typeOf id) fun rec => keeps_bind (spares_view _) fun kind => ?_
  refine keeps_ite (keeps_pure _) (spares_probing ?_)
  cases kind.isVar with
  | true => exact keeps_pure _
  | false =>
    refine keeps_bind (keeps_pure _) fun r => ?_
    obtain ⟨rec, built⟩ := r
    refine keeps_bind (spares_view _) fun kind => keeps_ite (keeps_pure _) ?_
    refine keeps_bind_option (p.spares_rejectExtra _ _ _ _ _) (keeps_pure _) fun progress => ?_
    exact keeps_bind (p.spares_unifyParts _ _ _) fun r => spares_guard _ _

private theorem spares_fieldStep (id : NodeId) (label : String) (source : NodeId) :
    Keeps Spares (p.fieldStep id label source) := by
  refine keeps_bind (p.spares_typeOf id) fun me => keeps_bind (spares_view _) fun k => ?_
  refine keeps_ite (keeps_pure _) (keeps_bind (p.spares_typeOf source) fun rec => ?_)
  refine keeps_bind (spares_view _) fun kind => keeps_ite (spares_guard _ _) (spares_probing ?_)
  exact keeps_bind_option (spares_child _ _) (spares_guard _ _) fun value => spares_unify _ _ _

private theorem spares_firstError (types : List TermId) : Keeps Spares (firstError types) := by
  induction types with
  | nil => exact keeps_pure _
  | cons t rest ih => exact keeps_bind (spares_view _) fun k => keeps_ite (keeps_pure _) ih

private theorem spares_primitiveStep (id : NodeId) : Keeps Spares (p.primitiveStep id) := by
  refine keeps_bind (p.spares_typeOf id) fun me => keeps_bind (spares_view _) fun k => ?_
  refine keeps_ite (keeps_pure _) (keeps_bind (p.spares_formalsOf id) fun formals => ?_)
  exact keeps_bind_option (spares_firstError _) (keeps_pure _) fun error => spares_unify _ _ _

private theorem spares_condStep (flows : Flows) (id : NodeId) (fid : FunctionId) :
    Keeps Spares (p.condStep flows id fid) := by
  refine keeps_bind (p.spares_typeOf id) fun me => ?_
  refine keeps_bind_option (spares_child _ _) (keeps_pure _) fun result => ?_
  refine keeps_bind (p.spares_formalsOf id) fun formals => ?_
  dsimp only
  split
  · exact keeps_pure _
  · exact spares_unify _ _ _
  · exact spares_unify _ _ _
  · refine keeps_bind (spares_unify _ _ _) fun progress => keeps_bind (spares_find _) fun r => ?_
    exact keeps_bind (spares_find _) fun other => keeps_bind (spares_unify _ _ _) fun _ =>
      keeps_pure _

private theorem spares_isAligned (arg ret : TermId) : Keeps Spares (isAligned arg ret) := by
  have hslots : ∀ slots, Keeps Spares (sameSlots arg ret slots) := by
    intro slots
    induction slots with
    | nil => exact keeps_pure _
    | cons slot rest ih =>
      exact keeps_bind (spares_child _ _) fun x => keeps_bind (spares_child _ _) fun y =>
        keeps_ite (keeps_pure _) ih
  refine keeps_bind (spares_view _) fun k => keeps_bind (hslots _) fun same => ?_
  refine keeps_ite (keeps_pure _) (keeps_bind (spares_view _) fun k => ?_)
  exact keeps_bind (spares_view _) fun k' => keeps_pure _

private theorem spares_notNilStep (id : NodeId) : Keeps Spares (p.notNilStep id) := by
  refine keeps_bind (p.spares_formalsOf id) fun formals => ?_
  dsimp only
  generalize formals.headD 0 = arg
  refine keeps_bind (spares_view _) fun k => keeps_ite (keeps_pure _) ?_
  refine keeps_bind (p.spares_typeOf id) fun me => ?_
  refine keeps_bind_option (spares_child _ _) (keeps_pure _) fun ret => ?_
  refine keeps_ite (keeps_pure _) (keeps_bind (spares_view _) fun k => ?_)
  refine keeps_either ?_ fun hrest =>
    keeps_bind (spares_child _ _) fun inner? => keeps_ite (keeps_pure _) hrest
  refine keeps_bind (spares_view _) fun karg => keeps_bind (spares_view _) fun kret => ?_
  have hother : Keeps Spares (p.wrapUnaligned arg ret karg kret) := by
    refine keeps_bind (keeps_ite (spares_isAligned _ _) (keeps_pure _)) fun aligned => ?_
    exact keeps_ite (keeps_pure _) (spares_guard _ _)
  cases karg.baseFlow? with
  | none => exact hother
  | some a =>
    cases kret.baseFlow? with
    | none => exact hother
    | some r => exact keeps_ite (keeps_pure _) (spares_guard _ _)

/-- Whatever a type step would do, its probe tidies up at most. -/
theorem spares_typeStep (flows : Flows) (id : NodeId) : Keeps Spares (p.typeStep flows id) := by
  unfold typeStep
  split
  · exact keeps_pure _
  · exact keeps_pure _
  · exact p.spares_identStep _ _
  · exact p.spares_lambdaStep _ _
  · exact p.spares_applyStep _ _ _
  · exact keeps_bind (p.spares_typeOf _) fun me => keeps_bind (p.spares_typeOf _) fun b =>
      spares_unify _ _ _
  · exact p.spares_recordStep _ _ _ _
  · exact p.spares_fieldStep _ _ _
  · exact p.spares_condStep _ _ _
  · exact p.spares_notNilStep _
  · exact p.spares_primitiveStep _

end Probing

/-! ## Announcements -/

/-- Nothing happened to the forest but look-ups. -/
structure Stays (s u : Unifier) : Prop where
  upkeeps : s.forest.Rooted → s.forest.Upkeeps u.forest
  probe : u.work.isNone = s.work.isNone
  image : u.image = s.image

instance : IsPreorder Unifier Stays where
  refl _ := ⟨fun _ => .refl, rfl, rfl⟩
  trans _ _ _ hst htu :=
    ⟨fun h => (hst.upkeeps h).trans (htu.upkeeps ((hst.upkeeps h).steady h).rooted),
      htu.probe.trans hst.probe, htu.image.trans hst.image⟩

/-- What stays as it is continues. -/
theorem Stays.continues {s u : Unifier} (hs : s.Sound) (h : Stays s u) : Continues s u where
  sound := by
    have hup := h.upkeeps hs.forest.rooted
    refine ⟨hup.sound hs.forest, fun p hp => ?_⟩
    rw [h.image] at hp
    rw [hup.size]
    exact hs.image p hp
  probe := h.probe
  evolves := ((h.upkeeps hs.forest.rooted).steady hs.forest.rooted).evolves

section Announcing

open Unifier (onForest_eq_some view_eq_some wake_eq_some)

private theorem stays_onForest {α : Type} {run : ForestM α} (hrun : Keeps Forest.KeptUp run) :
    Keeps Stays (Unifier.onForest run) := by
  intro s a u h
  obtain ⟨f, hf, rfl⟩ := onForest_eq_some.1 h
  exact ⟨fun hrooted => hrun _ _ _ hf hrooted, rfl, rfl⟩

private theorem stays_view {α : Type} (read : Forest → α) : Keeps Stays (Unifier.view read) := by
  intro s a u h
  rw [(view_eq_some.1 h).2]
  exact Std.Refl.refl u

/-- Announcing somebody leaves the forest alone. -/
theorem stays_work {s : Unifier} (tell : Worklist → Worklist) :
    Stays s { s with work := s.work.map tell } := by
  refine ⟨fun _ => .refl, ?_, rfl⟩
  cases s.work <;> rfl

private theorem stays_push (id : NodeId) : Keeps Stays (push id) := by
  intro s v u h
  rw [push_eq_some.1 h]
  exact stays_work _

private theorem stays_push? (id? : Option NodeId) : Keeps Stays (push? id?) := by
  unfold push?
  split
  · exact stays_push _
  · exact keeps_pure _

private theorem stays_pushAll (ids : List NodeId) : Keeps Stays (pushAll ids) := by
  unfold pushAll
  induction ids with
  | nil => exact keeps_pure _
  | cons id rest ih => exact keeps_bind (stays_push id) fun _ => ih

private theorem stays_wake (t : TermId) : Keeps Stays (Unifier.wake t) := by
  intro s v u h
  rw [wake_eq_some.1 h]
  exact stays_work _

private theorem stays_wakeClass (t : TermId) : Keeps Stays (wakeClass t) :=
  keeps_bind (stays_view _) fun _ => stays_pushAll _

variable (p : Program)

private theorem stays_typeOf (id : NodeId) : Keeps Stays (p.typeOf id) :=
  stays_onForest (Forest.keepsUp_find _)

private theorem stays_announceIdent (id : NodeId) (binding : TermId) :
    Keeps Stays (p.announceIdent id binding) := by
  refine keeps_bind (stays_push? _) fun _ => ?_
  cases p.parent id with
  | none => exact keeps_pure _
  | some parent =>
    refine keeps_bind (stays_onForest (Forest.keepsUp_find _)) fun binding' => ?_
    refine keeps_bind (stays_onForest (Forest.keepsUp_findAll _)) fun pinned => ?_
    refine keeps_bind (stays_onForest (Forest.keepsUp_occursInAny _ _)) fun occurs => ?_
    refine keeps_either ?_ fun hlast => keeps_bind (stays_wake _) fun _ => hlast
    split
    · exact keeps_ite (stays_push _) (keeps_pure _)
    · exact keeps_pure _

private theorem stays_announceFormals (me : TermId) (formals : List TermId) :
    Keeps Stays (announceFormals me formals) := by
  induction formals with
  | nil => exact keeps_pure _
  | cons formal rest ih =>
    refine keeps_bind (stays_onForest (Forest.keepsUp_occursInAny _ _)) fun occurs => ?_
    exact keeps_ite (keeps_bind (stays_wakeClass _) fun _ => ih) ih

/-- Telling others of a step leaves the forest alone. -/
theorem stays_announceWithin (fuel : Nat) (id : NodeId) : Keeps Stays (p.announceWithin fuel id) := by
  induction fuel generalizing id with
  | zero => exact keeps_failure
  | succ fuel ih =>
    have hparent : ∀ {m : UnifyM Unit}, Keeps Stays m →
        Keeps Stays (push? (p.parent id) >>= fun _ => m) := fun hm =>
      keeps_bind (stays_push? _) fun _ => hm
    unfold announceWithin
    split
    · exact keeps_pure _
    · exact keeps_pure _
    · exact p.stays_announceIdent _ _
    · refine hparent (keeps_bind (stays_push _) fun _ => keeps_bind (p.stays_typeOf id) fun me => ?_)
      refine keeps_bind ?_ fun formals => stays_announceFormals _ _
      unfold formalsOf
      split
      · exact stays_onForest (Forest.keepsUp_findAll _)
      · exact keeps_pure _
    · refine hparent (keeps_bind (stays_push _) fun _ => keeps_bind (stays_push _) fun _ => ?_)
      exact keeps_bind (p.stays_typeOf _) fun t => stays_wakeClass t
    · exact hparent (stays_pushAll _)
    · exact hparent (stays_pushAll _)
    · exact hparent (keeps_bind (stays_push _) fun _ => ih _)
    · refine keeps_bind (p.stays_typeOf id) fun me => keeps_bind (stays_view _) fun k => ?_
      split
      · exact stays_push? _
      · exact keeps_pure _

end Announcing

end Program

end TypeFlow
