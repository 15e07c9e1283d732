import TypeFlow.Program.Evaluation
import TypeFlow.Proofs.FallingFlows
import TypeFlow.Proofs.ForestHistories

/-!
# Flow steps keep the forest sound

Recomputing a flow looks classes up and registers nodes with them, as do the lowering of parameters
and the widening of what escapes.  All of that keeps a sound forest sound and merges nothing.

Main definitions:

- `Forest.Matures`: a sound forest stays sound and evolves.
- `Program.Notes`: noting what arguments carry lets the forest mature.

Main results:

- `Program.matures_evaluate`: recomputing a flow lets the forest mature.
- `Program.matures_flowStep`: so does a whole flow step.
-/

namespace TypeFlow

namespace Forest

variable {f g : Forest}

/-- If the forest is sound it stays so, and it evolves. -/
def Matures (f g : Forest) : Prop := f.Sound → g.Sound ∧ Evolves f g

instance : IsPreorder Forest Matures where
  refl _ hf := ⟨hf, .refl hf.rooted⟩
  trans _ _ _ hfg hgh hf :=
    ⟨(hgh (hfg hf).1).1, (hfg hf).2.trans (hgh (hfg hf).1).2⟩

/-- The same classes are linked the same way. -/
theorem SameClasses.steady (hf : f.Rooted) (h : SameClasses f g) : Steady f g where
  rooted := h.rooted
  size := h.size.ge
  rep := h.rep
  isLink t := by
    have hroot : ∀ {f : Forest}, f.Rooted → ((f.kind t).isLink = false ↔ f.rep t = t) := by
      refine fun hf => ⟨rep_of_not_link, fun he => ?_⟩
      rw [← he]
      exact not_isLink_rep hf t
    rw [← Bool.not_inj_iff, Bool.eq_iff_iff, Bool.not_eq_true', Bool.not_eq_true',
      hroot h.rooted, hroot hf, h.rep]
  firm t := (h.var t).1
  deps := h.deps

private theorem Tidied.matures (h : Tidied f g) : f.Matures g := by
  intro hf
  have hclasses := (h hf.rooted).1
  have hsteady := hclasses.steady hf.rooted
  refine ⟨hf.of_steady hsteady hclasses.size hclasses.unions fun t x hx => ?_, hsteady.evolves⟩
  rw [← hclasses.size]
  exact hclasses.inRange hf.inRange t x hx

private theorem matures_of_keptUp {α : Type} {m : ForestM α} (h : Keeps KeptUp m) : Keeps Matures m := by
  intro f a g hrun hf
  have hup := h f a g hrun hf.rooted
  exact ⟨hup.sound hf, (hup.steady hf.rooted).evolves⟩

private theorem matures_find (t : TermId) : Keeps Matures (find t) := matures_of_keptUp (keepsUp_find t)

private theorem matures_child (t : TermId) (slot : Slot) : Keeps Matures (child t slot) :=
  matures_of_keptUp (keepsUp_child t slot)

end Forest

open Forest (Matures matures_find matures_child)

namespace Program

variable {α β : Type} {p : Program}

private theorem matures_watch (t : TermId) (id : NodeId) : Keeps Matures (watch t id) :=
  (keeps_watch t id).mono fun _ _ => Forest.Tidied.matures

/-! ## What arguments carry -/

/-- Whatever was noted before, the forest matures. -/
def Notes (m : CarryM α) : Prop := ∀ noted, Keeps Matures (m noted)

private theorem notes_pure (a : α) : Notes (pure a : CarryM α) := fun noted =>
  keeps_pure (a, noted)

private theorem notes_bind {m : CarryM α} {k : α → CarryM β} (hm : Notes m) (hk : ∀ a, Notes (k a)) :
    Notes (m >>= k) := fun noted => keeps_bind (hm noted) fun r => hk r.1 r.2

private theorem notes_lift {run : ForestM α} (h : Keeps Matures run) : Notes (run : CarryM α) :=
  fun noted => keeps_bind h fun a => keeps_pure (a, noted)

private theorem notes_modify (change : Carried → Carried) : Notes (modify change : CarryM Unit) :=
  fun noted => keeps_pure ((), change noted)

private theorem notes_get : Notes (get : CarryM Carried) := fun noted => keeps_pure (noted, noted)

private theorem notes_ite {c : Prop} [Decidable c] {m m' : CarryM α} (h : Notes m) (h' : Notes m') :
    Notes (if c then m else m') := by
  split
  · exact h
  · exact h'

private theorem notes_kind (t : TermId) : Notes ((do return (← get).kind t : ForestM Kind) : CarryM Kind) :=
  notes_lift (keeps_bind keeps_get fun _ => keeps_pure _)

private theorem matures_returned (flows : Flows) (fid : FunctionId) :
    Keeps Matures (p.returned flows fid) := by
  unfold returned
  split
  · exact keeps_pure _
  · refine keeps_bind (matures_find _) fun t => keeps_bind keeps_get fun f => ?_
    refine keeps_ite (keeps_pure _) ?_
    split
    · exact keeps_pure _
    · exact keeps_bind_option (matures_child _ _) (keeps_pure _) fun ret => keeps_widestOf ret
    · exact keeps_pure _

private theorem notes_carryResults (flows : Flows) (call : NodeId) {carry : TermId → Flow → CarryM Unit}
    (hcarry : ∀ t flow, Notes (carry t flow)) (ret : TermId) (fids : List FunctionId) :
    Notes (p.carryResults flows call carry ret fids) := by
  induction fids with
  | nil => exact notes_pure _
  | cons fid rest ih =>
    have hlast : Notes (do
        let flow ← (p.returned flows fid : ForestM Flow)
        carry ret flow
        p.carryResults flows call carry ret rest) :=
      notes_bind (notes_lift (matures_returned flows fid)) fun flow =>
        notes_bind (hcarry ret flow) fun _ => ih
    unfold carryResults
    split
    · refine notes_bind (notes_lift (matures_find _)) fun callee => ?_
      exact notes_bind (notes_lift (matures_watch _ _)) fun _ => hlast
    · exact hlast

private theorem notes_carryFields {carry : TermId → Flow → CarryM Unit}
    (hcarry : ∀ t flow, Notes (carry t flow)) (t : TermId) (flow : Flow) (labels : List String) :
    Notes (carryFields carry t flow labels) := by
  induction labels with
  | nil => exact notes_pure _
  | cons label rest ih =>
    refine notes_bind (notes_lift (matures_child t (.field label))) fun child? => ?_
    cases child? with
    | none => exact ih
    | some child => exact notes_bind (hcarry _ _) fun _ => ih

private theorem notes_carryWithin (flows : Flows) (call : NodeId) (fuel : Nat) (t : TermId) (flow : Flow) :
    Notes (p.carryWithin flows call fuel t flow) := by
  induction fuel generalizing t flow with
  | zero => exact notes_lift keeps_failure
  | succ fuel ih =>
    have hnote : ∀ (t : TermId) (flow : Flow), Notes (noteFlow t flow) := fun t flow =>
      notes_modify _
    refine notes_bind (notes_lift (matures_find t)) fun t => notes_bind notes_get fun noted => ?_
    refine notes_ite (notes_pure _) (notes_bind (notes_modify _) fun _ => ?_)
    refine notes_bind (notes_kind t) fun kind => ?_
    split
    · exact hnote _ _
    · exact hnote _ _
    · exact hnote _ _
    · exact hnote _ _
    · exact notes_bind (hnote _ _) fun _ => ih _ _
    · split
      · refine notes_bind (hnote _ _) fun _ => notes_ite (notes_pure _) ?_
        refine notes_bind (notes_lift (matures_child t .ret)) fun ret? => ?_
        cases ret? with
        | none => exact notes_pure _
        | some ret => exact notes_carryResults flows call ih ret _
      · exact notes_pure _
    · refine notes_bind (hnote _ _) fun _ => ?_
      split
      · exact notes_carryFields ih _ _ _
      · exact notes_pure _

private theorem notes_carry (flows : Flows) (call : NodeId) (args : List NodeId) :
    Notes (p.carry flows call args) := by
  induction args with
  | nil => exact notes_pure _
  | cons arg rest ih =>
    refine notes_bind (notes_modify _) fun _ => ?_
    refine notes_bind (notes_lift (matures_find _)) fun t => ?_
    refine notes_bind (notes_lift (matures_watch _ _)) fun _ => ?_
    exact notes_bind (notes_carryWithin flows call _ _ _) fun _ => ih

/-! ## Sharpening -/

private theorem matures_sharpenWhole (call : NodeId) (noted : List (TermId × Flow)) (flow : Flow)
    (t : TermId) : Keeps Matures (sharpenWhole call noted flow t) := by
  refine keeps_bind keeps_get fun f => ?_
  cases noted.lookup t with
  | none =>
    cases f.kind t with
    | record => exact keeps_bind (keeps_widestOf t) fun widest => keeps_pure _
    | _ => exact keeps_pure _
  | some known =>
    cases f.kind t with
    | var | link | error =>
      exact keeps_ite (keeps_bind (matures_watch _ _) fun _ => keeps_pure _) (keeps_pure _)
    | _ => exact keeps_pure _

mutual

private theorem matures_sharpen (call : NodeId) (noted : List (TermId × Flow)) :
    ∀ (flow : Flow) (t : TermId), Keeps Matures (sharpen call noted flow t)
  | .any, _ => keeps_pure _
  | .record sites (some fields) nil, t => by
    refine keeps_bind (matures_find t) fun t => keeps_bind keeps_get fun f => ?_
    exact keeps_ite (keeps_bind (matures_sharpenFields call noted fields t) fun _ => keeps_pure _)
      (matures_sharpenWhole call noted _ t)
  | .record _ none _, t | .nil, t | .int _, t | .float _, t | .text _ _, t | .function _ _, t
  | .scalar _, t => keeps_bind (matures_find t) fun t => matures_sharpenWhole call noted _ t
  termination_by structural flow => flow

private theorem matures_sharpenFields (call : NodeId) (noted : List (TermId × Flow))
    {bound : Option String} : ∀ (fields : Fields Flow bound) (t : TermId),
      Keeps Matures (sharpenFields call noted fields t)
  | .nil, _ => keeps_pure _
  | .cons label h flow rest, t => by
    refine keeps_bind_option (matures_child t (.field label)) ?_ fun child => ?_
    · refine keeps_bind (keeps_pure _) fun flow => ?_
      exact keeps_bind (matures_sharpenFields call noted rest t) fun _ => keeps_pure _
    · refine keeps_bind (matures_sharpen call noted flow child) fun flow => ?_
      exact keeps_bind (matures_sharpenFields call noted rest t) fun _ => keeps_pure _
  termination_by structural fields => fields

end

private theorem matures_callResult (flows : Flows) (call : NodeId) (args : List NodeId) (flow : Flow) :
    Keeps Matures (p.callResult flows call args flow) := by
  refine keeps_bind (notes_carry flows call args _) fun r => ?_
  refine keeps_bind (matures_find _) fun me => keeps_bind (matures_watch _ _) fun _ => ?_
  exact keeps_bind (matures_sharpen call _ flow me) fun _ => keeps_pure _

/-! ## Flow steps -/

/-- Recomputing a flow lets the forest mature. -/
theorem matures_evaluate (flows : Flows) (id : NodeId) : Keeps Matures (p.evaluate flows id) := by
  have hcall : ∀ fn args, Keeps Matures (p.evaluateCall flows id fn args) := by
    intro fn args
    unfold evaluateCall
    split
    · exact keeps_ite (keeps_pure _) (keeps_ite (matures_callResult flows id args _) (keeps_pure _))
    · exact keeps_pure _
  unfold evaluate
  cases p.kind id with
  | apply fn args => exact hcall fn args
  | _ => exact keeps_pure _

end Program

/-- The forest matures. -/
def State.Matures (s t : State) : Prop := Forest.Matures s.forest t.forest

instance : IsPreorder State State.Matures where
  refl s := Std.Refl.refl s.forest
  trans _ _ _ hst htu := IsTrans.trans (r := Forest.Matures) _ _ _ hst htu

namespace Program

variable {p : Program}

private theorem matures_meetFormal (fid : FunctionId) (index : Nat) (flow : Flow) :
    Keeps State.Matures (meetFormal fid index flow) := by
  intro s fell t h
  rcases meetFormal_eq_some h with ⟨-, rfl, -⟩ | ⟨old, -, -, -, rfl⟩
  · exact Std.Refl.refl t
  · exact Std.Refl.refl s.forest

instance (p : Program) : StepStable p State.Matures :=
  stepStable_of_meetFormal (fun _ _ h => h.forest.matures) matures_meetFormal

/-- A flow step lets the forest mature. -/
theorem matures_flowStep (id : NodeId) : Keeps State.Matures (p.flowStep id) := by
  intro s rise t h
  obtain ⟨new, forest, heval, hcases⟩ := flowStep_eq_some h
  have hforest : Forest.Matures s.forest forest := matures_evaluate s.flows id _ _ _ heval
  have hinstall : ∀ {flow : Flow},
      p.install id flow { s with forest := forest } = some ((), t) → State.Matures s t := by
    intro flow hflow
    have ht : State.Matures ⟨forest, s.flows.setNode id flow, s.work⟩ t :=
      install_related (R := State.Matures) hflow
    exact IsTrans.trans (r := Forest.Matures) _ _ _ hforest ht
  rcases hcases with ⟨-, -, rfl⟩ | ⟨-, -, -, hnew⟩ | ⟨-, -, rfl | hmeet⟩
  · exact hforest
  · exact hinstall hnew
  · exact hforest
  · exact hinstall hmeet

end Program

end TypeFlow
