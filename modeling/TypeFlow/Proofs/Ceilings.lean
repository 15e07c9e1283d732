import TypeFlow.Proofs.Accesses
import TypeFlow.Proofs.BuildAccesses
import TypeFlow.Proofs.FallingFlows
import TypeFlow.Proofs.FirstStates
import TypeFlow.Proofs.LoopSettings
import TypeFlow.Proofs.TracedRuns

/-!
# The ceiling only truncates

A run under a lower ceiling makes the same visits as one under a higher ceiling until it is stopped.
All loops of a run share one counter of what was taken from the worklist, and nothing but the loop
reads the ceiling, so the two runs go through the same states until the lower ceiling refuses a node.
A run that is never refused one is the same under both.

Main definitions:

- `State.TakesNone`: nobody was taken off the worklist.
- `Traced.Truncated`: one outcome is the other, or was stopped on the way there.
- `Traced.Counted`: visits are what was taken off the worklist, and the ceiling bounds them.

Main results:

- `Program.takesNone_visit`: only the loop takes work.
- `Program.ceiling_truncates`: two runs that differ in the ceiling.
-/

namespace TypeFlow

/-! ## What takes nobody off the worklist -/

/-- Nobody was taken off the worklist from one state to the other. -/
def State.TakesNone (s t : State) : Prop := t.work.pops = s.work.pops

instance : IsPreorder State State.TakesNone where
  refl _ := rfl
  trans _ _ _ hst htu := Eq.trans htu hst

/-- Work is being listed in both or in neither, and nobody was taken off it. -/
def Unifier.TakesNone (s u : Unifier) : Prop :=
  u.work.map Worklist.pops = s.work.map Worklist.pops

instance : IsPreorder Unifier Unifier.TakesNone where
  refl _ := rfl
  trans _ _ _ hst htu := Eq.trans htu hst

namespace Unifier

/-- No access to a unifier takes work. -/
theorem accesses_takesNone : Accesses fun α => Keeps (α := α) TakesNone where
  toComposes := composes_keeps
  view read := by
    intro s a u h
    rw [(view_eq_some.1 h).2]
    exact Std.Refl.refl u
  change f := by
    intro s a u h
    rw [change_eq_some.1 h]
    rfl
  onForest run := by
    intro s a u h
    obtain ⟨forest, -, rfl⟩ := onForest_eq_some.1 h
    rfl
  add new := by
    intro s a u h
    cases h
    rfl
  isProbe := by
    intro s a u h
    rw [(isProbe_eq_some.1 h).2]
    exact Std.Refl.refl u
  wake t := by
    intro s a u h
    rw [wake_eq_some.1 h]
    cases hwork : s.work with
    | none => simp [TakesNone, hwork]
    | some w => simp [TakesNone, hwork, Forest.pops_wake]
  push id := by
    intro s a u h
    rw [Program.push_eq_some.1 h]
    cases hwork : s.work with
    | none => simp [TakesNone, hwork]
    | some w => simp [TakesNone, hwork, Worklist.push]
  readMemo read := by
    intro s a u h
    cases h
    rfl
  changeMemo met image := by
    intro s a u h
    rw [← modify_eq_some.1 h]
    rfl

end Unifier

namespace Program

private theorem takesNone_meetFormal (fid : FunctionId) (index : Nat) (flow : Flow) :
    Keeps State.TakesNone (meetFormal fid index flow) := by
  intro s fell t h
  rcases meetFormal_eq_some h with ⟨-, rfl, -⟩ | ⟨old, -, -, -, rfl⟩
  · rfl
  · rfl

instance (p : Program) : StepStable p State.TakesNone :=
  stepStable_of_meetFormal (fun _ _ h => h.pops) takesNone_meetFormal

variable {α : Type}

private theorem takesNone_commit {run : UnifyM α} (h : Keeps Unifier.TakesNone run) :
    Keeps State.TakesNone (commit run) := by
  intro s a t ht
  obtain ⟨⟨b, u⟩, hrun, e⟩ := Option.map_eq_some_iff.1 ht
  rw [Prod.mk.injEq] at e
  have hpops : u.work.map Worklist.pops = some s.work.pops := h _ b u hrun
  obtain ⟨work, hwork, hsame⟩ := Option.map_eq_some_iff.1 hpops
  rw [← e.2, State.TakesNone, hwork]
  exact hsame

private theorem takesNone_probe (run : UnifyM α) : Keeps State.TakesNone (probe run) := by
  intro s a t h
  obtain ⟨r, -, e⟩ := Option.map_eq_some_iff.1 h
  rw [Prod.mk.injEq] at e
  rw [← e.2]
  rfl

private theorem takesNone_forestSays (read : Forest → α) : Keeps State.TakesNone (forestSays read) := by
  intro s a t h
  cases h
  rfl

private theorem takesNone_flowsSay (read : Flows → α) : Keeps State.TakesNone (flowsSay read) :=
  (quiet_flowsSay read).mono fun _ _ h => h.pops

private theorem takesNone_onTerms (run : Flows → ForestM α) : Keeps State.TakesNone (onTerms run) := by
  intro s a t h
  obtain ⟨forest, -, rfl⟩ := onTerms_eq_some.1 h
  rfl

/-- A visit takes nobody off the worklist. -/
theorem takesNone_visit (p : Program) (id : NodeId) : Keeps State.TakesNone (p.visit id) := by
  have hadvance : Keeps State.TakesNone (p.advanceType id) := by
    refine keeps_bind (takesNone_flowsSay _) fun flows => takesNone_commit ?_
    refine keeps_bind (Unifier.accesses_takesNone.typeStep p flows id) fun progress => ?_
    have hannounce := Unifier.accesses_takesNone.announceType p id
    exact keeps_either (keeps_pure _) fun hrest => keeps_bind hannounce fun _ => hrest
  have htype : Keeps State.TakesNone (p.stepType id) := by
    unfold stepType
    split
    · refine keeps_bind (takesNone_forestSays _) fun before => ?_
      refine keeps_bind (takesNone_forestSays _) fun classes => ?_
      refine keeps_bind (takesNone_forestSays _) fun unions => ?_
      refine keeps_bind hadvance fun progress => ?_
      split
      · exact keeps_bind (takesNone_forestSays _) fun after => keeps_pure _
      · exact keeps_bind (takesNone_forestSays _) fun after => keeps_pure _
    · exact keeps_bind hadvance fun _ => keeps_pure _
  have hinstall : ∀ flow, Keeps State.TakesNone (p.install id flow) := by
    intro flow s u t h
    exact install_related (R := State.TakesNone) h
  have hflow : Keeps State.TakesNone (p.stepFlow id) := by
    refine keeps_bind ?_ fun rise => keeps_pure _
    refine keeps_bind (takesNone_flowsSay _) fun old => ?_
    refine keeps_bind (takesNone_onTerms _) fun new => keeps_ite (keeps_pure _) ?_
    refine keeps_ite (keeps_bind (hinstall _) fun _ => keeps_pure _) ?_
    exact keeps_either (keeps_pure _) fun hrest => keeps_bind (hinstall _) fun _ => hrest
  rw [visit_eq]
  exact keeps_byAnalysis (fun _ => htype) fun _ => hflow

private theorem takesNone_check (p : Program) (phase : Phase) (converged : Bool) :
    Keeps State.TakesNone (p.check phase converged) := by
  have hnode : ∀ id, Keeps State.TakesNone (p.checkNode phase id) := by
    intro id
    rw [checkNode_eq]
    refine keeps_bind keeps_get fun s => keeps_ite (keeps_pure _) ?_
    refine keeps_byAnalysis (fun _ => ?_) fun _ => ?_
    · refine keeps_bind (takesNone_forestSays _) fun unions => ?_
      refine keeps_bind (takesNone_flowsSay _) fun flows => ?_
      refine keeps_bind (takesNone_probe _) fun progress => ?_
      exact keeps_bind (takesNone_forestSays _) fun after => keeps_pure _
    · refine keeps_bind (takesNone_onTerms _) fun recomputed => ?_
      exact keeps_bind (takesNone_flowsSay _) fun held => keeps_pure _
  have hnodes : ∀ ids found, Keeps State.TakesNone (p.checkNodes phase ids found) := by
    intro ids
    induction ids with
    | nil => exact fun found => keeps_pure _
    | cons id rest ih => exact fun found => keeps_bind (hnode id) fun more => ih _
  unfold check
  exact keeps_ite (hnodes _ _) (keeps_pure _)

end Program

namespace Builder

/-- Whenever the step has a result, nobody was taken off the worklist. -/
def TakesNone {α : Type} (m : BuildM α) : Prop :=
  ∀ b a d, m b = .ok (a, d) → d.work.pops = b.work.pops

/-- No access to a builder takes work. -/
theorem accesses_takesNone : Accesses fun α => TakesNone (α := α) where
  pure a := by
    intro b x d h
    rw [(pure_eq_ok.1 h).2]
  bind hm hf := by
    intro b x d h
    obtain ⟨a, c, hc, hd⟩ := bind_eq_ok.1 h
    exact (hf a c x d hd).trans (hm b a c hc)
  throw e := by
    intro b x d h
    cases h
  change f := by
    intro b x d h
    rw [change_eq_ok.1 h]
  grow f := by
    intro b x d h
    obtain ⟨-, rfl⟩ := grow_eq_ok.1 h
    rfl
  onForest run := by
    intro b x d h
    obtain ⟨forest, -, rfl⟩ := onForest_eq_ok.1 h
    rfl
  unify s t := by
    intro b x d h
    obtain ⟨r, v, hunify, rfl⟩ := unify_eq_ok h
    have hpops : v.work.map Worklist.pops = some b.work.pops :=
      Unifier.accesses_takesNone.unify 1 s t _ r v hunify
    obtain ⟨work, hwork, hsame⟩ := Option.map_eq_some_iff.1 hpops
    rw [hwork]
    exact hsame
  addNode parent pinned type := by
    intro b x d h
    obtain ⟨-, rfl⟩ := addNode_eq_ok.1 h
    rfl
  setKind id kind := by
    intro b x d h
    rw [setKind_eq_ok.1 h]
  setType id type := by
    intro b x d h
    rw [setType_eq_ok.1 h]
  typeOf id := by
    intro b x d h
    obtain ⟨-, rfl⟩ := typeOf_eq_ok.1 h
    rfl
  nextFunction := by
    intro b x d h
    obtain ⟨-, rfl⟩ := nextFunction_eq_ok.1 h
    rfl
  addFunction id := by
    intro b x d h
    rw [addFunction_eq_ok.1 h]
  newSite := by
    intro b x d h
    obtain ⟨-, rfl⟩ := newSite_eq_ok.1 h
    rfl

end Builder

/-! ## Truncated runs -/

namespace Traced

variable {α β : Type}

/-- The outcome is that of the other computation, or the computation was stopped when all its visits
were the first of the other. -/
def Truncated (stopped : α → Prop) (r r' : List Visit × Option (α × State)) : Prop :=
  r = r' ∨ (∃ a t, r.2 = some (a, t) ∧ stopped a) ∧ r.1 <+: r'.1

/-- Once stopped, a computation makes no visit and stays stopped. -/
def Halts (stopped : α → Prop) (m : Traced α) : Prop :=
  ∀ s, (m s).1 = [] ∧ ∃ a t, (m s).2 = some (a, t) ∧ stopped a

private theorem truncated_refl (stopped : α → Prop) (m : Traced α) (s : State) :
    Truncated stopped (m s) (m s) := Or.inl rfl

/-- What comes later adds visits at the end. -/
theorem prefix_bind (m : Traced α) (f : α → Traced β) (s : State) :
    (m s).1 <+: ((m >>= f) s).1 := by
  rcases h : m s with ⟨visits, _ | ⟨a, t⟩⟩
  · rw [bind_of_none h]
  · rw [bind_of_some h]
    exact List.prefix_append _ _

/-- Of two computations in turn the first may be stopped, and then the second halts. -/
theorem truncated_bind {stopped : α → Prop} {stopped' : β → Prop} {m m' : Traced α}
    {f f' : α → Traced β} {s : State} (hm : Truncated stopped (m s) (m' s))
    (hf : ∀ a t, (m s).2 = some (a, t) → Truncated stopped' (f a t) (f' a t))
    (hhalts : ∀ a, stopped a → Halts stopped' (f a)) :
    Truncated stopped' ((m >>= f) s) ((m' >>= f') s) := by
  rcases hm with hsame | ⟨⟨a, t, hstop, hstopped⟩, hprefix⟩
  · rcases h : m s with ⟨visits, _ | ⟨a, t⟩⟩
    · rw [bind_of_none h, bind_of_none (hsame.symm.trans h)]
      exact Or.inl rfl
    · rw [bind_of_some h, bind_of_some (hsame.symm.trans h)]
      rcases hf a t (by rw [h]) with hrest | ⟨hstop, hprefix⟩
      · rw [hrest]
        exact Or.inl rfl
      · exact Or.inr ⟨hstop, (List.prefix_append_right_inj visits).2 hprefix⟩
  · obtain ⟨hnone, b, u, hb, hstopped'⟩ := hhalts a hstopped t
    rw [bind_of_some (Prod.ext rfl hstop), hnone, List.append_nil]
    exact Or.inr ⟨⟨b, u, hb, hstopped'⟩, hprefix.trans (prefix_bind m' f' s)⟩

private theorem halts_pure {stopped : α → Prop} {a : α} (h : stopped a) : Halts stopped (pure a) :=
  fun s => ⟨rfl, a, s, rfl, h⟩

/-- As many visits are made as nodes are taken off the worklist, except the last if the computation
is stopped, and no more than the ceiling allows. -/
structure Counted (ceiling : Nat) (stopped : α → Prop) (s : State)
    (r : List Visit × Option (α × State)) : Prop where
  length : r.1.length + s.work.pops ≤ max ceiling s.work.pops
  pops : ∀ a t, r.2 = some (a, t) → ¬stopped a → t.work.pops = s.work.pops + r.1.length

private theorem counted_lift {ceiling : Nat} {stopped : α → Prop} {m : StepM α} {s : State}
    (h : ∀ a t, m s = some (a, t) → ¬stopped a → State.TakesNone s t) :
    Counted ceiling stopped s (lift m s) := by
  refine ⟨?_, h⟩
  show 0 + s.work.pops ≤ _
  omega

private theorem counted_bind {ceiling : Nat} {stopped : α → Prop} {stopped' : β → Prop} {m : Traced α}
    {f : α → Traced β} {s : State} (hm : Counted ceiling stopped s (m s))
    (hf : ∀ a t, Counted ceiling stopped' t (f a t))
    (hhalts : ∀ a, stopped a → Halts stopped' (f a)) :
    Counted ceiling stopped' s ((m >>= f) s) := by
  rcases h : m s with ⟨visits, _ | ⟨a, t⟩⟩
  · rw [bind_of_none h]
    rw [h] at hm
    exact ⟨hm.length, fun _ _ h => nomatch h⟩
  · rw [bind_of_some h]
    rw [h] at hm
    by_cases hstopped : stopped a
    · obtain ⟨hnone, b, u, hb, hstopped'⟩ := hhalts a hstopped t
      rw [hnone, List.append_nil, hb]
      refine ⟨hm.length, fun b' u' hbu hgoing => ?_⟩
      cases hbu
      exact absurd hstopped' hgoing
    · have hpops := hm.pops a t rfl hstopped
      have hrest := hf a t
      have hlength := hm.length
      have hlength' := hrest.length
      dsimp only at hpops hlength
      refine ⟨?_, fun b u hbu hgoing => ?_⟩
      · simp only [List.length_append]
        omega
      · rw [hrest.pops b u hbu hgoing, hpops, List.length_append, Nat.add_assoc]

/-- A step that takes nobody off the worklist and never stops costs the rest nothing. -/
theorem counted_lift_bind {ceiling : Nat} {stopped : β → Prop} {m : StepM α} {f : α → Traced β}
    {s : State} (hm : ∀ a t, m s = some (a, t) → State.TakesNone s t)
    (hf : ∀ a t, Counted ceiling stopped t (f a t)) :
    Counted ceiling stopped s ((lift m >>= f) s) := by
  have hlift : Counted ceiling (fun _ => False) s (lift m s) :=
    counted_lift fun a t h _ => hm a t h
  exact counted_bind hlift hf fun _ => False.elim

end Traced

/-- Taking a node counts. -/
theorem Worklist.pops_of_pop? {work rest : Worklist} {id : NodeId}
    (h : work.pop? = some (id, rest)) : rest.pops = work.pops + 1 := by
  unfold pop? at h
  split at h
  · obtain ⟨r, -, e⟩ := Option.map_eq_some_iff.1 h
    cases e
    rfl
  · obtain ⟨r, -, e⟩ := Option.map_eq_some_iff.1 h
    cases e
    rfl

/-- The run was stopped by the ceiling. -/
def Course.Stopped (course : Course) : Prop := course.converged = false

namespace Program

open Traced (Truncated Halts Counted truncated_refl truncated_bind halts_pure
  counted_lift counted_bind counted_lift_bind)

variable {p : Program} {ceiling : Nat}

/-! ## The loop -/

private theorem traceWithin_of_none {fuel : Nat} {found : List Violation} {s : State}
    (h : s.work.pop? = none) :
    p.traceWithin (fuel + 1) found s = ([], some (⟨true, found⟩, s)) := by
  have hturn : (Traced.lift p.nextTurn) s = ([], some (.idle, s)) := by
    simp only [Traced.lift, nextTurn, h]
  exact Traced.bind_of_some hturn _

private theorem traceWithin_of_some {fuel : Nat} {found : List Violation} {s : State} {id : NodeId}
    {rest : Worklist} (h : s.work.pop? = some (id, rest)) :
    p.traceWithin (fuel + 1) found s =
      if p.settings.maxIterations ≤ s.work.pops then
        ([], some (⟨false, found⟩, { s with work := rest.push id }))
      else
        (Traced.visiting id (p.visit id) >>= fun more => p.traceWithin fuel (found ++ more))
          { s with work := rest } := by
  have hpops := Worklist.pops_of_pop? h
  split
  · rename_i hfull
    have hturn : (Traced.lift p.nextTurn) s =
        ([], some (.stopped, { s with work := rest.push id })) := by
      simp only [Traced.lift, nextTurn, h, hpops, gt_iff_lt, Nat.lt_succ_of_le hfull, if_true]
    exact Traced.bind_of_some hturn _
  · rename_i hroom
    have hroom : ¬rest.pops > p.settings.maxIterations := by omega
    have hturn : (Traced.lift p.nextTurn) s = ([], some (.take id, { s with work := rest })) := by
      simp only [Traced.lift, nextTurn, h, if_neg hroom]
    exact Traced.bind_of_some hturn _

private theorem traceWithin_truncated (hle : p.settings.maxIterations ≤ ceiling) {fuel fuel' : Nat}
    {found : List Violation} {s : State} (hfuel : fuel = p.settings.maxIterations - s.work.pops + 1)
    (hfuel' : fuel' = ceiling - s.work.pops + 1) :
    Truncated Course.Stopped (p.traceWithin fuel found s)
      ((p.withCeiling ceiling).traceWithin fuel' found s) := by
  induction fuel generalizing fuel' found s with
  | zero => cases hfuel
  | succ fuel ih =>
    rw [hfuel']
    cases hpop : s.work.pop? with
    | none =>
      rw [traceWithin_of_none hpop, traceWithin_of_none hpop]
      exact Or.inl rfl
    | some r =>
      obtain ⟨id, rest⟩ := r
      rw [traceWithin_of_some hpop]
      split
      · -- The lower ceiling refuses the node.
        exact Or.inr ⟨⟨_, _, rfl, rfl⟩, List.nil_prefix⟩
      · rename_i hroom
        have hroom' : ¬ceiling ≤ s.work.pops := fun h => hroom (hle.trans h)
        rw [traceWithin_of_some hpop, visit_withCeiling]
        rw [if_neg (show ¬(p.withCeiling ceiling).settings.maxIterations ≤ s.work.pops from hroom')]
        refine truncated_bind (truncated_refl (fun _ => False) _ _) ?_ fun _ => False.elim
        intro more t ht
        have htaken : t.work.pops = s.work.pops + 1 :=
          (takesNone_visit p id _ more t ht).trans (Worklist.pops_of_pop? hpop)
        refine ih ?_ ?_
        · omega
        · omega

private theorem traceWithin_counted {fuel : Nat} {found : List Violation} {s : State} :
    Counted p.settings.maxIterations Course.Stopped s (p.traceWithin fuel found s) := by
  induction fuel generalizing found s with
  | zero => exact counted_lift fun _ _ h => (failure_eq_some.1 h).elim
  | succ fuel ih =>
    cases hpop : s.work.pop? with
    | none =>
      rw [traceWithin_of_none hpop]
      refine ⟨?_, fun a t h _ => ?_⟩
      · exact Nat.le_max_right _ _ |>.trans' (Nat.zero_add _).le
      · cases h
        rfl
    | some r =>
      obtain ⟨id, rest⟩ := r
      have hpops := Worklist.pops_of_pop? hpop
      rw [traceWithin_of_some hpop]
      split
      · refine ⟨?_, fun a t h hgoing => ?_⟩
        · exact Nat.le_max_right _ _ |>.trans' (Nat.zero_add _).le
        · cases h
          exact absurd rfl hgoing
      · rename_i hroom
        rcases hvisit : p.visit id { s with work := rest } with _ | ⟨more, t⟩
        · have h : Traced.visiting id (p.visit id) { s with work := rest } =
              ([(id, { s with work := rest })], none) := Prod.ext rfl hvisit
          rw [Traced.bind_of_none h]
          refine ⟨?_, fun _ _ h => nomatch h⟩
          show 1 + s.work.pops ≤ _
          omega
        · have h : Traced.visiting id (p.visit id) { s with work := rest } =
              ([(id, { s with work := rest })], some (more, t)) := Prod.ext rfl hvisit
          have htaken : t.work.pops = s.work.pops + 1 :=
            (takesNone_visit p id _ more t hvisit).trans hpops
          have hrest : Counted p.settings.maxIterations Course.Stopped t
            (p.traceWithin fuel (found ++ more) t) := ih
          have hlength := hrest.length
          rw [Traced.bind_of_some h]
          refine ⟨?_, fun a u hu hgoing => ?_⟩
          · simp only [List.length_append, List.length_singleton]
            omega
          · rw [hrest.pops a u hu hgoing, htaken]
            simp only [List.length_append, List.length_singleton]
            omega

/-! ## The run -/

private theorem halts_check (p : Program) (phase : Phase) {course : Course} (h : course.Stopped) :
    Halts Course.Stopped (do
      let more ← p.check phase course.converged
      return ⟨course.converged, course.violations ++ more⟩) := by
  have hcheck : p.check phase course.converged = pure [] := by
    rw [h, check, Bool.and_false]
    rfl
  rw [hcheck]
  intro s
  exact ⟨rfl, _, s, rfl, h⟩

private theorem traceSettle_truncated (hle : p.settings.maxIterations ≤ ceiling) (phase : Phase)
    (s : State) :
    Truncated Course.Stopped (p.traceSettle phase s)
      ((p.withCeiling ceiling).traceSettle phase s) := by
  unfold traceSettle
  simp only [check_withCeiling]
  refine truncated_bind ?_ (fun _ t _ => truncated_refl _ _ t) fun _ => halts_check p phase
  exact traceWithin_truncated hle rfl rfl

private theorem traceSettle_counted (phase : Phase) (s : State) :
    Counted p.settings.maxIterations Course.Stopped s (p.traceSettle phase s) := by
  refine counted_bind traceWithin_counted (fun course t => ?_) fun _ => halts_check p phase
  refine counted_lift_bind (fun more u h => takesNone_check p phase _ t more u h) fun more u => ?_
  exact counted_lift fun _ _ h _ => (pure_eq_some.1 h).2 ▸ rfl

/-- Some rounds of widening ended with a run that was stopped. -/
def RoundsStopped (r : Nat × Course) : Prop := r.2.Stopped

private theorem halts_traceRounds (p : Program) (left rounds : Nat) {course : Course} (h : course.Stopped) :
    Halts RoundsStopped (p.traceRounds left rounds course) := by
  cases left with
  | zero => exact halts_pure h
  | succ left =>
    unfold traceRounds
    rw [if_pos (by rw [h]; rfl)]
    exact halts_pure h

private theorem traceRounds_truncated (hle : p.settings.maxIterations ≤ ceiling) (left rounds : Nat)
    (course : Course) (s : State) :
    Truncated RoundsStopped (p.traceRounds left rounds course s)
      ((p.withCeiling ceiling).traceRounds left rounds course s) := by
  induction left generalizing rounds course s with
  | zero => exact truncated_refl _ _ s
  | succ left ih =>
    unfold traceRounds
    rw [show (p.withCeiling ceiling).widenEscapes = p.widenEscapes from widenEscapes_under p _]
    split
    · exact truncated_refl _ _ s
    refine truncated_bind (truncated_refl (fun _ => False) _ s) ?_ fun _ => False.elim
    intro widened t _
    split
    · exact truncated_refl _ _ t
    refine truncated_bind (traceSettle_truncated hle _ t) (fun next u _ => ih _ _ u) ?_
    exact fun next hnext => halts_traceRounds p _ _ hnext

private theorem traceRounds_counted (left rounds : Nat) (course : Course) (s : State) :
    Counted p.settings.maxIterations RoundsStopped s (p.traceRounds left rounds course s) := by
  have hpure : ∀ (r : Nat × Course) (s : State),
      Counted p.settings.maxIterations RoundsStopped s ((pure r : Traced (Nat × Course)) s) :=
    fun r s => counted_lift fun _ _ h _ => (pure_eq_some.1 h).2 ▸ rfl
  induction left generalizing rounds course s with
  | zero => exact hpure _ s
  | succ left ih =>
    unfold traceRounds
    split
    · exact hpure _ s
    refine counted_lift_bind (fun widened t h => keeps_widenEscapes p s widened t h)
      fun widened t => ?_
    split
    · exact hpure _ t
    refine counted_bind (traceSettle_counted _ t) (fun next u => ih _ _ u) ?_
    exact fun next hnext => halts_traceRounds p _ _ hnext

/-- What is said of a run after its rounds. -/
def endRun (p : Program) (initialTerms : Nat) (r : Nat × Course) : Traced Stats := do
  let terms ← forestSays Forest.size
  let last ← (get : StepM State)
  return {
    nodes := p.size
    initialTerms := initialTerms
    terms := terms
    pops := last.work.pops
    widenRounds := r.1
    converged := r.2.converged
    violations := r.2.violations }

private theorem traceRun_eq (p : Program) :
    p.traceRun = (do
      let initialTerms ← forestSays Forest.size
      let course ← p.traceSettle .fixpoint
      let limit := if p.settings.flows then p.settings.maxWidenRounds else 0
      let r ← p.traceRounds limit 0 course
      p.endRun initialTerms r) := rfl

/-- The whole run was stopped by the ceiling. -/
def RunStopped (stats : Stats) : Prop := stats.converged = false

private theorem halts_endRun (p : Program) (initialTerms : Nat) {r : Nat × Course} (h : RoundsStopped r) :
    Halts RunStopped (p.endRun initialTerms r) := fun s => ⟨rfl, _, s, rfl, h⟩

private theorem halts_rounds (p : Program) (initialTerms left : Nat) {course : Course} (h : course.Stopped) :
    Halts RunStopped (p.traceRounds left 0 course >>= p.endRun initialTerms) := by
  intro s
  obtain ⟨hnone, r, t, hr, hstopped⟩ := halts_traceRounds p left 0 h s
  rw [Traced.bind_of_some (Prod.ext hnone hr)]
  exact halts_endRun p initialTerms hstopped t

private theorem traceRun_truncated (hle : p.settings.maxIterations ≤ ceiling) (s : State) :
    Truncated RunStopped (p.traceRun s) ((p.withCeiling ceiling).traceRun s) := by
  rw [traceRun_eq, traceRun_eq]
  refine truncated_bind (truncated_refl (fun _ => False) _ s) ?_ fun _ => False.elim
  intro initialTerms t _
  refine truncated_bind (traceSettle_truncated hle _ t) ?_ fun _ => halts_rounds p initialTerms _
  intro course u _
  refine truncated_bind (traceRounds_truncated hle _ _ _ u) ?_ fun _ => halts_endRun p initialTerms
  exact fun r v _ => truncated_refl _ (p.endRun initialTerms r) v

private theorem traceRun_counted (s : State) :
    Counted p.settings.maxIterations RunStopped s (p.traceRun s) := by
  rw [traceRun_eq]
  refine counted_lift_bind (fun n t h => takesNone_forestSays _ s n t h) fun initialTerms t => ?_
  refine counted_bind (traceSettle_counted _ t) ?_ fun _ => halts_rounds p initialTerms _
  intro course u
  refine counted_bind (traceRounds_counted _ _ _ u) ?_ fun _ => halts_endRun p initialTerms
  intro r v
  refine ⟨Nat.le_max_right _ _ |>.trans' (Nat.zero_add _).le, fun stats w h _ => ?_⟩
  cases h
  rfl

/-- No work was taken when a program is prepared. -/
theorem pops_of_build {e : Expr} {settings : Settings} {depth : Nat} {s : State}
    (h : build e settings depth = .ok (p, s)) : s.work.pops = 0 := by
  obtain ⟨b, hb, -, rfl⟩ := build_eq_ok.1 h
  exact Builder.accesses_takesNone.lowerProgram e _ () b hb

/-- Under a ceiling that is not lower, the same program is prepared.  The visits of the run under the
lower ceiling, each with the state it finds, are the first of the other run and no more than that
ceiling.  If the ceiling does not stop the run, the other run ends in the same state with the same
statistics. -/
theorem ceiling_truncates {e : Expr} {settings : Settings} {ceiling depth : Nat} {p : Program}
    {s : State} (hle : settings.maxIterations ≤ ceiling)
    (h : build e settings depth = .ok (p, s)) :
    build e { settings with maxIterations := ceiling } depth = .ok (p.withCeiling ceiling, s) ∧
      p.visits s <+: (p.withCeiling ceiling).visits s ∧
      (p.visits s).length ≤ settings.maxIterations ∧
      ∀ stats t, p.run s = some (stats, t) → stats.converged = true →
        (p.withCeiling ceiling).run s = some (stats, t) := by
  have hsettings : p.settings = settings := settings_of_build h
  have hcounted := (traceRun_counted (p := p) s).length
  rw [pops_of_build h, hsettings, Nat.max_zero] at hcounted
  rw [← hsettings] at hle
  have hbuilt : build e { settings with maxIterations := ceiling } depth =
      .ok (p.withCeiling ceiling, s) := by
    rw [build_withCeiling, h]
    rfl
  rcases traceRun_truncated hle s with hsame | ⟨⟨stats', t', hstop, hstopped⟩, hprefix⟩
  · refine ⟨hbuilt, ?_, hcounted, fun stats t hrun _ => ?_⟩
    · rw [visits, visits, hsame]
    · rw [← traceRun_run, ← hsame, traceRun_run, hrun]
  · refine ⟨hbuilt, hprefix, hcounted, fun stats t hrun hconverged => ?_⟩
    rw [traceRun_run, hrun] at hstop
    cases hstop
    exact absurd (hstopped.symm.trans hconverged) (by decide)

/-- The program `(dec 3)` is stopped by a ceiling of two and not by one of twenty. -/
theorem ceiling_truncates_dec_three :
    (∃ p s, build (.apply (.prim .dec) [.int 3]) { maxIterations := 2 } = .ok (p, s) ∧
      (p.visits s).length = 2 ∧ p.visits s <+: (p.withCeiling 20).visits s) ∧
    ∃ p s stats t, build (.apply (.prim .dec) [.int 3]) { maxIterations := 20 } = .ok (p, s) ∧
      p.run s = some (stats, t) ∧ (p.withCeiling 30).run s = some (stats, t) := by
  have htwo : ((build (.apply (.prim .dec) [.int 3]) { maxIterations := 2 }).toOption.map
      fun r => (r.1.visits r.2).length) = some 2 := by
    decide +kernel
  have htwenty : ((build (.apply (.prim .dec) [.int 3]) { maxIterations := 20 }).toOption.map
      fun r => (r.1.run r.2).map fun o => o.1.converged) = some (some true) := by
    decide +kernel
  obtain ⟨⟨p, s⟩, h, hlength⟩ := ok_of_map htwo
  obtain ⟨⟨p', s'⟩, h', hends⟩ := ok_of_map htwenty
  obtain ⟨⟨stats, t⟩, hrun, hconverged⟩ := Option.map_eq_some_iff.1 hends
  have hle : ({ maxIterations := 2 } : Settings).maxIterations ≤ 20 := by decide
  have hle' : ({ maxIterations := 20 } : Settings).maxIterations ≤ 30 := by decide
  obtain ⟨-, hprefix, -, -⟩ := ceiling_truncates hle h
  obtain ⟨-, -, -, hsame⟩ := ceiling_truncates hle' h'
  exact ⟨⟨p, s, h, hlength, hprefix⟩, p', s', stats, t, h', hrun, hsame stats t hrun hconverged⟩

end Program

end TypeFlow
