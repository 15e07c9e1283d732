import TypeFlow.Proofs.Runs
import TypeFlow.Proofs.SettledFlows

/-!
# Runs without types

Where only flows are computed, a sweep that reports no rise leaves every node settled, so nothing is
reported when the nodes are looked over.  And where no nil is about there is no rise: every node
holds a flow at or above its recomputed one, at the start and after every step.

Main definitions:

- `State.Calm`: every node holds a flow at or above its recomputed one.
- `Program.Ready`: moreover, every node that does not wait is settled.

Main results:

- `Program.sweep_settled`: a sweep that reports nothing leaves every node settled.
- `Program.violations_of_runs`: a run from a sound state reports nothing unless a flow rose.
- `Program.violations_of_idle`: a run that computes nothing reports nothing.
- `Program.calm_runs`: a run from a ready state without nil reports nothing.
-/

namespace TypeFlow

namespace Program

variable {p : Program}

/-! ## Visits and looking over -/

section Untyped

variable (htypes : p.settings.types = false)

include htypes in
/-- A visit reports the rise of its flow step, if there is one. -/
theorem visit_eq_some (hflows : p.settings.flows = true) {id : NodeId} {s t : State}
    {found : List Violation} (h : p.visit id s = some (found, t)) :
    ∃ rise, p.flowStep id s = some (rise, t) ∧ found = rise.toList.map (.rose id) := by
  rw [visit_eq, byAnalysis, htypes, hflows] at h
  obtain ⟨ofTypes, s₁, htype, h₁⟩ := bind_eq_some.1 h
  obtain ⟨rfl, rfl⟩ := pure_eq_some.1 htype
  obtain ⟨ofFlows, s₂, hflow, h₂⟩ := bind_eq_some.1 h₁
  obtain ⟨rfl, rfl⟩ := pure_eq_some.1 h₂
  obtain ⟨rise, s₃, hstep, h₃⟩ := bind_eq_some.1 hflow
  obtain ⟨rfl, rfl⟩ := pure_eq_some.1 h₃
  exact ⟨rise, hstep, rfl⟩

include htypes in
/-- Looking a node over changes nothing, and reports nothing of a node that waits or is settled. -/
theorem checkNode_eq_some {phase : Phase} {id : NodeId} {s t : State} {found : List Violation}
    (h : p.checkNode phase id s = some (found, t)) :
    t = s ∧ ((id ∉ s.work.pending → p.Settled s id) → found = []) := by
  rw [checkNode_eq] at h
  obtain ⟨s₀, s₁, hget, h₁⟩ := bind_eq_some.1 h
  obtain ⟨rfl, rfl⟩ := get_eq_some.1 hget
  split at h₁
  · obtain ⟨rfl, rfl⟩ := pure_eq_some.1 h₁
    exact ⟨rfl, fun _ => rfl⟩
  rename_i hidle
  rw [Worklist.has, OrderedSet.contains_eq_true] at hidle
  rw [byAnalysis, htypes] at h₁
  obtain ⟨ofTypes, s₂, htype, h₂⟩ := bind_eq_some.1 h₁
  obtain ⟨rfl, rfl⟩ := pure_eq_some.1 htype
  obtain ⟨ofFlows, s₃, hflow, h₃⟩ := bind_eq_some.1 h₂
  obtain ⟨rfl, rfl⟩ := pure_eq_some.1 h₃
  rw [List.nil_append]
  split at hflow
  · obtain ⟨recomputed, s₄, heval, h₄⟩ := bind_eq_some.1 hflow
    obtain ⟨forest, hforest, rfl⟩ := onTerms_eq_some.1 heval
    rw [evaluate_eq htypes, pure_eq_some] at hforest
    obtain ⟨rfl, rfl⟩ := hforest
    obtain ⟨held, s₅, hsay, h₅⟩ := bind_eq_some.1 h₄
    obtain ⟨rfl, rfl⟩ := flowsSay_eq_some.1 hsay
    obtain ⟨rfl, rfl⟩ := pure_eq_some.1 h₅
    refine ⟨rfl, fun hsettled => ?_⟩
    rw [if_neg fun hne => hne (hsettled hidle)]
  · obtain ⟨rfl, rfl⟩ := pure_eq_some.1 hflow
    exact ⟨rfl, fun _ => rfl⟩

include htypes in
private theorem checkNodes_eq_some {phase : Phase} {ids : List NodeId} {s t : State}
    {found more : List Violation} (h : p.checkNodes phase ids found s = some (more, t)) :
    t = s ∧ ((∀ id, id ∉ s.work.pending → p.Settled s id) → more = found) := by
  induction ids generalizing s found with
  | nil =>
    obtain ⟨rfl, rfl⟩ := pure_eq_some.1 h
    exact ⟨rfl, fun _ => rfl⟩
  | cons id rest ih =>
    obtain ⟨first, s₁, hnode, h₁⟩ := bind_eq_some.1 h
    obtain ⟨rfl, hfirst⟩ := checkNode_eq_some htypes hnode
    obtain ⟨rfl, hrest⟩ := ih h₁
    refine ⟨rfl, fun hsettled => ?_⟩
    rw [hrest hsettled, hfirst (hsettled id), List.append_nil]

include htypes in
/-- Looking every node over changes nothing, and reports nothing when all that do not wait are
settled. -/
theorem check_eq_some {phase : Phase} {converged : Bool} {s t : State} {found : List Violation}
    (h : p.check phase converged s = some (found, t)) :
    t = s ∧ ((∀ id, id ∉ s.work.pending → p.Settled s id) → found = []) := by
  unfold check at h
  split at h
  · exact checkNodes_eq_some htypes h
  · obtain ⟨rfl, rfl⟩ := pure_eq_some.1 h
    exact ⟨rfl, fun _ => rfl⟩

end Untyped

/-! ## Sound runs -/

/-- The state is sound, and every node that does not wait is settled. -/
structure Tended (p : Program) (s : State) : Prop where
  sound : p.Sound s
  settled : ∀ n, n ∉ s.work.pending → p.Settled s n

private theorem tended_of_settled {s : State} (hs : p.Sound s) (h : ∀ n, p.Settled s n) : p.Tended s :=
  ⟨hs, fun n _ => h n⟩

/-- Widening what escapes tends to all that is to be done. -/
theorem tended_widenEscapes (htree : p.Tree) {s t : State} {widened : Bool} (hs : p.Tended s)
    (h : p.widenEscapes s = some (widened, t)) : p.Tended t :=
  ⟨widenEscapes_sound hs.sound h, widenEscapes_settled htree hs.sound h hs.settled⟩

section Untyped

variable (htypes : p.settings.types = false) (hflows : p.settings.flows = true) (htree : p.Tree)

include htypes hflows htree in
/-- A sweep only reports rises.  If there was none, every node is settled at its end. -/
theorem sweep_settled {s t : State} {trace : List State} {found : List Violation}
    (hs : p.Tended s) (h : p.Sweep s trace found t) :
    p.Sound t ∧ (found = [] → ∀ n, p.Settled t n) ∧
      ∀ v ∈ found, ∃ id rise, v = Violation.rose id rise := by
  suffices hsweep : ∀ {s t trace found}, p.Sound s → p.Sweep s trace found t →
      p.Sound t ∧ (∀ v ∈ found, ∃ id rise, v = Violation.rose id rise) ∧
        (found = [] → (∀ n, n ∉ s.work.pending → p.Settled s n) → ∀ n, p.Settled t n) by
    obtain ⟨hsound, hrose, hsettled⟩ := hsweep hs.sound h
    exact ⟨hsound, fun hfound => hsettled hfound hs.settled, hrose⟩
  intro s t trace found hs h
  induction h with
  | idle hidle => exact ⟨hs, by simp, fun _ hsettled n => hsettled n (hidle n)⟩
  | @visit s u t id rest more found trace hid hrest hvisit hsweep ih =>
    obtain ⟨rise, hstep, rfl⟩ := visit_eq_some htypes hflows hvisit
    have hs' := hs.of_work rest
    obtain ⟨hsound, hrose, hsettled⟩ := ih (flowStep_sound htypes htree hs' hstep)
    refine ⟨hsound, ?_, ?_⟩
    · intro v hv
      rcases List.mem_append.1 hv with hv | hv
      · obtain ⟨r, -, rfl⟩ := List.mem_map.1 hv
        exact ⟨id, r, rfl⟩
      · exact hrose v hv
    · intro hnone hbefore
      rw [List.append_eq_nil_iff, List.map_eq_nil_iff, Option.toList_eq_nil_iff] at hnone
      obtain ⟨rfl, hfound⟩ := hnone
      apply hsettled hfound
      refine flowStep_settled htypes htree hs' hstep ?_
      intro n hn hne
      exact hbefore n fun hmem => hn ((hrest n).2 ⟨hmem, hne⟩)

include htypes hflows htree in
private theorem settles_quiet {phase : Phase} {s t : State} {trace : List State} {found : List Violation}
    (hs : p.Tended s) (h : p.Settles phase s trace found t)
    (hrose : ∀ id rise, Violation.rose id rise ∉ found) : found = [] ∧ p.Tended t := by
  cases h with
  | @intro u _ found more hsweep hcheck =>
    obtain ⟨hsound, hsettled, hrises⟩ := sweep_settled htypes hflows htree hs hsweep
    obtain ⟨rfl, hmore⟩ := check_eq_some htypes hcheck
    have hfound : found = [] := by
      rw [List.eq_nil_iff_forall_not_mem]
      intro v hv
      obtain ⟨id, rise, rfl⟩ := hrises v hv
      exact hrose id rise (List.mem_append_left _ hv)
    have hall := hsettled hfound
    rw [hfound, hmore fun id _ => hall id]
    exact ⟨rfl, tended_of_settled hsound hall⟩

include htypes hflows htree in
private theorem widens_quiet {left rounds : Nat} {s t : State} {trace : List State}
    {found : List Violation} (hs : p.Tended s) (h : p.Widens left s trace rounds found t)
    (hrose : ∀ id rise, Violation.rose id rise ∉ found) : found = [] := by
  induction h with
  | exhausted => rfl
  | settled => rfl
  | @round left rounds s u v t trace trace' found found' hwiden hsettles hwidens ih =>
    have hu := tended_widenEscapes htree hs hwiden
    obtain ⟨hfound, hv⟩ := settles_quiet htypes hflows htree hu hsettles fun id rise hmem =>
      hrose id rise (List.mem_append_left _ hmem)
    rw [hfound, List.nil_append]
    exact ih hv fun id rise hmem => hrose id rise (List.mem_append_right _ hmem)

include htypes hflows htree in
/-- A run from a sound state reports nothing unless a flow rose. -/
theorem violations_of_runs {s t : State} {trace : List State} {rounds : Nat}
    {found : List Violation} (hs : p.Tended s) (h : p.Runs s trace rounds found t) :
    found = [] ↔ ∀ id rise, Violation.rose id rise ∉ found := by
  constructor
  · rintro rfl id rise hmem
    cases hmem
  · intro hrose
    cases h with
    | @intro u _ trace trace' rounds found found' hsettles hwidens =>
      obtain ⟨hfound, hu⟩ := settles_quiet htypes hflows htree hs hsettles fun id rise hmem =>
        hrose id rise (List.mem_append_left _ hmem)
      rw [hfound, List.nil_append]
      exact widens_quiet htypes hflows htree hu hwidens fun id rise hmem =>
        hrose id rise (List.mem_append_right _ hmem)

end Untyped

/-! ## Idle runs -/

section Idle

variable (htypes : p.settings.types = false) (hflows : p.settings.flows = false)

include htypes hflows in
private theorem byAnalysis_eq_some {types flows : StepM (List Violation)} {s t : State}
    {found : List Violation} (h : p.byAnalysis types flows s = some (found, t)) : found = [] := by
  rw [byAnalysis, htypes, hflows] at h
  obtain ⟨ofTypes, s₁, htype, h₁⟩ := bind_eq_some.1 h
  obtain ⟨rfl, rfl⟩ := pure_eq_some.1 htype
  obtain ⟨ofFlows, s₂, hflow, h₂⟩ := bind_eq_some.1 h₁
  obtain ⟨rfl, rfl⟩ := pure_eq_some.1 hflow
  exact (pure_eq_some.1 h₂).1.symm

include htypes hflows in
private theorem checkNodes_idle {phase : Phase} {ids : List NodeId} {s t : State}
    {found more : List Violation} (h : p.checkNodes phase ids found s = some (more, t)) :
    more = found := by
  induction ids generalizing s found with
  | nil => exact (pure_eq_some.1 h).1.symm
  | cons id rest ih =>
    obtain ⟨first, s₁, hnode, h₁⟩ := bind_eq_some.1 h
    have hfirst : first = [] := by
      rw [checkNode_eq] at hnode
      obtain ⟨s₀, s₂, -, h₂⟩ := bind_eq_some.1 hnode
      split at h₂
      · exact (pure_eq_some.1 h₂).1.symm
      · exact byAnalysis_eq_some htypes hflows h₂
    rw [ih h₁, hfirst, List.append_nil]

include htypes hflows in
/-- A run that computes neither types nor flows reports nothing. -/
theorem violations_of_idle {s t : State} {trace : List State} {rounds : Nat}
    {found : List Violation} (h : p.Runs s trace rounds found t) : found = [] := by
  have hsweep : ∀ {s t trace found}, p.Sweep s trace found t → found = [] := by
    intro s t trace found h
    induction h with
    | idle => rfl
    | visit _ _ hvisit _ ih =>
      rw [visit_eq] at hvisit
      rw [byAnalysis_eq_some htypes hflows hvisit, ih, List.nil_append]
  cases h with
  | intro hsettles hwidens =>
    cases hsettles with
    | @intro u _ found more hswept hcheck =>
      have hmore : more = [] := by
        unfold check at hcheck
        split at hcheck
        · exact checkNodes_idle htypes hflows hcheck
        · exact (pure_eq_some.1 hcheck).1.symm
      have hlimit : p.roundLimit = 0 := by
        unfold roundLimit
        rw [hflows]
        rfl
      rw [hlimit] at hwidens
      cases hwidens
      rw [hsweep hswept, hmore]
      rfl

end Idle

end Program

/-! ## Calm runs -/

/-- The state is sound and plain, and every node holds a flow at or above its recomputed one. -/
structure State.Calm (p : Program) (s : State) : Prop where
  sound : p.Sound s
  plain : s.Plain True Flow.NilFree
  below : ∀ n, p.recompute s.flows n ≤ s.flows.ofNode n

namespace Program

/-- Only flows are computed, and no nil is about. -/
structure Propagates (p : Program) : Prop where
  types : p.settings.types = false
  flows : p.settings.flows = true
  tree : p.Tree
  nilFree : p.NilFree

/-- The state is calm, and every node that does not wait is settled. -/
structure Ready (p : Program) (s : State) : Prop where
  calm : s.Calm p
  tended : p.Tended s

/-- What is calm does not depend on the queue. -/
theorem calm_of_work {p : Program} {s : State} (h : s.Calm p) (work : Worklist) :
    State.Calm p { s with work := work } :=
  ⟨h.sound.of_work work, ⟨h.plain.rooted, h.plain.types, h.plain.flows⟩, h.below⟩

section Calm

variable {p : Program} (hp : p.Propagates)

include hp

/-- Installing a recomputed flow keeps a state calm. -/
theorem calm_install {id : NodeId} {s t : State} {u : Unit} (hs : s.Calm p)
    (h : p.install id (p.recompute s.flows id) s = some (u, t)) : t.Calm p := by
  have hnew := hp.nilFree.admits.recompute hs.plain.flows id
  have hplain : t.Plain True Flow.NilFree :=
    install_related (R := State.StaysPlain True Flow.NilFree) h
      ⟨hs.plain.rooted, hs.plain.types, hs.plain.flows.setNode id hnew⟩
  have ha := install_announced hs.sound.rooted h
  have hle : t.flows ≤ s.flows := ha.advances.flows.trans (Flows.setNode_le (hs.below id))
  refine ⟨install_sound hp.tree hs.sound h, hplain, ?_⟩
  intro n
  have hmono := recompute_mono hp.nilFree hplain.flows hs.plain.flows hle n
  rw [ha.node, Flows.ofNode_setNode]
  split
  · rename_i e
    rw [e.1]
    exact hmono
  · exact hmono.trans (hs.below n)

/-- A flow step in a calm state reports no rise and keeps the state calm. -/
theorem calm_flowStep {id : NodeId} {s t : State} {rise : Option Rise} (hs : s.Calm p)
    (h : p.flowStep id s = some (rise, t)) : rise = none ∧ t.Calm p := by
  rcases flowStep_cases hp.types h with ⟨rfl, -, rfl⟩ | ⟨rfl, -, hnew⟩ | ⟨hrose, -, -⟩
  · exact ⟨rfl, hs⟩
  · exact ⟨rfl, calm_install hp hs hnew⟩
  · exact absurd (hs.below id) hrose

/-- Widening keeps a state calm. -/
theorem calm_widenEscapes {s t : State} {widened : Bool} (hs : s.Calm p)
    (h : p.widenEscapes s = some (widened, t)) : t.Calm p := by
  have ha := widenEscapes_announced hs.sound h
  have hplain : t.Plain True Flow.NilFree :=
    keeps_widenEscapes (R := State.StaysPlain True Flow.NilFree) p s widened t h hs.plain
  refine ⟨hs.sound.of_announced ha, hplain, ?_⟩
  intro n
  have hmono := recompute_mono hp.nilFree hplain.flows hs.plain.flows ha.advances.flows n
  rw [ha.node]
  exact hmono.trans (hs.below n)

/-- Widening what escapes leaves a state ready. -/
theorem ready_widenEscapes {s t : State} {widened : Bool} (hs : p.Ready s)
    (h : p.widenEscapes s = some (widened, t)) : p.Ready t :=
  ⟨calm_widenEscapes hp hs.calm h, tended_widenEscapes hp.tree hs.tended h⟩

private theorem calm_sweep {s t : State} {trace : List State} {found : List Violation} (hs : s.Calm p)
    (h : p.Sweep s trace found t) : t.Calm p ∧ found = [] := by
  induction h with
  | idle => exact ⟨hs, rfl⟩
  | @visit s u t id rest more found trace hid hrest hvisit hsweep ih =>
    obtain ⟨rise, hstep, rfl⟩ := visit_eq_some hp.types hp.flows hvisit
    obtain ⟨rfl, hu⟩ := calm_flowStep hp (calm_of_work hs rest) hstep
    obtain ⟨ht, rfl⟩ := ih hu
    exact ⟨ht, rfl⟩

/-- A sweep from a ready state that is looked over reports nothing and leaves all nodes settled. -/
theorem calm_settles {phase : Phase} {s t : State} {trace : List State} {found : List Violation}
    (hs : p.Ready s) (h : p.Settles phase s trace found t) :
    found = [] ∧ p.Ready t ∧ p.Sweep s trace [] t ∧ ∀ n, p.Settled t n := by
  cases h with
  | @intro u _ found more hsweep hcheck =>
    obtain ⟨hu, rfl⟩ := calm_sweep hp hs.calm hsweep
    obtain ⟨-, hsettled, -⟩ := sweep_settled hp.types hp.flows hp.tree hs.tended hsweep
    obtain ⟨rfl, hmore⟩ := check_eq_some hp.types hcheck
    have hall := hsettled rfl
    rw [hmore fun id _ => hall id]
    exact ⟨rfl, ⟨hu, tended_of_settled hu.sound hall⟩, hsweep, hall⟩

/-- Rounds of widening report nothing and end calm. -/
theorem calm_widens {left rounds : Nat} {s t : State} {trace : List State} {found : List Violation}
    (hs : p.Ready s) (h : p.Widens left s trace rounds found t) : found = [] ∧ t.Calm p := by
  induction h with
  | exhausted => exact ⟨rfl, hs.calm⟩
  | settled hwiden => exact ⟨rfl, calm_widenEscapes hp hs.calm hwiden⟩
  | @round left rounds s u v t trace trace' found found' hwiden hsettles hwidens ih =>
    obtain ⟨rfl, hv, -, -⟩ := calm_settles hp (ready_widenEscapes hp hs hwiden) hsettles
    exact ih hv

/-- A run from a ready state reports nothing. -/
theorem calm_runs {s t : State} {trace : List State} {rounds : Nat} {found : List Violation}
    (hs : p.Ready s) (h : p.Runs s trace rounds found t) : found = [] := by
  cases h with
  | @intro u _ trace trace' rounds found found' hsettles hwidens =>
    obtain ⟨rfl, hu, -, -⟩ := calm_settles hp hs hsettles
    exact (calm_widens hp hu hwidens).1

end Calm

end Program

end TypeFlow
