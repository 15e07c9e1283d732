import TypeFlow.Proofs.Limits
import TypeFlow.Proofs.LoopSettings

/-!
# Runs that agree

Two runs from one state that visit pending nodes in different orders end every sweep with the same
flows, if what a callee ever was of functions in one run it still is at the end of the other: the
flows that either sweep ends with are a limit that the other does not fall below.  Widening depends
on the flows and the classes alone, so both runs widen the same and go on together.

Main definitions:

- `Program.withOrder`: the program under another order of taking pending nodes.
- `State.Twins`: two states with the same flows and the same types.

Main results:

- `Program.widenEscapes_agree`: widening of twins has the same result and leaves twins.
- `Program.sweeps_agree`, `Program.runs_agree`: sweeps and whole runs from twins agree.
-/

namespace TypeFlow

/-! ## Types that agree -/

namespace Forest

variable {base : Forest} (hrooted : base.Rooted) (hplain : base.Plain True)

include hrooted hplain in
/-- Tidying changes the widest flow of no type. -/
theorem widest_of_tidied {f : Forest} (h : Tidied base f) (t : TermId) :
    f.widest t = base.widest t := by
  have hc := (h hrooted).1
  have hkind : ∀ t, f.kind (base.rep t) = base.kind (base.rep t) :=
    kind_rep_of_tidied hrooted (hplain.unwrapped trivial) h
  unfold widest
  rw [hc.size, widestFrom_congr hc.rep hkind hc.isInput]

end Forest

/-- Two states with the same flows whose forests are both tidied from one. -/
structure State.Twins (base : Forest) (s s' : State) : Prop where
  flows : s.flows = s'.flows
  left : Forest.Tidied base s.forest
  right : Forest.Tidied base s'.forest

namespace Program

variable {p : Program} {base : Forest}

/-! ## Widening of twins -/

/-- What is quiet leaves twins, if it has the same result on both. -/
theorem alike_of_quiet {α : Type} {m : StepM α} (h : Keeps State.Quiet m)
    (hsame : ∀ s s' a a' t t', State.Twins base s s' → m s = some (a, t) →
      m s' = some (a', t') → a = a') : Alike (State.Twins base) m := by
  intro s s' a a' t t' hs ht ht'
  have hq := h s a t ht
  have hq' := h s' a' t' ht'
  refine ⟨hsame s s' a a' t t' hs ht ht', ?_, ?_, ?_⟩
  · rw [hq.flows, hq'.flows, hs.flows]
  · exact IsTrans.trans _ _ _ hs.left hq.forest
  · exact IsTrans.trans _ _ _ hs.right hq'.forest

private theorem alike_unit {m : StepM Unit} (h : Keeps State.Quiet m) : Alike (State.Twins base) m :=
  alike_of_quiet h fun _ _ _ _ _ _ _ _ _ => rfl

private theorem alike_flowsSay {α : Type} (read : Flows → α) :
    Alike (State.Twins base) (flowsSay read) := by
  refine alike_of_quiet (quiet_flowsSay read) ?_
  intro s s' a a' t t' hs h h'
  rw [← (flowsSay_eq_some.1 h).1, ← (flowsSay_eq_some.1 h').1, hs.flows]

private theorem alike_meetFormal (fid : FunctionId) (index : Nat) (flow : Flow) :
    Alike (State.Twins base) (meetFormal fid index flow) := by
  rintro ⟨f, w, work⟩ ⟨f', w', work'⟩ a a' t t' ⟨hflows, hl, hr⟩ h h'
  cases hflows
  unfold meetFormal at h h'
  cases hold : (w.ofFormals fid)[index]? with
  | none =>
    simp only [hold] at h h'
    cases h
    cases h'
    exact ⟨rfl, rfl, hl, hr⟩
  | some old =>
    simp only [hold] at h h'
    by_cases e : old.meet flow = old
    · rw [if_pos e] at h h'
      cases h
      cases h'
      exact ⟨rfl, rfl, hl, hr⟩
    · rw [if_neg e] at h h'
      cases h
      cases h'
      exact ⟨rfl, rfl, hl, hr⟩

section Widening

variable (hrooted : base.Rooted) (hplain : base.Plain True)

include hrooted hplain in
private theorem alike_widestOf (t : TermId) : Alike (State.Twins base) (onTerms fun _ => widestOf t) := by
  refine alike_of_quiet (quiet_onTerms fun _ => keeps_widestOf t) ?_
  intro s s' a a' u u' hs h h'
  obtain ⟨f, hf, -⟩ := onTerms_eq_some.1 h
  obtain ⟨f', hf', -⟩ := onTerms_eq_some.1 h'
  have ha := (widestOf_eq_some.1 hf).1
  have ha' := (widestOf_eq_some.1 hf').1
  rw [Forest.widest_of_tidied hrooted hplain hs.left] at ha
  rw [Forest.widest_of_tidied hrooted hplain hs.right, ha] at ha'
  cases ha'
  rfl

include hrooted in
private theorem alike_findAll (ts : List TermId) :
    Alike (State.Twins base) (onTerms fun _ => Forest.findAll ts) := by
  refine alike_of_quiet (quiet_onTerms fun _ => Forest.keeps_findAll ts) ?_
  intro s s' a a' u u' hs h h'
  obtain ⟨f, hf, -⟩ := onTerms_eq_some.1 h
  obtain ⟨f', hf', -⟩ := onTerms_eq_some.1 h'
  have hl := (hs.left hrooted).1
  have hr := (hs.right hrooted).1
  rw [(Forest.findAll_tidied hl.rooted hf).2.2, (Forest.findAll_tidied hr.rooted hf').2.2]
  apply List.map_congr_left
  intro t _
  rw [hl.rep, hr.rep]

include hrooted hplain in
private theorem alike_widenFormals (fid : FunctionId) (node : NodeId) (i : Nat) (formals : List TermId) :
    Alike (State.Twins base) (p.widenFormals fid node i formals) := by
  induction formals generalizing i with
  | nil => exact alike_pure _
  | cons formal rest ih =>
    rw [widenFormals_cons]
    refine alike_bind ?_ fun fell => alike_bind (ih (i + 1)) fun later => alike_pure _
    refine alike_bind (alike_widestOf hrooted hplain formal) fun widest => ?_
    refine alike_bind (alike_meetFormal fid i widest) fun fell => ?_
    cases fell with
    | false => exact alike_pure _
    | true =>
      refine alike_bind (alike_unit (quiet_wakeTerm formal)) fun _ => ?_
      exact alike_bind (alike_unit (quiet_announceWidened p node)) fun _ => alike_pure _

include hrooted hplain in
/-- Widening has the same result on twins and leaves twins. -/
theorem widenEscapes_agree : Alike (State.Twins base) p.widenEscapes := by
  refine composed_widenEscapes composes_alike alike_flowsSay ?_
  intro fid callee _
  refine alike_bind (alike_findAll hrooted _) fun formals => ?_
  exact alike_widenFormals hrooted hplain fid callee 0 formals

end Widening

/-! ## Another order -/

/-- The program under another order of taking pending nodes. -/
def withOrder (p : Program) (order : PopOrder) : Program :=
  { p with settings := { p.settings with popOrder := order } }

/-- The order of taking pending nodes does not matter for widening. -/
theorem widenEscapes_withOrder (p : Program) (order : PopOrder) :
    (p.withOrder order).widenEscapes = p.widenEscapes :=
  widenEscapes_under p _

private theorem limit_withOrder {order : PopOrder} {limit : Flows} :
    (p.withOrder order).Limit limit ↔ p.Limit limit :=
  ⟨fun h => ⟨h.nilFree, h.fixed, h.passed⟩, fun h => ⟨h.nilFree, h.fixed, h.passed⟩⟩

/-! ## Runs that agree -/

/-- Every callee that held functions in one of the states holds functions in the flows. -/
def Retains (p : Program) (trace : List State) (w : Flows) : Prop :=
  ∀ u ∈ trace, ∀ call fn args, p.kind call = .apply fn args → u.flows.HoldsFunctions fn →
    w.HoldsFunctions fn

private theorem retains_append {trace trace' : List State} {w : Flows}
    (h : p.Retains (trace ++ trace') w) : p.Retains trace w ∧ p.Retains trace' w :=
  ⟨fun u hu => h u (List.mem_append_left _ hu), fun u hu => h u (List.mem_append_right _ hu)⟩

/-- What is retained to the end was held all along. -/
theorem covers_of_retains {trace : List State} {limit final : Flows} (hlimit : limit.NilFree)
    (hfinal : final.NilFree) (hle : final ≤ limit) (h : p.Retains trace final) {u : State}
    (hu : u ∈ trace) : p.Covers limit u.flows := by
  intro call fn args hcall hfall hholds
  have hany : (u.flows.ofNode fn).isAny = false := by
    unfold Flows.HoldsFunctions at hholds
    cases hflow : u.flows.ofNode fn <;> rw [hflow] at hholds <;> first | rfl | cases hholds
  obtain ⟨fids, hfids⟩ := Option.isSome_iff_exists.1 (h u hu call fn args hcall hholds)
  obtain ⟨fids', hfids', -⟩ := Flow.functions_of_le (hfinal.node fn) (hlimit.node fn)
    (hle.node fn) (Flow.isAny_of_le hfall hany) hfids
  rw [Flows.HoldsFunctions, hfids']
  rfl

/-- What propagates does so in any order. -/
theorem Propagates.withOrder (h : p.Propagates) (order : PopOrder) :
    (p.withOrder order).Propagates where
  types := h.types
  flows := h.flows
  tree := ⟨h.tree.parent, h.tree.function, h.tree.bound⟩
  nilFree := ⟨h.nilFree.const, h.nilFree.prim⟩

/-- Without types a sweep only tidies the forest. -/
theorem tidied_of_sweep (hp : p.Propagates) {s t : State} {trace : List State}
    {found : List Violation} (hs : s.Calm p) (h : p.Sweep s trace found t) :
    Forest.Tidied s.forest t.forest := by
  induction h with
  | idle => exact Std.Refl.refl _
  | @visit s u t id rest more found trace hid hrest hvisit hsweep ih =>
    obtain ⟨rise, hstep, rfl⟩ := visit_eq_some hp.types hp.flows hvisit
    obtain ⟨rfl, hu⟩ := calm_flowStep hp (calm_of_work hs rest) hstep
    refine IsTrans.trans _ _ _ ?_ (ih hu)
    rcases flowStep_cases hp.types hstep with ⟨-, -, rfl⟩ | ⟨-, -, hnew⟩ | ⟨-, hrise, -⟩
    · exact Std.Refl.refl s.forest
    · exact (install_related (R := State.Advances) hnew).forest
    · cases hrise

/-- What a sweep leaves that is looked over: a ready state whose flows are a limit. -/
theorem ready_settles (hp : p.Propagates) {phase : Phase} {s t : State} {trace : List State}
    {found : List Violation} (hs : p.Ready s) (h : p.Settles phase s trace found t) :
    p.Ready t ∧ p.Limit t.flows ∧ Forest.Tidied s.forest t.forest ∧ t.flows ≤ s.flows := by
  obtain ⟨-, ht, hsweep, hsettled⟩ := calm_settles hp hs h
  exact ⟨ht, limit_of_settled ht.calm.sound ht.calm.plain hsettled,
    tidied_of_sweep hp hs.calm hsweep, leads_le (leads_of_settles h)⟩

/-- A sweep ends at or above a limit it starts above, if all that held functions on its way holds
functions in flows below the limit. -/
theorem le_of_settles (hp : p.Propagates) {phase : Phase} {s t : State} {trace : List State}
    {found : List Violation} {limit final : Flows} (hs : p.Ready s)
    (h : p.Settles phase s trace found t) (hlimit : p.Limit limit) (hle : limit ≤ s.flows)
    (hfinal : final.NilFree) (hfall : final ≤ limit) (hretains : p.Retains trace final) :
    limit ≤ t.flows := by
  obtain ⟨-, -, hsweep, -⟩ := calm_settles hp hs h
  refine le_of_sweep hp hlimit hs.calm hle ?_ hsweep
  intro u hu
  exact covers_of_retains hlimit.nilFree hfinal hfall hretains hu

section Agreement

variable {order : PopOrder}

/-- Sweeps of twins in different orders end with twins. -/
theorem settles_agree (hp : p.Propagates) {phase : Phase} {s s' t t' : State}
    {trace trace' : List State} {found found' : List Violation} {final final' : Flows}
    (hs : p.Ready s) (hs' : (p.withOrder order).Ready s') (htwins : State.Twins base s s')
    (h : p.Settles phase s trace found t)
    (h' : (p.withOrder order).Settles phase s' trace' found' t')
    (hfinal : final.NilFree) (hfinal' : final'.NilFree)
    (hfall : final ≤ t.flows) (hfall' : final' ≤ t'.flows)
    (hretains : p.Retains trace final') (hretains' : p.Retains trace' final) :
    State.Twins base t t' := by
  have hq := hp.withOrder order
  obtain ⟨-, hlimit, htidied, hle⟩ := ready_settles hp hs h
  obtain ⟨-, hlimit', htidied', hle'⟩ := ready_settles hq hs' h'
  have hbelow : t'.flows ≤ t.flows := by
    refine le_of_settles hp hs h (limit_withOrder.1 hlimit') ?_ hfinal' hfall' hretains
    rw [htwins.flows]
    exact hle'
  have habove : t.flows ≤ t'.flows := by
    refine le_of_settles hq hs' h' (limit_withOrder.2 hlimit) ?_ hfinal hfall hretains'
    rw [← htwins.flows]
    exact hle
  exact ⟨habove.antisymm hbelow, IsTrans.trans _ _ _ htwins.left htidied,
    IsTrans.trans _ _ _ htwins.right htidied'⟩

variable (hrooted : base.Rooted) (hplain : base.Plain True)

include hrooted hplain in
private theorem widenEscapes_twins {s s' t t' : State} {widened widened' : Bool}
    (htwins : State.Twins base s s') (h : p.widenEscapes s = some (widened, t))
    (h' : (p.withOrder order).widenEscapes s' = some (widened', t')) :
    widened = widened' ∧ State.Twins base t t' := by
  rw [widenEscapes_withOrder] at h'
  exact widenEscapes_agree hrooted hplain s s' widened widened' t t' htwins h h'

include hrooted hplain in
/-- Rounds of widening from twins end with twins after as many rounds. -/
theorem widens_agree (hp : p.Propagates) {left rounds rounds' : Nat} {s s' t t' : State}
    {trace trace' : List State} {found found' : List Violation}
    (hs : p.Ready s) (hs' : (p.withOrder order).Ready s') (htwins : State.Twins base s s')
    (h : p.Widens left s trace rounds found t)
    (h' : (p.withOrder order).Widens left s' trace' rounds' found' t')
    (hretains : p.Retains trace t'.flows) (hretains' : p.Retains trace' t.flows) :
    State.Twins base t t' ∧ rounds = rounds' := by
  have hq := hp.withOrder order
  induction h generalizing s' trace' rounds' found' with
  | exhausted =>
    cases h' with
    | exhausted => exact ⟨htwins, rfl⟩
  | settled hwiden =>
    cases h' with
    | settled hwiden' => exact ⟨(widenEscapes_twins hrooted hplain htwins hwiden hwiden').2, rfl⟩
    | round hwiden' => cases (widenEscapes_twins hrooted hplain htwins hwiden hwiden').1
  | @round left rounds s u v t trace₁ trace₂ found₁ found₂ hwiden hsettles hwidens ih =>
    cases h' with
    | settled hwiden' => cases (widenEscapes_twins hrooted hplain htwins hwiden hwiden').1
    | @round _ rounds' _ u' v' _ trace₁' trace₂' found₁' found₂' hwiden' hsettles' hwidens' =>
      have hu := ready_widenEscapes hp hs hwiden
      have hu' := ready_widenEscapes hq hs' hwiden'
      have htwins₁ := (widenEscapes_twins hrooted hplain htwins hwiden hwiden').2
      obtain ⟨hv, -, -, -⟩ := ready_settles hp hu hsettles
      obtain ⟨hv', -, -, -⟩ := ready_settles hq hu' hsettles'
      have ht := (calm_widens hp hv hwidens).2
      have ht' := (calm_widens hq hv' hwidens').2
      obtain ⟨hret₁, hret₂⟩ := retains_append hretains
      obtain ⟨hret₁', hret₂'⟩ := retains_append hretains'
      have htwins₂ := settles_agree hp hu hu' htwins₁ hsettles hsettles' ht.plain.flows
        ht'.plain.flows (leads_le (leads_of_widens hwidens)) (leads_le (leads_of_widens hwidens'))
        hret₁ hret₁'
      obtain ⟨htwins₃, hrounds⟩ := ih hv hv' htwins₂ hwidens' hret₂ hret₂'
      exact ⟨htwins₃, by rw [hrounds]⟩

/-- Whole runs in different orders from a ready state agree, if what held functions in one of them
holds functions at the end of the other. -/
theorem runs_agree (hp : p.Propagates) {rounds rounds' : Nat} {s s' t t' : State}
    {trace trace' : List State} {found found' : List Violation}
    (hs : p.Ready s) (hs' : (p.withOrder order).Ready s')
    (hforest : s'.forest = s.forest) (hflows : s'.flows = s.flows)
    (h : p.Runs s trace rounds found t) (h' : (p.withOrder order).Runs s' trace' rounds' found' t')
    (hretains : p.Retains trace t'.flows) (hretains' : p.Retains trace' t.flows) :
    t.flows = t'.flows ∧ rounds = rounds' := by
  have hq := hp.withOrder order
  have htwins : State.Twins s.forest s s' := by
    refine ⟨hflows.symm, Std.Refl.refl _, ?_⟩
    rw [hforest]
    exact Std.Refl.refl _
  cases h with
  | @intro u _ trace₁ trace₂ rounds found₁ found₂ hsettles hwidens =>
    cases h' with
    | @intro u' _ trace₁' trace₂' rounds' found₁' found₂' hsettles' hwidens' =>
      obtain ⟨hu, -, -, -⟩ := ready_settles hp hs hsettles
      obtain ⟨hu', -, -, -⟩ := ready_settles hq hs' hsettles'
      have ht := (calm_widens hp hu hwidens).2
      have ht' := (calm_widens hq hu' hwidens').2
      obtain ⟨hret₁, hret₂⟩ := retains_append hretains
      obtain ⟨hret₁', hret₂'⟩ := retains_append hretains'
      have htwins₁ := settles_agree hp hs hs' htwins hsettles hsettles' ht.plain.flows
        ht'.plain.flows (leads_le (leads_of_widens hwidens)) (leads_le (leads_of_widens hwidens'))
        hret₁ hret₁'
      obtain ⟨htwins₂, hrounds⟩ := widens_agree hs.calm.plain.rooted hs.calm.plain.types hp hu hu'
        htwins₁ hwidens hwidens' hret₂ hret₂'
      exact ⟨htwins₂.flows, hrounds⟩

end Agreement

end Program

end TypeFlow
