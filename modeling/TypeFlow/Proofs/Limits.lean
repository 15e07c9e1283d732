import TypeFlow.Proofs.FlowRuns

/-!
# What a sweep cannot fall below

Without types and without nil, all that a sweep does is replace flows by their recomputation and
lower parameters by the arguments of calls.  Flows that are their own recomputation and that pass
the arguments of all calls on are therefore never fallen below, as long as what a call reaches in
the sweep it also reaches in them.  The flows a sweep ends with are of that kind.

Main definitions:

- `Program.Limit`: a fixpoint that passes the arguments of calls on.
- `Program.Covers`: a callee that holds functions in a state holds functions in the limit.

Main results:

- `Program.limit_of_settled`: the flows of a settled state are a limit.
- `Program.le_of_sweep`: a sweep does not fall below a limit that covers its states.
-/

namespace TypeFlow

/-- The node holds functions. -/
def Flows.HoldsFunctions (w : Flows) (n : NodeId) : Prop := (w.ofNode n).functions?.isSome = true

namespace Program

/-- A fixpoint without nil in which the arguments of every call are passed to the functions it
reaches. -/
structure Limit (p : Program) (limit : Flows) : Prop where
  nilFree : limit.NilFree
  fixed : ∀ n, p.recompute limit n = limit.ofNode n
  passed : ∀ call fn args fids nil fid callee, p.kind call = .apply fn args →
    limit.ofNode fn = .function fids nil → fid ∈ fids → p.functionNode? fid = some callee →
    ∀ i arg, args[i]? = some arg → limit.formal fid i ≤ limit.ofNode arg

/-- Every callee that holds functions in a state holds functions in the limit too, if it has not
fallen below it. -/
def Covers (p : Program) (limit w : Flows) : Prop :=
  ∀ call fn args, p.kind call = .apply fn args → limit.ofNode fn ≤ w.ofNode fn →
    w.HoldsFunctions fn → limit.HoldsFunctions fn

variable {p : Program}

/-- The flows of a settled state are a limit. -/
theorem limit_of_settled {s : State} (hs : p.Sound s) (hplain : s.Plain True Flow.NilFree)
    (hsettled : ∀ n, p.Settled s n) : p.Limit s.flows where
  nilFree := hplain.flows
  fixed := hsettled
  passed call fn args fids nil fid callee hcall hfn hfid hcallee :=
    (hs.entered call fn args fids nil fid callee hcall hfn hfid hcallee).coherent

/-! ## Passing arguments -/

private theorem le_of_lowerFormal {limit : Flows} {fid : FunctionId} {callee : NodeId} {index : Nat}
    {flow : Flow} {s t : State} {u : Unit} (hle : limit ≤ s.flows)
    (hflow : limit.formal fid index ≤ flow)
    (h : p.lowerFormal fid callee index flow s = some (u, t)) : limit ≤ t.flows := by
  obtain ⟨fell, s₁, hmeet, h₁⟩ := bind_eq_some.1 h
  have hs₁ : limit ≤ s₁.flows := by
    rcases meetFormal_eq_some hmeet with ⟨-, rfl, -⟩ | ⟨old, -, hold, -, rfl⟩
    · exact hle
    · have hlimit : limit.formal fid index ≤ old := by
        have := hle.formal fid index
        rwa [Flows.formal, Flows.formal, hold] at this
      exact Flows.le_setFormal hle hold (le_inf hlimit hflow)
  have hquiet : Keeps State.Quiet (if fell then p.announceFormal callee index else pure ()) := by
    split
    · exact quiet_announceFormal p callee index
    · exact keeps_pure _
  rw [(hquiet s₁ u t h₁).flows]
  exact hs₁

private theorem le_of_meetFormals {limit : Flows} {fid : FunctionId} {callee : NodeId}
    (hcallee : p.functionNode? fid = some callee) {i : Nat} {args : List NodeId} {s t : State}
    {u : Unit} (hrooted : s.forest.Rooted) (hle : limit ≤ s.flows)
    (hargs : ∀ j arg, args[j]? = some arg → limit.formal fid (i + j) ≤ s.flows.ofNode arg)
    (h : p.meetFormals fid callee i args s = some (u, t)) : limit ≤ t.flows := by
  induction args generalizing i s with
  | nil =>
    obtain ⟨-, rfl⟩ := pure_eq_some.1 h
    exact hle
  | cons arg rest ih =>
    rw [meetFormals_cons] at h
    obtain ⟨v, s₁, hpass, h₁⟩ := bind_eq_some.1 h
    have hs₁ := StepStable.pass (R := State.Announces p) hcallee i arg s v s₁ hpass hrooted
    have hle₁ := le_of_lowerFormal hle (hargs 0 arg rfl) (passArgument_eq_some.1 hpass)
    refine ih hs₁.classes.rooted hle₁ ?_ h₁
    intro j arg' harg'
    rw [hs₁.node]
    have := hargs (j + 1) arg' harg'
    have e : i + (j + 1) = i + 1 + j := by omega
    rwa [e] at this

private theorem le_of_enterCallee {limit : Flows} {call : NodeId} {args : List NodeId} {fid : FunctionId}
    {s t : State} {u : Unit} (hrooted : s.forest.Rooted) (hle : limit ≤ s.flows)
    (hargs : ∀ callee, p.functionNode? fid = some callee →
      ∀ i arg, args[i]? = some arg → limit.formal fid i ≤ s.flows.ofNode arg)
    (h : p.enterCallee call args fid s = some (u, t)) : limit ≤ t.flows := by
  unfold enterCallee at h
  cases hcallee : p.functionNode? fid with
  | none =>
    simp only [hcallee] at h
    obtain ⟨-, rfl⟩ := pure_eq_some.1 h
    exact hle
  | some callee =>
    simp only [hcallee] at h
    obtain ⟨v, s₁, hwatch, hmeet⟩ := bind_eq_some.1 h
    have hquiet : Keeps State.Quiet (onTerms fun _ => do
        let r ← Forest.find (p.node callee).type
        watch r call) := by
      refine quiet_onTerms fun _ => ?_
      exact keeps_bind (Forest.keeps_find _) fun r => keeps_watch r call
    have hs₁ := hquiet s v s₁ hwatch
    rw [← hs₁.flows] at hle hargs
    refine le_of_meetFormals hcallee (hs₁.forest hrooted).1.rooted hle ?_ hmeet
    intro i arg harg
    rw [Nat.zero_add]
    exact hargs callee hcallee i arg harg

/-- Entering functions does not fall below what is below their arguments. -/
theorem le_of_enterCallees {limit : Flows} {call : NodeId} {args : List NodeId}
    {fids : List FunctionId} {s t : State} {u : Unit} (hrooted : s.forest.Rooted)
    (hle : limit ≤ s.flows)
    (hargs : ∀ fid ∈ fids, ∀ callee, p.functionNode? fid = some callee →
      ∀ i arg, args[i]? = some arg → limit.formal fid i ≤ s.flows.ofNode arg)
    (h : p.enterCallees call args fids s = some (u, t)) : limit ≤ t.flows := by
  induction fids generalizing s with
  | nil =>
    obtain ⟨-, rfl⟩ := pure_eq_some.1 h
    exact hle
  | cons fid rest ih =>
    rw [enterCallees_cons] at h
    obtain ⟨v, s₁, hfirst, hrest⟩ := bind_eq_some.1 h
    have hs₁ := keeps_enterCallee (R := State.Announces p) p call args fid s v s₁ hfirst hrooted
    have hle₁ := le_of_enterCallee hrooted hle (hargs fid List.mem_cons_self) hfirst
    refine ih hs₁.classes.rooted hle₁ ?_ hrest
    intro fid' hfid' callee hcallee i arg harg
    rw [hs₁.node]
    exact hargs fid' (List.mem_cons_of_mem _ hfid') callee hcallee i arg harg

/-! ## Sweeps -/

/-- Functions below functions are the same and more. -/
theorem functions_of_holds {limit : Flows} (hlimit : limit.NilFree) {fn : NodeId} {fids : IdSet}
    {nil : Bool} {flow : Flow} (hle : limit.ofNode fn ≤ flow) (hfn : flow = .function fids nil)
    (hflow : (Flow.function fids nil).NilFree) (hholds : limit.HoldsFunctions fn) :
    ∃ fids', limit.ofNode fn = .function fids' false ∧ ∀ fid ∈ fids, fid ∈ fids' := by
  obtain ⟨fids', hfids'⟩ := Option.isSome_iff_exists.1 hholds
  have hfn' := Flow.eq_function_of_functions (hlimit.node fn) hfids'
  have hnil : Flow.function fids nil = .function fids false :=
    Flow.eq_function_of_functions hflow rfl
  rw [hfn, hnil, hfn'] at hle
  exact ⟨fids', hfn', (Flow.function_le_function.1 hle).1⟩

private theorem Covers.congr {limit v w : Flows} (h : p.Covers limit v)
    (hnode : ∀ n, w.ofNode n = v.ofNode n) : p.Covers limit w := by
  intro call fn args hcall hle hholds
  rw [hnode] at hle
  rw [Flows.HoldsFunctions, hnode] at hholds
  exact h call fn args hcall hle hholds

/-- Entering a call does not fall below a limit that covers the flows. -/
theorem le_of_enterCall {limit : Flows} (hlimit : p.Limit limit) {call fn : NodeId}
    {args : List NodeId} (hcall : p.kind call = .apply fn args) {s t : State} {u : Unit}
    (hrooted : s.forest.Rooted) (hnodes : ∀ n, (s.flows.ofNode n).NilFree)
    (hle : limit ≤ s.flows) (hcovers : p.Covers limit s.flows)
    (h : p.enterCall call fn args s = some (u, t)) : limit ≤ t.flows := by
  obtain ⟨flow, s₁, hsay, h₁⟩ := bind_eq_some.1 h
  obtain ⟨rfl, rfl⟩ := flowsSay_eq_some.1 hsay
  cases hfn : s.flows.ofNode fn with
  | function fids nil =>
    rw [hfn] at h₁
    have hholds : limit.HoldsFunctions fn := by
      apply hcovers call fn args hcall (hle.node fn)
      rw [Flows.HoldsFunctions, hfn]
      rfl
    refine le_of_enterCallees hrooted hle ?_ h₁
    intro fid hfid callee hcallee i arg harg
    obtain ⟨fids', hfn', hsub⟩ :=
      functions_of_holds hlimit.nilFree (hle.node fn) hfn (hfn ▸ hnodes fn) hholds
    exact (hlimit.passed call fn args fids' false fid callee hcall hfn'
      (hsub fid (IdSet.mem_def.2 hfid)) hcallee i arg harg).trans (hle.node arg)
  | _ =>
    rw [hfn] at h₁
    obtain ⟨-, rfl⟩ := pure_eq_some.1 h₁
    exact hle

/-- Installing a recomputed flow does not fall below a limit that covers what it leaves. -/
theorem le_of_install {limit : Flows} (hlimit : p.Limit limit) (hp : p.NilFree) {id : NodeId}
    {s t : State} {u : Unit} (hrooted : s.forest.Rooted) (hs : s.flows.NilFree)
    (ht : t.flows.NilFree) (hle : limit ≤ s.flows) (hcovers : p.Covers limit t.flows)
    (h : p.install id (p.recompute s.flows id) s = some (u, t)) : limit ≤ t.flows := by
  have hset : limit ≤ s.flows.setNode id (p.recompute s.flows id) := by
    apply Flows.le_setNode hle
    rw [← hlimit.fixed id]
    exact recompute_mono hp hlimit.nilFree hs hle id
  have hann := install_announced hrooted h
  cases hparent : p.parent id with
  | none =>
    rw [install_eq_some, hparent] at h
    obtain ⟨-, rfl⟩ := pure_eq_some.1 h
    exact hset
  | some parent =>
    have hflow := install_parent hparent h
    by_cases hcall : ∃ fn args, p.kind parent = .apply fn args
    · obtain ⟨fn, args, hcall⟩ := hcall
      rw [announceFlow_apply hcall] at hflow
      obtain ⟨v, s₁, hfirst, henter⟩ := bind_eq_some.1 hflow
      have hquiet : Keeps State.Quiet (if id = fn then announce parent else pure ()) := by
        split
        · exact quiet_announce parent
        · exact keeps_pure _
      have hs₁ := hquiet _ v s₁ hfirst
      have hnode : ∀ n, s₁.flows.ofNode n = t.flows.ofNode n := by
        intro n
        rw [hann.node, hs₁.flows]
      refine le_of_enterCall hlimit hcall (hs₁.forest hrooted).1.rooted ?_ ?_
        (hcovers.congr hnode) henter
      · intro n
        rw [hnode]
        exact ht.node n
      · rw [hs₁.flows]
        exact hset
    · have hquiet : Keeps State.Quiet (p.announceFlow parent id) :=
        quiet_announceFlow (fun fn args hk => hcall ⟨fn, args, hk⟩) id
      rw [(hquiet _ u t hflow).flows]
      exact hset

/-- A sweep does not fall below a limit that covers its states. -/
theorem le_of_sweep (hp : p.Propagates) {limit : Flows} (hlimit : p.Limit limit) {s t : State}
    {trace : List State} {found : List Violation} (hs : s.Calm p) (hle : limit ≤ s.flows)
    (hcovers : ∀ u ∈ trace, p.Covers limit u.flows) (h : p.Sweep s trace found t) :
    limit ≤ t.flows := by
  induction h with
  | idle => exact hle
  | @visit s u t id rest more found trace hid hrest hvisit hsweep ih =>
    obtain ⟨rise, hstep, rfl⟩ := visit_eq_some hp.types hp.flows hvisit
    have hs' := calm_of_work hs rest
    obtain ⟨rfl, hu⟩ := calm_flowStep hp hs' hstep
    refine ih hu ?_ fun v hv => hcovers v (List.mem_cons_of_mem _ hv)
    rcases flowStep_cases hp.types hstep with ⟨-, -, rfl⟩ | ⟨-, -, hnew⟩ | ⟨-, hrise, -⟩
    · exact hle
    · exact le_of_install hlimit hp.nilFree hs'.sound.rooted hs'.plain.flows hu.plain.flows hle
        (hcovers u List.mem_cons_self) hnew
    · cases hrise

end Program

end TypeFlow
