import TypeFlow.Proofs.Recomputation
import TypeFlow.Proofs.Steps

/-!
# Who is announced

When the flow at a slot falls, the nodes that watch the slot are announced: the parent of a node,
the nodes registered with the type of a function whose body it is, those registered with the type
of a definition, and those registered with a parameter.

Main definitions:

- `Program.Watched`: the nodes that watch a slot.
- `State.Announces`: flows of nodes stayed, and who watches a parameter that fell is pending.
- `Program.Entered`: a call is registered with a function it reaches and has lowered its
  parameters.

Main results:

- `Program.announces_lowerFormal`, `Program.announces_widenFunction`: lowering parameters announces
  who watches them.
- `Program.enterCall_entered`: a call enters all functions it reaches.
-/

namespace TypeFlow

namespace Program

/-- The nodes that watch a slot, given who is registered with the terms. -/
inductive Watched (p : Program) (f : Forest) : FlowSlot → NodeId → Prop
  | parent {child n : NodeId} (h : p.parent child = some n) : Watched p f (.node child) n
  | body {child lambda n : NodeId} {params : List String} {body : NodeId} {fid : FunctionId}
      {formals : List TermId} {widen : Bool} (h : p.parent child = some lambda)
      (hlambda : p.kind lambda = .lambda params body fid formals widen)
      (hn : n ∈ f.deps (f.rep (p.node lambda).type)) : Watched p f (.node child) n
  | definition {child letIn n : NodeId} {name : String} {body : NodeId} {binding : TermId}
      (h : p.parent child = some letIn) (hlet : p.kind letIn = .letIn name child body binding)
      (hn : n ∈ f.deps (f.rep (p.node child).type)) : Watched p f (.node child) n
  | formal {fid fid' : FunctionId} {index : Nat} {callee n : NodeId} {formals : List TermId}
      {t : TermId} (hcallee : p.functionNode? fid = some callee)
      (hformals : (p.kind callee).function? = some (fid', formals))
      (ht : formals[index]? = some t) (hn : n ∈ f.deps (f.rep t)) :
    Watched p f (.formal fid index) n

/-- Who watches a slot keeps watching it. -/
theorem Watched.mono {p : Program} {f g : Forest} (h : Forest.SameClasses f g) {slot : FlowSlot}
    {n : NodeId} (hw : p.Watched f slot n) : p.Watched g slot n := by
  have hdeps : ∀ t, n ∈ f.deps (f.rep t) → n ∈ g.deps (g.rep t) := by
    intro t hn
    rw [h.rep]
    exact h.deps _ n hn
  cases hw with
  | parent h => exact .parent h
  | body h hlambda hn => exact .body h hlambda (hdeps _ hn)
  | definition h hlet hn => exact .definition h hlet (hdeps _ hn)
  | formal hcallee hformals ht hn => exact .formal hcallee hformals ht (hdeps _ hn)

end Program

/-- The flows of the nodes stayed, and who watches a parameter that fell is pending. -/
structure State.Announced (p : Program) (s t : State) : Prop where
  advances : State.Advances s t
  classes : Forest.SameClasses s.forest t.forest
  types : Forest.SameTypes s.forest t.forest
  node : ∀ id, t.flows.ofNode id = s.flows.ofNode id
  formal : ∀ fid index n, t.flows.formal fid index ≠ s.flows.formal fid index →
    p.Watched s.forest (.formal fid index) n → n ∈ t.work.pending

/-- The same, from a state whose links lead to classes. -/
def State.Announces (p : Program) (s t : State) : Prop :=
  s.forest.Rooted → State.Announced p s t

private theorem State.Quiet.announces {p : Program} {s t : State} (h : State.Quiet s t) :
    State.Announces p s t := by
  intro hrooted
  obtain ⟨hc, ht⟩ := h.forest hrooted
  refine ⟨h.advances, hc, ht, fun id => by rw [h.flows], ?_⟩
  intro fid index n hne
  rw [h.flows] at hne
  exact absurd rfl hne

instance (p : Program) : IsPreorder State (State.Announces p) where
  refl s := (Std.Refl.refl s : State.Quiet s s).announces
  trans s t u hst htu hrooted := by
    obtain ⟨ha, hc, ht, hn, hf⟩ := hst hrooted
    obtain ⟨ha', hc', ht', hn', hf'⟩ := htu hc.rooted
    refine ⟨IsTrans.trans _ _ _ ha ha', hc.trans hc', ht.trans ht',
      fun id => (hn' id).trans (hn id), ?_⟩
    intro fid index n hne hw
    by_cases e : t.flows.formal fid index = s.flows.formal fid index
    · exact hf' fid index n (by rw [e]; exact hne) (hw.mono hc)
    · exact ha'.pending n (hf fid index n e hw)

namespace Program

variable {p : Program}

/-! ## Waking a parameter -/

/-- Waking a term announces who is registered with its class. -/
theorem wakeTerm_mem {t : TermId} {s s' : State} {u : Unit} {n : NodeId}
    (h : wakeTerm t s = some (u, s')) (hn : n ∈ s.forest.deps (s.forest.rep t)) :
    n ∈ s'.work.pending := by
  rw [wakeTerm_eq_some.1 h]
  exact Forest.mem_wake.2 (Or.inr ⟨_, Forest.rep_mem_reach _ t, hn⟩)

/-- A computation that changes neither flows nor types has nothing to announce. -/
theorem announces_of_quiet {α : Type} {m : StepM α} (h : Keeps State.Quiet m) :
    Keeps (State.Announces p) m :=
  h.mono fun _ _ => State.Quiet.announces

/-- Waking a parameter announces who is registered with it. -/
theorem wakeFormal_mem {node : NodeId} {index : Nat} {s s' : State} {u : Unit} {fid : FunctionId}
    {formals : List TermId} {t : TermId} {n : NodeId}
    (h : p.wakeFormal node index s = some (u, s')) (hrooted : s.forest.Rooted)
    (hformals : (p.kind node).function? = some (fid, formals)) (ht : formals[index]? = some t)
    (hn : n ∈ s.forest.deps (s.forest.rep t)) : n ∈ s'.work.pending := by
  unfold wakeFormal at h
  simp only [hformals] at h
  obtain ⟨reps, s₁, hfind, h⟩ := bind_eq_some.1 h
  obtain ⟨forest, hall, rfl⟩ := onTerms_eq_some.1 hfind
  obtain ⟨hc, -, rfl⟩ := Forest.findAll_tidied hrooted hall
  rw [List.getElem?_map, ht, Option.map_some] at h
  refine wakeTerm_mem h ?_
  dsimp only
  rw [hc.rep, Forest.rep_rep hrooted]
  exact hc.deps _ n hn

/-! ## Lowering parameters -/

/-- Functions of the program are told apart by their positions. -/
theorem eq_of_functionNode {fid fid' : FunctionId} {callee callee' : NodeId}
    (h : p.functionNode? fid = some callee) (h' : p.functionNode? fid' = some callee')
    (hpos : fid - 1 = fid' - 1) : fid = fid' := by
  have hne : ∀ {n : Nat} {c : NodeId}, p.functionNode? n = some c → n ≠ 0 := by
    rintro n c hn rfl
    cases hn
  exact Nat.sub_one_cancel (Nat.pos_of_ne_zero (hne h)) (Nat.pos_of_ne_zero (hne h')) hpos

/-- A parameter that was lowered and then woken is announced to all who watch it. -/
theorem announces_of_setFormal {fid : FunctionId} {callee : NodeId} {index : Nat}
    {old flow : Flow} {s t : State}
    (hcallee : p.functionNode? fid = some callee)
    (hold : (s.flows.ofFormals fid)[index]? = some old)
    (h : State.Announces p { s with flows := s.flows.setFormal fid index (old.meet flow) } t)
    (hmem : s.forest.Rooted → ∀ n, p.Watched s.forest (.formal fid index) n → n ∈ t.work.pending) :
    State.Announces p s t := by
  intro hrooted
  obtain ⟨ha, hc, ht, hn, hf⟩ := h hrooted
  have hset : State.Advances s
      { s with flows := s.flows.setFormal fid index (old.meet flow) } :=
    ⟨Std.Refl.refl _, Flows.setFormal_le hold inf_le_left, fun _ h => h⟩
  refine ⟨IsTrans.trans _ _ _ hset ha, hc, ht, fun id => (hn id).trans rfl, ?_⟩
  intro fid' index' n hne hw
  by_cases e : t.flows.formal fid' index' =
      (s.flows.setFormal fid index (old.meet flow)).formal fid' index'
  · rw [e] at hne
    have hslot : fid - 1 = fid' - 1 ∧ index = index' := by
      by_contra hslot
      exact hne (Flows.formal_setFormal_of_ne hslot)
    obtain ⟨hfid, rfl⟩ := hslot
    have hfid' : fid = fid' := by
      cases hw with
      | formal hcallee' =>
        exact eq_of_functionNode hcallee hcallee' hfid
    rw [← hfid'] at hw
    exact hmem hrooted n hw
  · exact hf fid' index' n e hw

/-- Lowering a parameter announces who watches it. -/
theorem announces_lowerFormal {fid : FunctionId} {callee : NodeId}
    (hcallee : p.functionNode? fid = some callee) (index : Nat) (flow : Flow) :
    Keeps (State.Announces p) (p.lowerFormal fid callee index flow) := by
  intro s u t hlower
  obtain ⟨fell, s₁, hmeet, h⟩ := bind_eq_some.1 hlower
  rcases meetFormal_eq_some hmeet with ⟨rfl, rfl, -⟩ | ⟨old, rfl, hold, -, rfl⟩
  · obtain ⟨-, rfl⟩ := pure_eq_some.1 h
    exact Std.Refl.refl _
  · rw [if_pos rfl, announceFormal_eq] at h
    obtain ⟨v, s₂, hwake, hbody⟩ := bind_eq_some.1 h
    have h₁ := announces_of_quiet (p := p) (quiet_wakeFormal p callee index) _ v s₂ hwake
    have h₂ := announces_of_quiet (p := p) (quiet_announceBody p callee index) s₂ u t hbody
    refine announces_of_setFormal hcallee hold
      (IsTrans.trans _ _ _ h₁ h₂) ?_
    intro hrooted n hw
    have hclasses := (h₁ hrooted).classes
    cases hw with
    | formal hcallee' hformals ht hn =>
      rw [hcallee] at hcallee'
      cases hcallee'
      exact (h₂ hclasses.rooted).advances.pending n (wakeFormal_mem hwake hrooted hformals ht hn)

/-! ## Widening -/

/-- Widening a parameter announces who watches it, if the class woken is that of the parameter. -/
theorem announces_widenFormal {fid fid' : FunctionId} {callee : NodeId} {formals : List TermId}
    (hcallee : p.functionNode? fid = some callee)
    (hformals : (p.kind callee).function? = some (fid', formals)) {index : Nat} {r : TermId}
    {s t : State} {fell : Bool} (hr : ∀ t, formals[index]? = some t → r = s.forest.rep t)
    (h : p.widenFormal fid callee index r s = some (fell, t)) : State.Announces p s t := by
  intro hrooted
  obtain ⟨widest, s₁, hwidest, h₁⟩ := bind_eq_some.1 h
  have hs₁ := announces_of_quiet (p := p) (quiet_onTerms fun _ => keeps_widestOf r) s widest s₁ hwidest
  refine IsTrans.trans (r := State.Announces p) s s₁ t hs₁ ?_ hrooted
  have hc₁ := (hs₁ hrooted).classes
  obtain ⟨fell', s₂, hmeet, h₂⟩ := bind_eq_some.1 h₁
  rcases meetFormal_eq_some hmeet with ⟨rfl, rfl, -⟩ | ⟨old, rfl, hold, -, rfl⟩
  · obtain ⟨-, rfl⟩ := pure_eq_some.1 h₂
    exact Std.Refl.refl _
  · obtain ⟨u, s₃, hwake, h₃⟩ := bind_eq_some.1 h₂
    have hs₃ := announces_of_quiet (p := p) (quiet_wakeTerm r) _ u s₃ hwake
    have hrest : State.Announces p s₃ t := by
      refine announces_of_quiet (p := p) ?_ s₃ fell t h₃
      exact keeps_bind (quiet_announceWidened p callee) fun _ => keeps_pure _
    refine announces_of_setFormal hcallee hold (IsTrans.trans _ _ _ hs₃ hrest) ?_
    intro _ n hw
    cases hw with
    | formal hcallee' hformals' ht hn =>
      rw [hcallee] at hcallee'
      cases hcallee'
      rw [hformals] at hformals'
      cases hformals'
      refine (hrest (hs₃ hc₁.rooted).classes.rooted).advances.pending n (wakeTerm_mem hwake ?_)
      dsimp only
      rw [hr _ ht, ← hc₁.rep, Forest.rep_rep hc₁.rooted]
      exact hn

private theorem announces_widenFormals {fid fid' : FunctionId} {callee : NodeId} {formals : List TermId}
    (hcallee : p.functionNode? fid = some callee)
    (hformals : (p.kind callee).function? = some (fid', formals)) (i : Nat) {rs : List TermId}
    {s t : State} {fell : Bool}
    (hrs : ∀ j t, formals[i + j]? = some t → rs[j]? = some (s.forest.rep t))
    (h : p.widenFormals fid callee i rs s = some (fell, t)) : State.Announces p s t := by
  induction rs generalizing i s fell with
  | nil =>
    obtain ⟨-, rfl⟩ := pure_eq_some.1 h
    exact Std.Refl.refl _
  | cons r rest ih =>
    intro hrooted
    rw [widenFormals_cons] at h
    obtain ⟨fell', s₁, hfirst, h₁⟩ := bind_eq_some.1 h
    obtain ⟨later, s₂, hrest, h₂⟩ := bind_eq_some.1 h₁
    obtain ⟨-, rfl⟩ := pure_eq_some.1 h₂
    have hr : ∀ t, formals[i]? = some t → r = s.forest.rep t := by
      intro t ht
      have := hrs 0 t ht
      rwa [List.getElem?_cons_zero, Option.some.injEq] at this
    have hs₁ := announces_widenFormal hcallee hformals hr hfirst
    refine IsTrans.trans (r := State.Announces p) s s₁ _ hs₁ (ih (i + 1) ?_ hrest) hrooted
    intro j t ht
    have := hrs (j + 1) t (by rw [← ht]; congr 1; omega)
    rw [List.getElem?_cons_succ] at this
    rw [(hs₁ hrooted).classes.rep]
    exact this

private theorem announces_widenFunction {fid : FunctionId} {callee : NodeId}
    (hcallee : p.functionNode? fid = some callee) :
    Keeps (State.Announces p) (p.widenFunction fid callee) := by
  intro s widened t h hrooted
  obtain ⟨rs, s₁, hfind, h₁⟩ := bind_eq_some.1 h
  have hs₁ := announces_of_quiet (p := p) (quiet_onTerms fun _ => Forest.keeps_findAll _) s rs s₁ hfind
  obtain ⟨forest, hall, rfl⟩ := onTerms_eq_some.1 hfind
  obtain ⟨hc, -, hrs⟩ := Forest.findAll_tidied hrooted hall
  refine IsTrans.trans (r := State.Announces p) s _ t hs₁ ?_ hrooted
  unfold formalsOfNode at hrs
  cases hfunction : (p.kind callee).function? with
  | none =>
    rw [hfunction] at hrs
    rw [hrs] at h₁
    obtain ⟨-, rfl⟩ := pure_eq_some.1 h₁
    exact Std.Refl.refl _
  | some q =>
    obtain ⟨fid', formals⟩ := q
    rw [hfunction] at hrs
    refine announces_widenFormals hcallee hfunction 0 ?_ h₁
    intro j t ht
    rw [Nat.zero_add] at ht
    rw [hrs, hc.rep]
    simp [ht]

instance (p : Program) : StepStable p (State.Announces p) where
  quiet := State.Quiet.announces
  pass hcallee index _ s u t h :=
    announces_lowerFormal hcallee index _ s u t (passArgument_eq_some.1 h)
  widen := announces_widenFunction

/-! ## Entering callees -/

/-- A call is registered with the type of a function it reaches, and the parameters of the function
are at or below its arguments. -/
structure Entered (p : Program) (s : State) (call : NodeId) (args : List NodeId)
    (fid : FunctionId) (callee : NodeId) : Prop where
  registered : call ∈ s.forest.deps (s.forest.rep (p.node callee).type)
  coherent : ∀ i arg, args[i]? = some arg → s.flows.formal fid i ≤ s.flows.ofNode arg

/-- What was entered stays entered. -/
theorem Entered.mono {s t : State} {call : NodeId} {args : List NodeId} {fid : FunctionId}
    {callee : NodeId} (h : p.Entered s call args fid callee) (ht : State.Announced p s t) :
    p.Entered t call args fid callee where
  registered := by
    rw [ht.classes.rep]
    exact ht.classes.deps _ _ h.registered
  coherent i arg harg := by
    rw [ht.node]
    exact (ht.advances.flows.formal fid i).trans (h.coherent i arg harg)

/-- A lowered parameter is at or below the flow it was lowered by. -/
theorem lowerFormal_le {fid : FunctionId} {callee : NodeId} {index : Nat} {flow : Flow}
    {s t : State} {u : Unit} (h : p.lowerFormal fid callee index flow s = some (u, t)) :
    t.flows.formal fid index ≤ flow := by
  obtain ⟨fell, s₁, hmeet, h₁⟩ := bind_eq_some.1 h
  have hle : s₁.flows.formal fid index ≤ flow := by
    rcases meetFormal_eq_some hmeet with ⟨-, rfl, hsame⟩ | ⟨old, -, hold, -, rfl⟩
    · cases hold : (s₁.flows.ofFormals fid)[index]? with
      | none =>
        rw [Flows.formal, hold]
        exact Flow.bottom_le _
      | some old =>
        rw [Flows.formal, hold, Option.getD_some, ← hsame old hold]
        exact inf_le_right
    · rw [Flows.formal_setFormal_self hold]
      exact inf_le_right
  refine le_trans ?_ hle
  have hrest : Keeps State.Advances
      (if fell then p.announceFormal callee index else pure ()) := by
    split
    · exact advances_of_quiet (quiet_announceFormal p callee index)
    · exact keeps_pure _
  exact (hrest s₁ u t h₁).flows.formal fid index

/-- The arguments from a position on are passed to the parameters from there on. -/
theorem meetFormals_coherent {fid : FunctionId} {callee : NodeId}
    (hcallee : p.functionNode? fid = some callee) {i : Nat} {args : List NodeId} {s t : State}
    {u : Unit} (h : p.meetFormals fid callee i args s = some (u, t)) (j : Nat) (arg : NodeId)
    (harg : args[j]? = some arg) : t.flows.formal fid (i + j) ≤ s.flows.ofNode arg := by
  induction args generalizing i j s with
  | nil => cases harg
  | cons first rest ih =>
    rw [meetFormals_cons] at h
    obtain ⟨v, s₂, hpass, h₂⟩ := bind_eq_some.1 h
    cases j with
    | zero =>
      cases harg
      have hrest := keeps_meetFormals (R := State.Lowers) p hcallee (i + 1) rest s₂ u t h₂
      exact (hrest.flows.formal fid i).trans (lowerFormal_le (passArgument_eq_some.1 hpass))
    | succ j =>
      have hs₂ : State.Lowers s s₂ := StepStable.pass hcallee i first s v s₂ hpass
      have := ih h₂ j harg
      rw [hs₂.node] at this
      have e : i + (j + 1) = i + 1 + j := by omega
      rw [e]
      exact this

/-- Entering a callee lowers its parameters to the arguments. -/
theorem enterCallee_coherent {call : NodeId} {args : List NodeId} {fid : FunctionId}
    {callee : NodeId} {s t : State} {u : Unit} (hcallee : p.functionNode? fid = some callee)
    (h : p.enterCallee call args fid s = some (u, t)) (i : Nat) (arg : NodeId)
    (harg : args[i]? = some arg) : t.flows.formal fid i ≤ t.flows.ofNode arg := by
  have ht : State.Lowers s t := keeps_enterCallee p call args fid s u t h
  unfold enterCallee at h
  simp only [hcallee] at h
  obtain ⟨v, s₁, hwatch, h₁⟩ := bind_eq_some.1 h
  obtain ⟨forest, -, rfl⟩ := onTerms_eq_some.1 hwatch
  have := meetFormals_coherent hcallee h₁ i arg harg
  rw [Nat.zero_add] at this
  rw [ht.node]
  exact this

/-- Entering a callee registers the call and lowers the parameters to the arguments. -/
theorem enterCallee_entered {call : NodeId} {args : List NodeId} {fid : FunctionId}
    {callee : NodeId} {s t : State} {u : Unit} (hrooted : s.forest.Rooted)
    (hcallee : p.functionNode? fid = some callee) (htype : (p.node callee).type < s.forest.size)
    (h : p.enterCallee call args fid s = some (u, t)) : p.Entered t call args fid callee := by
  refine ⟨?_, enterCallee_coherent hcallee h⟩
  unfold enterCallee at h
  simp only [hcallee] at h
  obtain ⟨v, s₁, hwatch, h₁⟩ := bind_eq_some.1 h
  obtain ⟨forest, hterms, rfl⟩ := onTerms_eq_some.1 hwatch
  obtain ⟨r, f₁, hfind, hdeps⟩ := bind_eq_some.1 hterms
  obtain ⟨hc₁, -, rfl⟩ := Forest.find_tidied hrooted hfind
  have hforest : f₁.addDeps (s.forest.rep (p.node callee).type) [call] = forest :=
    modify_eq_some.1 hdeps
  have hc₂ := (Forest.addDeps_tidied f₁ (s.forest.rep (p.node callee).type) [call] hc₁.rooted).1
  rw [hforest] at hc₂
  have hc : Forest.SameClasses s.forest forest := hc₁.trans hc₂
  have ht := keeps_meetFormals (R := State.Announces p) p hcallee 0 args _ u t h₁ hc.rooted
  have hrep : f₁.rep (s.forest.rep (p.node callee).type) = s.forest.rep (p.node callee).type := by
    rw [hc₁.rep, Forest.rep_rep hrooted]
  have hmem : call ∈ forest.deps (s.forest.rep (p.node callee).type) := by
    rw [← hforest]
    refine Forest.mem_deps_addDeps.2 (Or.inr ⟨List.mem_singleton_self call, ?_, ?_⟩)
    · have := Forest.rep_mem_reach f₁ (s.forest.rep (p.node callee).type)
      rwa [hrep] at this
    · rw [hc₁.size]
      exact Forest.rep_lt_size hrooted htype
  rw [ht.classes.rep, hc.rep]
  exact ht.classes.deps _ _ hmem

/-- What entering one callee achieves is achieved for all functions that the flow of the callee
names, if entering the others takes it from none. -/
theorem enterCall_each {R : State → State → Prop} [StepStable p R] {I Q : State → Prop}
    {call fn : NodeId} {args : List NodeId} {fids : IdSet} {nil : Bool} {fid : FunctionId}
    (hI : ∀ s t, R s t → I s → I t) (hQ : ∀ s t, R s t → I s → Q s → Q t)
    (henter : ∀ s t u, I s → p.enterCallee call args fid s = some (u, t) → Q t)
    {s t : State} {u : Unit} (hs : I s) (hfn : s.flows.ofNode fn = .function fids nil)
    (h : p.enterCall call fn args s = some (u, t)) (hfid : fid ∈ fids) : Q t := by
  obtain ⟨flow, s₁, hsay, h₁⟩ := bind_eq_some.1 h
  obtain ⟨rfl, rfl⟩ := flowsSay_eq_some.1 hsay
  rw [hfn] at h₁
  have hmem : fid ∈ fids.toList := IdSet.mem_def.1 hfid
  revert h₁
  dsimp only
  generalize fids.toList = list at hmem
  intro h₁
  clear hsay hfn h
  induction list generalizing s with
  | nil => cases hmem
  | cons first rest ih =>
    rw [enterCallees_cons] at h₁
    obtain ⟨v, s₂, hfirst, hrest⟩ := bind_eq_some.1 h₁
    have hs₂ := hI s s₂ (keeps_enterCallee p call args first s v s₂ hfirst) hs
    rcases List.mem_cons.1 hmem with rfl | hmem
    · exact hQ s₂ t (keeps_enterCallees p call args rest s₂ u t hrest) hs₂
        (henter s s₂ v hs hfirst)
    · exact ih hs₂ hmem hrest

/-- A call enters all functions that the flow of its callee names. -/
theorem enterCall_entered {call fn : NodeId} {args : List NodeId} {fids : IdSet} {nil : Bool}
    {s t : State} {u : Unit} (hrooted : s.forest.Rooted)
    (hfn : s.flows.ofNode fn = .function fids nil)
    (h : p.enterCall call fn args s = some (u, t)) {fid : FunctionId} (hfid : fid ∈ fids)
    {callee : NodeId} (hcallee : p.functionNode? fid = some callee)
    (htype : (p.node callee).type < s.forest.size) : p.Entered t call args fid callee := by
  refine enterCall_each (R := State.Announces p)
    (I := fun s => s.forest.Rooted ∧ (p.node callee).type < s.forest.size)
    (Q := fun t => p.Entered t call args fid callee) ?_ ?_ ?_ ⟨hrooted, htype⟩ hfn h hfid
  · rintro s t hst ⟨hrooted, htype⟩
    have hclasses := (hst hrooted).classes
    exact ⟨hclasses.rooted, by rw [hclasses.size]; exact htype⟩
  · rintro s t hst ⟨hrooted, -⟩ hentered
    exact hentered.mono (hst hrooted)
  · rintro s t u ⟨hrooted, htype⟩ henter
    exact enterCallee_entered hrooted hcallee htype henter

end Program

end TypeFlow
