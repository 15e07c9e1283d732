import TypeFlow.Proofs.Announcements

/-!
# Settled flows

Without types, a node that does not wait holds the flow that a recomputation would give it, until a
step reports a rise.  Whoever reads a slot watches it: that is built into the first state for parts
and bindings, and calls register with the functions they reach as soon as their callee names them.
So whatever a step changes, all nodes that a recomputation could see it in wait afterwards.

Main definitions:

- `Program.Tree`: parents, functions and binders fit together.
- `Program.Sound`: bindings are watched, and calls have entered the functions they reach.
- `Program.Settled`: a node holds its recomputed flow.

Main results:

- `Program.Sound.reads_watched`: whoever reads a slot watches it.
- `Program.flowStep_sound`, `Program.flowStep_settled`: what a flow step preserves.
- `Program.widenEscapes_sound`, `Program.widenEscapes_settled`: what widening preserves.
-/

namespace TypeFlow

namespace Program

/-- What an identifier is bound to, given what the nodes are: a definition, or a parameter of a
function. -/
inductive Bound (kind : NodeId → NodeKind) (binder : NodeId) : Option Nat → TermId → Prop
  | definition {name : String} {definition body : NodeId} {binding : TermId}
      (h : kind binder = .letIn name definition body binding) : Bound kind binder none binding
  | parameter {fid : FunctionId} {formals : List TermId} {index : Nat} {binding : TermId}
      (h : (kind binder).function? = some (fid, formals))
      (hformal : formals[index]? = some binding) :
    Bound kind binder (some index) binding

/-- Parents, functions and binders of a program fit together. -/
structure Tree (p : Program) : Prop where
  parent : ∀ n child, child ∈ (p.kind n).children → p.parent child = some n
  function : ∀ fid callee, p.functionNode? fid = some callee ↔
    ∃ formals, (p.kind callee).function? = some (fid, formals)
  bound : ∀ id name binder position binding, p.kind id = .ident name binder position binding →
    Bound p.kind binder position binding

/-- Bindings are watched by the identifiers bound to them, and calls have entered the functions that
their callees name. -/
structure Sound (p : Program) (s : State) : Prop where
  rooted : s.forest.Rooted
  nodeCount : s.flows.nodes.size = p.size
  typed : ∀ fid callee, p.functionNode? fid = some callee → (p.node callee).type < s.forest.size
  binding : ∀ id name binder position binding, p.kind id = .ident name binder position binding →
    id ∈ s.forest.deps (s.forest.rep binding)
  definition : ∀ id name definition body binding, p.kind id = .letIn name definition body binding →
    s.forest.rep binding = s.forest.rep (p.node definition).type
  entered : ∀ call fn args fids nil fid callee, p.kind call = .apply fn args →
    s.flows.ofNode fn = .function fids nil → fid ∈ fids → p.functionNode? fid = some callee →
    p.Entered s call args fid callee

/-- The node holds its recomputed flow. -/
def Settled (p : Program) (s : State) (id : NodeId) : Prop :=
  p.recompute s.flows id = s.flows.ofNode id

variable {p : Program}

/-- What is pending does not matter for soundness. -/
theorem Sound.of_work {s : State} (h : p.Sound s) (work : Worklist) :
    p.Sound { s with work := work } where
  rooted := h.rooted
  nodeCount := h.nodeCount
  typed := h.typed
  binding := h.binding
  definition := h.definition
  entered call fn args fids nil fid callee hcall hfn hfid hcallee := by
    obtain ⟨hregistered, hcoherent⟩ :=
      h.entered call fn args fids nil fid callee hcall hfn hfid hcallee
    exact ⟨hregistered, hcoherent⟩

/-- Positions outside the tree are settled for ever. -/
theorem Sound.settled_of_size_le {s : State} (h : p.Sound s) {id : NodeId} (hid : p.size ≤ id) :
    p.Settled s id := by
  have hkind : p.kind id = .const .any := by
    have hnode : p.nodes[id]? = none := Array.getElem?_eq_none hid
    simp only [kind, node, hnode]
    rfl
  have hflow : s.flows.nodes[id]? = none := by
    apply Array.getElem?_eq_none
    rw [h.nodeCount]
    exact hid
  unfold Settled recompute
  rw [hkind, Flows.ofNode, hflow]
  rfl

/-- Whoever reads a slot watches it. -/
theorem Sound.reads_watched (htree : p.Tree) {s : State} (h : p.Sound s) {n : NodeId}
    {slot : FlowSlot} (hr : p.Reads s.flows n slot) : p.Watched s.forest slot n := by
  cases hr with
  | part hchild => exact .parent (htree.parent n _ hchild)
  | definition hident hlet =>
    have hmem := h.binding _ _ _ _ _ hident
    cases htree.bound _ _ _ _ _ hident with
    | definition hlet' =>
      rw [hlet] at hlet'
      cases hlet'
      rw [h.definition _ _ _ _ _ hlet] at hmem
      refine .definition (htree.parent _ _ ?_) hlet hmem
      rw [hlet]
      exact List.mem_cons_self
    | parameter hfunction =>
      rw [hlet] at hfunction
      cases hfunction
  | parameter hident hfunction =>
    have hmem := h.binding _ _ _ _ _ hident
    cases htree.bound _ _ _ _ _ hident with
    | parameter hfunction' hformal =>
      rw [hfunction] at hfunction'
      cases hfunction'
      exact .formal ((htree.function _ _).2 ⟨_, hfunction⟩) hfunction hformal hmem
  | result hcall hfn hfid hcallee hlambda =>
    refine .body (htree.parent _ _ ?_) hlambda
      (h.entered _ _ _ _ _ _ _ hcall hfn hfid hcallee).registered
    rw [hlambda]
    exact List.mem_singleton_self _

/-! ## Steps that leave the flows of nodes alone -/

/-- A state in which changes were announced is sound if it was. -/
theorem Sound.of_announced {s t : State} (h : p.Sound s) (ha : State.Announced p s t) :
    p.Sound t where
  rooted := ha.classes.rooted
  nodeCount := ha.advances.flows.nodeCount.trans h.nodeCount
  typed fid callee hcallee := by
    rw [ha.classes.size]
    exact h.typed fid callee hcallee
  binding id name binder position binding hkind := by
    rw [ha.classes.rep]
    exact ha.classes.deps _ _ (h.binding id name binder position binding hkind)
  definition id name definition body binding hkind := by
    rw [ha.classes.rep, ha.classes.rep]
    exact h.definition id name definition body binding hkind
  entered call fn args fids nil fid callee hkind hfn hfid hcallee := by
    rw [ha.node] at hfn
    exact (h.entered call fn args fids nil fid callee hkind hfn hfid hcallee).mono ha

private theorem settled_of_announced (htree : p.Tree) {s t : State} (h : p.Sound s)
    (ha : State.Announced p s t) (hs : ∀ n, n ∉ s.work.pending → p.Settled s n) :
    ∀ n, n ∉ t.work.pending → p.Settled t n := by
  intro n hn
  have hsame : p.recompute t.flows n = p.recompute s.flows n := by
    apply recompute_congr
    intro slot hslot
    have hw := h.reads_watched htree hslot
    cases slot with
    | node c => exact ha.node c
    | formal fid index =>
      by_contra hne
      exact hn (ha.formal fid index n hne hw)
  have hns : n ∉ s.work.pending := fun hmem => hn (ha.advances.pending n hmem)
  unfold Settled
  rw [hsame, ha.node, hs n hns]

/-- Widening what escapes announces its changes. -/
theorem widenEscapes_announced {s t : State} {widened : Bool} (h : p.Sound s)
    (hw : p.widenEscapes s = some (widened, t)) : State.Announced p s t :=
  keeps_widenEscapes (R := State.Announces p) p s widened t hw h.rooted

/-- So it leaves a state sound. -/
theorem widenEscapes_sound {s t : State} {widened : Bool} (h : p.Sound s)
    (hw : p.widenEscapes s = some (widened, t)) : p.Sound t :=
  h.of_announced (widenEscapes_announced h hw)

/-- It leaves nodes that do not wait settled. -/
theorem widenEscapes_settled (htree : p.Tree) {s t : State} {widened : Bool} (h : p.Sound s)
    (hw : p.widenEscapes s = some (widened, t)) (hs : ∀ n, n ∉ s.work.pending → p.Settled s n) :
    ∀ n, n ∉ t.work.pending → p.Settled t n :=
  settled_of_announced htree h (widenEscapes_announced h hw) hs

/-! ## Installing a flow -/

/-- Installing a flow announces it. -/
theorem install_announced {id : NodeId} {flow : Flow} {s t : State} {u : Unit}
    (hrooted : s.forest.Rooted) (h : p.install id flow s = some (u, t)) :
    State.Announced p { s with flows := s.flows.setNode id flow } t :=
  install_related (R := State.Announces p) h hrooted

/-- Looking a class up and waking it announces who is registered with it. -/
theorem wakeClass_mem {t : TermId} {s s' : State} {u : Unit} {n : NodeId}
    (hrooted : s.forest.Rooted)
    (h : ((onTerms fun _ => Forest.find t) >>= fun r => wakeTerm r) s = some (u, s'))
    (hn : n ∈ s.forest.deps (s.forest.rep t)) : n ∈ s'.work.pending := by
  obtain ⟨r, s₁, hfind, hwake⟩ := bind_eq_some.1 h
  obtain ⟨forest, hforest, rfl⟩ := onTerms_eq_some.1 hfind
  obtain ⟨hc, -, rfl⟩ := Forest.find_tidied hrooted hforest
  refine wakeTerm_mem hwake ?_
  dsimp only
  rw [hc.rep, Forest.rep_rep hrooted]
  exact hc.deps _ n hn

/-- An installation announces the parent of the node first. -/
theorem install_parent {id parent : NodeId} {flow : Flow} {s t : State} {u : Unit}
    (hparent : p.parent id = some parent) (h : p.install id flow s = some (u, t)) :
    p.announceFlow parent id
      { s with flows := s.flows.setNode id flow, work := s.work.push parent } = some (u, t) := by
  rw [install_eq_some, hparent] at h
  obtain ⟨v, s₁, hannounce, h₁⟩ := bind_eq_some.1 h
  rw [announce_eq_some.1 hannounce] at h₁
  exact h₁

/-- An installation announces all who watch the flow of the node. -/
theorem install_watched {id n : NodeId} {flow : Flow} {s t : State} {u : Unit}
    (hrooted : s.forest.Rooted) (h : p.install id flow s = some (u, t))
    (hw : p.Watched s.forest (.node id) n) : n ∈ t.work.pending := by
  cases hw with
  | parent hparent =>
    have ha := keeps_announceFlow (R := State.Announces p) p n id _ u t (install_parent hparent h)
      hrooted
    exact ha.advances.pending n (OrderedSet.mem_insert.2 (Or.inl rfl))
  | body hparent hlambda hn =>
    have hflow := install_parent hparent h
    simp only [announceFlow, hlambda] at hflow
    exact wakeClass_mem (n := n) (by exact hrooted) hflow hn
  | definition hparent hlet hn =>
    have hflow := install_parent hparent h
    simp only [announceFlow, hlet, if_true] at hflow
    exact wakeClass_mem (n := n) (by exact hrooted) hflow hn

/-- An installation enters the functions that the callee of a parent names. -/
theorem install_entered {id call fn : NodeId} {args : List NodeId} {flow : Flow} {s t : State}
    {u : Unit} (hrooted : s.forest.Rooted) (hparent : p.parent id = some call)
    (hcall : p.kind call = .apply fn args) (h : p.install id flow s = some (u, t)) {fids : IdSet}
    {nil : Bool} (hfn : t.flows.ofNode fn = .function fids nil) {fid : FunctionId}
    (hfid : fid ∈ fids) {callee : NodeId} (hcallee : p.functionNode? fid = some callee)
    (htype : (p.node callee).type < s.forest.size) : p.Entered t call args fid callee := by
  rw [(install_announced hrooted h).node] at hfn
  have hflow := install_parent hparent h
  rw [announceFlow_apply hcall] at hflow
  obtain ⟨v, s₁, hfirst, henter⟩ := bind_eq_some.1 hflow
  have ha : State.Announced p
      { s with flows := s.flows.setNode id flow, work := s.work.push call } s₁ := by
    have hkeeps : Keeps (State.Announces p) (if id = fn then announce call else pure ()) := by
      split
      · exact announces_of_quiet (quiet_announce call)
      · exact keeps_pure _
    exact hkeeps _ v s₁ hfirst hrooted
  have hfn₁ : s₁.flows.ofNode fn = .function fids nil := by
    rw [ha.node]
    exact hfn
  have htype₁ : (p.node callee).type < s₁.forest.size := by
    rw [ha.classes.size]
    exact htype
  exact enterCall_entered ha.classes.rooted hfn₁ henter hfid hcallee htype₁

/-! ## Flow steps -/

/-- So it leaves a state sound. -/
theorem install_sound (htree : p.Tree) {id : NodeId} {flow : Flow} {s t : State} {u : Unit}
    (hs : p.Sound s) (h : p.install id flow s = some (u, t)) : p.Sound t := by
  have ha := install_announced hs.rooted h
  have hnode : ∀ n, n ≠ id → t.flows.ofNode n = s.flows.ofNode n := by
    intro n hn
    rw [ha.node, Flows.ofNode_setNode, if_neg fun e => hn e.1.symm]
  constructor
  · exact ha.classes.rooted
  · have hcount : (s.flows.setNode id flow).nodes.size = s.flows.nodes.size := by
      simp [Flows.setNode]
    exact (ha.advances.flows.nodeCount.trans hcount).trans hs.nodeCount
  · intro fid callee hcallee
    rw [ha.classes.size]
    exact hs.typed fid callee hcallee
  · intro n name binder position binding hkind
    rw [ha.classes.rep]
    exact ha.classes.deps _ _ (hs.binding n name binder position binding hkind)
  · intro n name definition body binding hkind
    rw [ha.classes.rep, ha.classes.rep]
    exact hs.definition n name definition body binding hkind
  · intro call fn args fids nil fid callee hkind hfn hfid hcallee
    -- A call whose parts kept their flows was entered before; one of whose parts is the node is
    -- entered by the installation.
    by_cases hpart : id ∈ fn :: args
    · have hparent : p.parent id = some call := by
        apply htree.parent
        rw [hkind]
        exact hpart
      exact install_entered hs.rooted hparent hkind h hfn hfid hcallee (hs.typed fid callee hcallee)
    · have hne : ∀ n ∈ fn :: args, n ≠ id := by
        rintro n hn rfl
        exact hpart hn
      rw [hnode fn (hne fn List.mem_cons_self)] at hfn
      obtain ⟨hregistered, hcoherent⟩ :=
        hs.entered call fn args fids nil fid callee hkind hfn hfid hcallee
      constructor
      · rw [ha.classes.rep]
        exact ha.classes.deps _ _ hregistered
      · intro i arg harg
        rw [hnode arg (hne arg (List.mem_cons_of_mem _ (List.mem_of_getElem? harg)))]
        exact (ha.advances.flows.formal fid i).trans (hcoherent i arg harg)

/-- Installing a recomputed flow settles the node, unless it waits, and leaves others settled. -/
theorem install_settled (htree : p.Tree) {id : NodeId} {s t : State} {u : Unit} (hs : p.Sound s)
    (h : p.install id (p.recompute s.flows id) s = some (u, t))
    (hsettled : ∀ n, n ∉ s.work.pending → n ≠ id → p.Settled s n) :
    ∀ n, n ∉ t.work.pending → p.Settled t n := by
  intro n hn
  have ha := install_announced hs.rooted h
  have hsame : p.recompute t.flows n = p.recompute s.flows n := by
    apply recompute_congr
    intro slot hslot
    have hw := hs.reads_watched htree hslot
    cases slot with
    | node c =>
      by_cases hc : id = c
      · subst hc
        exact absurd (install_watched hs.rooted h hw) hn
      · rw [Flows.at, ha.node, Flows.ofNode_setNode, if_neg fun e => hc e.1]
        rfl
    | formal fid index =>
      by_contra hne
      exact hn (ha.formal fid index n hne hw)
  unfold Settled
  rw [hsame, ha.node, Flows.ofNode_setNode]
  by_cases e : id = n ∧ id < s.flows.nodes.size
  · rw [if_pos e, e.1]
  · rw [if_neg e]
    by_cases hne : n = id
    · have hsize : p.size ≤ n := by
        rw [← hs.nodeCount]
        exact Nat.le_of_not_lt fun hlt => e ⟨hne.symm, hne ▸ hlt⟩
      exact hs.settled_of_size_le hsize
    · exact hsettled n (fun hmem => hn (ha.advances.pending n hmem)) hne

/-- Without types a flow step leaves the terms alone until it installs. -/
theorem flowStep_cases (htypes : p.settings.types = false) {id : NodeId} {s t : State}
    {rise : Option Rise} (h : p.flowStep id s = some (rise, t)) :
    (rise = none ∧ p.Settled s id ∧ t = s) ∨
      (rise = none ∧ p.recompute s.flows id ≤ s.flows.ofNode id ∧
        p.install id (p.recompute s.flows id) s = some ((), t)) ∨
      (¬p.recompute s.flows id ≤ s.flows.ofNode id ∧
        rise = some ⟨s.flows.ofNode id, p.recompute s.flows id⟩ ∧
        (t = s ∨
          p.install id ((s.flows.ofNode id).meet (p.recompute s.flows id)) s = some ((), t))) := by
  obtain ⟨new, forest, heval, hcases⟩ := flowStep_eq_some h
  rw [evaluate_eq htypes, pure_eq_some] at heval
  obtain ⟨rfl, rfl⟩ := heval
  rcases hcases with ⟨hsame, rfl, rfl⟩ | ⟨-, hle, rfl, hnew⟩ | ⟨hrose, rfl, ht⟩
  · exact Or.inl ⟨rfl, hsame, rfl⟩
  · exact Or.inr (Or.inl ⟨rfl, hle, hnew⟩)
  · exact Or.inr (Or.inr ⟨hrose, rfl, ht⟩)

/-- A flow step leaves a state sound. -/
theorem flowStep_sound (htypes : p.settings.types = false) (htree : p.Tree) {id : NodeId}
    {s t : State} {rise : Option Rise} (hs : p.Sound s) (h : p.flowStep id s = some (rise, t)) :
    p.Sound t := by
  rcases flowStep_cases htypes h with ⟨-, -, rfl⟩ | ⟨-, -, hnew⟩ | ⟨-, -, rfl | hmeet⟩
  · exact hs
  · exact install_sound htree hs hnew
  · exact hs
  · exact install_sound htree hs hmeet

/-- A flow step that reports no rise settles its node, unless it waits, and leaves others
settled. -/
theorem flowStep_settled (htypes : p.settings.types = false) (htree : p.Tree) {id : NodeId}
    {s t : State} (hs : p.Sound s) (h : p.flowStep id s = some (none, t))
    (hsettled : ∀ n, n ∉ s.work.pending → n ≠ id → p.Settled s n) :
    ∀ n, n ∉ t.work.pending → p.Settled t n := by
  rcases flowStep_cases htypes h with ⟨-, hsame, rfl⟩ | ⟨-, -, hnew⟩ | ⟨-, hrise, -⟩
  · intro n hn
    by_cases e : n = id
    · rw [e]
      exact hsame
    · exact hsettled n hn e
  · exact install_settled htree hs hnew hsettled
  · cases hrise

end Program

end TypeFlow
