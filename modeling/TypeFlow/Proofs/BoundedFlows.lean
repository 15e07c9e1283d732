import TypeFlow.Proofs.FirstStates

/-!
# Flows that nest no deeper than allowed

A record literal truncates what it builds, so its flow never nests deeper than `Flow.maxNesting`.  A
pair or a triple does not.  Without types, whatever nests deeper in the flow of a node or a parameter
is built by a pair or a triple, and a program without these has no flow that does.

Main definitions:

- `Program.Turns`, `Program.Reaches`: what happens next in a run under the settings, and what that
  leads to.
- `Program.TupleSite`: the sites of the pairs and triples that a program builds.

Main results:

- `Program.nesting_bounded`: how deep flows nest along every run.
- `Program.nesting_exceeded`: nine nested pairs nest deeper than allowed, and so does a record that
  is seen through its type.
-/

namespace TypeFlow

namespace Primitive

/-- Only pairs and triples build records. -/
theorem bounded_result {sites : SiteId → Prop} {primitive : Primitive} {args : List Flow}
    (h : ∀ i, (argument args i).Bounded sites) {pairSite tripleSite : SiteId}
    (hpair : primitive = .pair → sites pairSite) (htriple : primitive = .triple → sites tripleSite) :
    (primitive.result args pairSite tripleSite).Bounded sites := by
  have htuple : ∀ {site : SiteId} {parts : List Flow}, sites site →
      (∀ a ∈ parts, a.Bounded sites) → (tuple site parts).Bounded sites := by
    intro site parts hsite hparts
    refine .tuple (IdSet.mem_singleton.2 rfl) hsite fun k v hv => hparts v ?_
    exact (List.of_mem_zip (Fields.mem_of_find?_ofList hv)).2
  cases hw : primitive.waits args with
  | true =>
    rw [result_of_waits hw]
    exact .flat rfl
  | false =>
    rw [result_of_not_waits hw]
    cases primitive with
    | cond =>
      change (chosen _ _ _).Bounded sites
      unfold chosen
      split
      · exact .flat rfl
      · exact h 2
      · exact h 1
      · exact (h 1).meet (h 2)
    | pair => exact htuple (hpair rfl) (by simp [h])
    | triple => exact htuple (htriple rfl) (by simp [h])
    | notNil => exact (h 0).withoutNil
    | eq =>
      change (equality _ _).Bounded sites
      unfold equality
      split <;> exact .flat rfl
    | eqZero =>
      change (zeroTest _).Bounded sites
      unfold zeroTest
      split
      · exact .flat rfl
      · split <;> exact .flat rfl
    | isEmpty =>
      change (emptyTest _).Bounded sites
      unfold emptyTest
      split <;> exact .flat rfl
    | mul =>
      change (product _ _).Bounded sites
      unfold product
      split
      · exact .flat rfl
      · split <;> exact .flat rfl
      · split <;> exact .flat rfl
      · exact .flat rfl
    | add =>
      change (sum _ _).Bounded sites
      unfold sum
      split <;> exact .flat rfl
    | dec =>
      change (predecessor _).Bounded sites
      unfold predecessor
      split <;> exact .flat rfl
    | str =>
      change (decimal _).Bounded sites
      unfold decimal
      split <;> exact .flat rfl
    | factor => exact .flat rfl

end Primitive

namespace Program

variable {p : Program} {s t : State}

/-! ## Runs under the settings -/

/-- The settings ask for the step. -/
def Asks (p : Program) : SolverStep → Prop
  | .type _ => p.settings.types = true
  | .flow _ => p.settings.flows = true
  | .widen | .check _ _ => True

/-- What may happen next in a run under the settings: a step that they ask for, on any node, or any
change of what is pending. -/
inductive Turns (p : Program) : State → State → Prop
  | step {s t : State} (step : SolverStep) (hasked : p.Asks step)
    (h : p.perform step s = some ((), t)) : Turns p s t
  | queue (s : State) (work : Worklist) : Turns p s { s with work := work }

/-- What a run under the settings may lead to. -/
def Reaches (p : Program) : State → State → Prop := Relation.ReflTransGen p.Turns

instance (p : Program) : IsPreorder State p.Reaches where
  refl _ := Relation.ReflTransGen.refl
  trans _ _ _ := Relation.ReflTransGen.trans

private theorem keeps_reaches_of_perform {α : Type} (step : SolverStep) (hasked : p.Asks step)
    {m : StepM α} (h : p.perform step = do let _ ← m) : Keeps p.Reaches m := by
  intro s a t ht
  refine Relation.ReflTransGen.single (Turns.step step hasked ?_)
  rw [h]
  exact bind_eq_some.2 ⟨a, t, ht, rfl⟩

private theorem drives_reaches (p : Program) : p.Drives p.Reaches where
  queue s work := Relation.ReflTransGen.single (.queue s work)
  type h id := keeps_reaches_of_perform (.type id) h rfl
  flow h id := keeps_reaches_of_perform (.flow id) h rfl
  widen := keeps_reaches_of_perform .widen trivial rfl
  check phase converged := keeps_reaches_of_perform (.check phase converged) trivial rfl

/-! ## Record literals -/

/-- The flows of record literals nest no deeper than allowed. -/
def Truncates (p : Program) (w : Flows) : Prop :=
  ∀ id site labels parts, p.kind id = .record site labels parts →
    (w.ofNode id).nesting ≤ Flow.maxNesting

/-- Where only parameters are lowered, record literals keep their flows. -/
theorem truncates_of_lowers (h : State.Lowers s t) (hs : p.Truncates s.flows) :
    p.Truncates t.flows := by
  intro id site labels parts hk
  rw [h.node]
  exact hs id site labels parts hk

/-- Installing a flow that nests no deeper than allowed keeps all record literals so. -/
theorem truncates_install {id : NodeId} {flow : Flow} {u : Unit} (hs : p.Truncates s.flows)
    (hflow : ∀ site labels parts, p.kind id = .record site labels parts →
      flow.nesting ≤ Flow.maxNesting)
    (h : p.install id flow s = some (u, t)) : p.Truncates t.flows := by
  refine truncates_of_lowers (install_related (R := State.Lowers) h) ?_
  intro n site labels parts hk
  rw [Flows.ofNode_setNode]
  split
  · rename_i e
    rw [← e.1] at hk
    exact hflow site labels parts hk
  · exact hs n site labels parts hk

private theorem truncates_flowStep {id : NodeId} {rise : Option Rise} (hs : p.Truncates s.flows)
    (h : p.flowStep id s = some (rise, t)) : p.Truncates t.flows := by
  obtain ⟨new, forest, heval, hcases⟩ := flowStep_eq_some h
  have hnew : ∀ site labels parts, p.kind id = .record site labels parts →
      new.nesting ≤ Flow.maxNesting := by
    intro site labels parts hk
    rw [evaluate, hk] at heval
    cases heval
    exact Flow.nesting_truncate _ _ _
  have hs' : p.Truncates { s with forest := forest }.flows := hs
  rcases hcases with ⟨-, -, rfl⟩ | ⟨-, -, -, hinstall⟩ | ⟨-, -, rfl | hinstall⟩
  · exact hs
  · exact truncates_install hs' hnew hinstall
  · exact hs
  · refine truncates_install hs' (fun site labels parts hk => ?_) hinstall
    exact Flow.nesting_meet_le (hs id site labels parts hk) (hnew site labels parts hk)

/-- Whatever happens next, under whatever settings, the flows of record literals stay truncated. -/
theorem truncates_turns (hs : p.Truncates s.flows) (h : p.Turns s t) : p.Truncates t.flows := by
  have hsame : ∀ {t}, State.SameFlows s t → p.Truncates t.flows := fun h =>
    truncates_of_lowers (.of_flows h) hs
  cases h with
  | queue => exact hs
  | step step hasked h =>
    cases step with
    | type id =>
      refine hsame ((keeps_bind (keeps_sameFlows_stepType p id) fun _ => ?_) s () t h)
      exact keeps_pure _
    | check phase converged =>
      refine hsame ((keeps_bind (keeps_sameFlows_check p phase converged) fun _ => ?_) s () t h)
      exact keeps_pure _
    | widen =>
      refine truncates_of_lowers ((keeps_bind (keeps_widenEscapes p) fun _ => ?_) s () t h) hs
      exact keeps_pure _
    | flow id =>
      obtain ⟨found, s₁, hstep, h₁⟩ := bind_eq_some.1 h
      obtain ⟨rise, s₂, hflow, h₂⟩ := bind_eq_some.1 hstep
      obtain ⟨-, rfl⟩ := pure_eq_some.1 h₂
      obtain ⟨-, rfl⟩ := pure_eq_some.1 h₁
      exact truncates_flowStep hs hflow

/-! ## All flows, without types -/

/-- The sites of the pairs and triples that a program builds. -/
def TupleSite (p : Program) (site : SiteId) : Prop :=
  ∃ id primitive fid formals, p.kind id = .prim primitive fid formals ∧
    (primitive = .pair ∧ site = pairSite ∨ primitive = .triple ∧ site = tripleSite)

/-- Where constants are no records, the rules build no deep records but in tuples. -/
theorem admits_bounded (hconst : ∀ id flow, p.kind id = .const flow → flow.nesting = 0) :
    p.Admits (Flow.Bounded p.TupleSite) where
  any := .flat rfl
  bottom := .flat rfl
  const id flow hk := .flat (hconst id flow hk)
  function _ := .flat rfl
  meet := Flow.Bounded.meet
  field := Flow.Bounded.field
  record _ _ _ := .shallow (Flow.nesting_truncate _ _ _)
  result id primitive fid formals hprim _ ha :=
    Primitive.bounded_result ha
      (fun e => ⟨id, primitive, fid, formals, hprim, Or.inl ⟨e, rfl⟩⟩)
      fun e => ⟨id, primitive, fid, formals, hprim, Or.inr ⟨e, rfl⟩⟩

section Untyped

variable {N : Prop} {P : Flow → Prop} [Flow.Tame N P] (htypes : p.settings.types = false)
  (hp : p.Admits P)

include htypes hp

/-- Without types, what happens next keeps a property that the rules keep. -/
theorem plain_turns (h : p.Turns s t) : State.StaysPlain N P s t := by
  cases h with
  | queue => exact fun hs => ⟨hs.rooted, hs.types, hs.flows⟩
  | step step hasked h =>
    cases step with
    | type id => exact absurd hasked (by rw [Asks, htypes]; exact Bool.false_ne_true)
    | check phase converged =>
      obtain ⟨found, s₁, hcheck, h₁⟩ := bind_eq_some.1 h
      obtain ⟨-, rfl⟩ := pure_eq_some.1 h₁
      obtain ⟨rfl, -⟩ := check_eq_some htypes hcheck
      exact id
    | widen =>
      refine (keeps_bind (keeps_widenEscapes (R := State.StaysPlain N P) p) fun _ => ?_) s () t h
      exact keeps_pure _
    | flow id =>
      obtain ⟨found, s₁, hstep, h₁⟩ := bind_eq_some.1 h
      obtain ⟨rise, s₂, hflow, h₂⟩ := bind_eq_some.1 hstep
      obtain ⟨-, rfl⟩ := pure_eq_some.1 h₂
      obtain ⟨-, e⟩ := pure_eq_some.1 h₁
      rw [e] at hflow
      intro hs
      have hnew := hp.recompute hs.flows id
      have hinstall : ∀ {flow : Flow}, P flow → p.install id flow s = some ((), t) →
          t.Plain N P := fun hflow h =>
        install_related (R := State.StaysPlain N P) h
          ⟨hs.rooted, hs.types, hs.flows.setNode id hflow⟩
      rcases flowStep_cases htypes hflow with ⟨-, -, rfl⟩ | ⟨-, -, h⟩ | ⟨-, -, rfl | h⟩
      · exact hs
      · exact hinstall hnew h
      · exact hs
      · exact hinstall (hp.meet (hs.flows.node id) hnew) h

end Untyped

/-! ## Every run -/

/-- A prepared program has no records among its constants, and its first state is plain. -/
theorem flat_of_build {e : Expr} {settings : Settings} {depth : Nat}
    (h : build e settings depth = .ok (p, s)) :
    (∀ id flow, p.kind id = .const flow → flow.nesting = 0) ∧
      s.Plain False (Flow.Bounded p.TupleSite) := by
  obtain ⟨b, hb, rfl, rfl⟩ := good_of_build (N := False) False.elim h
  refine ⟨fun id flow hk => ?_, hb.rooted, hb.plain, b.all_initialFlows (.flat rfl) (.flat rfl)⟩
  by_cases hid : id < b.nodes.size
  · exact ((hb.fits id hid).const flow hk).flat
  · change b.kind id = _ at hk
    rw [Builder.kind_of_size_le (Nat.le_of_not_lt hid)] at hk
    cases hk
    rfl

/-- Every state of a run is one that the settings may lead to.  In each such state, the flows of
record literals nest no deeper than allowed.  Without types, a flow of any node or parameter that
nests deeper is from a pair or a triple, and so are the records in it that nest deeper; if the program
has neither, no flow nests deeper than allowed. -/
theorem nesting_bounded {e : Expr} {settings : Settings} {depth : Nat}
    (h : build e settings depth = .ok (p, s)) :
    (∀ stats t, p.run s = some (stats, t) → p.Reaches s t) ∧
      ∀ t, p.Reaches s t →
        (∀ id site labels parts, p.kind id = .record site labels parts →
          (t.flows.ofNode id).nesting ≤ Flow.maxNesting) ∧
        (settings.types = false → t.flows.All (Flow.Bounded p.TupleSite)) ∧
        (settings.types = false →
          (∀ id primitive fid formals, p.kind id = .prim primitive fid formals →
            primitive ≠ .pair ∧ primitive ≠ .triple) →
          t.flows.All fun flow => flow.nesting ≤ Flow.maxNesting) := by
  have hsettings := settings_of_build h
  obtain ⟨hconst, hfirst⟩ := flat_of_build h
  refine ⟨fun stats t hrun => (drives_reaches p).run s stats t hrun, fun t ht => ?_⟩
  have hbounded : settings.types = false → t.flows.All (Flow.Bounded p.TupleSite) := by
    intro htypes
    rw [← hsettings] at htypes
    suffices State.StaysPlain False (Flow.Bounded p.TupleSite) s t from (this hfirst).flows
    induction ht with
    | refl => exact id
    | tail _ hturn ih =>
      exact fun hs => plain_turns (N := False) htypes (admits_bounded hconst) hturn (ih hs)
  refine ⟨?_, hbounded, fun htypes hnone => ?_⟩
  · have hfirst : p.Truncates s.flows := by
      intro id site labels parts _
      rw [(flows_of_build h).1]
      exact Nat.zero_le _
    clear hbounded
    induction ht with
    | refl => exact hfirst
    | tail _ hturn ih => exact truncates_turns ih hturn
  · have hsites : ∀ site, ¬p.TupleSite site := by
      rintro site ⟨id, primitive, fid, formals, hk, ⟨hpair, -⟩ | ⟨htriple, -⟩⟩
      · exact (hnone id primitive fid formals hk).1 hpair
      · exact (hnone id primitive fid formals hk).2 htriple
    have hall := hbounded htypes
    exact ⟨fun id => (hall.node id).nesting_le hsites,
      fun fid index => (hall.formal fid index).nesting_le hsites⟩

/-- Record literals, one in another. -/
def nestedRecords : Nat → Expr
  | 0 => .int 1
  | n + 1 => .record [("f", nestedRecords n)]

/-- Pairs, one in another. -/
def nestedPairs : Nat → Expr
  | 0 => .int 1
  | n + 1 => .apply (.prim .pair) [.int 1, nestedPairs n]

/-- Nine record literals in each other: without types, at the end of the run no flow nests deeper than
eight records. -/
theorem nesting_bounded_records :
    ∃ p s stats t, build (nestedRecords 9) { types := false } = .ok (p, s) ∧
      p.run s = some (stats, t) ∧ (t.flows.ofNode 0).nesting = 8 ∧
      t.flows.All fun flow => flow.nesting ≤ Flow.maxNesting := by
  have hends : ((Expr.analyze (nestedRecords 9) { types := false }).toOption.map fun a =>
      ((a.state.flows.ofNode 0).nesting, (List.range a.program.size).all fun id =>
        (a.program.kind id).function?.isNone)) = some (8, true) := by
    decide +kernel
  obtain ⟨a, ha, he⟩ := ok_of_map hends
  obtain ⟨s, hbuild, hrun⟩ := Expr.analyze_eq_ok.1 ha
  obtain ⟨hnesting, hnone⟩ := Prod.mk.inj he
  obtain ⟨hreaches, hall⟩ := nesting_bounded hbuild
  obtain ⟨-, -, hflat⟩ := hall a.state (hreaches a.stats a.state hrun)
  refine ⟨a.program, s, a.stats, a.state, hbuild, hrun, hnesting, hflat rfl ?_⟩
  intro id primitive fid formals hk
  have hid : id < a.program.size := by
    by_contra hle
    rw [kind, node, Array.getElem?_eq_none (Nat.le_of_not_lt hle)] at hk
    cases hk
  have hfunction := List.all_eq_true.1 hnone id (List.mem_range.2 hid)
  rw [hk] at hfunction
  cases hfunction

/-- Nine pairs in each other nest deeper than allowed.  So does, with types, a record around eight
record literals in each other. -/
theorem nesting_exceeded :
    (∃ p s stats t, build (nestedPairs 9)
        { types := false, checkInvariants := false, nestingCutoff := 20 } = .ok (p, s) ∧
      p.run s = some (stats, t) ∧ Flow.maxNesting < (t.flows.ofNode 0).nesting) ∧
    ∃ p s stats t, build (.apply (.lambda ["x"] (.record [("f", .ident "x")]) true)
        [nestedRecords 8]) { checkInvariants := false } = .ok (p, s) ∧
      p.run s = some (stats, t) ∧ Flow.maxNesting < (t.flows.ofNode 0).nesting := by
  have hpairs : ((Expr.analyze (nestedPairs 9)
      { types := false, checkInvariants := false, nestingCutoff := 20 }).toOption.map
      fun a => (a.state.flows.ofNode 0).nesting) = some 9 := by
    decide +kernel
  have hlifted : ((Expr.analyze (.apply (.lambda ["x"] (.record [("f", .ident "x")]) true)
      [nestedRecords 8]) { checkInvariants := false }).toOption.map
      fun a => (a.state.flows.ofNode 0).nesting) = some 9 := by
    decide +kernel
  obtain ⟨a, ha, he⟩ := ok_of_map hpairs
  obtain ⟨a', ha', he'⟩ := ok_of_map hlifted
  obtain ⟨s, hbuild, hrun⟩ := Expr.analyze_eq_ok.1 ha
  obtain ⟨s', hbuild', hrun'⟩ := Expr.analyze_eq_ok.1 ha'
  refine ⟨⟨a.program, s, a.stats, a.state, hbuild, hrun, ?_⟩,
    a'.program, s', a'.stats, a'.state, hbuild', hrun', ?_⟩
  · rw [he]
    decide
  · rw [he']
    decide

end Program

end TypeFlow
