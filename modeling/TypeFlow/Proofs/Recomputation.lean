import TypeFlow.Program.Evaluation
import TypeFlow.Proofs.MonotoneRules
import TypeFlow.Proofs.PlainTypes

/-!
# Recomputing a flow without types

Without types the flow of a node is a function of the flows around it.  It depends on nothing but
the slots that the node reads, and on flows without nil it is monotone.

Main definitions:

- `Program.recompute`: the flow of a node, recomputed from the flows alone.
- `FlowSlot`, `Program.Reads`: the slots that a recomputation reads.
- `Program.Admits`: a property of flows that every rule keeps.

Main results:

- `Program.evaluate_eq`: without types, evaluation is recomputation and leaves the terms alone.
- `Program.recompute_congr`: a recomputation depends on the slots it reads.
- `Program.recompute_mono`: a recomputation is monotone where no nil is about.
-/

namespace TypeFlow

/-- A place where a flow is held. -/
inductive FlowSlot
  /-- The flow of a node. -/
  | node (id : NodeId)
  /-- The flow of a parameter of a function. -/
  | formal (fid : FunctionId) (index : Nat)

/-- The flow held at a slot. -/
def Flows.at (w : Flows) : FlowSlot → Flow
  | .node id => w.ofNode id
  | .formal fid index => w.formal fid index

namespace Program

/-! ## Recomputation -/

/-- The flow of a call from the flow of its callee and those of its arguments. -/
def callFlow (p : Program) (w : Flows) (fn : NodeId) (args : List NodeId) : Flow :=
  match w.ofNode fn with
  | .function fids _ => p.reachedResult w (args.map w.ofNode) fids
  | other => other.fallen

/-- The flow of a node from those around it, where no types are computed. -/
def recompute (p : Program) (w : Flows) (id : NodeId) : Flow :=
  match p.kind id with
  | .const flow => flow
  | .ident _ binder position _ => p.evaluateIdent w binder position
  | .lambda _ _ fid _ _ | .prim _ fid _ => .function (.singleton fid) false
  | .letIn _ _ body _ | .root body => w.ofNode body
  | .record site labels parts => p.evaluateRecord w site labels parts
  | .field label source => evaluateField (w.ofNode source) label
  | .apply fn args => p.callFlow w fn args

/-- Where types are not analysed a flow is recomputed from other flows only. -/
theorem evaluate_eq {p : Program} (htypes : p.settings.types = false) (w : Flows) (id : NodeId) :
    p.evaluate w id = pure (p.recompute w id) := by
  unfold evaluate recompute
  cases p.kind id with
  | apply fn args =>
    dsimp only
    unfold evaluateCall callFlow
    cases w.ofNode fn with
    | function fids nil =>
      dsimp only
      rw [htypes]
      cases h : p.reachedResult w (args.map w.ofNode) fids <;> rfl
    | _ => rfl
  | _ => rfl

/-! ## What a recomputation reads -/

/-- The slots that the recomputation of a node reads, given the flows: those of its parts, of what
an identifier is bound to, and of the bodies of the functions that a call reaches. -/
inductive Reads (p : Program) (w : Flows) : NodeId → FlowSlot → Prop
  | part {id child : NodeId} (h : child ∈ (p.kind id).children) : Reads p w id (.node child)
  | definition {id : NodeId} {name : String} {binder : NodeId} {position : Option Nat}
      {binding : TermId} {name' : String} {definition body : NodeId} {binding' : TermId}
      (h : p.kind id = .ident name binder position binding)
      (hbinder : p.kind binder = .letIn name' definition body binding') :
    Reads p w id (.node definition)
  | parameter {id : NodeId} {name : String} {binder : NodeId} {index : Nat} {binding : TermId}
      {fid : FunctionId} {formals : List TermId}
      (h : p.kind id = .ident name binder (some index) binding)
      (hbinder : (p.kind binder).function? = some (fid, formals)) :
    Reads p w id (.formal fid index)
  | result {id fn : NodeId} {args : List NodeId} {fids : IdSet} {nil : Bool} {fid : FunctionId}
      {callee : NodeId} {params : List String} {body : NodeId} {fid' : FunctionId}
      {formals : List TermId} {widen : Bool} (h : p.kind id = .apply fn args)
      (hfn : w.ofNode fn = .function fids nil) (hfid : fid ∈ fids)
      (hcallee : p.functionNode? fid = some callee)
      (hlambda : p.kind callee = .lambda params body fid' formals widen) :
    Reads p w id (.node body)

/-- The meet over several functions depends on what each returns. -/
theorem foldl_meet_congr {f g : FunctionId → Flow} {fids : List FunctionId}
    (h : ∀ fid ∈ fids, f fid = g fid) (start : Flow) :
    fids.foldl (fun flow fid => flow.meet (f fid)) start =
      fids.foldl (fun flow fid => flow.meet (g fid)) start := by
  induction fids generalizing start with
  | nil => rfl
  | cons fid rest ih =>
    rw [List.foldl_cons, List.foldl_cons, h fid List.mem_cons_self]
    exact ih (fun x hx => h x (List.mem_cons_of_mem _ hx)) _

private theorem callFlow_congr {p : Program} {v w : Flows} {id fn : NodeId} {args : List NodeId}
    (hkind : p.kind id = .apply fn args) (h : ∀ slot, p.Reads w id slot → v.at slot = w.at slot) :
    p.callFlow v fn args = p.callFlow w fn args := by
  have hfn : v.ofNode fn = w.ofNode fn := h _ (.part (by rw [hkind]; exact List.mem_cons_self))
  have hargs : args.map v.ofNode = args.map w.ofNode := by
    apply List.map_congr_left
    intro arg harg
    exact h _ (.part (by rw [hkind]; exact List.mem_cons_of_mem _ harg))
  unfold callFlow
  rw [hfn, hargs]
  cases hf : w.ofNode fn with
  | function fids nil =>
    dsimp only
    unfold reachedResult
    split
    · rfl
    · apply foldl_meet_congr
      intro fid hfid
      unfold resultOf
      cases hcallee : p.functionNode? fid with
      | none => rfl
      | some callee =>
        dsimp only
        split
        · rename_i hlambda
          exact h _ (.result hkind hf hfid hcallee hlambda)
        · rfl
        · rfl
  | _ => rfl

/-- A recomputation depends on the slots it reads. -/
theorem recompute_congr {p : Program} {v w : Flows} {id : NodeId}
    (h : ∀ slot, p.Reads w id slot → v.at slot = w.at slot) :
    p.recompute v id = p.recompute w id := by
  have hpart : ∀ child ∈ (p.kind id).children, v.ofNode child = w.ofNode child :=
    fun child hchild => h _ (.part hchild)
  unfold recompute
  cases hk : p.kind id with
  | ident name binder position binding =>
    dsimp only
    unfold evaluateIdent
    split
    · rename_i hbinder
      exact h _ (.definition hk hbinder)
    · split
      · rename_i hfunction
        exact h _ (.parameter hk hfunction)
      · rfl
  | letIn name definition body binding => exact hpart body (by rw [hk]; simp [NodeKind.children])
  | root body => exact hpart body (by rw [hk]; simp [NodeKind.children])
  | record site labels parts =>
    have hparts : parts.map v.ofNode = parts.map w.ofNode := by
      apply List.map_congr_left
      intro part hmem
      exact hpart part (by rw [hk]; exact hmem)
    dsimp only
    unfold evaluateRecord
    rw [hparts]
  | field label source =>
    dsimp only
    rw [hpart source (by rw [hk]; simp [NodeKind.children])]
  | apply fn args => exact callFlow_congr hk h
  | _ => rfl

end Program

/-! ## Monotonicity -/

namespace Flow

/-- A flow without nil whose functions are known is a function. -/
theorem eq_function_of_functions {a : Flow} (hn : a.NilFree) {s : IdSet}
    (h : a.functions? = some s) : a = function s false := by
  cases hn <;> cases h
  rfl

/-- What was observed above functions is functions too, and no others. -/
theorem functions_of_le {a b : Flow} (hna : a.NilFree) (hnb : b.NilFree) (h : a ≤ b)
    (hany : b.isAny = false) {s : IdSet} (hs : a.functions? = some s) :
    ∃ t, b = function t false ∧ t.isEmpty = false ∧ ∀ x, x ∈ t → x ∈ s := by
  have ha := eq_function_of_functions hna hs
  cases hnb with
  | any => cases hany
  | @function t ht =>
    rw [ha] at h
    exact ⟨t, rfl, ht, (function_le_function.1 h).1⟩
  | scalar n =>
    rw [ha, le_iff_meet, scalar_meet] at h
    cases h
  | _ =>
    rw [ha, le_iff_meet, meet_of_clash rfl rfl rfl] at h
    cases h

private theorem fallen_of_not_any {a : Flow} (h : a.isAny = false) : a.fallen = .bottom := by
  unfold fallen
  rw [h]
  rfl

private theorem le_foldl_meet {f : FunctionId → Flow} {fids : List FunctionId} {a start : Flow}
    (hstart : a ≤ start) (h : ∀ fid ∈ fids, a ≤ f fid) :
    a ≤ fids.foldl (fun flow fid => flow.meet (f fid)) start := by
  induction fids generalizing start with
  | nil => exact hstart
  | cons fid rest ih =>
    rw [List.foldl_cons]
    exact ih (le_inf hstart (h fid List.mem_cons_self))
      (fun x hx => h x (List.mem_cons_of_mem _ hx))

private theorem foldl_meet_le_start {f : FunctionId → Flow} {fids : List FunctionId} {start : Flow} :
    fids.foldl (fun flow fid => flow.meet (f fid)) start ≤ start := by
  induction fids generalizing start with
  | nil => exact le_rfl
  | cons fid rest ih =>
    rw [List.foldl_cons]
    exact ih.trans inf_le_left

private theorem foldl_meet_le {f : FunctionId → Flow} {fids : List FunctionId} {start : Flow}
    {fid : FunctionId} (h : fid ∈ fids) :
    fids.foldl (fun flow fid => flow.meet (f fid)) start ≤ f fid := by
  induction fids generalizing start with
  | nil => cases h
  | cons x rest ih =>
    rw [List.foldl_cons]
    rcases List.mem_cons.1 h with rfl | h
    · exact foldl_meet_le_start.trans inf_le_right
    · exact ih h

private theorem holds_foldl_meet {P : Flow → Prop} (hmeet : ∀ {a b : Flow}, P a → P b → P (a.meet b))
    {f : FunctionId → Flow} {fids : List FunctionId} (h : ∀ fid, P (f fid)) {start : Flow}
    (hstart : P start) : P (fids.foldl (fun flow fid => flow.meet (f fid)) start) := by
  induction fids generalizing start with
  | nil => exact hstart
  | cons fid rest ih =>
    rw [List.foldl_cons]
    exact ih (hmeet hstart (h fid))

end Flow

namespace Program

/-! ### Properties of flows -/

private theorem argument_map (w : Flows) (args : List NodeId) (i : Nat) :
    Primitive.argument (args.map w.ofNode) i = (args[i]?.map w.ofNode).getD .bottom := by
  rw [Primitive.argument, List.getElem?_map]

/-- Whatever the rules of the program make of flows with the property has it too. -/
structure Admits (p : Program) (P : Flow → Prop) : Prop where
  any : P .any
  bottom : P .bottom
  const : ∀ id flow, p.kind id = .const flow → P flow
  function : ∀ fid, P (.function (.singleton fid) false)
  meet : ∀ {a b : Flow}, P a → P b → P (a.meet b)
  field : ∀ {sites : IdSet} {fields : Fields Flow none} {nil : Bool} {label : String} {flow : Flow},
    P (.record sites (some fields) nil) → fields.find? label = some flow → P flow
  record : ∀ (site : SiteId) (entries : List (String × Flow)), (∀ e ∈ entries, P e.2) →
    P ((Flow.recordAt site (.ofList entries)).truncate p.settings.nestingCutoff site)
  result : ∀ id primitive fid formals, p.kind id = .prim primitive fid formals →
    ∀ actuals, (∀ i, P (Primitive.argument actuals i)) →
      P (primitive.result actuals pairSite tripleSite)

namespace Admits

variable {p : Program} {P : Flow → Prop} (hp : p.Admits P) {w : Flows} (hw : w.All P)

include hp

private theorem resultOf (hw : w.All P) {actuals : List Flow} (ha : ∀ i, P (Primitive.argument actuals i))
    (fid : FunctionId) : P (p.resultOf w actuals fid) := by
  unfold Program.resultOf
  split
  · exact hp.bottom
  · split
    · exact hw.node _
    · rename_i hprim
      exact hp.result _ _ _ _ hprim actuals ha
    · exact hp.bottom

include hw

private theorem argument (args : List NodeId) (i : Nat) :
    P (Primitive.argument (args.map w.ofNode) i) := by
  rw [argument_map]
  cases args[i]? with
  | none => exact hp.bottom
  | some arg => exact hw.node arg

private theorem callFlow (fn : NodeId) (args : List NodeId) : P (p.callFlow w fn args) := by
  unfold Program.callFlow
  split
  · unfold reachedResult
    split
    · exact hp.bottom
    · exact Flow.holds_foldl_meet hp.meet (hp.resultOf hw (hp.argument hw args)) hp.any
  · unfold Flow.fallen
    split
    · exact hp.any
    · exact hp.bottom

private theorem evaluateIdent (binder : NodeId) (position : Option Nat) :
    P (p.evaluateIdent w binder position) := by
  unfold Program.evaluateIdent
  split
  · exact hw.node _
  · split
    · exact hw.formal _ _
    · exact hp.bottom

private theorem evaluateField (source : NodeId) (label : String) :
    P (evaluateField (w.ofNode source) label) := by
  have hsource := hw.node source
  unfold Program.evaluateField
  split
  · exact hp.any
  · rename_i sites fields nil hrecord
    rw [hrecord] at hsource
    cases hflow : fields.find? label with
    | none => exact hp.bottom
    | some flow => exact hp.field hsource hflow
  · exact hp.bottom

private theorem evaluateRecord (site : SiteId) (labels : List String) (parts : List NodeId) :
    P (p.evaluateRecord w site labels parts) := by
  refine hp.record site _ fun e he => ?_
  obtain ⟨part, -, hpart⟩ := List.mem_map.1 (List.of_mem_zip he).2
  rw [← hpart]
  exact hw.node part

/-- A recomputed flow has the property if those around it have it. -/
theorem recompute (id : NodeId) : P (p.recompute w id) := by
  unfold Program.recompute
  cases hk : p.kind id with
  | const flow => exact hp.const id flow hk
  | ident name binder position binding => exact hp.evaluateIdent hw binder position
  | lambda params body fid formals widen => exact hp.function fid
  | prim primitive fid formals => exact hp.function fid
  | letIn name definition body binding => exact hw.node body
  | root body => exact hw.node body
  | record site labels parts => exact hp.evaluateRecord hw site labels parts
  | field label source => exact hp.evaluateField hw source label
  | apply fn args => exact hp.callFlow hw fn args

end Admits

/-! ### Programs without nil -/

/-- The program neither writes nil nor tests for it. -/
structure NilFree (p : Program) : Prop where
  const : ∀ id flow, p.kind id = .const flow → flow.NilFree
  prim : ∀ id primitive fid formals, p.kind id = .prim primitive fid formals → primitive ≠ .notNil

/-- The rules of a program without nil make no nil. -/
theorem NilFree.admits {p : Program} (hp : p.NilFree) : p.Admits Flow.NilFree where
  any := .any
  bottom := .scalar _
  const := hp.const
  function fid := .function (IdSet.isEmpty_eq_false.2 ⟨fid, IdSet.mem_singleton.2 rfl⟩)
  meet := Flow.NilFree.meet
  field h hv := by
    cases h with
    | record hf => exact hf _ _ hv
  record site entries h := (Flow.NilFree.record (Flow.nilFree_ofList h)).truncateAt 0 0
  result id primitive fid formals hprim actuals ha :=
    Primitive.nilFree_result ha (hp.prim id primitive fid formals hprim) _ _

private theorem evaluateField_mono {a' a : Flow} (hn' : a'.NilFree) (hn : a.NilFree) (h : a' ≤ a)
    (label : String) : evaluateField a' label ≤ evaluateField a label := by
  have hbottom : ∀ v, v = Flow.bottom → v ≤ evaluateField a label := by
    rintro v rfl
    exact Flow.bottom_le _
  cases hn' with
  | any => rw [Flow.eq_any_of_any_le h]
  | @record s f hf =>
    cases hn with
    | any => exact Flow.le_any _
    | @record t g hg =>
      cases hk : f.find? label with
      | none =>
        apply hbottom
        simp [evaluateField, hk]
      | some v =>
        obtain ⟨w, hw, hle⟩ := (Flow.record_le_record.1 h).2.1 label v hk
        simpa [evaluateField, hk, hw] using hle
    | unlaid t => exact absurd (Flow.record_le_record.1 h).2.1 id
    | scalar n =>
      rw [Flow.le_iff_meet, Flow.scalar_meet] at h
      cases h
    | _ =>
      rw [Flow.le_iff_meet, Flow.meet_of_clash rfl rfl rfl] at h
      cases h
  | _ => exact hbottom _ rfl

section Calls

variable {p : Program} {v w : Flows} (hp : p.NilFree) (hv : v.NilFree) (hw : w.NilFree)

include hp in
private theorem resultOf_mono (h : v ≤ w) {as' as : List Flow}
    (hn : ∀ i, (Primitive.argument as i).NilFree)
    (ha : ∀ i, Primitive.argument as' i ≤ Primitive.argument as i) (fid : FunctionId) :
    p.resultOf v as' fid ≤ p.resultOf w as fid := by
  unfold resultOf
  cases p.functionNode? fid with
  | none => exact le_rfl
  | some callee =>
    dsimp only
    split
    · exact h.node _
    · rename_i hprim
      exact Primitive.result_mono hn ha (hp.prim _ _ _ _ hprim) _ _
    · exact le_rfl

private theorem argument_mono (h : v ≤ w) (args : List NodeId) (i : Nat) :
    Primitive.argument (args.map v.ofNode) i ≤ Primitive.argument (args.map w.ofNode) i := by
  rw [argument_map, argument_map]
  cases args[i]? with
  | none => exact le_rfl
  | some arg => exact h.node arg

/-- A call whose callee holds neither nothing nor functions may return anything. -/
theorem callFlow_of_other {fn : NodeId} {args : List NodeId}
    (hany : (w.ofNode fn).isAny = false) (hfn : (w.ofNode fn).functions? = none) :
    p.callFlow w fn args = .bottom := by
  unfold callFlow
  split
  · rename_i hf
    rw [hf] at hfn
    cases hfn
  · exact Flow.fallen_of_not_any hany

include hp in
/-- Reaching more functions, each with a lower result, has a lower result. -/
theorem reachedResult_mono (h : v ≤ w) {as' as : List Flow}
    (hn : ∀ i, (Primitive.argument as i).NilFree)
    (ha : ∀ i, Primitive.argument as' i ≤ Primitive.argument as i) {s t : IdSet}
    (ht : t.isEmpty = false) (hst : ∀ x, x ∈ t → x ∈ s) :
    p.reachedResult v as' s ≤ p.reachedResult w as t := by
  unfold reachedResult
  by_cases houtside : s.reachesOutside = true
  · rw [if_pos houtside]
    exact Flow.bottom_le _
  · have houtside' : t.reachesOutside ≠ true := by
      intro hc
      rw [IdSet.reachesOutside, ht, Bool.false_or, IdSet.contains_eq_true] at hc
      refine houtside ?_
      rw [IdSet.reachesOutside, IdSet.contains_eq_true.2 (hst _ hc), Bool.or_true]
    rw [if_neg houtside, if_neg houtside']
    refine Flow.le_foldl_meet (Flow.le_any _) ?_
    intro fid hfid
    exact (Flow.foldl_meet_le (hst fid hfid)).trans (resultOf_mono hp h hn ha fid)

include hp hv hw in
/-- A call falls with its callee, its arguments and what the callee may return. -/
theorem callFlow_mono (h : v ≤ w) (fn : NodeId) (args : List NodeId) :
    p.callFlow v fn args ≤ p.callFlow w fn args := by
  have hfn := h.node fn
  cases hany : (w.ofNode fn).isAny with
  | true =>
    have hwf : w.ofNode fn = .any := by
      cases e : w.ofNode fn <;> rw [e] at hany <;> first | rfl | cases hany
    have hcall : p.callFlow w fn args = .any := by
      unfold callFlow
      rw [hwf]
      rfl
    rw [hcall]
    exact Flow.le_any _
  | false =>
    have hany' := Flow.isAny_of_le hfn hany
    cases hvf : (v.ofNode fn).functions? with
    | none =>
      rw [callFlow_of_other hany' hvf]
      exact Flow.bottom_le _
    | some s =>
      obtain ⟨t, hwf, ht, hst⟩ :=
        Flow.functions_of_le (hv.node fn) (hw.node fn) hfn hany hvf
      unfold callFlow
      rw [Flow.eq_function_of_functions (hv.node fn) hvf, hwf]
      exact reachedResult_mono hp h (hp.admits.argument hw args) (argument_mono h args) ht hst

private theorem evaluateIdent_mono (h : v ≤ w) (binder : NodeId) (position : Option Nat) :
    p.evaluateIdent v binder position ≤ p.evaluateIdent w binder position := by
  unfold evaluateIdent
  split
  · exact h.node _
  · split
    · exact h.formal _ _
    · exact le_rfl

private theorem map_ofNode_mono (h : v ≤ w) (ids : List NodeId) :
    List.Forall₂ (· ≤ ·) (ids.map v.ofNode) (ids.map w.ofNode) := by
  induction ids with
  | nil => exact .nil
  | cons id rest ih => exact .cons (h.node id) ih

include hp hv hw in
/-- A recomputation is monotone where no nil is about. -/
theorem recompute_mono (h : v ≤ w) (id : NodeId) : p.recompute v id ≤ p.recompute w id := by
  unfold recompute
  cases p.kind id with
  | ident name binder position binding => exact evaluateIdent_mono h binder position
  | letIn name definition body binding => exact h.node body
  | root body => exact h.node body
  | record site labels parts =>
    exact Flow.truncate_mono _ _
      (Flow.recordAt_mono (Flow.ofList_mono (Flow.forall₂_zip (map_ofNode_mono h parts))))
  | field label source => exact evaluateField_mono (hv.node _) (hw.node _) (h.node _) label
  | apply fn args => exact callFlow_mono hp hv hw h fn args
  | _ => exact le_rfl

end Calls

end Program

end TypeFlow
