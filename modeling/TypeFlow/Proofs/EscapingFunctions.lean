import TypeFlow.Proofs.FaithfulRuns
import TypeFlow.Proofs.LookUpFlows

/-!
# Functions that escape

Whoever holds the result of a program may call the functions in it.  Those that escape are told by what
a flow exposes: a record with a known layout its fields, a function of the program what its body
returns.  Functions may return themselves or each other, and records may share flows, so the widening
remembers the flows that it has met.  It meets exactly what the result exposes: whatever it meets is
exposed, and all that a flow exposes has been met when the flow is done with.

On the way it lowers parameters.  That changes no flow of a node, so the flows that are walked through
stay what they are, and where wrappers wrap nothing but variables the look-ups on the way change no
type, so each parameter is lowered to what its type allowed at first.

Main definitions:

- `Flow.parts`, `Flows.parts`: the flows nested in a flow, and in those of all nodes.
- `Forest.Leafy`: a forest in which wrappers wrap variables.
- `Program.Exposes`, `Program.Exposed`, `Program.Escaping`: what the result of a program gives away.
- `Program.Widening`: some parameters were lowered to what their types allow.
- `Program.Escapes`: what a part of the walk has met and lowered.

Main results:

- `Flows.length_parts`: the walk's fuel counts the flows that it may meet.
- `Program.widenFunction_widens`: a function is lowered to what its types allow.
- `Program.escapeFrom_escapes`: the walk returns, and is done with all that the flow exposes.
- `Program.widenEscapes_covers`: the functions that escape are lowered, all others stay.
-/

namespace TypeFlow

/-! ## Nested flows -/

mutual

/-- The flows nested in a flow, itself included. -/
def Flow.parts : Flow → List Flow
  | .record s (some f) n => .record s (some f) n :: Flow.partsOfFields f
  | flow => [flow]
  termination_by structural a => a

/-- The flows nested in the entries. -/
def Flow.partsOfFields {bound : Option String} : Fields Flow bound → List Flow
  | .nil => []
  | .cons _ _ v f => Flow.parts v ++ Flow.partsOfFields f
  termination_by structural f => f

end

mutual

private theorem Flow.length_parts : ∀ flow : Flow, flow.parts.length = flow.size
  | .record s (some f) n => by
    rw [Flow.parts, Flow.size, List.length_cons, Flow.length_partsOfFields f]
  | .any | .nil | .int _ | .float _ | .text _ _ | .function _ _ | .record _ none _ | .scalar _ => rfl

private theorem Flow.length_partsOfFields :
    ∀ {bound : Option String} (f : Fields Flow bound), (Flow.partsOfFields f).length = Flow.sizeFields f
  | _, .nil => rfl
  | _, .cons _ _ v f => by
    rw [Flow.partsOfFields, Flow.sizeFields, List.length_append, Flow.length_parts v,
      Flow.length_partsOfFields f]

end

namespace Flow

private theorem self_mem_parts (flow : Flow) : flow ∈ flow.parts := by
  unfold parts
  split <;> exact List.mem_cons_self

private theorem partsOfFields_eq {bound : Option String} (f : Fields Flow bound) :
    partsOfFields f = f.values.flatMap parts := by
  induction f with
  | nil => rfl
  | cons l h v rest ih => rw [partsOfFields, Fields.values, List.flatMap_cons, ih]

end Flow

mutual

/-- What is nested in a nested flow is nested in the outer one. -/
theorem Flow.parts_subset : ∀ flow : Flow, ∀ x ∈ flow.parts, x.parts ⊆ flow.parts
  | .record s (some f) n => by
    intro x hx
    rw [Flow.parts] at hx ⊢
    rcases List.mem_cons.1 hx with rfl | hx
    · rw [Flow.parts]
      exact fun _ => id
    · exact List.Subset.trans (Flow.partsOfFields_subset f x hx) (List.subset_cons_self _ _)
  | .any | .nil | .int _ | .float _ | .text _ _ | .function _ _ | .record _ none _ | .scalar _ => by
    intro x hx
    obtain rfl := List.mem_singleton.1 hx
    exact fun _ => id

private theorem Flow.partsOfFields_subset : ∀ {bound : Option String} (f : Fields Flow bound),
    ∀ x ∈ Flow.partsOfFields f, x.parts ⊆ Flow.partsOfFields f
  | _, .nil => fun _ hx => absurd hx List.not_mem_nil
  | _, .cons _ _ v f => by
    intro x hx
    rw [Flow.partsOfFields] at hx ⊢
    rcases List.mem_append.1 hx with hx | hx
    · exact List.Subset.trans (Flow.parts_subset v x hx) (List.subset_append_left _ _)
    · exact List.Subset.trans (Flow.partsOfFields_subset f x hx) (List.subset_append_right _ _)

end

namespace Flow

/-- The fields of a nested record are nested too. -/
theorem field_mem_parts {flow field : Flow} {s : IdSet} {f : Fields Flow none} {n : Bool}
    {label : String} (h : .record s (some f) n ∈ flow.parts) (hfield : f.find? label = some field) :
    field ∈ flow.parts := by
  apply flow.parts_subset _ h
  rw [parts, partsOfFields_eq]
  exact List.mem_cons_of_mem _
    (List.mem_flatMap.2 ⟨field, Fields.mem_values.2 ⟨label, hfield⟩, field.self_mem_parts⟩)

/-- The flow names a function. -/
def Names (flow : Flow) (fid : FunctionId) : Prop := ∃ fids nil, flow = .function fids nil ∧ fid ∈ fids

private theorem names_function {fids : IdSet} {orNil : Bool} {fid : FunctionId} :
    (function fids orNil).Names fid ↔ fid ∈ fids := by
  constructor
  · rintro ⟨fids', orNil', heq, hmem⟩
    cases heq
    exact hmem
  · exact fun hmem => ⟨fids, orNil, rfl, hmem⟩

private theorem not_names {flow : Flow} (h : ∀ fids nil, flow ≠ function fids nil) (fid : FunctionId) :
    ¬flow.Names fid := fun ⟨fids, orNil, heq, _⟩ => h fids orNil heq

end Flow

namespace Flows

variable {w : Flows}

/-- The flows nested in those of all nodes. -/
def parts (w : Flows) : List Flow := w.nodes.toList.flatMap Flow.parts

private theorem length_parts (w : Flows) : w.parts.length = w.size := by
  have hfold : ∀ (flows : List Flow) (n : Nat),
      flows.foldl (fun n flow => n + flow.size) n = n + (flows.flatMap Flow.parts).length := by
    intro flows
    induction flows with
    | nil => exact fun n => rfl
    | cons flow rest ih =>
      intro n
      rw [List.foldl_cons, ih, List.flatMap_cons, List.length_append, flow.length_parts, Nat.add_assoc]
  rw [size, ← Array.foldl_toList, hfold, Nat.zero_add, parts]

/-- The flow of a node is one of all flows, if there is such a node. -/
theorem ofNode_mem_parts (w : Flows) (id : NodeId) : w.ofNode id ∈ w.parts ∨ w.ofNode id = .any := by
  unfold ofNode
  cases h : w.nodes[id]? with
  | none => exact Or.inr rfl
  | some flow =>
    refine Or.inl (List.mem_flatMap.2 ⟨flow, ?_, flow.self_mem_parts⟩)
    exact Array.mem_toList_iff.2 (Array.mem_of_getElem? h)

private theorem field_mem_parts {field : Flow} {s : IdSet} {f : Fields Flow none} {n : Bool} {label : String}
    (h : .record s (some f) n ∈ w.parts) (hfield : f.find? label = some field) : field ∈ w.parts := by
  obtain ⟨flow, hflow, hmem⟩ := List.mem_flatMap.1 h
  exact List.mem_flatMap.2 ⟨flow, hflow, Flow.field_mem_parts hmem hfield⟩

/-- How many flows a walk has not met yet. -/
def unmet (w : Flows) (seen : List Flow) : Nat := (w.parts.toFinset \ seen.toFinset).card

private theorem unmet_le {seen seen' : List Flow} (h : seen ⊆ seen') : w.unmet seen' ≤ w.unmet seen := by
  refine Finset.card_le_card (Finset.sdiff_subset_sdiff (Finset.Subset.refl _) fun x hx => ?_)
  exact List.mem_toFinset.2 (h (List.mem_toFinset.1 hx))

private theorem unmet_cons_lt {seen : List Flow} {flow : Flow} (hflow : flow ∈ w.parts) (hnew : flow ∉ seen) :
    w.unmet (flow :: seen) < w.unmet seen := by
  refine Finset.card_lt_card (Finset.ssubset_iff_subset_ne.2 ⟨?_, fun heq => ?_⟩)
  · refine Finset.sdiff_subset_sdiff (Finset.Subset.refl _) fun x hx => ?_
    exact List.mem_toFinset.2 (List.mem_cons_of_mem _ (List.mem_toFinset.1 hx))
  · have hmem : flow ∈ w.parts.toFinset \ seen.toFinset :=
      Finset.mem_sdiff.2 ⟨List.mem_toFinset.2 hflow, fun h => hnew (List.mem_toFinset.1 h)⟩
    rw [← heq] at hmem
    exact (Finset.mem_sdiff.1 hmem).2 (List.mem_toFinset.2 List.mem_cons_self)

private theorem unmet_nil_lt (w : Flows) : w.unmet [] < w.size + 1 := by
  refine Nat.lt_succ_of_le (le_trans (Finset.card_le_card Finset.sdiff_subset) ?_)
  rw [← w.length_parts]
  exact List.toFinset_card_le _

end Flows

/-! ## Wrappers of variables -/

namespace Forest

variable {f g : Forest}

/-- Links lead to classes, and every wrapper wraps a variable. -/
structure Leafy (f : Forest) : Prop where
  rooted : f.Rooted
  wraps : ∀ w inner, f.kind w = .nilable inner → f.kind (f.rep inner) = .var

namespace Leafy

/-- Classes of a leafy forest wrap variables at most. -/
theorem calm (hf : f.Leafy) {c : TermId} (hc : (f.kind c).isLink = false) : f.Calm c :=
  ⟨hc, hf.wraps c⟩

/-- Wrappers of a leafy forest come to an end. -/
theorem ends (hf : f.Leafy) (t : TermId) : f.Ends t :=
  Calm.ends (hf.calm (not_isLink_rep hf.rooted t))

private theorem of_upkeeps (hf : f.Leafy) (hup : f.Upkeeps g) : g.Leafy := by
  have hs := hup.steady hf.rooted
  refine ⟨hs.rooted, fun w inner hw => ?_⟩
  have hlink : (f.kind w).isLink = false := by rw [← hs.isLink, hw]; rfl
  exact (hup.calm hf.rooted (hf.calm hlink)).2.wraps inner hw

/-- A look-up opens no wrapper of a function. -/
theorem marksAgree (hf : f.Leafy) (t : TermId) : f.MarksAgree t := by
  intro w c fids hw hc hfids
  cases hc with
  | here => rw [hw.rep_eq hf.rooted]
  | @inner _ inner _ hinner hc =>
    have hvar := hf.wraps _ inner hinner
    rw [hc.eq_rep (by rw [hvar]; rfl), hvar] at hfids
    cases hfids

/-- Looking several classes up changes the flow of no type. -/
theorem findAll_returns (hf : f.Leafy) (ts : List TermId) : Returns (findAll ts) f fun rs g =>
    rs = ts.map f.rep ∧ g.Leafy ∧ ∀ u, g.widest u = f.widest u := by
  induction ts generalizing f with
  | nil => exact returns_pure ⟨rfl, hf, fun _ => rfl⟩
  | cons t rest ih =>
    refine returns_bind (find_returns hf.rooted (hf.ends t)) fun r f₁ hfind ⟨hr, hup, _⟩ => ?_
    have hf₁ := hf.of_upkeeps hup
    have hflows := widest_of_findFrom hf.rooted hf.ends (hf.marksAgree t)
      (find_eq_findFrom t f ▸ hfind)
    refine returns_bind (ih hf₁) fun rs g _ ⟨hrs, hg, hwidest⟩ => returns_pure ⟨?_, hg, fun u => ?_⟩
    · rw [hr, hrs, List.map_cons, funext (hup.steady hf.rooted).rep]
    · rw [hwidest, hflows]

end Leafy

end Forest

open Forest (Leafy)

namespace Program

variable {p : Program} {s t u : State} {D E : FunctionId → Nat → Prop}

/-! ## What types allow -/

/-- What the type of a parameter of a function allows. -/
def allowance (p : Program) (f : Forest) (fid : FunctionId) (index : Nat) : Option Flow :=
  (p.functionNode? fid).bind fun node => (p.formalsOfNode node)[index]?.bind f.widest

private theorem allowance_congr {f g : Forest} (h : ∀ u, g.widest u = f.widest u) :
    p.allowance g = p.allowance f := by
  unfold allowance
  rw [funext h]

/-- Some parameters were lowered to what their types allow, and nothing else happened if that was no
change. -/
structure Widening (p : Program) (D : FunctionId → Nat → Prop) (s : State) (fell : Bool) (t : State) :
    Prop where
  leafy : t.forest.Leafy
  widest : ∀ u, t.forest.widest u = s.forest.widest u
  nodes : t.flows.nodes = s.flows.nodes
  below : t.flows ≤ s.flows
  lowered : ∀ fid index widest, D fid index → p.allowance s.forest fid index = some widest →
    (t.flows.ofFormals fid)[index]? = (s.flows.ofFormals fid)[index]?.map (·.meet widest)
  kept : ∀ fid index, fid ≠ FunctionId.unknown → (D fid index → p.allowance s.forest fid index = none) →
    (t.flows.ofFormals fid)[index]? = (s.flows.ofFormals fid)[index]?
  fell_iff : fell = true ↔ t.flows ≠ s.flows
  idle : fell = false → t.work = s.work

namespace Widening

private theorem of_tidied {forest : Forest} (hf : forest.Leafy)
    (hwidest : ∀ u, forest.widest u = s.forest.widest u) :
    p.Widening (fun _ _ => False) s false { s with forest := forest } where
  leafy := hf
  widest := hwidest
  nodes := rfl
  below := le_rfl
  lowered _ _ _ h := h.elim
  kept _ _ _ _ := rfl
  fell_iff := ⟨fun h => absurd h Bool.false_ne_true, fun h => absurd rfl h⟩
  idle _ := rfl

private theorem refl (hs : s.forest.Leafy) : p.Widening (fun _ _ => False) s false s :=
  of_tidied hs fun _ => rfl

/-- It does not matter of which parameters without a type they are said to be lowered. -/
theorem of_iff {fell : Bool} (h : p.Widening D s fell t)
    (hD : ∀ fid index, (p.allowance s.forest fid index).isSome → (E fid index ↔ D fid index)) :
    p.Widening E s fell t where
  leafy := h.leafy
  widest := h.widest
  nodes := h.nodes
  below := h.below
  lowered fid index widest hE hwidest :=
    h.lowered fid index widest ((hD fid index (Option.isSome_of_eq_some hwidest)).1 hE) hwidest
  kept fid index hfid hE := h.kept fid index hfid fun hD' => by
    by_contra hne
    exact hne (hE ((hD fid index (Option.isSome_iff_ne_none.2 hne)).2 hD'))
  fell_iff := h.fell_iff
  idle := h.idle

/-- Parameters that are lowered twice are lowered no more than once. -/
theorem trans {fell fell' : Bool} (h : p.Widening D s fell t) (h' : p.Widening E t fell' u) :
    p.Widening (fun fid index => D fid index ∨ E fid index) s (fell || fell') u where
  leafy := h'.leafy
  widest v := by rw [h'.widest, h.widest]
  nodes := by rw [h'.nodes, h.nodes]
  below := le_trans h'.below h.below
  lowered fid index widest hDE hwidest := by
    have hfid : fid ≠ FunctionId.unknown := by
      rintro rfl
      cases hwidest
    have hwidest' : p.allowance t.forest fid index = some widest := by
      rw [allowance_congr h.widest, hwidest]
    by_cases hD : D fid index
    · have hfirst := h.lowered fid index widest hD hwidest
      by_cases hE : E fid index
      · rw [h'.lowered fid index widest hE hwidest', hfirst, Option.map_map]
        congr 1
        funext old
        exact inf_right_idem old widest
      · rw [h'.kept fid index hfid fun hE' => absurd hE' hE, hfirst]
    · rw [h'.lowered fid index widest (hDE.resolve_left hD) hwidest',
        h.kept fid index hfid fun hD' => absurd hD' hD]
  kept fid index hfid hnone := by
    rw [h'.kept fid index hfid fun hE => ?_, h.kept fid index hfid fun hD => hnone (Or.inl hD)]
    rw [allowance_congr h.widest]
    exact hnone (Or.inr hE)
  fell_iff := by
    rw [Bool.or_eq_true, h.fell_iff, h'.fell_iff]
    constructor
    · rintro hne heq
      have hts : t.flows = s.flows := le_antisymm h.below (heq ▸ h'.below)
      rcases hne with hne | hne
      · exact hne hts
      · exact hne (heq.trans hts.symm)
    · intro hne
      by_contra hboth
      rw [not_or, not_not, not_not] at hboth
      exact hne (hboth.2.trans hboth.1)
  idle hfell := by
    obtain ⟨hfell, hfell'⟩ := Bool.or_eq_false_iff.1 hfell
    rw [h'.idle hfell', h.idle hfell]

end Widening

/-! ## Lowering one function -/

private theorem meetFormal_returns (fid : FunctionId) (index : Nat) (flow : Flow) (s : State) :
    Returns (meetFormal fid index flow) s fun fell t =>
      (fell = false ∧ t = s ∧
          ∀ old, (s.flows.ofFormals fid)[index]? = some old → old.meet flow = old) ∨
        ∃ old, fell = true ∧ (s.flows.ofFormals fid)[index]? = some old ∧ old.meet flow ≠ old ∧
          t = { s with flows := s.flows.setFormal fid index (old.meet flow) } := by
  have hreturns : ∃ fell t, meetFormal fid index flow s = some (fell, t) := by
    unfold meetFormal
    dsimp only
    split
    · exact ⟨_, _, rfl⟩
    · split <;> exact ⟨_, _, rfl⟩
  obtain ⟨fell, t, h⟩ := hreturns
  exact ⟨fell, t, h, meetFormal_eq_some h⟩

private theorem wakeTerm_returns (term : TermId) (s : State) :
    Returns (wakeTerm term) s fun _ t => t.forest = s.forest ∧ t.flows = s.flows :=
  ⟨(), _, wakeTerm_eq_some.2 rfl, rfl, rfl⟩

private theorem announceWidened_returns (p : Program) (node : NodeId) (s : State) :
    Returns (p.announceWidened node) s fun _ t => t.forest = s.forest ∧ t.flows = s.flows := by
  unfold announceWidened
  split <;> exact ⟨(), _, announce_eq_some.2 rfl, rfl, rfl⟩

private theorem widest_returns (hs : s.forest.Leafy) (formal : TermId) :
    Returns (onTerms fun _ => widestOf formal) s fun widest t =>
      s = t ∧ s.forest.widest formal = some widest := by
  obtain ⟨widest, hwidest⟩ := Forest.exists_widest hs.ends formal
  exact ⟨widest, s, onTerms_eq_some.2 ⟨s.forest, widestOf_eq_some.2 ⟨hwidest, rfl⟩, rfl⟩,
    rfl, hwidest⟩

/-- One parameter is lowered to what its type allows. -/
theorem widenFormal_widens {fid : FunctionId} {node : NodeId} {index : Nat} {formal : TermId}
    (hs : s.forest.Leafy) (hallow : p.allowance s.forest fid index = s.forest.widest formal) :
    Returns (p.widenFormal fid node index formal) s fun fell t =>
      p.Widening (fun fid' index' => fid' = fid ∧ index' = index) s fell t := by
  refine returns_bind (widest_returns hs formal) fun widest _ _ ⟨heq, hwidest⟩ => ?_
  subst heq
  rw [hwidest] at hallow
  have hfid : fid ≠ FunctionId.unknown := by
    rintro rfl
    cases hallow
  refine returns_bind (meetFormal_returns fid index widest s) fun fell t _ hmeet => ?_
  rcases hmeet with ⟨rfl, rfl, hsame⟩ | ⟨old, rfl, hold, hne, rfl⟩
  · refine returns_pure ⟨hs, fun _ => rfl, rfl, le_rfl, ?_, fun _ _ _ _ => rfl,
      ⟨fun h => absurd h Bool.false_ne_true, fun h => absurd rfl h⟩, fun _ => rfl⟩
    rintro fid' index' widest' ⟨rfl, rfl⟩ hwidest'
    cases hallow.symm.trans hwidest'
    cases hformal : (t.flows.ofFormals fid')[index']? with
    | none => rfl
    | some old => rw [Option.map_some, hsame old hformal]
  · rw [if_pos rfl]
    set w := s.flows.setFormal fid index (old.meet widest) with hw
    have hset : (w.ofFormals fid)[index]? = some (old.meet widest) := by
      obtain ⟨hlt, -⟩ := List.getElem?_eq_some_iff.1 hold
      rw [hw, Flows.ofFormals_setFormal, if_pos rfl, List.getElem?_set_self hlt]
    refine returns_bind (wakeTerm_returns formal _) fun _ t₁ _ h₁ => ?_
    refine returns_bind (announceWidened_returns p node t₁) fun _ t _ h₂ => returns_pure ?_
    have hforest : t.forest = s.forest := h₂.1.trans h₁.1
    have hflows : t.flows = w := h₂.2.trans h₁.2
    refine ⟨hforest ▸ hs, fun _ => by rw [hforest], by rw [hflows]; rfl, ?_, ?_, ?_, ?_, fun h => ?_⟩
    · rw [hflows]
      exact Flows.setFormal_le hold inf_le_left
    · rintro _ _ widest' ⟨rfl, rfl⟩ hwidest'
      cases hallow.symm.trans hwidest'
      rw [hflows, hset, hold, Option.map_some]
    · intro fid' index' hfid' hnone
      rw [hflows, hw, Flows.ofFormals_setFormal]
      split
      · rename_i hpos
        obtain rfl : fid' = fid :=
          Nat.sub_one_cancel (Nat.pos_of_ne_zero hfid') (Nat.pos_of_ne_zero hfid) hpos.symm
        by_cases hindex : index' = index
        · rw [hindex] at hnone
          rw [hnone ⟨rfl, rfl⟩] at hallow
          cases hallow
        · rw [List.getElem?_set_ne fun h => hindex h.symm]
      · rfl
    · refine ⟨fun _ heq => hne ?_, fun _ => rfl⟩
      rw [hflows] at heq
      rw [heq, hold] at hset
      exact (Option.some.inj hset).symm
    · exact absurd h.symm Bool.false_ne_true

/-- The parameters of a function are lowered from a position on. -/
theorem widenFormals_widens {fid : FunctionId} {node : NodeId} {i : Nat} {formals : List TermId}
    (hs : s.forest.Leafy)
    (hallow : ∀ j, p.allowance s.forest fid (i + j) = formals[j]?.bind s.forest.widest) :
    Returns (p.widenFormals fid node i formals) s fun fell t =>
      p.Widening (fun fid' index => fid' = fid ∧ i ≤ index) s fell t := by
  induction formals generalizing i s with
  | nil =>
    refine returns_pure ((Widening.refl hs).of_iff fun fid' index hsome => iff_false_intro ?_)
    rintro ⟨rfl, hle⟩
    obtain ⟨j, rfl⟩ := Nat.exists_eq_add_of_le hle
    rw [hallow j] at hsome
    cases hsome
  | cons formal rest ih =>
    rw [widenFormals_cons]
    refine returns_bind (widenFormal_widens hs (hallow 0)) fun fell s₁ _ h₁ => ?_
    refine returns_bind (ih (i := i + 1) h₁.leafy fun j => ?_) fun later s₂ _ h₂ => ?_
    · rw [allowance_congr h₁.widest, Nat.add_assoc, Nat.add_comm 1 j, hallow (j + 1),
        List.getElem?_cons_succ, funext h₁.widest]
    · refine returns_pure ((h₁.trans h₂).of_iff fun fid' index _ => ?_)
      rw [← and_or_left]
      exact and_congr_right fun _ => by omega

/-- All parameters of a function are lowered. -/
theorem widenFunction_widens {fid : FunctionId} {node : NodeId} (hs : s.forest.Leafy)
    (hnode : p.functionNode? fid = some node) :
    Returns (p.widenFunction fid node) s fun fell t =>
      p.Widening (fun fid' _ => fid' = fid) s fell t := by
  obtain ⟨rs, f₁, hrun, rfl, hf₁, hwidest⟩ := hs.findAll_returns (p.formalsOfNode node)
  refine returns_bind (P := fun rs' s' => rs' = (p.formalsOfNode node).map s.forest.rep ∧
      s' = { s with forest := f₁ }) ⟨_, _, onTerms_eq_some.2 ⟨f₁, hrun, rfl⟩, rfl, rfl⟩ ?_
  rintro _ _ - ⟨rfl, rfl⟩
  refine (widenFormals_widens (i := 0) hf₁ fun j => ?_).imp fun fell t _ h => ?_
  · rw [Nat.zero_add, allowance_congr hwidest, allowance, hnode, Option.bind_some, List.getElem?_map,
      Option.bind_map, funext hwidest]
    congr 1
    funext formal
    exact (Forest.widestFrom_rep hs.rooted _ formal _).symm
  · refine ((Widening.of_tidied hf₁ hwidest).trans h).of_iff fun fid' index _ => ?_
    simp

/-! ## What a flow exposes -/

/-- Who holds a value of the first flow can get at one of the second: as a field, or by a call. -/
inductive Exposes (p : Program) (w : Flows) : Flow → Flow → Prop
  | field {sites : IdSet} {fields : Fields Flow none} {nil : Bool} {label : String} {flow : Flow}
    (h : fields.find? label = some flow) : Exposes p w (.record sites (some fields) nil) flow
  | result {fids : IdSet} {nil : Bool} {fid fid' : FunctionId} {node body : NodeId}
    {params : List String} {formals : List TermId} {widen : Bool} (hfid : fid ∈ fids)
    (hnode : p.functionNode? fid = some node)
    (hkind : p.kind node = .lambda params body fid' formals widen) :
    Exposes p w (.function fids nil) (w.ofNode body)

/-- The flow is one that the result of the program exposes. -/
def Exposed (p : Program) (w : Flows) : Flow → Prop :=
  Relation.ReflTransGen (p.Exposes w) (w.ofNode rootId)

/-- The function is one that callers outside can get at. -/
def Escaping (p : Program) (w : Flows) (fid : FunctionId) : Prop :=
  ∃ flow, p.Exposed w flow ∧ flow.Names fid

/-- Only flows that nodes have are exposed. -/
theorem Exposed.mem_parts {w : Flows} {flow : Flow} (h : p.Exposed w flow) :
    flow ∈ w.parts ∨ flow = .any := by
  induction h with
  | refl => exact w.ofNode_mem_parts rootId
  | tail _ hexposes ih =>
    cases hexposes with
    | field hfield =>
      rcases ih with hmem | hany
      · exact Or.inl (Flows.field_mem_parts hmem hfield)
      · cases hany
    | result => exact w.ofNode_mem_parts _

/-! ## The walk -/

variable {w : Flows} {seen seen' : List Flow} {named named' : FunctionId → Prop}

/-- A part of the walk has met flows that the result exposes, with all that these expose in turn, and
has lowered the functions that they name, next to some given ones. -/
structure Escapes (p : Program) (w : Flows) (named : FunctionId → Prop) (seen : List Flow) (s : State)
    (r : Bool × List Flow) (t : State) : Prop where
  widening : p.Widening (fun fid _ => named fid ∨ ∃ x ∈ r.2, x ∉ seen ∧ x.Names fid) s r.1 t
  subset : seen ⊆ r.2
  exposed : ∀ x ∈ r.2, x ∈ seen ∨ p.Exposed w x
  closed : ∀ x ∈ r.2, x ∉ seen → ∀ y, p.Exposes w x y → y ∈ r.2

namespace Escapes

/-- Nothing was met. -/
theorem of_widening {fell : Bool} (h : p.Widening (fun fid _ => named fid) s fell t) :
    p.Escapes w named seen s (fell, seen) t where
  widening := h.of_iff fun _ _ _ =>
    ⟨fun h => h.resolve_right fun ⟨_, hx, hnew, _⟩ => hnew hx, Or.inl⟩
  subset _ := id
  exposed _ hx := Or.inl hx
  closed _ hx hnew := absurd hx hnew

private theorem trans {fell : Bool} {r : Bool × List Flow} (h : p.Escapes w named seen s (fell, seen') t)
    (h' : p.Escapes w named' seen' t r u) :
    p.Escapes w (fun fid => named fid ∨ named' fid) seen s (fell || r.1, r.2) u where
  widening := by
    refine (h.widening.trans h'.widening).of_iff fun fid _ _ => ⟨?_, ?_⟩
    · rintro ((hnamed | hnamed) | ⟨x, hx, hnew, hname⟩)
      · exact Or.inl (Or.inl hnamed)
      · exact Or.inr (Or.inl hnamed)
      · by_cases hx' : x ∈ seen'
        · exact Or.inl (Or.inr ⟨x, hx', hnew, hname⟩)
        · exact Or.inr (Or.inr ⟨x, hx, hx', hname⟩)
    · rintro ((hnamed | ⟨x, hx, hnew, hname⟩) | (hnamed | ⟨x, hx, hnew, hname⟩))
      · exact Or.inl (Or.inl hnamed)
      · exact Or.inr ⟨x, h'.subset hx, hnew, hname⟩
      · exact Or.inl (Or.inr hnamed)
      · exact Or.inr ⟨x, hx, fun hmem => hnew (h.subset hmem), hname⟩
  subset _ hx := h'.subset (h.subset hx)
  exposed x hx := (h'.exposed x hx).elim (h.exposed x) Or.inr
  closed x hx hnew y hxy := by
    by_cases hx' : x ∈ seen'
    · exact h'.subset (h.closed x hx' hnew y hxy)
    · exact h'.closed x hx hx' y hxy

/-- The functions that were given do not matter more than that they are the same. -/
theorem of_iff {r : Bool × List Flow} (h : p.Escapes w named seen s r t)
    (hnamed : ∀ fid, named' fid ↔ named fid) : p.Escapes w named' seen s r t where
  widening := h.widening.of_iff fun fid _ _ => or_congr_left (hnamed fid)
  subset := h.subset
  exposed := h.exposed
  closed := h.closed

/-- The walk is done with a flow when it has lowered the functions that it names and has met all that it
exposes. -/
theorem enter {flow : Flow} {r : Bool × List Flow} (h : p.Escapes w flow.Names (flow :: seen) s r t)
    (hflow : p.Exposed w flow) (hnew : flow ∉ seen) (hall : ∀ y, p.Exposes w flow y → y ∈ r.2) :
    p.Escapes w (fun _ => False) seen s r t where
  widening := by
    refine h.widening.of_iff fun fid _ _ => ⟨?_, ?_⟩
    · rintro (hno | ⟨x, hx, hxnew, hname⟩)
      · exact hno.elim
      · by_cases heq : x = flow
        · exact Or.inl (heq ▸ hname)
        · exact Or.inr ⟨x, hx, fun hmem => hxnew ((List.mem_cons.1 hmem).resolve_left heq), hname⟩
    · rintro (hname | ⟨x, hx, hxnew, hname⟩)
      · exact Or.inr ⟨flow, h.subset List.mem_cons_self, hnew, hname⟩
      · exact Or.inr ⟨x, hx, fun hmem => hxnew (List.mem_cons_of_mem _ hmem), hname⟩
  subset x hx := h.subset (List.mem_cons_of_mem _ hx)
  exposed x hx := by
    rcases h.exposed x hx with hmem | hexposed
    · rcases List.mem_cons.1 hmem with rfl | hmem
      · exact Or.inr hflow
      · exact Or.inl hmem
    · exact Or.inr hexposed
  closed x hx hxnew y hxy := by
    by_cases heq : x = flow
    · exact hall y (heq ▸ hxy)
    · exact h.closed x hx (fun hmem => hxnew ((List.mem_cons.1 hmem).resolve_left heq)) y hxy

end Escapes

/-- A walk of so many nested flows does its part. -/
def Walks (p : Program) (w : Flows) (fuel : Nat) (walk : EscapeWalk) : Prop :=
  ∀ s flow seen, s.forest.Leafy → s.flows.nodes = w.nodes → p.Exposed w flow → w.unmet seen < fuel →
    Returns (walk flow seen) s fun r t => p.Escapes w (fun _ => False) seen s r t ∧ flow ∈ r.2

section Parts

variable {fuel : Nat} {walk : EscapeWalk} (hwalk : p.Walks w fuel walk)

include hwalk

/-- The fields of a record are followed in turn. -/
theorem escapeEach_escapes {flows : List Flow} (hs : s.forest.Leafy) (hw : s.flows.nodes = w.nodes)
    (hflows : ∀ flow ∈ flows, p.Exposed w flow) (hseen : w.unmet seen < fuel) :
    Returns (escapeEach walk flows seen) s fun r t =>
      p.Escapes w (fun _ => False) seen s r t ∧ ∀ flow ∈ flows, flow ∈ r.2 := by
  induction flows generalizing s seen with
  | nil => exact returns_pure ⟨.of_widening (Widening.refl hs), fun _ h => absurd h List.not_mem_nil⟩
  | cons flow rest ih =>
    refine returns_bind (hwalk s flow seen hs hw (hflows flow List.mem_cons_self) hseen)
      fun r s₁ _ ⟨h₁, hmem⟩ => ?_
    obtain ⟨here, seen₁⟩ := r
    refine returns_bind (ih h₁.widening.leafy (h₁.widening.nodes.trans hw)
      (fun flow hflow => hflows flow (List.mem_cons_of_mem _ hflow))
      (Nat.lt_of_le_of_lt (Flows.unmet_le h₁.subset) hseen)) fun r s₂ _ ⟨h₂, hmem₂⟩ => ?_
    refine returns_pure ⟨(h₁.trans h₂).of_iff fun _ => (or_self_iff).symm, fun x hx => ?_⟩
    rcases List.mem_cons.1 hx with rfl | hx
    · exact h₂.subset hmem
    · exact hmem₂ x hx

/-- What a function returns has been met. -/
def ReturnsMet (p : Program) (w : Flows) (fid : FunctionId) (seen : List Flow) : Prop :=
  ∀ node params body fid' formals widen, p.functionNode? fid = some node →
    p.kind node = .lambda params body fid' formals widen → w.ofNode body ∈ seen

/-- A function is lowered, and what it returns is followed. -/
theorem escapeFunction_escapes {fid : FunctionId} (hs : s.forest.Leafy)
    (hw : s.flows.nodes = w.nodes)
    (hresult : ∀ node params body fid' formals widen, p.functionNode? fid = some node →
      p.kind node = .lambda params body fid' formals widen → p.Exposed w (w.ofNode body))
    (hseen : w.unmet seen < fuel) :
    Returns (p.escapeFunction walk fid seen) s fun r t =>
      p.Escapes w (· = fid) seen s r t ∧ p.ReturnsMet w fid r.2 := by
  unfold escapeFunction
  cases hnode : p.functionNode? fid with
  | none =>
    refine returns_pure ⟨.of_widening ((Widening.refl hs).of_iff fun fid' index hsome => ?_), ?_⟩
    · refine iff_false_intro ?_
      rintro rfl
      rw [allowance, hnode] at hsome
      cases hsome
    · intro node params body fid' formals widen hnode'
      rw [hnode] at hnode'
      cases hnode'
  | some node =>
    refine returns_bind (widenFunction_widens hs hnode) fun widened s₁ _ h₁ => ?_
    have hw₁ := h₁.nodes.trans hw
    have hfirst : p.Escapes w (· = fid) seen s (widened, seen) s₁ := .of_widening h₁
    split
    · rename_i params body fid' formals widen hkind
      have hbody : s₁.flows.ofNode body = w.ofNode body := by unfold Flows.ofNode; rw [hw₁]
      refine returns_bind (P := fun flow s' => flow = w.ofNode body ∧ s₁ = s')
        ⟨_, _, flowsSay_eq_some.2 ⟨hbody, rfl⟩, rfl, rfl⟩ ?_
      rintro _ _ - ⟨rfl, rfl⟩
      refine returns_bind (hwalk s₁ _ seen h₁.leafy hw₁
        (hresult node params body fid' formals widen hnode hkind) hseen)
        fun r s₂ _ ⟨h₂, hmem⟩ => returns_pure ⟨(hfirst.trans h₂).of_iff fun _ => by simp, ?_⟩
      intro node' params' body' fid'' formals' widen' hnode' hkind'
      rw [hnode] at hnode'
      cases hnode'
      rw [hkind] at hkind'
      cases hkind'
      exact hmem
    · rename_i hno
      refine returns_pure ⟨hfirst, ?_⟩
      intro node' params body fid' formals widen hnode' hkind
      rw [hnode] at hnode'
      cases hnode'
      exact absurd hkind (hno params body fid' formals widen)

/-- The functions that a flow names are lowered and followed in turn. -/
theorem escapeFunctions_escapes {fids : List FunctionId} (hs : s.forest.Leafy)
    (hw : s.flows.nodes = w.nodes)
    (hresults : ∀ fid ∈ fids, ∀ node params body fid' formals widen, p.functionNode? fid = some node →
      p.kind node = .lambda params body fid' formals widen → p.Exposed w (w.ofNode body))
    (hseen : w.unmet seen < fuel) :
    Returns (p.escapeFunctions walk fids seen) s fun r t =>
      p.Escapes w (· ∈ fids) seen s r t ∧ ∀ fid ∈ fids, p.ReturnsMet w fid r.2 := by
  induction fids generalizing s seen with
  | nil =>
    refine returns_pure ⟨.of_widening ((Widening.refl hs).of_iff fun _ _ _ => ?_), ?_⟩
    · exact iff_false_intro List.not_mem_nil
    · exact fun _ h => absurd h List.not_mem_nil
  | cons fid rest ih =>
    rw [escapeFunctions_cons]
    refine returns_bind (escapeFunction_escapes hwalk hs hw (hresults fid List.mem_cons_self) hseen)
      fun r s₁ _ ⟨h₁, hmet⟩ => ?_
    refine returns_bind (ih h₁.widening.leafy (h₁.widening.nodes.trans hw)
      (fun fid hfid => hresults fid (List.mem_cons_of_mem _ hfid))
      (Nat.lt_of_le_of_lt (Flows.unmet_le h₁.subset) hseen)) fun r' s₂ _ ⟨h₂, hmet₂⟩ => ?_
    refine returns_pure ⟨(h₁.trans h₂).of_iff fun _ => List.mem_cons, fun fid' hfid' => ?_⟩
    rcases List.mem_cons.1 hfid' with rfl | hfid'
    · intro node params body fid'' formals widen hnode hkind
      exact h₂.subset (hmet node params body fid'' formals widen hnode hkind)
    · exact hmet₂ fid' hfid'

end Parts

/-- A walk returns if its fuel lasts for the flows that it has not met, and is done with the flow. -/
theorem escapeFrom_walks (p : Program) (w : Flows) (fuel : Nat) : p.Walks w fuel (p.escapeFrom fuel) := by
  induction fuel with
  | zero => exact fun s flow seen _ _ _ hseen => absurd hseen (Nat.not_lt_zero _)
  | succ fuel ih =>
    intro s flow seen hs hw hflow hseen
    unfold escapeFrom
    split
    · rename_i hmet
      exact returns_pure ⟨.of_widening (Widening.refl hs), List.contains_iff_mem.1 hmet⟩
    rename_i hmet
    have hnew : flow ∉ seen := fun hmem => hmet (List.contains_iff_mem.2 hmem)
    -- A flow that is walked into is one that was not met before.
    have hless : flow ≠ .any → w.unmet (flow :: seen) < fuel := fun hany =>
      Nat.lt_of_lt_of_le (Flows.unmet_cons_lt (hflow.mem_parts.resolve_right hany) hnew)
        (Nat.le_of_lt_succ hseen)
    split
    · rename_i fids nil
      refine (escapeFunctions_escapes ih hs hw (fun fid hfid node params body fid' formals widen hnode
        hkind => hflow.tail (.result hfid hnode hkind)) (hless Flow.noConfusion)).imp
        fun r t _ ⟨h, hmet⟩ => ⟨(h.of_iff fun fid => ?_).enter hflow hnew ?_, h.subset List.mem_cons_self⟩
      · exact Flow.names_function
      · rintro y (_ | ⟨hfid, hnode, hkind⟩)
        exact hmet _ hfid _ _ _ _ _ _ hnode hkind
    · rename_i sites fields nil
      refine (escapeEach_escapes ih hs hw (fun field hfield => ?_) (hless Flow.noConfusion)).imp
        fun r t _ ⟨h, hmet⟩ => ⟨(h.of_iff fun fid => ?_).enter hflow hnew ?_, h.subset List.mem_cons_self⟩
      · obtain ⟨label, hlabel⟩ := Fields.mem_values.1 hfield
        exact hflow.tail (.field hlabel)
      · exact iff_false_intro (Flow.not_names (fun _ _ => Flow.noConfusion) fid)
      · rintro y (hfield | _)
        exact hmet y (Fields.mem_values.2 ⟨_, hfield⟩)
    · rename_i hnofunction hnorecord
      have hidle : p.Escapes w flow.Names (flow :: seen) s (false, flow :: seen) s :=
        .of_widening ((Widening.refl hs).of_iff fun fid _ _ =>
          iff_false_intro (Flow.not_names hnofunction fid))
      refine returns_pure ⟨hidle.enter hflow hnew fun y hy => ?_, List.mem_cons_self⟩
      cases hy with
      | field => exact absurd rfl (hnorecord _ _ _)
      | result => exact absurd rfl (hnofunction _ _)

/-! ## All functions that escape -/

/-- A walk from the result that is done with it has met all that the result exposes. -/
theorem Escapes.met_of_exposed {r : Bool × List Flow} (h : p.Escapes w named [] s r t)
    (hresult : w.ofNode rootId ∈ r.2) {flow : Flow} (hflow : p.Exposed w flow) : flow ∈ r.2 := by
  induction hflow with
  | refl => exact hresult
  | tail _ hexposes ih => exact h.closed _ ih List.not_mem_nil _ hexposes

/-- The widening of what escapes returns, and lowers the functions that escape. -/
theorem widenEscapes_widens (p : Program) (hs : s.forest.Leafy) :
    Returns p.widenEscapes s fun fell t =>
      p.Widening (fun fid _ => p.Escaping s.flows fid) s fell t := by
  refine returns_bind (P := fun flow s' => flow = s.flows.ofNode rootId ∧ s = s')
    ⟨_, _, flowsSay_eq_some.2 ⟨rfl, rfl⟩, rfl, rfl⟩ ?_
  rintro _ _ - ⟨rfl, rfl⟩
  refine returns_bind (P := fun fuel s' => fuel = s.flows.size + 1 ∧ s = s')
    ⟨_, _, flowsSay_eq_some.2 ⟨rfl, rfl⟩, rfl, rfl⟩ ?_
  rintro _ _ - ⟨rfl, rfl⟩
  refine returns_bind (escapeFrom_walks p s.flows _ s _ [] hs rfl .refl (Flows.unmet_nil_lt _))
    fun r t _ ⟨h, hresult⟩ => returns_pure (h.widening.of_iff fun fid _ _ => ⟨?_, ?_⟩)
  · rintro ⟨flow, hflow, hname⟩
    exact Or.inr ⟨flow, h.met_of_exposed hresult hflow, List.not_mem_nil, hname⟩
  · rintro (hno | ⟨flow, hmet, hnew, hname⟩)
    · exact hno.elim
    · exact ⟨flow, (h.exposed flow hmet).resolve_left hnew, hname⟩

/-- Where every wrapper wraps a variable, the widening of what escapes returns, though functions return
themselves or each other.  Then the type of every parameter of every function that escapes covers what
is said of the parameter: it was lowered by the flow of its type, and no other parameter and no node
has another flow than before.  The answer is whether any parameter fell, and if none did no node was
announced. -/
theorem widenEscapes_covers (p : Program) (hrooted : s.forest.Rooted)
    (hwraps : ∀ w inner, s.forest.kind w = .nilable inner →
      s.forest.kind (s.forest.rep inner) = .var) :
    ∃ fell t, p.widenEscapes s = some (fell, t) ∧
      (∀ fid node (index : Nat) formal, p.Escaping s.flows fid → p.functionNode? fid = some node →
        (p.formalsOfNode node)[index]? = some formal →
          ∃ widest, t.forest.widest formal = some widest ∧
            (t.flows.ofFormals fid)[index]? =
              (s.flows.ofFormals fid)[index]?.map (·.meet widest) ∧
            ∀ flow, (t.flows.ofFormals fid)[index]? = some flow → widest.covers flow = true) ∧
      (∀ fid (index : Nat), fid ≠ FunctionId.unknown →
        (p.Escaping s.flows fid → ∀ node, p.functionNode? fid = some node →
          (p.formalsOfNode node)[index]? = none) →
        (t.flows.ofFormals fid)[index]? = (s.flows.ofFormals fid)[index]?) ∧
      t.flows.nodes = s.flows.nodes ∧
      (fell = true ↔ t.flows.formals ≠ s.flows.formals) ∧
      (fell = false → t.work = s.work) := by
  obtain ⟨fell, t, hrun, h⟩ := widenEscapes_widens p ⟨hrooted, hwraps⟩
  refine ⟨fell, t, hrun, ?_, ?_, h.nodes, ?_, h.idle⟩
  · intro fid node index formal hescaping hnode hformal
    obtain ⟨widest, hwidest⟩ := Forest.exists_widest h.leafy.ends formal
    have hallow : p.allowance s.forest fid index = some widest := by
      rw [allowance, hnode, Option.bind_some, hformal, Option.bind_some, ← h.widest, hwidest]
    have hlowered := h.lowered fid index widest hescaping hallow
    refine ⟨widest, hwidest, hlowered, fun flow hflow => ?_⟩
    rw [hlowered, Option.map_eq_some_iff] at hflow
    obtain ⟨old, -, rfl⟩ := hflow
    exact inf_le_right (a := old) (b := widest)
  · intro fid index hfid hnone
    refine h.kept fid index hfid fun hescaping => ?_
    cases hnode : p.functionNode? fid with
    | none => rw [allowance, hnode]; rfl
    | some node => rw [allowance, hnode, Option.bind_some, hnone hescaping node hnode]; rfl
  · rw [h.fell_iff]
    refine not_congr ⟨fun heq => by rw [heq], fun heq => ?_⟩
    have hnodes := h.nodes
    generalize t.flows = v, s.flows = w at heq hnodes
    cases v
    cases w
    rw [Flows.mk.injEq]
    exact ⟨hnodes, heq⟩

/-- `f = { x -> @{g = { y -> f }} }; f`: when the first sweep ends no call of either function was observed.
Each function gives the other away, so the parameters of both then fall to any value. -/
theorem widenEscapes_covers_loop : ∃ p s₀ course s t,
    Program.build (.letIn "f" (.lambda ["x"]
      (.record [("g", .lambda ["y"] (.ident "f") true)]) true) (.ident "f")) {} = .ok (p, s₀) ∧
      p.drive s₀ = some (course, s) ∧ p.widenEscapes s = some (true, t) ∧
      s.flows.formals = #[[.any], [.any]] ∧
      t.flows.formals = #[[.scalar true], [.scalar true]] ∧ t.flows.nodes = s.flows.nodes := by
  have hrun : ((Program.build (.letIn "f" (.lambda ["x"]
      (.record [("g", .lambda ["y"] (.ident "f") true)]) true) (.ident "f")) {}).toOption.bind
      fun r => (r.1.drive r.2).bind fun x => (r.1.widenEscapes x.2).map fun y =>
        (x.2.flows.formals, y.2.flows.formals,
          (List.range x.2.forest.size).all fun w => !(x.2.forest.kind w).isNilable)) =
      some (#[[.any], [.any]], #[[.scalar true], [.scalar true]], true) := by
    decide +kernel
  obtain ⟨r, hbuild, hrun⟩ := Option.bind_eq_some_iff.1 hrun
  obtain ⟨⟨course, s⟩, hdrive, hrun⟩ := Option.bind_eq_some_iff.1 hrun
  obtain ⟨⟨fell, t⟩, hwiden, hrun⟩ := Option.map_eq_some_iff.1 hrun
  simp only [Prod.mk.injEq, List.all_eq_true, List.mem_range, Bool.not_eq_true'] at hrun
  obtain ⟨hbefore, hafter, hplain⟩ := hrun
  obtain ⟨⟨p, s₀⟩, hok, rfl⟩ := ok_of_map (f := id) (by rw [Option.map_id]; exact hbuild)
  have hterms := termed_of_leads (Termed.mk (termed_of_build hok).1 (termed_of_build hok).2)
    ((drives_leads p).drive s₀ course s hdrive)
  obtain ⟨fell', t', hrun, -, -, hnodes, hfell, -⟩ :=
    widenEscapes_covers p hterms.sound.rooted fun w inner hw => by
      have hnot := hplain w (Forest.lt_size_of_kind (by rw [hw]; exact Kind.noConfusion))
      rw [hw] at hnot
      cases hnot
  cases hwiden.symm.trans hrun
  have htrue : fell = true := hfell.2 (by rw [hbefore, hafter]; decide)
  subst htrue
  exact ⟨p, s₀, course, s, t, hok, hdrive, hwiden, hbefore, hafter, hnodes⟩

end Program

end TypeFlow
