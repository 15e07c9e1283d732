import TypeFlow.Proofs.NestedRecords
import TypeFlow.Proofs.Steps

/-!
# Plain types

In the forest of a program that is being prepared, no base type is a record with a known layout.
Where the program has no nil, there is no wrapper either, and no type is marked as possibly nil.
Tidying keeps it so.  So a property of flows that meets keep, and that the widest flows of plain types
have, is kept by passing arguments and by widening escaping functions.

Main definitions:

- `Flow.Plain`, `Kind.Plain`, `Forest.Plain`: types as a program that is being prepared has them.
- `Flow.Tame`: a property that meets keep and that widest flows have.
- `State.Plain`: the types are plain and all flows have a property.

Main results:

- `Forest.nilFree_widest`: the widest flow of a plain type without nil has no nil in it.
- `State.StaysPlain`: a relation that steps keep.
-/

namespace TypeFlow

private theorem Flow.NilFree.widen {a : Flow} (h : a.NilFree) : a.widen.NilFree := by
  cases h with
  | any => exact .any
  | int i => exact .int _
  | float x => exact .float _
  | text c => exact .text none
  | function hs => exact .function hs
  | unlaid s => exact .unlaid s
  | record hf => exact .record hf
  | scalar n => exact .scalar n

/-- The flow is no record with a known layout and, where there is no nil, has none in it. -/
structure Flow.Plain (N : Prop) (a : Flow) : Prop where
  flat : a.nesting = 0
  nilFree : N → a.NilFree

namespace Flow.Plain

variable {N : Prop}

/-- Integers are plain. -/
theorem int (i : IntFlow) : (Flow.int i).Plain N := ⟨rfl, fun _ => .int i⟩

/-- So are floats. -/
theorem float (x : FloatFlow) : (Flow.float x).Plain N := ⟨rfl, fun _ => .float x⟩

/-- So are texts without nil. -/
theorem text (c : Option String) : (Flow.text c false).Plain N := ⟨rfl, fun _ => .text c⟩

/-- And the greatest flow is. -/
theorem any : Flow.any.Plain N := ⟨rfl, fun _ => .any⟩

/-- What is plain is so when it is widened. -/
theorem widen {a : Flow} (h : a.Plain N) : a.widen.Plain N :=
  ⟨by rw [nesting_widen, h.flat], fun hN => (h.nilFree hN).widen⟩

end Flow.Plain

/-- A base type is plain.  Where there is no nil, the type is neither nil nor marked so. -/
def Kind.Plain (N : Prop) : Kind → Prop
  | .base flow => flow.Plain N
  | .nilable _ => ¬N
  | .function _ _ _ nil | .record _ _ _ nil => N → nil = false
  | .var | .error _ | .link _ => True

namespace Forest

variable {N : Prop}

/-- All types of the forest are plain. -/
def Plain (N : Prop) (f : Forest) : Prop := ∀ t, (f.kind t).Plain N

/-- In a plain forest without nil there are no wrappers. -/
theorem Plain.unwrapped {f : Forest} (h : f.Plain N) (hN : N) : f.Unwrapped := by
  intro t
  have ht := h t
  cases hk : f.kind t with
  | nilable inner =>
    rw [hk] at ht
    exact absurd hN ht
  | _ => rfl

/-- Tidying leaves the types of representatives what they are. -/
theorem kind_rep_of_tidied {f g : Forest} (hrooted : f.Rooted) (hu : f.Unwrapped)
    (h : Tidied f g) (t : TermId) : g.kind (f.rep t) = f.kind (f.rep t) :=
  ((h hrooted).2.unwrapped hu).2 _ (not_isLink_rep hrooted t)

private theorem Plain.flat {f : Forest} (h : f.Plain N) : f.Bases fun flow => flow.nesting = 0 := by
  intro t flow hk
  have ht := h t
  rw [hk] at ht
  exact ht.flat

/-- A plain forest is so when it is tidied up. -/
theorem Plain.of_tidied {f g : Forest} (hf : f.Plain N) (hrooted : f.Rooted) (h : Tidied f g) :
    g.Plain N := by
  intro t
  by_cases hN : N
  · cases hk : (g.kind t).isLink with
    | true =>
      obtain ⟨u, hu⟩ := Kind.isLink_eq_true.1 hk
      rw [hu]
      trivial
    | false =>
      have hrep : f.rep t = t := by
        rw [← (h hrooted).1.rep, rep_of_not_link hk]
      have hkind := kind_rep_of_tidied hrooted (hf.unwrapped hN) h t
      rw [hrep] at hkind
      rw [hkind]
      exact hf t
  · -- Only the base types matter where nil may be about.
    cases hk : g.kind t with
    | base flow =>
      have hbases := (h hrooted).2.bases _ (fun a ha => by rwa [Flow.nesting_orNil]) hf.flat
      exact ⟨hbases t flow hk, fun hN' => absurd hN' hN⟩
    | nilable inner => exact hN
    | function args ret fids nil => exact fun hN' => absurd hN' hN
    | record fields sites isOpen nil => exact fun hN' => absurd hN' hN
    | _ => trivial

/-- A function type stands for some function. -/
theorem isEmpty_callees (input : Bool) (fids : IdSet) : (callees input fids).isEmpty = false := by
  unfold callees
  split
  · exact IdSet.isEmpty_eq_false.2 ⟨_, IdSet.mem_insert.2 (Or.inl rfl)⟩
  · rename_i hfids
    rw [Bool.or_eq_true, not_or] at hfids
    exact Bool.eq_false_iff.2 hfids.1

/-- The widest flow of a plain type without nil has no nil in it. -/
theorem nilFree_widestFrom {f : Forest} (hf : f.Plain True) {fuel : Nat} {t : TermId}
    {above : List IdSet} {flow : Flow} (h : f.widestFrom fuel t above = some flow) :
    flow.NilFree := by
  induction fuel generalizing t above flow with
  | zero => cases h
  | succ fuel ih =>
    have hplain := hf (f.rep t)
    cases hk : f.kind (f.rep t) with
    | base own =>
      rw [widestFrom_base fuel above hk] at h
      rw [hk] at hplain
      cases h
      exact hplain.nilFree trivial
    | nilable inner =>
      rw [hk] at hplain
      exact absurd trivial hplain
    | function args ret fids nil =>
      rw [widestFrom_function fuel above hk] at h
      rw [hk] at hplain
      cases h
      cases hplain trivial
      exact .function (isEmpty_callees _ fids)
    | record fields sites isOpen nil =>
      rw [widestFrom_record fuel above hk] at h
      rw [hk] at hplain
      cases hplain trivial
      split at h
      · cases h
        exact .unlaid _
      · obtain ⟨flows, hflows, rfl⟩ := Option.map_eq_some_iff.1 h
        apply Flow.NilFree.record
        intro k v hv
        obtain ⟨child, -, hchild⟩ := Fields.find?_of_mapM? hflows hv
        exact ih hchild
    | var =>
      rw [widestFrom_var fuel above hk] at h
      cases h
      exact .scalar _
    | error cause =>
      rw [widestFrom_error fuel above hk] at h
      cases h
      exact .scalar _
    | link target =>
      rw [widestFrom_link fuel above hk] at h
      cases h
      exact .scalar _

private theorem nilFree_widest {f : Forest} (hf : f.Plain True) {t : TermId} {flow : Flow}
    (h : f.widest t = some flow) : flow.NilFree :=
  nilFree_widestFrom hf h

/-- The widest flow of a plain type nests no deeper than allowed. -/
theorem nesting_widest {f : Forest} (hf : f.Plain N) {t : TermId} {flow : Flow}
    (h : f.widest t = some flow) : flow.nesting ≤ Flow.maxNesting :=
  nesting_widest_le (P := fun _ => True) (fun _ _ _ _ _ => trivial)
    (fun c own _ hk => (hf.flat c own hk).le) trivial h

end Forest

/-! ## Properties of flows -/

/-- Meets keep the property, and the widest flows of plain types have it. -/
class Flow.Tame (N : Prop) (P : Flow → Prop) : Prop where
  meet : ∀ {a b : Flow}, P a → P b → P (a.meet b)
  widest : ∀ {f : Forest} {t : TermId} {flow : Flow},
    f.Plain N → f.widest t = some flow → P flow

instance : Flow.Tame True Flow.NilFree where
  meet := Flow.NilFree.meet
  widest hf h := Forest.nilFree_widest hf h

instance (N : Prop) (sites : SiteId → Prop) : Flow.Tame N (Flow.Bounded sites) where
  meet := Flow.Bounded.meet
  widest hf h := .shallow (Forest.nesting_widest hf h)

namespace Flows

/-- The flows of all nodes and parameters have the property. -/
structure All (P : Flow → Prop) (w : Flows) : Prop where
  node : ∀ id, P (w.ofNode id)
  formal : ∀ fid index, P (w.formal fid index)

/-- No flow of a node or a parameter has nil in it. -/
abbrev NilFree (w : Flows) : Prop := w.All Flow.NilFree

variable {P : Flow → Prop}

/-- Flows all of a kind are so when one of the kind is set. -/
theorem All.setNode {w : Flows} (h : w.All P) (id : NodeId) {flow : Flow} (hflow : P flow) :
    (w.setNode id flow).All P where
  node n := by
    rw [ofNode_setNode]
    split
    · exact hflow
    · exact h.node n
  formal := h.formal

private theorem All.setFormal {w : Flows} (h : w.All P) {fid : FunctionId} {index : Nat}
    {old flow : Flow} (hold : (w.ofFormals fid)[index]? = some old) (hflow : P flow) :
    (w.setFormal fid index flow).All P where
  node := h.node
  formal fid' index' := by
    by_cases e : fid - 1 = fid' - 1 ∧ index = index'
    · obtain ⟨he, rfl⟩ := e
      rw [← formal_eq_of_position he, formal_setFormal_self hold]
      exact hflow
    · rw [formal_setFormal_of_ne e]
      exact h.formal fid' index'

end Flows

/-! ## Plain states -/

/-- The links lead to classes, the types are plain, and all flows have the property. -/
structure State.Plain (N : Prop) (P : Flow → Prop) (s : State) : Prop where
  rooted : s.forest.Rooted
  types : s.forest.Plain N
  flows : s.flows.All P

/-- A plain state stayed plain. -/
def State.StaysPlain (N : Prop) (P : Flow → Prop) (s t : State) : Prop := s.Plain N P → t.Plain N P

variable {N : Prop} {P : Flow → Prop}

instance : IsPreorder State (State.StaysPlain N P) where
  refl _ := id
  trans _ _ _ hst htu := htu ∘ hst

private theorem State.Quiet.plain {s t : State} (h : State.Quiet s t) : State.StaysPlain N P s t := by
  rintro ⟨hrooted, htypes, hflows⟩
  constructor
  · exact (h.forest hrooted).1.rooted
  · exact htypes.of_tidied hrooted h.forest
  · rw [h.flows]
    exact hflows

namespace Program

variable [Flow.Tame N P]

private theorem plain_meetFormal {fid : FunctionId} {index : Nat} {flow : Flow} {s t : State} {fell : Bool}
    (hs : s.Plain N P) (hflow : P flow) (h : meetFormal fid index flow s = some (fell, t)) :
    t.Plain N P := by
  rcases meetFormal_eq_some h with ⟨-, rfl, -⟩ | ⟨old, -, hold, -, rfl⟩
  · exact hs
  · have hbefore : P old := by
      have := hs.flows.formal fid index
      rwa [Flows.formal, hold] at this
    exact ⟨hs.rooted, hs.types, hs.flows.setFormal hold (Flow.Tame.meet N hbefore hflow)⟩

private theorem plain_passArgument (p : Program) (fid : FunctionId) (node : NodeId) (index : Nat)
    (arg : NodeId) : Keeps (State.StaysPlain N P) (p.passArgument fid node index arg) := by
  intro s u t h hs
  obtain ⟨fell, s₁, hmeet, h₁⟩ := bind_eq_some.1 (passArgument_eq_some.1 h)
  have hs₁ := plain_meetFormal hs (hs.flows.node arg) hmeet
  cases fell with
  | true => exact (quiet_announceFormal p node index s₁ u t h₁).plain hs₁
  | false =>
    obtain ⟨-, rfl⟩ := pure_eq_some.1 h₁
    exact hs₁

private theorem plain_widenFormal (p : Program) (fid : FunctionId) (node : NodeId) (index : Nat)
    (formal : TermId) : Keeps (State.StaysPlain N P) (p.widenFormal fid node index formal) := by
  intro s fell t h hs
  obtain ⟨widest, s₁, hwidest, h₁⟩ := bind_eq_some.1 h
  obtain ⟨forest, hforest, rfl⟩ := onTerms_eq_some.1 hwidest
  obtain ⟨hw, rfl⟩ := widestOf_eq_some.1 hforest
  obtain ⟨fell', s₂, hmeet, h₂⟩ := bind_eq_some.1 h₁
  have hs₂ : s₂.Plain N P :=
    plain_meetFormal hs (Flow.Tame.widest (P := P) hs.types hw) hmeet
  cases fell' with
  | true =>
    have hquiet : Keeps State.Quiet (do
        wakeTerm formal
        p.announceWidened node
        return true) := by
      refine keeps_bind (quiet_wakeTerm formal) fun _ => ?_
      exact keeps_bind (quiet_announceWidened p node) fun _ => keeps_pure _
    exact (hquiet s₂ fell t h₂).plain hs₂
  | false =>
    obtain ⟨-, rfl⟩ := pure_eq_some.1 h₂
    exact hs₂

instance (p : Program) : StepStable p (State.StaysPlain N P) where
  quiet := State.Quiet.plain
  pass _ := plain_passArgument p _ _
  widen _ := keeps_widenFunction (fun _ _ => State.Quiet.plain) (plain_widenFormal p _ _)

end Program

end TypeFlow
