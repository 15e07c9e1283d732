import TypeFlow.Proofs.LookUps
import TypeFlow.Proofs.NestedRecords
import TypeFlow.Proofs.Reachability

/-!
# Flows of unfolded types

Cyclic types are unfolded to trees without end.  Terms that unfold to one tree have one flow, however
the forests that hold them share children and close cycles.  That two terms unfold to one tree is told
by a bisimulation: a relation of classes that look the same, and whose children are related again.

The flow of a type comes to an end where wrappers do.  Between two records on a path no wrapper is
opened twice, and no more than `Flow.maxNesting` records are kept.

Main definitions:

- `Kind.Rel`: kinds that look the same, with related children.
- `Forest.IsBisimulation`, `Forest.Bisimilar`: classes that unfold to one tree.

Main results:

- `Forest.widestFrom_eq_of_rel`: one step down from two terms that look the same.
- `Forest.IsBisimulation.widestFrom_eq`: the flows of related terms under the same records.
- `Forest.exists_widest`: every type has a flow where wrappers come to an end.
- `Forest.widest_of_bisimilar`: terms that unfold to one tree have one flow, and what bounds it.
-/

namespace TypeFlow

/-- The kinds look the same up to the children, which are related slot by slot. -/
inductive Kind.Rel (r : TermId → TermId → Prop) : Kind → Kind → Prop
  | var : Kind.Rel r .var .var
  | base {flow : Flow} : Kind.Rel r (.base flow) (.base flow)
  | nilable {x y : TermId} (h : r x y) : Kind.Rel r (.nilable x) (.nilable y)
  | function {args args' : List TermId} {ret ret' : TermId} {fids : IdSet} {nil : Bool}
    (hargs : List.Forall₂ r args args') (hret : r ret ret') :
    Kind.Rel r (.function args ret fids nil) (.function args' ret' fids nil)
  | record {fields fields' : Fields TermId none} {sites : IdSet} {isOpen nil : Bool}
    (hfields : ∀ k, Option.Rel r (fields.find? k) (fields'.find? k)) :
    Kind.Rel r (.record fields sites isOpen nil) (.record fields' sites isOpen nil)
  | error {cause cause' : TypeError} : Kind.Rel r (.error cause) (.error cause')
  | link {x y : TermId} : Kind.Rel r (.link x) (.link y)

/-- A kind is related to itself if its children are. -/
theorem Kind.Rel.refl {r : TermId → TermId → Prop} (hr : ∀ x, r x x) (k : Kind) : k.Rel r k := by
  cases k with
  | var => exact .var
  | base flow => exact .base
  | nilable inner => exact .nilable (hr inner)
  | function args ret fids nil => exact .function (List.forall₂_same.2 fun x _ => hr x) (hr ret)
  | record fields sites isOpen nil =>
    refine .record fun k => ?_
    cases fields.find? k with
    | none => exact .none
    | some x => exact .some (hr x)
  | error cause => exact .error
  | link target => exact .link

namespace Forest

/-- Related classes look the same, callers pass values into both or into neither, and the classes of
their children are related. -/
structure IsBisimulation (f g : Forest) (R : TermId → TermId → Prop) : Prop where
  kind {a b : TermId} (h : R a b) : (f.kind a).Rel (fun x y => R (f.rep x) (g.rep y)) (g.kind b)
  isInput {a b : TermId} (h : R a b) : f.isInput a = g.isInput b

/-- The classes unfold to one tree. -/
def Bisimilar (f g : Forest) (a b : TermId) : Prop := ∃ R, f.IsBisimulation g R ∧ R a b

private theorem isBisimulation_eq (f : Forest) : f.IsBisimulation f Eq where
  kind h := h ▸ Kind.Rel.refl (r := fun x y => f.rep x = f.rep y) (fun _ => rfl) _
  isInput h := h ▸ rfl

/-! ## One flow -/

/-- Terms that look the same have the same flow if their children have. -/
theorem widestFrom_eq_of_rel {f g : Forest} {r : TermId → TermId → Prop} {n m : Nat} {t u : TermId}
    {above : List IdSet} (hkind : (f.kind (f.rep t)).Rel r (g.kind (g.rep u)))
    (hinput : f.isInput (f.rep t) = g.isInput (g.rep u))
    (hchild : ∀ x y above a b, r x y → f.widestFrom n x above = some a →
      g.widestFrom m y above = some b → a = b) {a b : Flow}
    (ha : f.widestFrom (n + 1) t above = some a) (hb : g.widestFrom (m + 1) u above = some b) :
    a = b := by
  generalize hk : f.kind (f.rep t) = k, hl : g.kind (g.rep u) = l at hkind
  cases hkind with
  | var =>
    rw [widestFrom_var n above hk] at ha
    rw [widestFrom_var m above hl] at hb
    exact Option.some.inj (ha.symm.trans hb)
  | base =>
    rw [widestFrom_base n above hk] at ha
    rw [widestFrom_base m above hl] at hb
    exact Option.some.inj (ha.symm.trans hb)
  | error =>
    rw [widestFrom_error n above hk] at ha
    rw [widestFrom_error m above hl] at hb
    exact Option.some.inj (ha.symm.trans hb)
  | link =>
    rw [widestFrom_link n above hk] at ha
    rw [widestFrom_link m above hl] at hb
    exact Option.some.inj (ha.symm.trans hb)
  | function =>
    rw [widestFrom_function n above hk] at ha
    rw [widestFrom_function m above hl, ← hinput] at hb
    exact Option.some.inj (ha.symm.trans hb)
  | nilable hinner =>
    rw [widestFrom_nilable n above hk] at ha
    rw [widestFrom_nilable m above hl] at hb
    obtain ⟨x, hx, rfl⟩ := Option.map_eq_some_iff.1 ha
    obtain ⟨y, hy, rfl⟩ := Option.map_eq_some_iff.1 hb
    rw [hchild _ _ _ _ _ hinner hx hy]
  | @record fields fields' sites isOpen nil hfields =>
    rw [widestFrom_record n above hk] at ha
    rw [widestFrom_record m above hl] at hb
    -- Both records are kept or both are cut, since the same records stand above them.
    by_cases hcut : 2 ≤ above.count sites ∨ Flow.maxNesting ≤ above.length
    · rw [if_pos hcut] at ha hb
      exact Option.some.inj (ha.symm.trans hb)
    · rw [if_neg hcut] at ha hb
      obtain ⟨flows, hflows, rfl⟩ := Option.map_eq_some_iff.1 ha
      obtain ⟨flows', hflows', rfl⟩ := Option.map_eq_some_iff.1 hb
      rw [Fields.mapM?_eq_of_rel hfields hflows hflows' fun x y => hchild x y _]

/-- Under the same records related terms have the same flow, with whatever fuel it is reached. -/
theorem IsBisimulation.widestFrom_eq {f g : Forest} {R : TermId → TermId → Prop}
    (hR : f.IsBisimulation g R) {n m : Nat} {t u : TermId} {above : List IdSet} {a b : Flow}
    (h : R (f.rep t) (g.rep u)) (ha : f.widestFrom n t above = some a)
    (hb : g.widestFrom m u above = some b) : a = b := by
  induction n generalizing m t u above a b with
  | zero => cases ha
  | succ n ih =>
    cases m with
    | zero => cases hb
    | succ m =>
      exact widestFrom_eq_of_rel (hR.kind h) (hR.isInput h)
        (fun x y above a b hxy hx hy => ih hxy hx hy) ha hb

/-! ## Some flow -/

/-- The walk down from a term ends if its fuel lasts for all wrappers, each opened once, between the
records that may still be kept. -/
theorem exists_widestFrom {f : Forest} (hf : ∀ x, f.Ends x) {fuel : Nat} (t : TermId)
    (above : List IdSet) (opened : Finset TermId)
    (hopened : ∀ w ∈ opened, w < f.size ∧ ¬f.Within t w)
    (hfuel : (Flow.maxNesting - above.length) * (f.size + 1) + f.size < fuel + opened.card) :
    ∃ flow, f.widestFrom fuel t above = some flow := by
  induction fuel generalizing t above opened with
  | zero =>
    have hle := card_le_size fun w hw => (hopened w hw).1
    omega
  | succ fuel ih =>
    cases hk : f.kind (f.rep t) with
    | var => exact ⟨_, widestFrom_var fuel above hk⟩
    | base flow => exact ⟨_, widestFrom_base fuel above hk⟩
    | function args ret fids nil => exact ⟨_, widestFrom_function fuel above hk⟩
    | error cause => exact ⟨_, widestFrom_error fuel above hk⟩
    | link target => exact ⟨_, widestFrom_link fuel above hk⟩
    | nilable inner =>
      have hnew : f.rep t ∉ opened := fun hmem => (hopened _ hmem).2 (.here t)
      have hopened' : ∀ w ∈ insert (f.rep t) opened, w < f.size ∧ ¬f.Within inner w := by
        intro w hw
        rcases Finset.mem_insert.1 hw with rfl | hw
        · exact ⟨lt_size_of_kind (by rw [hk]; exact Kind.noConfusion),
            (hf t).not_within (.here t) hk⟩
        · exact ⟨(hopened w hw).1, fun hin => (hopened w hw).2 (.inner hk hin)⟩
      obtain ⟨flow, hflow⟩ := ih inner above _ hopened' (by
        rw [Finset.card_insert_of_notMem hnew]
        omega)
      exact ⟨flow.orNil, by rw [widestFrom_nilable fuel above hk, hflow]; rfl⟩
    | record fields sites isOpen nil =>
      rw [widestFrom_record fuel above hk]
      split
      · exact ⟨_, rfl⟩
      · rename_i hcut
        have hlength := Nat.lt_of_not_le (not_or.1 hcut).2
        have hle := card_le_size fun w hw => (hopened w hw).1
        have hless : Flow.maxNesting - above.length =
            Flow.maxNesting - (sites :: above).length + 1 := by
          rw [List.length_cons]
          omega
        rw [hless, Nat.succ_mul] at hfuel
        have hfields : ∀ k child, fields.find? k = some child →
            ∃ flow, f.widestFrom fuel child (sites :: above) = some flow := fun k child _ =>
          ih child (sites :: above) ∅ (by simp) (by
            rw [Finset.card_empty]
            omega)
        obtain ⟨flows, hflows⟩ := Fields.exists_mapM? hfields
        exact ⟨_, by rw [hflows]; rfl⟩

/-- Every type has a flow where wrappers come to an end. -/
theorem exists_widest {f : Forest} (hf : ∀ x, f.Ends x) (t : TermId) :
    ∃ flow, f.widest t = some flow := by
  refine exists_widestFrom hf t [] ∅ (by simp) ?_
  rw [Finset.card_empty, List.length_nil, Nat.sub_zero, Nat.succ_mul]
  omega

/-! ## Equal trees, equal flows -/

/-- Terms that unfold to one tree have one flow, in one forest or in two, where wrappers come to an end.
At most `Flow.maxNesting` records with a known layout nest in each other, and at most two of the same
sites, on top of those in the flow of a base type. -/
theorem widest_of_bisimilar {f g : Forest} (hf : ∀ x, f.Ends x) (hg : ∀ x, g.Ends x) {t u : TermId}
    (h : f.Bisimilar g (f.rep t) (g.rep u)) :
    ∃ flow, f.widest t = some flow ∧ g.widest u = some flow ∧
      (∀ n, (∀ c own, f.Reaches (f.rep t) c → f.kind c = .base own → own.nesting ≤ n) →
        flow.nesting ≤ Flow.maxNesting + n) ∧
      ∀ sites n, (∀ c own, f.Reaches (f.rep t) c → f.kind c = .base own →
          own.nestingBy (· == sites) ≤ n) →
        flow.nestingBy (· == sites) ≤ 2 + n := by
  obtain ⟨R, hR, hroots⟩ := h
  obtain ⟨flow, hflow⟩ := exists_widest hf t
  obtain ⟨flow', hflow'⟩ := exists_widest hg u
  obtain rfl := hR.widestFrom_eq hroots hflow hflow'
  have hnext : ∀ c slot x, f.Reaches (f.rep t) c → (f.kind c).child? slot = some x →
      f.Reaches (f.rep t) (f.rep x) := fun c slot x hc hx => hc.tail ⟨slot, x, hx, rfl⟩
  exact ⟨flow, hflow, hflow', fun n hbase => nesting_widest_le hnext hbase .refl hflow,
    fun sites n hbase => nestingBy_widest_le sites hnext hbase .refl hflow⟩

/-- The records in the flow of a base type are not cut: nine of one site stay nine. -/
theorem widest_of_deep_base : ¬∀ (f g : Forest) (t u : TermId), (∀ x, f.Ends x) → (∀ x, g.Ends x) →
    f.Bisimilar g (f.rep t) (g.rep u) →
      ∃ flow, f.widest t = some flow ∧ g.widest u = some flow ∧ flow.nesting ≤ Flow.maxNesting ∧
        ∀ sites, flow.nestingBy (· == sites) ≤ 2 := by
  intro h
  set own : Flow := (fun a => .recordAt 1 (.ofList [("n", a)]))^[9] .int64 with hown
  set f : Forest := ⟨#[⟨.base own, .empty, false⟩], 0⟩ with hf
  have hends : ∀ x, f.Ends x := ends_of_earlier fun w hw hk => by
    obtain rfl : w = 0 := Nat.lt_one_iff.1 hw
    cases hk
  obtain ⟨flow, hflow, -, hnesting, -⟩ := h f f 0 0 hends hends ⟨Eq, f.isBisimulation_eq, rfl⟩
  have hbase : f.widest 0 = some own := widestFrom_base 17 [] rfl
  rw [hbase] at hflow
  cases hflow
  revert hnesting
  rw [hown]
  decide +kernel

/-- A list whose one node is its own rest, and one whose two nodes are each the rest of the other: both
have the flow with two nodes in it, and a third one of unknown layout. -/
theorem widest_of_list_cycles : ∃ (f g : Forest) (flow : Flow),
    f = ⟨#[⟨.base .int64, .empty, false⟩,
      ⟨.record (.ofList [("n", 1), ("v", 0)]) (.singleton 5) false false, .empty, false⟩], 0⟩ ∧
    g = ⟨#[⟨.base .int64, .empty, false⟩,
      ⟨.record (.ofList [("n", 2), ("v", 0)]) (.singleton 5) false false, .empty, false⟩,
      ⟨.record (.ofList [("n", 1), ("v", 0)]) (.singleton 5) false false, .empty, false⟩], 0⟩ ∧
    flow = .recordAt 5 (.ofList [("v", .int64),
      ("n", .recordAt 5 (.ofList [("v", .int64), ("n", .record (.singleton 5) none false)]))]) ∧
    f.widest 1 = some flow ∧ g.widest 1 = some flow ∧ flow.nesting ≤ Flow.maxNesting ∧
      flow.nestingBy (· == .singleton 5) ≤ 2 := by
  refine ⟨_, _, _, rfl, rfl, rfl, ?_⟩
  set f : Forest := ⟨#[⟨.base .int64, .empty, false⟩,
    ⟨.record (.ofList [("n", 1), ("v", 0)]) (.singleton 5) false false, .empty, false⟩], 0⟩ with hf
  set g : Forest := ⟨#[⟨.base .int64, .empty, false⟩,
    ⟨.record (.ofList [("n", 2), ("v", 0)]) (.singleton 5) false false, .empty, false⟩,
    ⟨.record (.ofList [("n", 1), ("v", 0)]) (.singleton 5) false false, .empty, false⟩], 0⟩ with hg
  have hfields : ∀ (n k), (Fields.ofList [("n", n), ("v", 0)]).find? k =
      if "v" = k then some 0 else if "n" = k then some n else none := by
    simp [Fields.ofList, Fields.find?_insert]
  -- Each node of the longer list is the one node of the other.
  have hR : f.IsBisimulation g fun a b => b < 3 ∧ a = min b 1 := by
    have hnode : ∀ y, y = 1 ∨ y = 2 → ((f.kind 1).Rel
        (fun a b => g.rep b < 3 ∧ f.rep a = min (g.rep b) 1)
        (.record (.ofList [("n", y), ("v", 0)]) (.singleton 5) false false)) := by
      intro y hy
      refine .record fun k => ?_
      rw [hfields, hfields]
      split
      · exact .some (by decide)
      · split
        · rcases hy with rfl | rfl <;> exact .some (by decide)
        · exact .none
    refine ⟨?_, ?_⟩
    · rintro a b ⟨hb, rfl⟩
      obtain _ | _ | _ | b := b
      · exact .base
      · exact hnode 2 (Or.inr rfl)
      · exact hnode 1 (Or.inl rfl)
      · exact absurd hb (Nat.not_lt.2 (Nat.le_add_left 3 b))
    · rintro a b ⟨hb, rfl⟩
      obtain _ | _ | _ | b := b
      · rfl
      · rfl
      · rfl
      · exact absurd hb (Nat.not_lt.2 (Nat.le_add_left 3 b))
  have hbase : ∀ c own, f.kind c = .base own → own = .int64 := by
    intro c own hc
    have hlt : c < 2 := lt_size_of_kind (f := f) (by rw [hc]; exact Kind.noConfusion)
    obtain _ | _ | c := c
    · cases hc
      rfl
    · cases hc
    · exact absurd hlt (Nat.not_lt.2 (Nat.le_add_left 2 c))
  obtain ⟨flow, hflow, hflow', hnesting, hsites⟩ := widest_of_bisimilar (f := f) (g := g)
    (ends_of_earlier (by decide)) (ends_of_earlier (by decide)) (t := 1) (u := 1)
    ⟨_, hR, by decide⟩
  have hlist : f.widest 1 = some (.recordAt 5 (.ofList [("v", .int64),
      ("n", .recordAt 5 (.ofList [("v", .int64), ("n", .record (.singleton 5) none false)]))])) := by
    decide +kernel
  rw [hlist] at hflow
  cases hflow
  exact ⟨hlist, hflow', hnesting 0 fun c own _ hc => (congrArg _ (hbase c own hc)).le,
    hsites _ 0 fun c own _ hc => (congrArg _ (hbase c own hc)).le⟩

end Forest

end TypeFlow
