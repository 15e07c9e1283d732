import TypeFlow.Analysis.Listing
import TypeFlow.Proofs.LiveBranches
import TypeFlow.Proofs.RepeatedInstantiations

/-!
# Base types changed in place

The type step of `notNil` makes its argument the result or nil.  Where both are base types it does not
unify them: it meets their flows in place and announces the parent of the node, and nobody else who is
registered with the two classes.  Everywhere else it unifies, and whoever is registered with a class
that changes is announced.

Main definitions:

- `Forest.IsBase`: the flow of a base type, with or without wrappers around it.
- `Forest.Rebased`: a class has another flow than before.

Main results:

- `Forest.Upkeep.isBase_iff`: looking classes up keeps the flows of base types.
- `Program.notNilStep_cases`: what the type step of `notNil` does.
- `Program.notNil_announces`: who waits after it.
- `Program.notNil_forgets`: a registered node that does not.
-/

namespace TypeFlow

/-- A kind without children is what it was while children are replaced. -/
theorem Kind.Refreshed.eq_of_childless {k k' : Kind} {r : TermId → TermId} (h : k.Refreshed r k')
    (hk : k.children = []) : k' = k := by
  induction h with
  | refl => rfl
  | tail _ hstep ih =>
    obtain ⟨slot, x, hx, rfl⟩ := hstep
    subst ih
    have hmem := Kind.mem_children_of_child? hx
    rw [hk] at hmem
    exact absurd hmem List.not_mem_nil

namespace Forest

variable {f g : Forest} {t c : TermId} {a b : Flow}

/-! ## Base types -/

/-- The type is a base type, or one in wrappers, with the flow that a look-up finds. -/
inductive IsBase (f : Forest) : TermId → Flow → Prop
  | base {t : TermId} {flow : Flow} (h : f.kind (f.rep t) = .base flow) : IsBase f t flow
  | wrapped {t inner : TermId} {flow : Flow} (h : f.kind (f.rep t) = .nilable inner)
      (hinner : IsBase f inner flow) : IsBase f t flow.orNil

/-- The class was a base type and its flow is another one now, or it was a variable and is a base type
now. -/
def Rebased (f g : Forest) (c : TermId) : Prop :=
  (∃ flow, f.IsBase c flow ∧ ¬g.IsBase c flow) ∨ f.kind c = .var ∧ ∃ flow, g.IsBase c flow

/-- A wrapper has the flow of what it wraps, or nil. -/
theorem isBase_wrapper_iff {inner : TermId} (hk : f.kind (f.rep t) = .nilable inner) :
    f.IsBase t a ↔ ∃ b, f.IsBase inner b ∧ a = b.orNil := by
  constructor
  · rintro (h | ⟨h, hinner⟩)
    · exact nomatch hk.symm.trans h
    · cases hk.symm.trans h
      exact ⟨_, hinner, rfl⟩
  · rintro ⟨b, hinner, rfl⟩
    exact .wrapped hk hinner

/-- What is no wrapper has the flow that its kind says. -/
theorem isBase_iff_of_not_nilable (hk : (f.kind (f.rep t)).isNilable = false) :
    f.IsBase t a ↔ f.kind (f.rep t) = .base a := by
  refine ⟨fun h => ?_, .base⟩
  cases h with
  | base h => exact h
  | wrapped h _ =>
    rw [h] at hk
    cases hk

private theorem IsBase.unique (h : f.IsBase t a) (h' : f.IsBase t b) : a = b := by
  induction h generalizing b with
  | base h =>
    rw [isBase_iff_of_not_nilable (by rw [h]; rfl), h] at h'
    cases h'
    rfl
  | wrapped h _ ih =>
    obtain ⟨b', hinner', rfl⟩ := (isBase_wrapper_iff h).1 h'
    rw [ih hinner']

private theorem IsBase.of_rep_eq {u : TermId} (h : f.IsBase t a) (hrep : f.rep u = f.rep t) :
    f.IsBase u a := by
  cases h with
  | base h => exact .base (hrep ▸ h)
  | wrapped h hinner => exact .wrapped (hrep ▸ h) hinner

/-- A calm class is a base type exactly if its kind says so. -/
theorem Calm.isBase_iff (h : f.Calm c) : f.IsBase c a ↔ f.kind c = .base a := by
  have hroot : f.rep c = c := rep_of_not_link h.root
  cases hk : (f.kind c).isNilable with
  | false => rw [isBase_iff_of_not_nilable (by rw [hroot, hk]), hroot]
  | true =>
    obtain ⟨inner, hinner⟩ := Kind.isNilable_eq_true.1 hk
    have hvar := h.wraps inner hinner
    rw [isBase_wrapper_iff (by rw [hroot, hinner]), hinner]
    refine iff_of_false ?_ nofun
    rintro ⟨b, hb, -⟩
    rw [isBase_iff_of_not_nilable (by rw [hvar]; rfl), hvar] at hb
    cases hb

/-- Tidying up refreshes a class, or has it take over what it wraps and leaves the others alone. -/
theorem Upkeep.kind_cases (hf : f.Rooted) (h : f.Upkeep g) (hc : (f.kind c).isLink = false) :
    (f.kind c).Refreshed f.rep (g.kind c) ∨
      ∃ inner, f.kind c = .nilable inner ∧
        g.kind c = absorbedKind (f.rep inner) (f.kind (f.rep inner)) ∧
        ∀ x, x ≠ c → g.kind x = f.kind x := by
  cases h with
  | @shorten t u h =>
    left
    rw [kind_setKind, if_neg]
    · exact .refl
    · rintro ⟨rfl, -⟩
      rw [h] at hc
      cases hc
  | @remember t x slot h =>
    left
    rw [kind_setChild]
    split
    · rename_i e
      subst e
      exact .single ⟨slot, x, h, rfl⟩
    · exact .refl
  | @absorb w inner h =>
    have hkind := kind_absorb (w := w) (not_isLink_rep hf inner)
    have hlt : w < f.size := lt_size_of_kind (by rw [h]; exact Kind.noConfusion)
    by_cases e : w = c
    · subst e
      exact Or.inr ⟨inner, h, by rw [hkind, if_pos ⟨rfl, hlt⟩],
        fun x hx => by rw [hkind, if_neg fun e => hx e.1.symm]⟩
    · rw [hkind, if_neg fun e' => e e'.1]
      exact Or.inl .refl

/-- A base type keeps its flow when classes are looked up. -/
theorem IsBase.of_upkeep (hf : f.Rooted) (h : f.Upkeep g) (hbase : f.IsBase t a) :
    g.IsBase t a := by
  have hrep := (h.steady hf).rep
  induction hbase with
  | @base t flow hk =>
    rcases h.kind_cases hf (not_isLink_rep hf t) with hr | ⟨inner, hinner, -⟩
    · exact .base (by rw [hrep, hr.eq_of_childless (by rw [hk]; rfl), hk])
    · exact nomatch hk.symm.trans hinner
  | @wrapped t inner flow hk hinner ih =>
    rcases h.kind_cases hf (not_isLink_rep hf t) with hr | ⟨inner', hinner', habsorbed, hothers⟩
    · rw [hk] at hr
      obtain ⟨y, hy, hyrep⟩ := hr.wraps (rep_rep hf)
      exact .wrapped (by rw [hrep, hy]) (ih.of_rep_eq (by rw [hrep, hrep, hyrep]))
    cases hk.symm.trans hinner'
    cases hk' : (f.kind (f.rep inner)).isNilable with
    | false =>
      have hbase := (isBase_iff_of_not_nilable hk').1 hinner
      exact .base (by rw [hrep, habsorbed, hbase]; rfl)
    | true =>
      obtain ⟨x, hx⟩ := Kind.isNilable_eq_true.1 hk'
      rw [hx] at habsorbed
      by_cases e : f.rep inner = f.rep t
      · -- A wrapper that wraps itself stays what it is.
        cases hk.symm.trans (e ▸ hx)
        exact .wrapped (by rw [hrep, habsorbed]; rfl) ih
      · have hstill : g.kind (g.rep inner) = .nilable x := by rw [hrep, hothers _ e, hx]
        obtain ⟨b, hb, rfl⟩ := (isBase_wrapper_iff hstill).1 ih
        rw [Flow.orNil_orNil]
        exact .wrapped (by rw [hrep, habsorbed]; rfl) hb

/-- Looking classes up keeps the flows of base types. -/
theorem Upkeep.isBase_iff (hf : f.Rooted) (h : f.Upkeep g) : g.IsBase t a ↔ f.IsBase t a := by
  refine ⟨fun hbase => ?_, .of_upkeep hf h⟩
  have hrep := (h.steady hf).rep
  induction hbase with
  | @base t flow hk =>
    rw [hrep] at hk
    rcases h.kind_cases hf (not_isLink_rep hf t) with hr | ⟨inner, hinner, habsorbed, -⟩
    · refine .base (Kind.baseFlow?_eq_some.1 ?_)
      rw [← (hr.same (rep_rep hf)).baseFlow?, hk]
      rfl
    · rw [habsorbed] at hk
      cases hk' : f.kind (f.rep inner) <;> rw [hk'] at hk <;> cases hk
      exact .wrapped hinner (.base hk')
  | @wrapped t inner flow hk _ ih =>
    rw [hrep] at hk
    rcases h.kind_cases hf (not_isLink_rep hf t) with hr | ⟨inner', hinner', habsorbed, -⟩
    · rw [hk] at hr
      obtain ⟨x, hx, hinner⟩ := hr.nilable (rep_rep hf)
      refine .wrapped hx (ih.of_rep_eq ?_)
      rcases hinner with rfl | rfl
      · rfl
      · rw [rep_rep hf]
    · rw [habsorbed] at hk
      cases hk' : f.kind (f.rep inner') <;> rw [hk'] at hk <;> cases hk
      · exact .wrapped hinner' (ih.of_rep_eq (rep_rep hf inner').symm)
      · rw [← Flow.orNil_orNil]
        exact .wrapped hinner' (.wrapped hk' ih)

private theorem Upkeeps.isBase_iff (hf : f.Rooted) (h : f.Upkeeps g) : g.IsBase t a ↔ f.IsBase t a := by
  induction h with
  | refl => rfl
  | tail hg hstep ih => rw [hstep.isBase_iff (Upkeeps.steady hf hg).rooted, ih]

/-! ## Classes without children -/

/-- A class without children is what it was, or whoever is registered with it was told. -/
theorem Leads.told_or_kept {told : NodeId → Prop} (hf : f.Sound) (h : Leads told f g)
    (hc : (f.kind c).isLink = false) (hnot : (f.kind c).isNilable = false)
    (hchildless : (f.kind c).children = []) {n : NodeId} (hn : n ∈ f.deps c) :
    told n ∨ g.kind c = f.kind c := by
  induction h with
  | refl => exact Or.inr rfl
  | @tail g g' hg hstep ih =>
    rcases ih with htold | hkept
    · exact Or.inl htold
    obtain ⟨-, hevolves⟩ := sound_evolves hf hg
    have hdeps : n ∈ g.deps c := by
      have hgrown := hevolves.grows.deps c n
      rw [rep_of_not_link hc, rep_of_not_link (by rw [hkept, hc])] at hgrown
      exact hgrown hn
    by_cases hdisturbed : g.Disturbs g' c
    · exact Or.inl (hstep.2 c n hdisturbed hdeps)
    · have hcalm : g.Calm c := calm_of_not_nilable (by rw [hkept, hc]) (by rw [hkept, hnot])
      have hr := not_not.1 fun hr => hdisturbed ⟨hcalm, hr⟩
      exact Or.inr ((hr.eq_of_childless (by rw [hkept, hchildless])).trans hkept)

end Forest

open Unifier (Call Proceeds Looks Waiting)

namespace Program

variable {p : Program} {s u : Unifier} {s₀ t₀ : State}

/-! ## Announcing a reader -/

private theorem push?_eq_some {reader : Option NodeId} {x : Unit} (hwork : s.work.isNone = false)
    (h : push? reader s = some (x, u)) :
    u.forest = s.forest ∧ u.work.isNone = false ∧
      ∀ n, Waiting u.work n ↔ Waiting s.work n ∨ reader = some n := by
  unfold push? at h
  cases reader with
  | none =>
    obtain ⟨-, rfl⟩ := pure_eq_some.1 h
    exact ⟨rfl, hwork, fun n => by simp⟩
  | some node =>
    rw [push_eq_some.1 h]
    obtain ⟨w, hw⟩ := Option.isSome_iff_exists.1 (by rw [← Option.not_isNone, hwork]; rfl)
    refine ⟨rfl, by rw [hw]; rfl, fun n => ?_⟩
    simp only [Waiting, hw, Option.map_some, Option.some.injEq, exists_eq_left', Worklist.push,
      OrderedSet.mem_insert]
    rw [or_comm, eq_comm]

/-! ## The type step of `notNil` -/

/-- A base class is given a flow, and the reader waits then if that is another one. -/
theorem setBase_eq_some {c : TermId} {old flow : Flow} {reader : Option NodeId} {x : Unit}
    (hwork : s.work.isNone = false) (hk : s.forest.kind c = .base old)
    (h : setBase c flow reader s = some (x, u)) :
    (∀ y, u.forest.kind y = if c = y then .base flow else s.forest.kind y) ∧
      u.work.isNone = false ∧
      ∀ n, Waiting u.work n ↔ Waiting s.work n ∨ old ≠ flow ∧ reader = some n := by
  have hlt : c < s.forest.size :=
    Forest.lt_size_of_kind (by rw [hk]; exact Kind.noConfusion)
  replace h := Unifier.of_bind_view h
  rw [hk] at h
  rcases ite_eq_some.1 h with ⟨hne, h⟩ | ⟨heq, h⟩
  · obtain ⟨v, s₁, hchange, h⟩ := bind_eq_some.1 h
    obtain rfl := Unifier.change_eq_some.1 hchange
    obtain ⟨hforest, hwork', hwaiting⟩ :=
      push?_eq_some (s := { s with forest := s.forest.setKind c (.base flow) }) hwork h
    refine ⟨fun y => ?_, hwork', fun n => ?_⟩
    · rw [hforest, Forest.kind_setKind]
      simp only [hlt, and_true]
    · rw [hwaiting]
      exact or_congr Iff.rfl (iff_and_self.2 fun _ => hne)
  · obtain ⟨-, rfl⟩ := pure_eq_some.1 h
    refine ⟨fun y => ?_, hwork, fun n => ?_⟩
    · split
      · rename_i e
        rw [← e, hk, not_not.1 heq]
      · rfl
    · rw [or_iff_left fun h => heq h.1]

/-- The flows of the argument and the result are met.  The argument may be nil, the result not. -/
def meetBases (arg ret : TermId) (a r : Flow) (reader : Option NodeId) : UnifyM Bool := do
  let both := a.meet r
  setBase ret (both.join .nonNil) reader
  setBase arg both.orNil reader
  return true

/-- The two classes have their new flows then, and the others are what they were.  Besides those who
waited before the reader waits, if one of the flows is another one, and nobody else. -/
theorem meetBases_eq_some {arg ret : TermId} {a r : Flow} {reader : Option NodeId} {b : Bool}
    (hwork : s.work.isNone = false) (ha : s.forest.kind arg = .base a)
    (hr : s.forest.kind ret = .base r) (hne : arg ≠ ret)
    (h : meetBases arg ret a r reader s = some (b, u)) :
    b = true ∧ u.work.isNone = false ∧
      (∀ y, u.forest.kind y = if arg = y then .base (a.meet r).orNil
        else if ret = y then .base ((a.meet r).join .nonNil) else s.forest.kind y) ∧
      ∀ n, Waiting u.work n ↔ Waiting s.work n ∨
        (a ≠ (a.meet r).orNil ∨ r ≠ (a.meet r).join .nonNil) ∧ reader = some n := by
  obtain ⟨x, s₁, hret, h⟩ := bind_eq_some.1 h
  obtain ⟨y, s₂, harg, h⟩ := bind_eq_some.1 h
  obtain ⟨rfl, rfl⟩ := pure_eq_some.1 h
  obtain ⟨hkind, hwork₁, hwaiting⟩ := setBase_eq_some hwork hr hret
  obtain ⟨hkind', hwork₂, hwaiting'⟩ :=
    setBase_eq_some hwork₁ (by rw [hkind, if_neg hne.symm, ha]) harg
  refine ⟨rfl, hwork₂, fun y => ?_, fun n => ?_⟩
  · rw [hkind', hkind]
  · rw [hwaiting', hwaiting]
    tauto

/-- What the type step of `notNil` does with the classes of its argument and its result. -/
inductive NotNilCase (p : Program) (id : NodeId) (arg ret : TermId) (b : Bool) (s u : Unifier) : Prop
  /-- The argument is the result or nil already, or an error. -/
  | idle (h : Looks s u)
  /-- They are unified unless both are base types. -/
  | unified {v : Unifier} (hv : Looks s v) (harg : v.forest.Calm arg) (hret : v.forest.Calm ret)
      (hnot : ∀ a r, v.forest.kind arg = .base a → v.forest.kind ret ≠ .base r)
      (h : Proceeds v u)
  | met {v : Unifier} {a r : Flow} (hv : Looks s v) (ha : v.forest.kind arg = .base a)
      (hr : v.forest.kind ret = .base r) (hne : arg ≠ ret)
      (h : meetBases arg ret a r (p.parent id) v = some (b, u))

/-- Wrapping the argument around the result proceeds. -/
theorem wrapArgument_proceeds {arg ret : TermId} {b : Bool} (hs : s.Sound)
    (harg : arg < s.forest.size) (hret : ret < s.forest.size)
    (h : p.wrapArgument arg ret s = some (b, u)) : Proceeds s u := by
  replace h := Unifier.of_bind_view h
  replace h := Unifier.of_bind_view h
  rcases ite_eq_some.1 h with ⟨-, h⟩ | ⟨-, h⟩
  · exact (Unifier.unify_proceeds hs harg hret h).1
  · obtain ⟨wrapped, s₁, hwrapped, h⟩ := bind_eq_some.1 h
    obtain ⟨rfl, rfl⟩ := Unifier.alloc_eq_some.1 hwrapped
    obtain ⟨wrapped', s₂, hfind, h⟩ := bind_eq_some.1 h
    obtain ⟨h₁, -, hclass, -⟩ := Unifier.add_proceeds hs ⟨.nilable ret, .empty, false⟩ rfl
      (List.forall_mem_singleton.2 hret)
    have h₂ := (Unifier.find_looks h₁.sound hfind).2.proceeds h₁.sound
    have hwrapped' := Unifier.isClass_of_find h₁.sound hclass.lt hfind
    refine (h₁.trans h₂).trans (Unifier.unify_proceeds h₂.sound hwrapped'.lt ?_ h).1
    exact h₂.lt h₁.sound (h₁.lt hs harg)

private theorem sameSlots_looks {arg ret : TermId} {slots : List Slot} {b : Bool} (hs : s.Sound)
    (h : sameSlots arg ret slots s = some (b, u)) : Looks s u := by
  induction slots generalizing s with
  | nil =>
    rw [← (pure_eq_some.1 h).2]
    exact .refl s
  | cons slot rest ih =>
    obtain ⟨x, s₁, hx, h⟩ := bind_eq_some.1 h
    obtain ⟨y, s₂, hy, h⟩ := bind_eq_some.1 h
    have h₁ := (Unifier.child_looks hs hx).1
    have hs₁ := (h₁.proceeds hs).sound
    have h₂ := (Unifier.child_looks hs₁ hy).1
    rcases ite_eq_some.1 h with ⟨-, h⟩ | ⟨-, h⟩
    · rw [← (pure_eq_some.1 h).2]
      exact h₁.trans h₂
    · exact (h₁.trans h₂).trans (ih (h₂.proceeds hs₁).sound h)

private theorem isAligned_looks {arg ret : TermId} {b : Bool} (hs : s.Sound)
    (h : isAligned arg ret s = some (b, u)) : Looks s u := by
  replace h := Unifier.of_bind_view h
  obtain ⟨same, s₁, hsame, h⟩ := bind_eq_some.1 h
  have h₁ := sameSlots_looks hs hsame
  rcases ite_eq_some.1 h with ⟨-, h⟩ | ⟨-, h⟩
  · rwa [← (pure_eq_some.1 h).2]
  · replace h := Unifier.of_bind_view h
    replace h := Unifier.of_bind_view h
    rwa [← (pure_eq_some.1 h).2]

/-- The first parameter is looked up first. -/
theorem formalsOf_head (hs : s.Sound) {id : NodeId} {primitive : Primitive} {fid : FunctionId}
    {arg : TermId} {formals rs : List TermId}
    (hkind : p.kind id = .prim primitive fid (arg :: formals))
    (h : p.formalsOf id s = some (rs, u)) :
    Looks s u ∧ u.forest.Calm (s.forest.rep arg) ∧ rs.headD 0 = s.forest.rep arg := by
  unfold formalsOf at h
  rw [hkind] at h
  have hlooks := Unifier.looks_onForest (Forest.keepsUp_findAll _) hs h
  obtain ⟨f, hall, rfl⟩ := Unifier.onForest_eq_some.1 h
  obtain ⟨r, g, hfind, hall⟩ := bind_eq_some.1 hall
  obtain ⟨rs', g', hrest, hall⟩ := bind_eq_some.1 hall
  obtain ⟨rfl, rfl⟩ := pure_eq_some.1 hall
  have hcalm := Forest.find_calm hs.forest.rooted hfind
  obtain ⟨rfl, hup⟩ := Forest.find_upkeeps hs.forest.rooted hfind
  have hrooted := (hup.steady hs.forest.rooted).rooted
  obtain ⟨-, hup'⟩ := Forest.findAll_upkeeps hrooted hrest
  exact ⟨hlooks, (hup'.calm hrooted hcalm).2, rfl⟩

/-- Unifying what is not aligned proceeds. -/
theorem wrapUnaligned_proceeds {arg ret : TermId} {karg kret : Kind} {b : Bool} (hs : s.Sound)
    (harg : arg < s.forest.size) (hret : ret < s.forest.size)
    (h : p.wrapUnaligned arg ret karg kret s = some (b, u)) : Proceeds s u := by
  obtain ⟨aligned, s₁, haligned, h⟩ := bind_eq_some.1 h
  have h₁ : Looks s s₁ := by
    rcases ite_eq_some.1 haligned with ⟨-, haligned⟩ | ⟨-, haligned⟩
    · exact isAligned_looks hs haligned
    · rw [← (pure_eq_some.1 haligned).2]
      exact .refl s
  have hp₁ := h₁.proceeds hs
  rcases ite_eq_some.1 h with ⟨-, h⟩ | ⟨-, h⟩
  · rw [← (pure_eq_some.1 h).2]
    exact hp₁
  · rcases Unifier.unless_probe h with rfl | ⟨-, h⟩
    · exact hp₁
    · exact hp₁.trans (wrapArgument_proceeds hp₁.sound (hp₁.lt hs harg) (hp₁.lt hs hret) h)

/-- The flows of base types are met, and other types are unified. -/
def meetOrWrap (p : Program) (id : NodeId) (arg ret : TermId) : UnifyM Bool := do
  let karg ← Unifier.kindOf arg
  let kret ← Unifier.kindOf ret
  match karg.baseFlow?, kret.baseFlow? with
  | some a, some r =>
    if a = r.orNil then return false
    if ← Unifier.isProbe then return true
    meetBases arg ret a r (p.parent id)
  | _, _ => p.wrapUnaligned arg ret karg kret

private theorem meetOrWrap_cases {v : Unifier} (hs : s.Sound) {id : NodeId} {arg ret : TermId} {b : Bool}
    (hlooks : Looks v s) (harg : s.forest.Calm arg)
    (hret : s.forest.Calm ret) (harg_lt : arg < s.forest.size) (hret_lt : ret < s.forest.size)
    (hne : arg ≠ ret) (h : p.meetOrWrap id arg ret s = some (b, u)) :
    p.NotNilCase id arg ret b v u := by
  replace h := Unifier.of_bind_view h
  replace h := Unifier.of_bind_view h
  have hwrap : p.wrapUnaligned arg ret (s.forest.kind arg) (s.forest.kind ret) s = some (b, u) →
      ((s.forest.kind arg).baseFlow? = none ∨ (s.forest.kind ret).baseFlow? = none) →
        p.NotNilCase id arg ret b v u := by
    intro h hnone
    refine .unified hlooks harg hret (fun a r ha hr => ?_)
      (wrapUnaligned_proceeds hs harg_lt hret_lt h)
    rw [ha, hr] at hnone
    rcases hnone with hnone | hnone <;> cases hnone
  cases ha : (s.forest.kind arg).baseFlow? with
  | none =>
    rw [ha] at h
    exact hwrap h (Or.inl ha)
  | some a =>
    cases hr : (s.forest.kind ret).baseFlow? with
    | none =>
      rw [ha, hr] at h
      exact hwrap h (Or.inr hr)
    | some r =>
      rw [ha, hr] at h
      rcases ite_eq_some.1 h with ⟨-, h⟩ | ⟨-, h⟩
      · obtain ⟨-, rfl⟩ := pure_eq_some.1 h
        exact .idle hlooks
      · rcases Unifier.unless_probe h with rfl | ⟨-, h⟩
        · exact .idle hlooks
        · exact .met hlooks (Kind.baseFlow?_eq_some.1 ha) (Kind.baseFlow?_eq_some.1 hr) hne h

/-- The type step of `notNil` looks its argument and its result up, and meets or unifies them. -/
theorem notNilStep_cases (hs : s.Sound) (hp : p.TermsIn s.forest.size) {id : NodeId}
    {fid : FunctionId} {arg ret : TermId} {formals : List TermId} {b : Bool}
    (hkind : p.kind id = .prim .notNil fid (arg :: formals))
    (hret : (s.forest.kind (s.forest.rep (p.node id).type)).child? .ret = some ret)
    (h : p.notNilStep id s = some (b, u)) :
    p.NotNilCase id (s.forest.rep arg) (s.forest.rep ret) b s u := by
  obtain ⟨formals', s₁, hformals, h⟩ := bind_eq_some.1 h
  have hsafe := formalsOf_safe hs hp id _ _ hformals
  have harg_lt := argument_lt (hp.mono hsafe.1.size) id hsafe.2
  obtain ⟨h₁, hcalm, hhead⟩ := formalsOf_head hs hkind hformals
  dsimp only at h
  rw [hhead] at h harg_lt
  have hs₁ := hsafe.1.sound
  replace h := Unifier.of_bind_view h
  rcases ite_eq_some.1 h with ⟨-, h⟩ | ⟨-, h⟩
  · obtain ⟨-, rfl⟩ := pure_eq_some.1 h
    exact .idle h₁
  obtain ⟨me, s₂, hme, h⟩ := bind_eq_some.1 h
  obtain ⟨rfl, h₂'⟩ := Unifier.find_looks hs₁ hme
  have h₂ := h₁.trans h₂'
  have hs₂ := (h₂.proceeds hs).sound
  obtain ⟨ret₂, hret₂, hsame⟩ := h₂.ret hs hret
  rw [(h₁.steady hs).rep] at h
  obtain ⟨result?, s₃, hresult, h⟩ := bind_eq_some.1 h
  obtain ⟨h₃, hclass⟩ := Unifier.child_looks hs₂ hresult
  have hanswer := Unifier.child_eq hs₂ hresult
  rw [hret₂, Option.map_some, (h₂.steady hs).rep, hsame] at hanswer
  subst hanswer
  have hcalm' : s₃.forest.Calm (s.forest.rep ret) := by
    obtain ⟨f, hchild, rfl⟩ := Unifier.onForest_eq_some.1 hresult
    exact Forest.child_calm hs₂.forest.rooted hchild
  have hcalm := ((h₂'.trans h₃).calm hs₁ hcalm).2
  have h₃ := h₂.trans h₃
  have hs₃ := (h₃.proceeds hs).sound
  simp only at h
  rcases ite_eq_some.1 h with ⟨-, h⟩ | ⟨hne, h⟩
  · obtain ⟨-, rfl⟩ := pure_eq_some.1 h
    exact .idle h₃
  replace h := Unifier.of_bind_view h
  have hrest : ∀ {s₄ : Unifier}, Looks s₃ s₄ →
      p.meetOrWrap id (s.forest.rep arg) (s.forest.rep ret) s₄ = some (b, u) →
        p.NotNilCase id (s.forest.rep arg) (s.forest.rep ret) b s u := by
    intro s₄ h₄ h
    have hp₄ := h₄.proceeds hs₃
    refine meetOrWrap_cases hp₄.sound (h₃.trans h₄) (h₄.calm hs₃ hcalm).2 (h₄.calm hs₃ hcalm').2
      ?_ (hp₄.lt hs₃ (hclass _ rfl).lt) hne h
    rw [(h₃.trans h₄).upkeeps.size, ← h₁.upkeeps.size]
    exact harg_lt
  rcases ite_eq_some.1 h with ⟨-, h⟩ | ⟨-, h⟩
  · obtain ⟨inner?, s₄, hinner, h⟩ := bind_eq_some.1 h
    have h₄ := (Unifier.child_looks hs₃ hinner).1
    rcases ite_eq_some.1 h with ⟨-, h⟩ | ⟨-, h⟩
    · obtain ⟨-, rfl⟩ := pure_eq_some.1 h
      exact .idle (h₃.trans h₄)
    · exact hrest h₄ h
  · exact hrest (.refl s₃) h

/-! ## Who waits -/

/-- Classes that are looked up are not changed by that. -/
theorem not_rebased_of_looks (hs : s.Sound) (h : Looks s u) (c : TermId) :
    ¬s.forest.Rebased u.forest c := by
  rintro (⟨flow, hbase, hnot⟩ | ⟨hvar, flow, hbase⟩)
  · exact hnot ((h.upkeeps.isBase_iff hs.forest.rooted).2 hbase)
  · rw [h.upkeeps.isBase_iff hs.forest.rooted, Forest.Calm.isBase_iff
      (Forest.calm_of_not_nilable (by rw [hvar]; rfl) (by rw [hvar]; rfl)), hvar] at hbase
    cases hbase

/-- A class that is calm once it was looked up was a base type if its kind says so then. -/
theorem isBase_iff_of_looks (hs : s.Sound) (h : Looks s u) {x : TermId} {a : Flow}
    (hcalm : u.forest.Calm (s.forest.rep x)) :
    s.forest.IsBase x a ↔ u.forest.kind (s.forest.rep x) = .base a := by
  have hself := Forest.rep_rep hs.forest.rooted x
  rw [← hcalm.isBase_iff, h.upkeeps.isBase_iff hs.forest.rooted]
  exact ⟨fun h => h.of_rep_eq hself, fun h => h.of_rep_eq hself.symm⟩

/-- Where types are unified, everybody waits who is registered with a class whose base type changed. -/
theorem waiting_of_proceeds {v : Unifier} {c : TermId} {n : NodeId} (hs : s.Sound) (hv : Looks s v)
    (hcalm : v.forest.Calm c) (h : Proceeds v u) (hrebased : s.forest.Rebased u.forest c)
    (hn : n ∈ s.forest.deps c) : Waiting u.work n := by
  have hsv := (hv.proceeds hs).sound
  have hroot : s.forest.rep c = c := by
    rw [← (hv.steady hs).rep, Forest.rep_of_not_link hcalm.root]
  have hnv : n ∈ v.forest.deps c := (hv.steady hs).deps c n hn
  rcases hrebased with ⟨flow, hbase, hnot⟩ | ⟨hvar, flow, hbase⟩
  · have hk := (isBase_iff_of_looks hs hv (hroot.symm ▸ hcalm)).1 hbase
    rw [hroot] at hk
    refine (h.leads.told_or_kept hsv.forest hcalm.root (by rw [hk]; rfl) (by rw [hk]; rfl)
      hnv).resolve_right fun hkept => hnot (.base ?_)
    rw [Forest.rep_of_not_link (by rw [hkept, hcalm.root]), hkept, hk]
  · have hk := hv.var hs hvar
    refine (h.leads.told_or_kept hsv.forest hcalm.root (by rw [hk]; rfl) (by rw [hk]; rfl)
      hnv).resolve_right fun hkept => ?_
    have hcalm' : u.forest.Calm c :=
      Forest.calm_of_not_nilable (by rw [hkept, hcalm.root]) (by rw [hkept, hk]; rfl)
    rw [hcalm'.isBase_iff, hkept, hk] at hbase
    cases hbase

/-- Where flows are met and one of them is another flow then, the reader is the only one to be told. -/
theorem waiting_of_met {v : Unifier} {arg ret c : TermId} {a r : Flow} {reader : Option NodeId}
    {b : Bool} {n : NodeId} (hs : s.Sound) (hwork : s.work.isNone = false) (hv : Looks s v)
    (ha : v.forest.kind arg = .base a) (hr : v.forest.kind ret = .base r) (hne : arg ≠ ret)
    (h : meetBases arg ret a r reader v = some (b, u)) (hc : c = arg ∨ c = ret)
    (hrebased : s.forest.Rebased u.forest c) :
    Waiting u.work n ↔ Waiting s.work n ∨ reader = some n := by
  obtain ⟨-, -, hkind, hwaiting⟩ := meetBases_eq_some (by rw [hv.work, hwork]) ha hr hne h
  have hchanged : ∀ {old new : Flow}, v.forest.kind c = .base old → u.forest.kind c = .base new →
      old ≠ new := by
    rintro old new hold hnew rfl
    have hcalm : v.forest.Calm c :=
      Forest.calm_of_not_nilable (by rw [hold]; rfl) (by rw [hold]; rfl)
    have hroot : s.forest.rep c = c := by
      rw [← (hv.steady hs).rep, Forest.rep_of_not_link hcalm.root]
    rcases hrebased with ⟨flow, hflow, hnot⟩ | ⟨hvar, -⟩
    · have hk := (isBase_iff_of_looks hs hv (hroot.symm ▸ hcalm)).1 hflow
      rw [hroot, hold] at hk
      cases hk
      exact hnot (.base (by rw [Forest.rep_of_not_link (by rw [hnew]; rfl), hnew]))
    · exact nomatch hold.symm.trans (hv.var hs hvar)
  have hnew : a ≠ (a.meet r).orNil ∨ r ≠ (a.meet r).join .nonNil := by
    rcases hc with rfl | rfl
    · exact Or.inl (hchanged ha (by rw [hkind, if_pos rfl]))
    · exact Or.inr (hchanged hr (by rw [hkind, if_neg hne, if_pos rfl]))
  rw [hwaiting, hv.work]
  exact or_congr Iff.rfl (and_iff_right hnew)

/-- Of two base types whoever waited before waits after the type step of `notNil`, and the parent of
the node.  Otherwise everybody waits who is registered with a class that was changed. -/
theorem NotNilCase.waiting {id : NodeId} {arg ret c : TermId} {b : Bool} {n : NodeId}
    (hs : s.Sound) (hwork : s.work.isNone = false)
    (h : p.NotNilCase id (s.forest.rep arg) (s.forest.rep ret) b s u)
    (hc : c = s.forest.rep arg ∨ c = s.forest.rep ret) (hrebased : s.forest.Rebased u.forest c)
    (hn : n ∈ s.forest.deps c) :
    Waiting u.work n ↔ Waiting s.work n ∨ p.parent id = some n ∨
      ¬((∃ a, s.forest.IsBase arg a) ∧ ∃ r, s.forest.IsBase ret r) := by
  cases h with
  | idle h => exact absurd hrebased (not_rebased_of_looks hs h c)
  | @unified v hv harg hret hnot h =>
    have hcalm : v.forest.Calm c := by rcases hc with rfl | rfl <;> assumption
    refine iff_of_true (waiting_of_proceeds hs hv hcalm h hrebased hn) (Or.inr (Or.inr ?_))
    rintro ⟨⟨a, ha⟩, r, hr⟩
    exact hnot a r ((isBase_iff_of_looks hs hv harg).1 ha) ((isBase_iff_of_looks hs hv hret).1 hr)
  | @met v a r hv ha hr hne h =>
    have hbase : ∀ {x : TermId} {flow : Flow}, v.forest.kind (s.forest.rep x) = .base flow →
        s.forest.IsBase x flow := fun hk =>
      (isBase_iff_of_looks hs hv
        (Forest.calm_of_not_nilable (by rw [hk]; rfl) (by rw [hk]; rfl))).2 hk
    rw [waiting_of_met hs hwork hv ha hr hne h hc hrebased]
    exact or_congr Iff.rfl (or_iff_left (not_not.2 ⟨⟨a, hbase ha⟩, r, hbase hr⟩)).symm

/-- A primitive announces its parent at most. -/
theorem announceType_prim {id : NodeId} {primitive : Primitive} {fid : FunctionId}
    {formals : List TermId} {x : Unit} (hs : s.Sound) (hwork : s.work.isNone = false)
    (hkind : p.kind id = .prim primitive fid formals) (h : p.announceType id s = some (x, u)) :
    s.forest.Upkeeps u.forest ∧ u.work.isNone = false ∧
      ∀ n, (Waiting s.work n → Waiting u.work n) ∧
        (Waiting u.work n → Waiting s.work n ∨ p.parent id = some n) := by
  unfold announceType announceWithin at h
  rw [hkind] at h
  obtain ⟨me, s₁, hme, h⟩ := bind_eq_some.1 h
  obtain ⟨-, hlooks⟩ := Unifier.find_looks hs hme
  have hwork₁ : s₁.work.isNone = false := by rw [hlooks.work, hwork]
  replace h := Unifier.of_bind_view h
  rcases ite_eq_some.1 h with ⟨-, h⟩ | ⟨-, h⟩
  · obtain ⟨hforest, hwork₂, hwaiting⟩ := push?_eq_some hwork₁ h
    refine ⟨hforest ▸ hlooks.upkeeps, hwork₂, fun n => ?_⟩
    rw [hwaiting, hlooks.work]
    exact ⟨Or.inl, fun h => h⟩
  · obtain ⟨-, rfl⟩ := pure_eq_some.1 h
    refine ⟨hlooks.upkeeps, hwork₁, fun n => ?_⟩
    rw [hlooks.work]
    exact ⟨fun h => h, Or.inl⟩

/-- A type step of `notNil` is followed by the announcement of its parent at most. -/
theorem perform_notNil (hs : p.Termed s₀) {id : NodeId} {fid : FunctionId}
    {formals : List TermId} (hkind : p.kind id = .prim .notNil fid formals)
    (h : p.perform (.type id) s₀ = some ((), t₀)) :
    ∃ b u, p.notNilStep id (Call.start s₀.forest (some s₀.work)) = some (b, u) ∧
      u.Sound ∧ u.forest.Upkeeps t₀.forest ∧
        ∀ n, (Waiting u.work n → n ∈ t₀.work.pending) ∧
          (n ∈ t₀.work.pending → Waiting u.work n ∨ p.parent id = some n) := by
  obtain ⟨found, t, hstep, h⟩ := bind_eq_some.1 h
  obtain ⟨-, rfl⟩ := pure_eq_some.1 h
  obtain ⟨b, hadvance⟩ := advanceType_of_stepType hstep
  obtain ⟨flows, s₁, hflows, hadvance⟩ := bind_eq_some.1 hadvance
  obtain ⟨rfl, rfl⟩ := flowsSay_eq_some.1 hflows
  obtain ⟨v, hv, rfl⟩ := commit_eq_some.1 hadvance
  obtain ⟨progress, u, htype, hv⟩ := bind_eq_some.1 hv
  have hstart := Call.sound_start hs.sound (some s₀.work)
  have hnotNil : p.typeStep s₀.flows id = p.notNilStep id := by
    unfold typeStep
    rw [hkind]
  rw [hnotNil] at htype
  have hu := (notNilStep_safe hstart hs.terms id _ _ htype).1
  have hpending : ∀ {v : Unifier}, v.work.isNone = false → ∀ n,
      n ∈ (v.work.getD default).pending ↔ Waiting v.work n := by
    intro v hv n
    obtain ⟨w, hw⟩ := Option.isSome_iff_exists.1 (by rw [← Option.not_isNone, hv]; rfl)
    simp only [hw, Waiting, Option.getD_some, Option.some.injEq, exists_eq_left']
  refine ⟨progress, u, htype, hu.sound, ?_⟩
  cases progress with
  | false =>
    obtain ⟨-, rfl⟩ := pure_eq_some.1 hv
    exact ⟨.refl, fun n => ⟨(hpending hu.probe n).2, fun h => Or.inl ((hpending hu.probe n).1 h)⟩⟩
  | true =>
    obtain ⟨x, w, hannounce, hv⟩ := bind_eq_some.1 hv
    obtain ⟨-, rfl⟩ := pure_eq_some.1 hv
    obtain ⟨hup, hwork, hwaiting⟩ := announceType_prim hu.sound hu.probe hkind hannounce
    refine ⟨hup, fun n => ?_⟩
    rw [hpending hwork]
    exact hwaiting n

/-- Whenever a type step of `notNil` changes the base type of its argument or its result, or makes one
of a variable, these wait after it of those who are registered with the class: whoever waited before,
the parent of the node, and everybody if not both were base types before. -/
theorem notNil_announces {e : Expr} {settings : Settings} {depth : Nat} {p : Program}
    {s₀ s t : State} (hbuild : Program.build e settings depth = .ok (p, s₀)) (hs : p.Leads s₀ s)
    {id : NodeId} {fid : FunctionId} {arg ret : TermId} {formals : List TermId}
    (hkind : p.kind id = .prim .notNil fid (arg :: formals))
    (hret : (s.forest.kind (s.forest.rep (p.node id).type)).child? .ret = some ret)
    (hstep : p.perform (.type id) s = some ((), t)) {c : TermId}
    (hc : c = s.forest.rep arg ∨ c = s.forest.rep ret) (hrebased : s.forest.Rebased t.forest c)
    {n : NodeId} (hn : n ∈ s.forest.deps c) :
    n ∈ t.work.pending ↔ n ∈ s.work.pending ∨ p.parent id = some n ∨
      ¬((∃ a, s.forest.IsBase arg a) ∧ ∃ r, s.forest.IsBase ret r) := by
  obtain ⟨hsound, hterms⟩ := termed_of_build hbuild
  have hs := termed_of_leads ⟨hsound, hterms⟩ hs
  obtain ⟨b, u, hrun, hu, hup, hannounced⟩ := perform_notNil hs hkind hstep
  have hstart := Call.sound_start hs.sound (some s.work)
  have hrebased : s.forest.Rebased u.forest c := by
    simpa only [Forest.Rebased, hup.isBase_iff hu.forest.rooted] using hrebased
  have hwaiting := (notNilStep_cases hstart hs.terms hkind hret hrun).waiting hstart rfl hc hrebased hn
  have hbefore : Waiting (some s.work) n ↔ n ∈ s.work.pending := by
    simp only [Waiting, Option.some.injEq, exists_eq_left']
  rw [show Waiting (Call.start s.forest (some s.work)).work n ↔ _ from hbefore] at hwaiting
  constructor
  · intro h
    rcases (hannounced n).2 h with h | h
    · exact hwaiting.1 h
    · exact Or.inr (Or.inl h)
  · exact fun h => (hannounced n).1 (hwaiting.2 h)

private theorem kind_of_isNotNil {id : NodeId} {fid : FunctionId} {formals : List TermId}
    (h : p.isNotNil id = true) (hfunction : (p.kind id).function? = some (fid, formals)) :
    p.kind id = .prim .notNil fid formals := by
  unfold isNotNil at h
  split at h
  · rename_i fid' formals' hkind
    rw [hkind] at hfunction
    cases hfunction
    exact hkind
  · cases h

/-- The program `f0 = ({ x1 -> "a" } (if f0 f0 f0)); "b"`, where a text guards itself. -/
def selfGuarded : Expr :=
  .letIn "f0" (.apply (.lambda ["x1"] (.text "a") true)
    [.apply (.prim .cond) [.ident "f0", .guarded "f0" (.ident "f0"), .ident "f0"]]) (.text "b")

/-- After 26 steps the guard has become `"a"` or nil, and the occurrence of `notNil` at node 13 makes any
text or nil of it.  Node 11, which is registered with the guard, does not wait before or after that. -/
theorem selfGuarded_met : ∃ p s₀ course s t fid arg formals ret,
    Program.build selfGuarded { maxIterations := 26, popOrder := .fifo } = .ok (p, s₀) ∧
      p.drive s₀ = some (course, s) ∧ p.kind 13 = .prim .notNil fid (arg :: formals) ∧
      (s.forest.kind (s.forest.rep (p.node 13).type)).child? .ret = some ret ∧
      p.perform (.type 13) s = some ((), t) ∧
      ((∃ a, s.forest.IsBase arg a) ∧ ∃ r, s.forest.IsBase ret r) ∧
      s.forest.Rebased t.forest (s.forest.rep arg) ∧ p.parent 13 = some 12 ∧
      11 ∈ s.forest.deps (s.forest.rep arg) ∧ 11 ∉ s.work.pending ∧ 11 ∉ t.work.pending := by
  have hrun : ((Program.build selfGuarded
      { maxIterations := 26, popOrder := .fifo }).toOption.bind
        fun r => (r.1.drive r.2).bind fun x => (r.1.perform (.type 13) x.2).bind fun y =>
          (r.1.kind 13).function?.bind fun function => function.2.head?.bind fun arg =>
            ((x.2.forest.kind (x.2.forest.rep (r.1.node 13).type)).child? .ret).map fun ret =>
              ([(x.2.forest.kind (x.2.forest.rep arg)).baseFlow?,
                (x.2.forest.kind (x.2.forest.rep ret)).baseFlow?,
                (y.2.forest.kind (x.2.forest.rep arg)).baseFlow?],
              [r.1.isNotNil 13, r.1.parent 13 == some 12,
                (x.2.forest.deps (x.2.forest.rep arg)).contains 11, x.2.work.has 11, y.2.work.has 11])) =
      some ([some (.text (some "a") true), some (.text none false), some (.text none true)],
        [true, true, true, false, false]) := by
    decide +kernel
  obtain ⟨r, hbuild, hrun⟩ := Option.bind_eq_some_iff.1 hrun
  obtain ⟨⟨course, s⟩, hdrive, hrun⟩ := Option.bind_eq_some_iff.1 hrun
  obtain ⟨⟨⟨⟩, t⟩, hstep, hrun⟩ := Option.bind_eq_some_iff.1 hrun
  obtain ⟨⟨fid, formals⟩, hfunction, hrun⟩ := Option.bind_eq_some_iff.1 hrun
  obtain ⟨arg, harg, hrun⟩ := Option.bind_eq_some_iff.1 hrun
  obtain ⟨ret, hret, hanswers⟩ := Option.map_eq_some_iff.1 hrun
  simp only [Prod.mk.injEq, List.cons.injEq, and_true, beq_iff_eq] at hanswers
  obtain ⟨⟨hbefore, hresult, hafter⟩, hnotNil, hparent, hdeps, hidle, hidle'⟩ := hanswers
  obtain ⟨⟨p, s₀⟩, hok, rfl⟩ := ok_of_map (f := id) (by rw [Option.map_id]; exact hbuild)
  obtain ⟨formals, rfl⟩ := List.head?_eq_some_iff.1 harg
  have hwaits : ∀ {w : Worklist} {n : NodeId}, w.has n = false → n ∉ w.pending := by
    intro w n h hn
    rw [Worklist.has, OrderedSet.contains_eq_true.2 hn] at h
    cases h
  have hleads := (drives_leads p).drive s₀ course s hdrive
  have hrooted := (termed_of_leads ⟨(termed_of_build hok).1, (termed_of_build hok).2⟩ hleads).sound.rooted
  have hrebased : s.forest.Rebased t.forest (s.forest.rep arg) := by
    have hafter := Kind.baseFlow?_eq_some.1 hafter
    have hbase : t.forest.IsBase (s.forest.rep arg) (.text none true) :=
      .base (by rw [Forest.rep_of_not_link (by rw [hafter]; rfl), hafter])
    refine Or.inl ⟨.text (some "a") true, .base ?_, fun h => absurd (h.unique hbase) (by decide)⟩
    rw [Forest.rep_rep hrooted, Kind.baseFlow?_eq_some.1 hbefore]
  exact ⟨p, s₀, course, s, t, fid, arg, formals, ret, hok, hdrive, kind_of_isNotNil hnotNil hfunction,
    hret, hstep, ⟨⟨_, .base (Kind.baseFlow?_eq_some.1 hbefore)⟩, _,
      .base (Kind.baseFlow?_eq_some.1 hresult)⟩, hrebased, hparent, OrderedSet.contains_eq_true.1 hdeps,
    hwaits hidle, hwaits hidle'⟩

/-- There whoever is registered with the guard waits only if it waited before or is the parent. -/
theorem notNil_announces_selfGuarded : ∃ p s₀ course s t fid arg formals,
    Program.build selfGuarded { maxIterations := 26, popOrder := .fifo } = .ok (p, s₀) ∧
      p.drive s₀ = some (course, s) ∧ p.kind 13 = .prim .notNil fid (arg :: formals) ∧
      p.perform (.type 13) s = some ((), t) ∧
      ∀ n ∈ s.forest.deps (s.forest.rep arg), (n ∈ t.work.pending ↔ n ∈ s.work.pending ∨ n = 12) := by
  obtain ⟨p, s₀, course, s, t, fid, arg, formals, ret, hbuild, hdrive, hkind, hret, hstep, hboth,
    hrebased, hparent, -⟩ := selfGuarded_met
  refine ⟨p, s₀, course, s, t, fid, arg, formals, hbuild, hdrive, hkind, hstep, fun n hn => ?_⟩
  rw [notNil_announces hbuild ((drives_leads p).drive s₀ course s hdrive) hkind hret hstep (Or.inl rfl)
    hrebased hn, hparent, Option.some.injEq, eq_comm (a := 12)]
  exact or_congr Iff.rfl (or_iff_left (not_not.2 hboth))

/-- So not everybody waits who is registered with the guard. -/
theorem notNil_forgets : ¬∀ e settings depth p s₀, Program.build e settings depth = .ok (p, s₀) →
    ∀ s t, p.Leads s₀ s → ∀ id fid arg formals ret,
      p.kind id = .prim .notNil fid (arg :: formals) →
      (s.forest.kind (s.forest.rep (p.node id).type)).child? .ret = some ret →
      p.perform (.type id) s = some ((), t) →
        ∀ c, c = s.forest.rep arg ∨ c = s.forest.rep ret → s.forest.Rebased t.forest c →
          ∀ n ∈ s.forest.deps c, n ≠ id → n ∈ t.work.pending := by
  intro h
  obtain ⟨p, s₀, course, s, t, fid, arg, formals, ret, hbuild, hdrive, hkind, hret, hstep, -, hrebased,
    -, hdeps, -, hidle⟩ := selfGuarded_met
  exact hidle (h _ _ _ p s₀ hbuild s t ((drives_leads p).drive s₀ course s hdrive) 13 fid arg formals
    ret hkind hret hstep _ (Or.inl rfl) hrebased 11 hdeps (by decide))

end Program

end TypeFlow
