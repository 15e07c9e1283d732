import Mathlib.Tactic.Tauto
import TypeFlow.Program.CallResult
import TypeFlow.Proofs.Classes
import TypeFlow.Proofs.Computations

/-!
# Registered nodes and look-ups

Nodes are registered with every class that a term leads to, and waking a term announces all that are
registered there.  So a node registered with the class of a term is announced whenever that class
is woken, however the types around it have grown.  Registering nodes and looking classes up only
tidy a forest.

Main results:

- `Forest.mem_deps_addDeps`: registering adds the nodes to exactly the classes met.
- `Forest.mem_wake`: waking announces exactly the nodes registered with a class met.
- `Forest.find_tidied`: looking a class up tidies and answers its representative.
-/

namespace TypeFlow

namespace Forest

/-! ## Registering -/

private theorem mem_reachFrom_of_mem {f : Forest} {next : Kind → List TermId} {fuel : Nat} {t x : TermId}
    {seen : List TermId} (hx : x ∈ seen) : x ∈ f.reachFrom next fuel t seen := by
  induction fuel generalizing t seen with
  | zero => exact hx
  | succ fuel ih =>
    unfold reachFrom
    dsimp only
    split
    · exact hx
    · generalize next (f.kind (f.rep t)) = children
      have hx' : x ∈ f.rep t :: seen := List.mem_cons_of_mem _ hx
      generalize f.rep t :: seen = seen' at hx'
      induction children generalizing seen' with
      | nil => exact hx'
      | cons child rest ihc =>
        rw [List.foldl_cons]
        exact ihc _ (ih hx')

/-- A walk begins with the class of its term. -/
theorem rep_mem_reachBy (f : Forest) (next : Kind → List TermId) (t : TermId) :
    f.rep t ∈ f.reachBy next t := by
  unfold reachBy
  rw [List.mem_reverse, reachFrom]
  simp only [List.contains_nil, Bool.false_eq_true, ↓reduceIte]
  have hmem : f.rep t ∈ [f.rep t] := List.mem_singleton_self _
  generalize [f.rep t] = seen at hmem
  induction next (f.kind (f.rep t)) generalizing seen with
  | nil => exact hmem
  | cons child rest ih =>
    rw [List.foldl_cons]
    exact ih _ (mem_reachFrom_of_mem hmem)

/-- A term leads to its class. -/
theorem rep_mem_reach (f : Forest) (t : TermId) : f.rep t ∈ f.reach t :=
  rep_mem_reachBy f Kind.children t

/-- The forest with nodes registered with several terms. -/
def register (f : Forest) (ts : List TermId) (nodes : List NodeId) : Forest :=
  ts.foldl (fun f r => f.update r fun term => { term with deps := term.deps.insertAll nodes }) f

@[simp] theorem kind_register (f : Forest) (ts : List TermId) (nodes : List NodeId) (t : TermId) :
    (f.register ts nodes).kind t = f.kind t := by
  unfold register
  induction ts generalizing f with
  | nil => rfl
  | cons r rest ih =>
    rw [List.foldl_cons, ih, kind_update]
    split
    · unfold kind
      cases f.terms[t]? <;> rfl
    · rfl

@[simp] theorem size_register (f : Forest) (ts : List TermId) (nodes : List NodeId) :
    (f.register ts nodes).size = f.size := by
  unfold register
  induction ts generalizing f with
  | nil => rfl
  | cons r rest ih => rw [List.foldl_cons, ih, size_update]

@[simp] theorem isInput_register (f : Forest) (ts : List TermId) (nodes : List NodeId)
    (t : TermId) : (f.register ts nodes).isInput t = f.isInput t := by
  unfold register
  induction ts generalizing f with
  | nil => rfl
  | cons r rest ih =>
    rw [List.foldl_cons, ih]
    apply isInput_update
    intro term
    rfl

private theorem mem_deps_register {f : Forest} {ts : List TermId} {nodes : List NodeId} {r : TermId}
    {n : NodeId} :
    n ∈ (f.register ts nodes).deps r ↔ n ∈ f.deps r ∨ n ∈ nodes ∧ r ∈ ts ∧ r < f.size := by
  unfold register
  induction ts generalizing f with
  | nil => simp
  | cons t rest ih =>
    rw [List.foldl_cons, ih, size_update]
    have hdeps : n ∈ (f.update t fun term => { term with deps := term.deps.insertAll nodes }).deps r
        ↔ n ∈ f.deps r ∨ n ∈ nodes ∧ t = r ∧ r < f.size := by
      unfold deps update
      rw [Array.getElem?_modify]
      by_cases hr : r < f.size
      · have hsome : f.terms[r]? = some f.terms[r] := Array.getElem?_eq_getElem hr
        by_cases e : t = r
        · simp [e, hsome, hr, or_comm]
        · simp [e, hsome]
      · have hnone : f.terms[r]? = none := Array.getElem?_eq_none (Nat.le_of_not_lt hr)
        simp [hnone, hr]
    rw [hdeps, List.mem_cons, eq_comm (a := r)]
    tauto

private theorem addDeps_eq (f : Forest) (t : TermId) (nodes : List NodeId) :
    f.addDeps t nodes = if nodes.isEmpty then f else f.register (f.reach t) nodes := rfl

/-- Registering adds the nodes to exactly the classes that the term leads to. -/
theorem mem_deps_addDeps {f : Forest} {t : TermId} {nodes : List NodeId} {r : TermId} {n : NodeId} :
    n ∈ (f.addDeps t nodes).deps r ↔
      n ∈ f.deps r ∨ n ∈ nodes ∧ r ∈ f.reach t ∧ r < f.size := by
  rw [addDeps_eq]
  split
  · rename_i e
    rw [List.isEmpty_iff.1 e]
    simp
  · exact mem_deps_register

@[simp] theorem kind_addDeps (f : Forest) (t u : TermId) (nodes : List NodeId) :
    (f.addDeps t nodes).kind u = f.kind u := by
  rw [addDeps_eq]
  split
  · rfl
  · exact kind_register _ _ _ _

@[simp] theorem size_addDeps (f : Forest) (t : TermId) (nodes : List NodeId) :
    (f.addDeps t nodes).size = f.size := by
  rw [addDeps_eq]
  split
  · rfl
  · exact size_register _ _ _

/-- Registering nodes counts no union. -/
theorem unions_addDeps (f : Forest) (t : TermId) (nodes : List NodeId) :
    (f.addDeps t nodes).unions = f.unions := by
  unfold addDeps
  split
  · rfl
  · generalize f.reach t = ts
    induction ts generalizing f with
    | nil => rfl
    | cons r rest ih =>
      rw [List.foldl_cons, ih]
      rfl

@[simp] theorem isInput_addDeps (f : Forest) (t u : TermId) (nodes : List NodeId) :
    (f.addDeps t nodes).isInput u = f.isInput u := by
  rw [addDeps_eq]
  split
  · rfl
  · exact isInput_register _ _ _ _

/-- Registering nodes leaves classes and types alone. -/
theorem addDeps_tidied (f : Forest) (t : TermId) (nodes : List NodeId) :
    Tidied f (f.addDeps t nodes) := by
  intro h
  constructor
  · refine (SameClasses.refl h).of_kinds (size_addDeps _ _ _) (unions_addDeps _ _ _) ?_ ?_ ?_ ?_ ?_
      (isInput_addDeps f t · nodes)
    · intro hrange x y hy
      rw [kind_addDeps] at hy
      rw [size_addDeps]
      exact hrange x y hy
    · intro x u hu
      rw [kind_addDeps] at hu
      exact Or.inl hu
    · intro x hx
      rw [kind_addDeps] at hx
      exact hx
    · intro x
      rw [kind_addDeps]
    · intro x n hn
      exact mem_deps_addDeps.2 (Or.inl hn)
  · constructor
    · intro hu
      exact ⟨fun x => by rw [kind_addDeps]; exact hu x, fun x _ => kind_addDeps _ _ _ _⟩
    · intro K _ hf x flow hx
      rw [kind_addDeps] at hx
      exact hf x flow hx

/-! ## Waking -/

private theorem mem_pushAll {work : Worklist} {nodes : List NodeId} {n : NodeId} :
    n ∈ (work.pushAll nodes).pending ↔ n ∈ nodes ∨ n ∈ work.pending :=
  OrderedSet.mem_insertAll

/-- Waking a term announces the nodes registered with a class it leads to, and no others. -/
theorem mem_wake {f : Forest} {t : TermId} {work : Worklist} {n : NodeId} :
    n ∈ (f.wake t work).pending ↔
      n ∈ work.pending ∨ ∃ r ∈ f.reach t, n ∈ f.deps r := by
  unfold wake
  induction f.reach t generalizing work with
  | nil => simp
  | cons r rest ih =>
    rw [List.foldl_cons, ih, mem_pushAll]
    simp only [List.mem_cons, OrderedSet.mem_def, or_and_right, exists_or, exists_eq_left]
    rw [or_assoc, or_left_comm]

/-- Waking takes nobody off the worklist. -/
theorem pops_wake (f : Forest) (t : TermId) (work : Worklist) :
    (f.wake t work).pops = work.pops := by
  unfold wake
  induction f.reach t generalizing work with
  | nil => rfl
  | cons r rest ih => exact ih _

/-! ## Looking classes up -/

/-- A wrapper takes over the class within it without a change of the classes. -/
theorem SameClasses.absorb {e f : Forest} (h : SameClasses e f) {wrapper inner : TermId}
    (hw : (f.kind wrapper).isLink = false) (hvar : f.kind wrapper ≠ .var)
    (hrange : e.InRange → inner < f.size) : SameClasses e (absorb wrapper inner f) := by
  have hset : ∀ k : Kind, k.isLink = false → k ≠ .var →
      (e.InRange → ∀ x ∈ k.children, x < f.size) → SameClasses e (f.setKind wrapper k) := by
    intro k hk hkvar hchildren
    refine h.setKind ?_ (fun _ => hw) hkvar hvar hchildren
    rintro u rfl
    cases hk
  unfold Forest.absorb
  split
  · refine hset _ rfl Kind.noConfusion fun he x hx => ?_
    rw [List.mem_singleton.1 hx]
    exact hrange he
  · exact h
  · rename_i hinner hlink
    have hk : (f.kind inner).orNil.isLink = false ∧ (f.kind inner).orNil ≠ .var := by
      rw [Kind.isLink_orNil]
      cases e : f.kind inner with
      | var => exact absurd e hinner
      | link u => exact absurd e (hlink u)
      | _ => exact ⟨rfl, Kind.noConfusion⟩
    have hkind := hset _ hk.1 hk.2 fun he x hx => by
      rw [Kind.children_orNil] at hx
      exact h.inRange he inner x hx
    exact hkind.trans (addDeps_tidied _ _ _ hkind.rooted).1

/-- A wrapper takes over a base type together with nil. -/
theorem Bases.absorb {K : Flow → Prop} {f : Forest} (hK : ∀ a, K a → K a.orNil) (h : f.Bases K)
    (wrapper inner : TermId) : (absorb wrapper inner f).Bases K := by
  unfold Forest.absorb
  split
  · exact h.setKind wrapper fun _ => Kind.noConfusion
  · exact h
  · intro x flow hx
    rw [kind_addDeps] at hx
    refine h.setKind wrapper (fun flow hflow => ?_) x flow hx
    cases hk : f.kind inner with
    | base old =>
      rw [hk] at hflow
      cases hflow
      exact hK old (h inner old hk)
    | _ =>
      rw [hk] at hflow
      cases hflow

/-- Looking a class up tidies and answers its representative. -/
theorem findFrom_tidied {fuel : Nat} {t r : TermId} {f g : Forest} (h : f.Rooted)
    (hf : findFrom fuel t f = some (r, g)) :
    SameClasses f g ∧ SameTypes f g ∧ r = f.rep t := by
  induction fuel generalizing t r f g with
  | zero => simp [findFrom, failure_eq_some] at hf
  | succ fuel ih =>
    unfold findFrom at hf
    obtain ⟨_, _, hget, hf⟩ := bind_eq_some.1 hf
    obtain ⟨rfl, rfl⟩ := get_eq_some.1 hget
    obtain ⟨_, f₁, hcompress, hf⟩ := bind_eq_some.1 hf
    rw [modify_eq_some] at hcompress
    obtain ⟨hc, ht⟩ : SameClasses f f₁ ∧ SameTypes f f₁ :=
      hcompress ▸ compress_tidied rfl f.size h
    obtain ⟨_, _, hget, hf⟩ := bind_eq_some.1 hf
    obtain ⟨rfl, rfl⟩ := get_eq_some.1 hget
    cases hk : f₁.kind (f.rep t) with
    | nilable inner =>
      simp only [hk] at hf
      obtain ⟨inner', f₂, hrec, hf⟩ := bind_eq_some.1 hf
      obtain ⟨_, f₃, habsorb, hf⟩ := bind_eq_some.1 hf
      rw [modify_eq_some] at habsorb
      obtain ⟨rfl, rfl⟩ := pure_eq_some.1 hf
      have hc₂ := hc.trans (ih hc.rooted hrec).1
      have ht₂ := ht.trans (ih hc.rooted hrec).2.1
      have hroot : (f₂.kind (f.rep t)).isLink = false := by
        have hrep : f₂.rep (f.rep t) = f.rep t := by rw [hc₂.rep, rep_rep h]
        rw [← hrep]
        exact not_isLink_rep hc₂.rooted _
      have hvar : f₂.kind (f.rep t) ≠ .var := by
        rw [Ne, (ih hc.rooted hrec).1.var, hk]
        exact Kind.noConfusion
      have hrange : f.InRange → inner' < f₂.size := fun hf => by
        have hinner : inner < f₁.size :=
          hc.inRange hf (f.rep t) inner (by rw [hk]; exact List.mem_singleton_self inner)
        rw [(ih hc.rooted hrec).2.2, (ih hc.rooted hrec).1.size]
        exact rep_lt_size hc.rooted hinner
      rw [← habsorb]
      refine ⟨hc₂.absorb hroot hvar hrange, ⟨fun hu => ?_, fun K hK hf => ?_⟩, rfl⟩
      · have := (ht.unwrapped hu).1 (f.rep t)
        rw [hk] at this
        cases this
      · exact (ht₂.bases K hK hf).absorb hK _ _
    | _ =>
      simp only [hk] at hf
      obtain ⟨rfl, rfl⟩ := pure_eq_some.1 hf
      exact ⟨hc, ht, rfl⟩

/-- So does looking a class up, and it answers that. -/
theorem find_tidied {t r : TermId} {f g : Forest} (h : f.Rooted) (hf : find t f = some (r, g)) :
    SameClasses f g ∧ SameTypes f g ∧ r = f.rep t := by
  obtain ⟨_, _, hget, hf⟩ := bind_eq_some.1 hf
  obtain ⟨rfl, rfl⟩ := get_eq_some.1 hget
  exact findFrom_tidied h hf

/-- So does looking up several. -/
theorem findAll_tidied {ts rs : List TermId} {f g : Forest} (h : f.Rooted)
    (hf : findAll ts f = some (rs, g)) :
    SameClasses f g ∧ SameTypes f g ∧ rs = ts.map f.rep := by
  induction ts generalizing rs f with
  | nil =>
    obtain ⟨rfl, rfl⟩ := pure_eq_some.1 hf
    exact ⟨SameClasses.refl h, SameTypes.refl f, rfl⟩
  | cons t rest ih =>
    obtain ⟨r, f₁, hfind, hf⟩ := bind_eq_some.1 hf
    obtain ⟨rs', f₂, hrest, hf⟩ := bind_eq_some.1 hf
    obtain ⟨rfl, rfl⟩ := pure_eq_some.1 hf
    obtain ⟨hc, ht, rfl⟩ := find_tidied h hfind
    obtain ⟨hc', ht', rfl⟩ := ih hc.rooted hrest
    refine ⟨hc.trans hc', ht.trans ht', ?_⟩
    rw [List.map_cons]
    congr 1
    exact List.map_congr_left fun x _ => hc.rep x

/-- Looking a class up keeps all classes and types. -/
theorem keeps_find (t : TermId) : Keeps Tidied (find t) := by
  intro f r g hf h
  obtain ⟨hc, ht, -⟩ := find_tidied h hf
  exact ⟨hc, ht⟩

/-- So does looking up several. -/
theorem keeps_findAll (ts : List TermId) : Keeps Tidied (findAll ts) := by
  intro f rs g hf h
  obtain ⟨hc, ht, -⟩ := findAll_tidied h hf
  exact ⟨hc, ht⟩

end Forest

namespace Program

/-- So does watching one. -/
theorem keeps_watch (t : TermId) (id : NodeId) : Keeps Forest.Tidied (watch t id) :=
  keeps_modify fun f => Forest.addDeps_tidied f t [id]

/-- Projecting a type to its widest flow leaves the forest alone. -/
theorem widestOf_eq_some {t : TermId} {f g : Forest} {flow : Flow} :
    widestOf t f = some (flow, g) ↔ f.widest t = some flow ∧ f = g := by
  constructor
  · intro h
    obtain ⟨f', g', hget, hwidest⟩ := bind_eq_some.1 h
    obtain ⟨rfl, rfl⟩ := get_eq_some.1 hget
    cases hw : f.widest t with
    | none => simp only [hw, failure_eq_some] at hwidest
    | some flow' =>
      simp only [hw] at hwidest
      obtain ⟨rfl, rfl⟩ := pure_eq_some.1 hwidest
      exact ⟨rfl, rfl⟩
  · rintro ⟨hw, rfl⟩
    refine bind_eq_some.2 ⟨f, f, get_eq_some.2 ⟨rfl, rfl⟩, ?_⟩
    simp only [hw]
    exact pure_eq_some.2 ⟨rfl, rfl⟩

/-- So it keeps any reflexive relation. -/
theorem keeps_widestOf {F : Forest → Forest → Prop} [Std.Refl F] (t : TermId) :
    Keeps F (widestOf t) := by
  intro f flow g h
  rw [(widestOf_eq_some.1 h).2]
  exact Std.Refl.refl g

end Program

end TypeFlow
