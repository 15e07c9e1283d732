import Mathlib.Logic.Relation
import TypeFlow.Proofs.SoundForests

/-!
# Reachable classes

A class leads to the classes of its children.  The walks that register and wake nodes meet exactly
the classes that a term leads to, however types run in circles, since no class is entered twice and
there are never more classes to enter than the walk has fuel left.

Main definitions:

- `Forest.Edge`, `Forest.Reaches`: one class leads to another, through one slot or many.
- `Forest.Registered`: a node is registered with every class that a term leads to.

Main results:

- `Forest.mem_reach`: the walk from a term meets exactly the classes that it leads to.
- `Forest.registered_addDeps`: registering a node with a term registers it with all of them.
- `Forest.Registered.of_edges`: what adds no way between classes keeps nodes registered.
-/

namespace TypeFlow

/-- Inputs of a type are children. -/
theorem Kind.inputs_subset (k : Kind) : k.inputs ⊆ k.children := by
  intro x hx
  cases k with
  | function args ret fids nil => exact List.mem_append_left _ hx
  | nilable inner => exact hx
  | record fields sites isOpen nil => exact hx
  | _ => cases hx

namespace Forest

/-- A class has another in one of its slots. -/
def Edge (f : Forest) (a b : TermId) : Prop :=
  ∃ slot x, (f.kind a).child? slot = some x ∧ f.rep x = b

/-- A class leads to another through slots. -/
def Reaches (f : Forest) : TermId → TermId → Prop := Relation.ReflTransGen f.Edge

/-- A node is registered with every class that a term leads to. -/
def Registered (f : Forest) (t : TermId) (n : NodeId) : Prop :=
  ∀ c, f.Reaches (f.rep t) c → n ∈ f.deps c

/-! ## Ways between classes -/

/-- Edges lead to the classes of children. -/
theorem edge_iff {f : Forest} {a b : TermId} (ha : (f.kind a).isLink = false) :
    f.Edge a b ↔ ∃ x ∈ (f.kind a).children, f.rep x = b := by
  constructor
  · rintro ⟨slot, x, hx, hb⟩
    exact ⟨x, Kind.mem_children_of_child? hx, hb⟩
  · rintro ⟨x, hx, hb⟩
    obtain ⟨slot, hslot⟩ := (Kind.mem_children ha).1 hx
    exact ⟨slot, x, hslot, hb⟩

/-- An edge is one in another forest whose kinds have no fewer children and whose classes are the
same. -/
theorem Edge.of_children {f g : Forest} {a b : TermId} (h : g.Edge a b)
    (hlink : (f.kind a).isLink = false) (hrep : ∀ t, g.rep t = f.rep t)
    (hchildren : ∀ x ∈ (g.kind a).children, x ∈ (f.kind a).children) : f.Edge a b := by
  obtain ⟨slot, x, hx, rfl⟩ := h
  exact (edge_iff hlink).2 ⟨x, hchildren x (Kind.mem_children_of_child? hx), (hrep x).symm⟩

/-- No edge leads from a link. -/
theorem Edge.isLink {f : Forest} {a b : TermId} (h : f.Edge a b) : (f.kind a).isLink = false := by
  obtain ⟨slot, x, hx, -⟩ := h
  exact Kind.isLink_of_child? hx

private theorem Edge.lt_size {f : Forest} (hf : f.Sound) {a b : TermId} (h : f.Edge a b) : b < f.size := by
  obtain ⟨slot, x, hx, rfl⟩ := h
  exact rep_lt_size hf.rooted (hf.child_lt hx)

/-- Terms lead to terms only. -/
theorem Reaches.lt_size {f : Forest} (hf : f.Sound) {a b : TermId} (h : f.Reaches a b)
    (ha : a < f.size) : b < f.size := by
  rcases Relation.ReflTransGen.cases_tail h with rfl | ⟨c, -, hedge⟩
  · exact ha
  · exact hedge.lt_size hf

/-- A class leads to classes only. -/
theorem Reaches.rep_eq {f : Forest} (hf : f.Rooted) {a b : TermId} (h : f.Reaches a b)
    (ha : f.rep a = a) : f.rep b = b := by
  rcases Relation.ReflTransGen.cases_tail h with rfl | ⟨c, -, slot, x, -, rfl⟩
  · exact ha
  · exact rep_rep hf x

/-! ## Walks -/

section Walk

variable {f : Forest} {next : Kind → List TermId}

/-- The terms that a walk has not met yet. -/
def unseen (f : Forest) (seen : List TermId) : Finset TermId :=
  Finset.range f.size \ seen.toFinset

/-- The more was met the less is left. -/
theorem card_unseen_le {seen seen' : List TermId} (h : seen ⊆ seen') :
    (f.unseen seen').card ≤ (f.unseen seen).card := by
  refine Finset.card_le_card (Finset.sdiff_subset_sdiff (Finset.Subset.refl _) ?_)
  intro x hx
  exact List.mem_toFinset.2 (h (List.mem_toFinset.1 hx))

/-- Meeting a new class leaves less. -/
theorem card_unseen_cons {seen : List TermId} {r : TermId} (hr : r < f.size) (hnew : r ∉ seen) :
    (f.unseen (r :: seen)).card < (f.unseen seen).card := by
  refine Finset.card_lt_card (Finset.ssubset_iff_subset_ne.2 ⟨?_, ?_⟩)
  · refine Finset.sdiff_subset_sdiff (Finset.Subset.refl _) fun x hx => ?_
    exact List.mem_toFinset.2 (List.mem_cons_of_mem _ (List.mem_toFinset.1 hx))
  · intro e
    have hmem : r ∈ f.unseen seen :=
      Finset.mem_sdiff.2 ⟨Finset.mem_range.2 hr, fun h => hnew (List.mem_toFinset.1 h)⟩
    rw [← e] at hmem
    exact (Finset.mem_sdiff.1 hmem).2 (List.mem_toFinset.2 List.mem_cons_self)

private theorem mem_of_card_unseen {seen : List TermId} {r : TermId} (hr : r < f.size)
    (h : (f.unseen seen).card ≤ 0) : r ∈ seen := by
  by_contra hnew
  have := card_unseen_cons hr hnew
  omega

/-- A walk from several terms met them, and whatever its new classes lead to in one step. -/
structure Walked (f : Forest) (next : Kind → List TermId) (seen starts found : List TermId) :
    Prop where
  kept : seen ⊆ found
  start : ∀ t ∈ starts, f.rep t ∈ found
  closed : ∀ x ∈ found, x ∉ seen → ∀ c ∈ next (f.kind x), f.rep c ∈ found

private theorem Walked.cons {seen rest found found' : List TermId} {t : TermId}
    (h : f.Walked next seen [t] found) (h' : f.Walked next found rest found') :
    f.Walked next seen (t :: rest) found' where
  kept _ hx := h'.kept (h.kept hx)
  start u hu := by
    rcases List.mem_cons.1 hu with rfl | hu
    · exact h'.kept (h.start u (List.mem_singleton_self u))
    · exact h'.start u hu
  closed x hx hnew c hc := by
    by_cases hfound : x ∈ found
    · exact h'.kept (h.closed x hfound hnew c hc)
    · exact h'.closed x hx hfound c hc

/-- A walk with no less fuel than there are terms left to meet misses nothing. -/
theorem reachFrom_walked (hrange : ∀ x, ∀ c ∈ next (f.kind x), f.rep c < f.size) {fuel : Nat}
    {t : TermId} {seen : List TermId} (ht : f.rep t < f.size)
    (hfuel : (f.unseen seen).card ≤ fuel) :
    f.Walked next seen [t] (f.reachFrom next fuel t seen) := by
  induction fuel generalizing t seen with
  | zero =>
    refine ⟨fun _ hx => hx, ?_, fun x hx hnew => absurd hx hnew⟩
    intro u hu
    rw [List.mem_singleton.1 hu]
    exact mem_of_card_unseen ht hfuel
  | succ fuel ih =>
    have hall : ∀ (cs seen : List TermId), (∀ c ∈ cs, f.rep c < f.size) →
        (f.unseen seen).card ≤ fuel →
        f.Walked next seen cs (cs.foldl (fun seen c => f.reachFrom next fuel c seen) seen) := by
      intro cs
      induction cs with
      | nil =>
        intro seen _ _
        exact ⟨fun _ hx => hx, fun c hc => absurd hc List.not_mem_nil, fun x hx hnew => absurd hx hnew⟩
      | cons c rest ihc =>
        intro seen hcs hseen
        have hfirst := ih (hcs c List.mem_cons_self) hseen
        rw [List.foldl_cons]
        refine hfirst.cons (ihc _ (fun d hd => hcs d (List.mem_cons_of_mem _ hd)) ?_)
        exact (card_unseen_le hfirst.kept).trans hseen
    unfold reachFrom
    dsimp only
    split
    · rename_i hmem
      rw [List.contains_iff_mem] at hmem
      refine ⟨fun _ hx => hx, ?_, fun x hx hnew => absurd hx hnew⟩
      intro u hu
      rw [List.mem_singleton.1 hu]
      exact hmem
    · rename_i hnew
      rw [List.contains_iff_mem] at hnew
      have hless := card_unseen_cons ht hnew
      have hwalked := hall (next (f.kind (f.rep t))) (f.rep t :: seen) (hrange _) (by omega)
      refine ⟨fun x hx => hwalked.kept (List.mem_cons_of_mem _ hx), ?_, ?_⟩
      · intro u hu
        rw [List.mem_singleton.1 hu]
        exact hwalked.kept List.mem_cons_self
      · intro x hx hout c hc
        by_cases e : x = f.rep t
        · rw [e] at hc
          exact hwalked.start c hc
        · refine hwalked.closed x hx (fun hmem => ?_) c hc
          rcases List.mem_cons.1 hmem with hmem | hmem
          · exact e hmem
          · exact hout hmem

/-- A walk meets only classes that it is led to. -/
theorem reaches_of_mem_reachFrom (hf : f.Rooted) (hnext : ∀ k : Kind, next k ⊆ k.children)
    {fuel : Nat} {t x : TermId} {seen : List TermId} (hx : x ∈ f.reachFrom next fuel t seen) :
    x ∈ seen ∨ f.Reaches (f.rep t) x := by
  induction fuel generalizing t seen with
  | zero => exact Or.inl hx
  | succ fuel ih =>
    have hall : ∀ (cs seen : List TermId),
        x ∈ cs.foldl (fun seen c => f.reachFrom next fuel c seen) seen →
        x ∈ seen ∨ ∃ c ∈ cs, f.Reaches (f.rep c) x := by
      intro cs
      induction cs with
      | nil => exact fun seen hx => Or.inl hx
      | cons c rest ihc =>
        intro seen hx
        rcases ihc _ hx with hx | ⟨d, hd, hreach⟩
        · exact (ih hx).imp_right fun hreach => ⟨c, List.mem_cons_self, hreach⟩
        · exact Or.inr ⟨d, List.mem_cons_of_mem _ hd, hreach⟩
    unfold reachFrom at hx
    dsimp only at hx
    split at hx
    · exact Or.inl hx
    · rcases hall _ _ hx with hx | ⟨c, hc, hreach⟩
      · rcases List.mem_cons.1 hx with rfl | hx
        · exact Or.inr .refl
        · exact Or.inl hx
      · have hedge : f.Edge (f.rep t) (f.rep c) :=
          (edge_iff (not_isLink_rep hf t)).2 ⟨c, hnext _ hc, rfl⟩
        exact Or.inr (.head hedge hreach)

/-- What a walk along some children meets the type leads to. -/
theorem reaches_of_mem_reachBy (hf : f.Rooted) (hnext : ∀ k : Kind, next k ⊆ k.children)
    {t x : TermId} (hx : x ∈ f.reachBy next t) : f.Reaches (f.rep t) x := by
  rw [reachBy, List.mem_reverse] at hx
  rcases reaches_of_mem_reachFrom hf hnext hx with hx | hreach
  · exact absurd hx List.not_mem_nil
  · exact hreach

/-- The walk from a term meets exactly the classes that the term leads to. -/
theorem mem_reach (hf : f.Sound) {t c : TermId} (ht : t < f.size) :
    c ∈ f.reach t ↔ f.Reaches (f.rep t) c := by
  constructor
  · exact reaches_of_mem_reachBy hf.rooted fun _ => List.Subset.refl _
  · have hrange : ∀ x, ∀ d ∈ (f.kind x).children, f.rep d < f.size := fun x d hd =>
      rep_lt_size hf.rooted (hf.inRange x d hd)
    have hfuel : (f.unseen []).card ≤ f.size + 1 := by
      rw [unseen, List.toFinset_nil, Finset.sdiff_empty, Finset.card_range]
      exact Nat.le_succ _
    have hwalked := reachFrom_walked hrange (rep_lt_size hf.rooted ht) hfuel
    intro hreach
    rw [reach, reachBy, List.mem_reverse]
    induction hreach with
    | refl => exact hwalked.start t (List.mem_singleton_self t)
    | tail _ hedge ih =>
      obtain ⟨slot, x, hx, rfl⟩ := hedge
      exact hwalked.closed _ ih List.not_mem_nil x (Kind.mem_children_of_child? hx)

end Walk

/-! ## Registering and waking -/

/-- Registering a node with a term registers it with every class that the term leads to. -/
theorem mem_deps_addDeps_of_reaches {f : Forest} (hf : f.Sound) {t c : TermId} (ht : t < f.size)
    {nodes : List NodeId} {n : NodeId} (hn : n ∈ nodes) (hc : f.Reaches (f.rep t) c) :
    n ∈ (f.addDeps t nodes).deps c :=
  mem_deps_addDeps.2
    (Or.inr ⟨hn, (mem_reach hf ht).2 hc, hc.lt_size hf (rep_lt_size hf.rooted ht)⟩)

/-- Waking a term announces who is registered with any class that the term leads to. -/
theorem mem_wake_of_reaches {f : Forest} (hf : f.Sound) {t c : TermId} (ht : t < f.size)
    {work : Worklist} {n : NodeId} (hn : n ∈ f.deps c) (hc : f.Reaches (f.rep t) c) :
    n ∈ (f.wake t work).pending :=
  mem_wake.2 (Or.inr ⟨c, (mem_reach hf ht).2 hc, hn⟩)

/-- What keeps the classes and adds no way between those that a term leads to keeps nodes
registered with it. -/
theorem Registered.of_edges {f g : Forest} {t : TermId} {n : NodeId} (h : f.Registered t n)
    (hrep : g.rep t = f.rep t)
    (hedge : ∀ a b, f.Reaches (f.rep t) a → g.Edge a b → f.Reaches a b)
    (hdeps : ∀ c, n ∈ f.deps c → n ∈ g.deps c) : g.Registered t n := by
  suffices hreach : ∀ c, g.Reaches (g.rep t) c → f.Reaches (f.rep t) c from
    fun c hc => hdeps c (h c (hreach c hc))
  intro c hc
  induction hc with
  | refl =>
    rw [hrep]
    exact .refl
  | tail _ hab ih => exact ih.trans (hedge _ _ ih hab)

/-- A node is registered with the type that it is added to. -/
theorem registered_addDeps {f : Forest} (hf : f.Sound) {t : TermId} (ht : t < f.size)
    (n : NodeId) : (f.addDeps t [n]).Registered t n := by
  have hrep := (addDeps_tidied f t [n] hf.rooted).1.rep
  intro c hc
  refine mem_deps_addDeps_of_reaches hf ht (List.mem_singleton_self n) ?_
  rw [hrep] at hc
  refine Relation.ReflTransGen.mono ?_ _ _ hc
  rintro a b ⟨slot, x, hx, rfl⟩
  rw [kind_addDeps] at hx
  exact ⟨slot, x, hx, (hrep x).symm⟩

end Forest

end TypeFlow
