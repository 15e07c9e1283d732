import TypeFlow.Proofs.NewNodes
import TypeFlow.Proofs.OrderlyForests

/-!
# Orderly steps of a construction

Every step of the construction but one has a result: look-ups come to an end and unifications merge
variables, as long as the forest is orderly.  Only an identifier that nothing binds ends it.

Main definitions:

- `Builder.Meets`: a step ends in the error that a name is missing, or has a result of some kind.
- `Builder.Orderly`: the forest is orderly and exactly the nodes wait.
- `Builder.Tends`: only the forest changed, which is left orderly.

Main results:

- `Builder.Meets.bind`: the first name that is missing ends the construction.
- `Builder.find_meets`, `Builder.unify_meets`, `Builder.primitiveType_meets`: steps have results.
-/

namespace TypeFlow

namespace Builder

variable {α β : Type} {b c d : Builder}

/-! ## Results and errors -/

/-- The step ends in the error that a name is undefined, if one is missing, and has a result with
the property otherwise. -/
def Meets (b : Builder) (missing : Option String) (post : α → Builder → Prop) (m : BuildM α) :
    Prop :=
  match missing with
  | some name => m b = .error (.undefined name)
  | none => ∃ x d, m b = .ok (x, d) ∧ post x d

section Rules

variable {missing missing' : Option String} {post : α → Builder → Prop}
  {post' : β → Builder → Prop}

/-- An answer is met. -/
theorem meets_pure {x : α} (h : post x b) : Meets b none post (pure x) :=
  ⟨x, b, pure_eq_ok.2 ⟨rfl, rfl⟩, h⟩

/-- The first name that is missing ends two steps in turn. -/
theorem Meets.bind {m : BuildM β} {k : β → BuildM α} (hm : Meets b missing post' m)
    (hk : ∀ y c, m b = .ok (y, c) → post' y c → Meets c missing' post (k y)) :
    Meets b (missing.or missing') post (m >>= k) := by
  have hbind : (m >>= k) b = (m b).bind fun r => k r.1 r.2 := rfl
  cases missing with
  | some name =>
    have hm : m b = .error (.undefined name) := hm
    show (m >>= k) b = .error (.undefined name)
    rw [hbind, hm]
    rfl
  | none =>
    obtain ⟨y, c, hc, hy⟩ := hm
    rw [hc] at hbind
    have hk := hk y c hc hy
    cases missing' with
    | some name => exact hbind.trans hk
    | none =>
      obtain ⟨x, d, hd, hx⟩ := hk
      exact ⟨x, d, hbind.trans hd, hx⟩

/-- Nothing is missing any more in the steps that follow. -/
theorem Meets.last {m : BuildM β} {k : β → BuildM α} (hm : Meets b missing post' m)
    (hk : ∀ y c, m b = .ok (y, c) → post' y c → Meets c none post (k y)) :
    Meets b missing post (m >>= k) := by
  have h := hm.bind hk
  rwa [Option.or_none] at h

/-- A step that always has a result misses nothing. -/
theorem Meets.step {m : BuildM β} {k : β → BuildM α} (hm : Meets b none post' m)
    (hk : ∀ y c, m b = .ok (y, c) → post' y c → Meets c missing post (k y)) :
    Meets b missing post (m >>= k) := hm.bind hk

/-- A step whose result is known. -/
theorem Meets.known {m : BuildM β} {k : β → BuildM α} {y : β} (hm : m b = .ok (y, c))
    (hk : Meets c missing post (k y)) : Meets b missing post (m >>= k) := by
  have hstep : Meets b none (fun y' c' => y' = y ∧ c' = c) m := ⟨y, c, hm, rfl, rfl⟩
  exact hstep.step fun _ _ _ ⟨hy, hc⟩ => hy ▸ hc ▸ hk

/-- Adding a node returns. -/
theorem Meets.addNode {parent : Option NodeId} {pinned : List TermId} {type : TermId}
    {k : NodeId → BuildM α}
    (hk : ∀ id c, addNode parent pinned type b = .ok (id, c) → Meets c missing post (k id)) :
    Meets b missing post (Builder.addNode parent pinned type >>= k) :=
  Meets.known (addNode_eq_ok.2 ⟨rfl, rfl⟩) (hk _ _ (addNode_eq_ok.2 ⟨rfl, rfl⟩))

/-- So does setting the kind of one. -/
theorem Meets.setKind {id : NodeId} {kind : NodeKind} {k : Unit → BuildM α}
    (hk : ∀ c, setKind id kind b = .ok ((), c) → Meets c missing post (k ())) :
    Meets b missing post (Builder.setKind id kind >>= k) :=
  Meets.known (setKind_eq_ok.2 rfl) (hk _ (setKind_eq_ok.2 rfl))

/-- So does setting its type. -/
theorem Meets.setType {id : NodeId} {type : TermId} {k : Unit → BuildM α}
    (hk : ∀ c, setType id type b = .ok ((), c) → Meets c missing post (k ())) :
    Meets b missing post (Builder.setType id type >>= k) :=
  Meets.known (setType_eq_ok.2 rfl) (hk _ (setType_eq_ok.2 rfl))

/-- So does adding a function. -/
theorem Meets.addFunction {id : NodeId} {k : Unit → BuildM α}
    (hk : ∀ c, addFunction id b = .ok ((), c) → Meets c missing post (k ())) :
    Meets b missing post (Builder.addFunction id >>= k) :=
  Meets.known (addFunction_eq_ok.2 rfl) (hk _ (addFunction_eq_ok.2 rfl))

/-- A step that has a result misses nothing. -/
theorem Meets.result {m : BuildM α} {x : α} (h : Meets b missing post m) (hm : m b = .ok (x, d)) :
    missing = none ∧ post x d := by
  cases missing with
  | some name =>
    have h : m b = .error (.undefined name) := h
    rw [h] at hm
    cases hm
  | none =>
    obtain ⟨y, c, hc, hy⟩ := h
    rw [hc] at hm
    cases hm
    exact ⟨rfl, hy⟩

/-- What is met satisfies any weaker condition. -/
theorem Meets.imp {post₁ : α → Builder → Prop} {m : BuildM α} (h : Meets b missing post₁ m)
    (himp : ∀ x d, m b = .ok (x, d) → post₁ x d → post x d) : Meets b missing post m := by
  cases missing with
  | some name => exact h
  | none =>
    obtain ⟨x, d, hd, hx⟩ := h
    exact ⟨x, d, hd, himp x d hd hx⟩

end Rules

/-! ## Order -/

/-- The forest is orderly, and exactly the nodes wait, in order. -/
structure Orderly (b : Builder) : Prop where
  forest : b.forest.Orderly b.nodes.size
  pending : b.work.pending.toList = List.range b.nodes.size

/-- What was built is left orderly, and classes are kept. -/
structure Spares (b d : Builder) : Prop where
  orderly : d.Orderly
  spares : b.forest.Spares d.nodes.size d.forest
  grows : Forest.Grows b.forest d.forest

/-- Only the forest changed. -/
structure Tends (b d : Builder) : Prop extends Spares b d where
  nodes : d.nodes = b.nodes

/-- An orderly builder has a rooted forest. -/
theorem Orderly.rooted (hb : b.Orderly) : b.forest.Rooted := hb.forest.sound.rooted

/-- An orderly builder spares itself. -/
theorem Spares.refl (hb : b.Orderly) : Spares b b :=
  ⟨hb, .refl hb.forest, (Forest.Extends.refl hb.rooted).grows hb.rooted⟩

/-- Builders are spared in turn. -/
theorem Spares.trans (h : Spares b c) (h' : Spares c d) : Spares b d :=
  ⟨h'.orderly, h.spares.trans h'.spares, h.grows.trans h'.grows⟩

/-- An orderly builder tends to itself. -/
theorem Tends.refl (hb : b.Orderly) : Tends b b := ⟨.refl hb, rfl⟩

/-- Builders tend to others in turn. -/
theorem Tends.trans (h : Tends b c) (h' : Tends c d) : Tends b d :=
  ⟨h.toSpares.trans h'.toSpares, h'.nodes.trans h.nodes⟩

/-- A new forest that spares what was loose. -/
theorem Orderly.tends (hb : b.Orderly) {f : Forest} (hs : b.forest.Spares b.nodes.size f)
    (hg : Forest.Grows b.forest f) : Tends b { b with forest := f } :=
  ⟨⟨⟨hs.orderly, hb.pending⟩, hs, hg⟩, rfl⟩

/-- A new node is registered nowhere yet and waits. -/
theorem addNode_spares (hb : b.Orderly) {parent : Option NodeId} {pinned : List TermId}
    {type : TermId} {id : NodeId} (h : addNode parent pinned type b = .ok (id, d)) :
    Spares b d := by
  obtain ⟨rfl, rfl⟩ := addNode_eq_ok.1 h
  have hsize : (b.nodes.push ⟨.const .any, parent, pinned, type⟩).size = b.nodes.size + 1 :=
    Array.size_push _
  refine ⟨⟨?_, ?_⟩, ?_, (Forest.Extends.refl hb.rooted).grows hb.rooted⟩
  · exact hb.forest.mono (hsize ▸ Nat.le_succ _)
  · have hnew : b.nodes.size ∉ b.work.pending := by
      rw [OrderedSet.mem_def, hb.pending, List.mem_range]
      exact Nat.lt_irrefl _
    rw [hsize, List.range_succ, ← hb.pending]
    exact (OrderedSet.toList_insert _ _).trans (if_neg hnew)
  · exact .refl (hb.forest.mono (hsize ▸ Nat.le_succ _))

/-- An orderly builder is tended when a function is added. -/
theorem addFunction_tends (hb : b.Orderly) {id : NodeId} {u : Unit}
    (h : addFunction id b = .ok (u, d)) : Tends b d := by
  rw [addFunction_eq_ok.1 h]
  exact ⟨⟨⟨hb.forest, hb.pending⟩, .refl hb.forest,
    (Forest.Extends.refl hb.rooted).grows hb.rooted⟩, rfl⟩

/-- So it is when a site is given out. -/
theorem newSite_tends (hb : b.Orderly) {site : SiteId} (h : newSite b = .ok (site, d)) :
    Tends b d := by
  rw [(newSite_eq_ok.1 h).2]
  exact ⟨⟨⟨hb.forest, hb.pending⟩, .refl hb.forest,
    (Forest.Extends.refl hb.rooted).grows hb.rooted⟩, rfl⟩

/-- Filling a node in changes no types. -/
theorem Filled.spares {id : NodeId} {kind : NodeKind} {type : TermId} (hb : b.Orderly)
    (hd : Filled id kind type b d) : Spares b d := by
  obtain ⟨-, hsize, -, hforest, hwork⟩ := hd
  refine ⟨⟨?_, ?_⟩, ?_, ?_⟩
  · rw [hsize, hforest]
    exact hb.forest
  · rw [hsize, hwork]
    exact hb.pending
  · rw [hsize, hforest]
    exact .refl hb.forest
  · rw [hforest]
    exact (Forest.Extends.refl hb.rooted).grows hb.rooted

/-! ## Steps -/

variable {t : TermId} {id : NodeId}

private theorem unify_of_run {x y : TermId} {r : Bool} {v : Unifier}
    (h : Unifier.unify 1 x y ⟨b.forest, some b.work, [], []⟩ = some (r, v)) :
    unify x y b = .ok ((), { b with forest := v.forest, work := v.work.getD .empty }) := by
  obtain ⟨nodes, functions, nextSite, forest, work⟩ := b
  have hrun : (Unifier.unify 1 x y).run ⟨forest, some work, [], []⟩ = some (r, v) := h
  unfold unify
  simp only [hrun]

section Steps

variable (hb : b.Orderly)

include hb

private theorem alloc_meets {kind : Kind} (hlink : kind.isLink = false) (hwrap : kind.isNilable = false)
    (hkind : ∀ x ∈ kind.children, x < b.forest.size) :
    Meets b none (fun t d => Tends b d ∧ d.forest.Loose t) (alloc kind) := by
  obtain ⟨hspares, hloose⟩ := hb.forest.alloc kind hlink hwrap hkind
  exact ⟨_, _, grow_eq_ok.2 ⟨rfl, rfl⟩,
    hb.tends hspares ((Forest.alloc_extends hb.rooted hlink).grows hb.rooted), hloose⟩

/-- Making a type without children returns a loose one. -/
theorem alloc_leaf_meets {kind : Kind} (hlink : kind.isLink = false)
    (hwrap : kind.isNilable = false) (hleaf : kind.children = []) :
    Meets b none (fun t d => Tends b d ∧ d.forest.Loose t) (alloc kind) :=
  alloc_meets hb hlink hwrap fun _ hx => absurd hx (hleaf ▸ List.not_mem_nil)

/-- Making several variables returns as many types. -/
theorem allocVars_meets (n : Nat) : Meets b none
    (fun ts d => Tends b d ∧ ts.length = n ∧ ∀ t ∈ ts, t < d.forest.size) (allocVars n) := by
  induction n generalizing b with
  | zero => exact meets_pure ⟨.refl hb, rfl, fun t ht => absurd ht List.not_mem_nil⟩
  | succ n ih =>
    refine (alloc_leaf_meets hb rfl rfl rfl).step fun t b₁ halloc ⟨h₁, _⟩ => ?_
    refine (ih h₁.orderly).step fun ts b₂ _ ⟨h₂, hlength, hts⟩ => meets_pure ⟨h₁.trans h₂, ?_, ?_⟩
    · rw [List.length_cons, hlength]
    · refine List.forall_mem_cons.2 ⟨Nat.lt_of_lt_of_le ?_ h₂.spares.size, hts⟩
      obtain ⟨rfl, hsize, -⟩ := alloc_eq_ok halloc
      exact Nat.lt_of_lt_of_eq (Nat.lt_succ_self _) hsize.symm

/-- Making a function returns a loose type. -/
theorem allocFunction_meets (input : Bool) (fids : IdSet) {args : List TermId} {ret : TermId}
    (hargs : ∀ t ∈ args, t < b.forest.size) (hret : ret < b.forest.size) :
    Meets b none (fun t d => Tends b d ∧ d.forest.Loose t)
      (grow (·.allocFunction input fids args ret)) := by
  have hterms : ∀ x ∈ args ++ [ret], x < b.forest.size :=
    List.forall_mem_append.2 ⟨hargs, List.forall_mem_singleton.2 hret⟩
  obtain ⟨hspares, hloose⟩ := hb.forest.allocFunction input fids hterms
  obtain ⟨hext, hnew, -, -⟩ := Forest.allocFunction_extends hb.rooted input fids args ret
  exact ⟨_, _, grow_eq_ok.2 ⟨rfl, rfl⟩, hb.tends hspares (hext.grows hb.rooted), hnew ▸ hloose⟩

private theorem addDeps_meets (t : TermId) (hid : id < b.nodes.size) :
    Meets b none (fun _ d => Tends b d) (change (·.addDeps t [id])) :=
  ⟨(), _, change_eq_ok.2 rfl, hb.tends (hb.forest.register t (List.forall_mem_singleton.2 hid))
    ((Forest.addDeps_extends hb.rooted t [id]).grows hb.rooted)⟩

/-- Steps for each of a list return if each does. -/
theorem forM_meets {step : β → BuildM Unit} (xs : List β)
    (hstep : ∀ x c, c.Orderly → c.nodes = b.nodes → Meets c none (fun _ d => Tends c d) (step x)) :
    Meets b none (fun _ d => Tends b d) (xs.forM step) := by
  induction xs generalizing b with
  | nil => exact meets_pure (.refl hb)
  | cons x rest ih =>
    refine (hstep x b hb rfl).step fun _ b₁ _ h₁ => ?_
    refine (ih h₁.orderly fun y c hc hnodes => hstep y c hc (hnodes.trans h₁.nodes)).imp ?_
    exact fun _ _ _ h₂ => h₁.trans h₂

/-- Registering a node returns. -/
theorem register_meets (types : List TermId) (hid : id < b.nodes.size) :
    Meets b none (fun _ d => Tends b d) (register id types) :=
  forM_meets hb types fun t _ hc hnodes => addDeps_meets hc t (hnodes ▸ hid)

/-- A computation that only tidies up has a result if it has one on the forest. -/
theorem onForest_meets {run : ForestM α} (hrun : TypeFlow.Keeps Forest.KeptUp run)
    (h : ∃ x f, run b.forest = some (x, f)) :
    Meets b none (fun _ d => Tends b d) (onForest run) := by
  obtain ⟨x, f, hf⟩ := h
  have hup := hrun _ _ _ hf hb.rooted
  exact ⟨x, _, onForest_eq_ok.2 ⟨f, hf, rfl⟩,
    hb.tends (hb.forest.upkeeps hup) (hup.steady hb.rooted).grows⟩

/-- So does looking up the type of one. -/
theorem find_meets (id : NodeId) : Meets b none (fun _ d => Tends b d) (find id) := by
  obtain ⟨r, f, hfind, -⟩ := hb.forest.find_returns (b.node id).type
  exact onForest_meets hb (Forest.keepsUp_find _) ⟨r, f, hfind⟩

/-- So does looking up a child. -/
theorem child_meets (t : TermId) (slot : Slot) :
    Meets b none (fun _ d => Tends b d) (onForest (Forest.child t slot)) :=
  onForest_meets hb (Forest.keepsUp_child t slot)
    (Forest.child_returns hb.rooted fun raw _ => hb.forest.leafy.ends raw)

/-- So does setting a field. -/
theorem setField_meets (t : TermId) (label : String) {child : TermId}
    (hchild : child < b.forest.size) :
    Meets b none (fun _ d => Tends b d) (change (·.setChild t (.field label) child)) :=
  ⟨(), _, change_eq_ok.2 rfl, hb.tends (hb.forest.setField t label hchild)
    ((Forest.setChild_extends hb.rooted _ _ _).grows hb.rooted)⟩

/-- A variable may be unified with a term. -/
theorem unify_meets {x y : TermId} (hvar : b.forest.kind (b.forest.rep x) = .var)
    (hx : x < b.forest.size) (hy : y < b.forest.size) (hx' : b.forest.Loose x)
    (hy' : b.forest.Loose y) : Meets b none (fun _ d => Tends b d) (unify x y) := by
  have hpending : Unifier.Pending b.nodes.size b.work ⟨b.forest, some b.work, [], []⟩ := by
    refine ⟨hb.forest, rfl, fun n hn => ?_⟩
    rw [OrderedSet.mem_def, hb.pending]
    exact List.mem_range.2 hn
  obtain ⟨r, v, hrun, hspares, hwork⟩ :=
    Unifier.unify_var_returns 0 hpending hvar hx hy hx' hy'
  have h := unify_of_run hrun
  refine ⟨(), _, h, ⟨⟨hspares.orderly, ?_⟩, hspares, (unify_unified hb.rooted hvar hx hy h).grows⟩,
    rfl⟩
  rw [hwork]
  exact hb.pending

/-! ## Types of primitives -/

/-- The terms of the parameters and of the result are there. -/
abbrev PartsThere (r : List TermId × TermId) (b : Builder) : Prop :=
  (∀ t ∈ r.1, t < b.forest.size) ∧ r.2 < b.forest.size

private theorem alloc_last_meets {args : List TermId} {kind : Kind}
    (hargs : ∀ t ∈ args, t < b.forest.size) (hlink : kind.isLink = false)
    (hwrap : kind.isNilable = false) (hkind : ∀ x ∈ kind.children, x < b.forest.size) :
    Meets b none (fun r d => Tends b d ∧ PartsThere r d)
      (alloc kind >>= fun ret => pure (args, ret)) := by
  refine (alloc_meets hb hlink hwrap hkind).step fun ret b₁ halloc ⟨h₁, _⟩ => meets_pure ⟨h₁, ?_⟩
  obtain ⟨rfl, hsize, -⟩ := alloc_eq_ok halloc
  exact ⟨fun t ht => Nat.lt_of_lt_of_le (hargs t ht) h₁.spares.size,
    Nat.lt_of_lt_of_eq (Nat.lt_succ_self _) hsize.symm⟩

private theorem alloc_leaf_last_meets {args : List TermId} {kind : Kind}
    (hargs : ∀ t ∈ args, t < b.forest.size) (hlink : kind.isLink = false)
    (hwrap : kind.isNilable = false) (hleaf : kind.children = []) :
    Meets b none (fun r d => Tends b d ∧ PartsThere r d)
      (alloc kind >>= fun ret => pure (args, ret)) :=
  alloc_last_meets hb hargs hlink hwrap fun _ hx => absurd hx (hleaf ▸ List.not_mem_nil)

/-- A step, and others from the term that it made. -/
theorem alloc_step {kind : Kind} (hlink : kind.isLink = false) (hwrap : kind.isNilable = false)
    (hleaf : kind.children = []) {k : TermId → BuildM (List TermId × TermId)}
    (hk : ∀ t c, Tends b c → t < c.forest.size →
      Meets c none (fun r d => Tends c d ∧ PartsThere r d) (k t)) :
    Meets b none (fun r d => Tends b d ∧ PartsThere r d) (alloc kind >>= k) := by
  refine (alloc_leaf_meets hb hlink hwrap hleaf).step fun t c halloc ⟨hc, _⟩ => ?_
  obtain ⟨rfl, hsize, -⟩ := alloc_eq_ok halloc
  refine (hk _ c hc (Nat.lt_of_lt_of_eq (Nat.lt_succ_self _) hsize.symm)).imp ?_
  exact fun _ _ _ ⟨hd, hparts⟩ => ⟨hc.trans hd, hparts⟩

private theorem primitiveParts_meets (primitive : Primitive) :
    Meets b none (fun r d => Tends b d ∧ PartsThere r d) (primitiveParts primitive) := by
  have hvars : ∀ (n : Nat) (kind : List TermId → Kind), (∀ ts, (kind ts).isLink = false) →
      (∀ ts, (kind ts).isNilable = false) → (∀ ts, ∀ x ∈ (kind ts).children, x ∈ ts) →
      Meets b none (fun r d => Tends b d ∧ PartsThere r d)
        (allocVars n >>= fun args => alloc (kind args) >>= fun ret => pure (args, ret)) := by
    intro n kind hlink hwrap hkind
    refine (allocVars_meets hb n).step fun args c _ ⟨hc, _, hargs⟩ => ?_
    refine (alloc_last_meets hc.orderly hargs (hlink args) (hwrap args)
      fun x hx => hargs x (hkind args x hx)).imp ?_
    exact fun _ _ _ ⟨hd, hparts⟩ => ⟨hc.trans hd, hparts⟩
  have htuple : ∀ (site : SiteId) (n : Nat), Meets b none (fun r d => Tends b d ∧ PartsThere r d)
      (allocVars n >>= fun args => alloc (tupleKind site args) >>=
        fun ret => pure (args, ret)) := by
    refine fun site n => hvars n (tupleKind site) (fun _ => rfl) (fun _ => rfl) fun ts x hx => ?_
    obtain ⟨l, hl⟩ := Fields.mem_values.1 hx
    exact (List.of_mem_zip (Fields.mem_of_find?_ofList hl)).2
  have hunary : ∀ parameter result : Flow, Meets b none (fun r d => Tends b d ∧ PartsThere r d)
      (primitiveParts.unary parameter result) := fun parameter result =>
    alloc_step hb rfl rfl rfl fun t c hc ht =>
      alloc_leaf_last_meets hc.orderly (List.forall_mem_singleton.2 ht) rfl rfl rfl
  have hbinary : Meets b none (fun r d => Tends b d ∧ PartsThere r d) (do
      let x ← alloc (.base .int64)
      let y ← alloc (.base .int64)
      return ([x, y], ← alloc (.base .int64))) := by
    refine alloc_step hb rfl rfl rfl fun t c hc ht => ?_
    refine alloc_step hc.orderly rfl rfl rfl fun u d hd hu => ?_
    refine alloc_leaf_last_meets hd.orderly ?_ rfl rfl rfl
    exact List.forall_mem_cons.2
      ⟨Nat.lt_of_lt_of_le ht hd.spares.size, List.forall_mem_singleton.2 hu⟩
  cases primitive with
  | cond => exact hvars 3 (fun _ => .var) (fun _ => rfl) (fun _ => rfl) fun _ _ hx => by cases hx
  | pair => exact htuple _ 2
  | triple => exact htuple _ 3
  | eq =>
    refine alloc_step hb rfl rfl rfl fun t c hc ht => ?_
    refine alloc_leaf_last_meets hc.orderly ?_ rfl rfl rfl
    exact List.forall_mem_cons.2 ⟨ht, List.forall_mem_singleton.2 ht⟩
  | notNil =>
    refine alloc_step hb rfl rfl rfl fun t c hc ht => ?_
    exact alloc_leaf_last_meets hc.orderly (List.forall_mem_singleton.2 ht) rfl rfl rfl
  | mul => exact hbinary
  | add => exact hbinary
  | eqZero => exact hunary .int64 .bool
  | isEmpty => exact hunary .anyText .bool
  | dec => exact hunary .int64 .int64
  | str => exact hunary .int64 .anyText
  | factor => exact hunary .double .double

/-- Making the type of a primitive returns a loose one. -/
theorem primitiveType_meets (primitive : Primitive) (fid : FunctionId) :
    Meets b none (fun r d => Tends b d ∧ d.forest.Loose r.1) (primitiveType primitive fid) := by
  refine (primitiveParts_meets hb primitive).step fun r c _ ⟨hc, hargs, hret⟩ => ?_
  refine (allocFunction_meets hc.orderly _ _ hargs hret).step fun t d _ ⟨hd, hloose⟩ => ?_
  exact meets_pure ⟨hc.trans hd, hloose⟩

end Steps

end Builder

end TypeFlow
