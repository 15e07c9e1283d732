import TypeFlow.Proofs.GrownTypes
import TypeFlow.Proofs.NewNodes
import TypeFlow.Proofs.TypeSteps

/-!
# The terms of a prepared program

A prepared program starts on a sound forest, and all its terms are terms of that.  Every step of the
construction keeps this.

Main definitions:

- `Builder.Termed`: the forest is sound, and the nodes' terms are terms of it.
- `Builder.Lays`: a step keeps this, and its answer has a property.

Main results:

- `Builder.lower_lays`: every expression is lowered so.
- `Program.termed_of_build`: a prepared program is left so.
-/

namespace TypeFlow

namespace Builder

variable {α β : Type} {b : Builder}

/-- The forest is sound, and the nodes' terms are terms of it. -/
structure Termed (b : Builder) : Prop where
  sound : b.forest.Sound
  nodes : ∀ id, (b.node id).TermsIn b.forest.size

/-- The step keeps the nodes' terms among those of a sound forest, and its answer has the property. -/
def Lays (b : Builder) (post : α → Builder → Prop) (m : BuildM α) : Prop :=
  ∀ x d, m b = .ok (x, d) → d.Termed ∧ b.forest.size ≤ d.forest.size ∧ post x d

/-- Nothing is said of an answer. -/
abbrev Any (_ : α) (_ : Builder) : Prop := True

/-- The answer is a term. -/
abbrev InForest (t : TermId) (b : Builder) : Prop := t < b.forest.size

/-- The answers are terms. -/
abbrev AllInForest (ts : List TermId) (b : Builder) : Prop := ∀ t ∈ ts, t < b.forest.size

section Rules

variable {post : α → Builder → Prop} {post' : β → Builder → Prop}

private theorem lays_pure {x : α} (hb : b.Termed) (h : post x b) : Lays b post (pure x) := by
  intro y d hr
  obtain ⟨rfl, rfl⟩ := pure_eq_ok.1 hr
  exact ⟨hb, le_rfl, h⟩

private theorem Lays.bind {m : BuildM β} {k : β → BuildM α} (hm : Lays b post' m)
    (hk : ∀ y c, c.Termed → b.forest.size ≤ c.forest.size → post' y c → Lays c post (k y)) :
    Lays b post (m >>= k) := by
  intro x d h
  obtain ⟨y, c, hc, h⟩ := bind_eq_ok.1 h
  obtain ⟨hterms, hsize, hy⟩ := hm y c hc
  obtain ⟨hterms', hsize', hx⟩ := hk y c hterms hsize hy x d h
  exact ⟨hterms', hsize.trans hsize', hx⟩

/-- What follows something that is done in one case only goes on either way. -/
theorem Lays.either {c : Prop} [Decidable c] {m rest : BuildM α} (hb : b.Termed)
    (hrest : ∀ d : Builder, d.Termed → b.forest.size ≤ d.forest.size → Lays d post rest)
    (hthen : (∀ d : Builder, d.Termed → b.forest.size ≤ d.forest.size → Lays d post rest) →
      Lays b post m) : Lays b post (if c then m else rest) := by
  split
  · exact hthen hrest
  · exact hrest b hb le_rfl

end Rules

/-! ## Changes of the forest -/

/-- A larger sound forest. -/
theorem Termed.grown (hb : b.Termed) {f : Forest} (work : Worklist) (hf : f.Sound)
    (hsize : b.forest.size ≤ f.size) : Termed { b with forest := f, work := work } :=
  ⟨hf, fun id => (hb.nodes id).mono hsize⟩

private theorem Termed.becomes (hb : b.Termed) {f : Forest} (h : b.forest.Becomes f) :
    Termed { b with forest := f } ∧ b.forest.size ≤ f.size :=
  ⟨hb.grown b.work (h.sound hb.sound) (h.evolves hb.sound).grows.size,
    (h.evolves hb.sound).grows.size⟩

private theorem alloc_lays (hb : b.Termed) {kind : Kind} (hlink : kind.isLink = false)
    (hkind : ∀ x ∈ kind.children, x < b.forest.size) : Lays b InForest (alloc kind) := by
  intro t d h
  obtain ⟨rfl, hsize, -⟩ := alloc_eq_ok h
  obtain ⟨-, rfl⟩ := grow_eq_ok.1 h
  obtain ⟨hterms, hle⟩ := hb.becomes (Forest.becomes_alloc hlink hkind)
  exact ⟨hterms, hle, Nat.lt_of_lt_of_eq (Nat.lt_succ_self _) hsize.symm⟩

private theorem alloc_leaf_lays (hb : b.Termed) {kind : Kind} (hlink : kind.isLink = false)
    (hleaf : kind.children = []) : Lays b InForest (alloc kind) :=
  alloc_lays hb hlink fun _ hx => absurd hx (hleaf ▸ List.not_mem_nil)

private theorem allocVars_lays (hb : b.Termed) (n : Nat) : Lays b AllInForest (allocVars n) := by
  induction n generalizing b with
  | zero => exact lays_pure hb fun t ht => absurd ht List.not_mem_nil
  | succ n ih =>
    refine (alloc_leaf_lays hb rfl rfl).bind fun t b₁ h₁ hsize₁ ht => ?_
    refine (ih h₁).bind fun ts b₂ h₂ hsize₂ hts => lays_pure h₂ ?_
    exact List.forall_mem_cons.2 ⟨Nat.lt_of_lt_of_le ht hsize₂, hts⟩

private theorem allocFunction_lays (hb : b.Termed) (input : Bool) (fids : IdSet) {args : List TermId}
    {ret : TermId} (hargs : ∀ t ∈ args, t < b.forest.size) (hret : ret < b.forest.size) :
    Lays b InForest (grow (·.allocFunction input fids args ret)) := by
  intro t d h
  obtain ⟨-, hlt⟩ := allocFunction_eq_ok hb.sound.rooted h
  obtain ⟨-, rfl⟩ := grow_eq_ok.1 h
  have hterms : ∀ x ∈ args ++ [ret], x < b.forest.size := by
    intro x hx
    rcases List.mem_append.1 hx with hx | hx
    · exact hargs x hx
    · rwa [List.mem_singleton.1 hx]
  obtain ⟨hterms, hle⟩ := hb.becomes (Forest.becomes_allocFunction hterms)
  exact ⟨hterms, hle, hlt⟩

private theorem onForest_lays {run : ForestM α} (hrun : TypeFlow.Keeps Forest.KeptUp run) (hb : b.Termed) :
    Lays b Any (onForest run) := by
  intro x d h
  obtain ⟨f, hf, rfl⟩ := onForest_eq_ok.1 h
  obtain ⟨hterms, hle⟩ :=
    hb.becomes (.of_upkeeps hb.sound.rooted (hrun _ _ _ hf hb.sound.rooted))
  exact ⟨hterms, hle, trivial⟩

private theorem find_lays (hb : b.Termed) (id : NodeId) : Lays b InForest (find id) := by
  intro t d h
  obtain ⟨f, hf, rfl⟩ := find_eq_ok.1 h
  obtain ⟨rfl, hup⟩ := Forest.find_upkeeps hb.sound.rooted hf
  obtain ⟨hterms, hle⟩ := hb.becomes (.of_upkeeps hb.sound.rooted hup)
  exact ⟨hterms, hle, Nat.lt_of_lt_of_le
    (Forest.rep_lt_size hb.sound.rooted (hb.nodes id).type) hle⟩

private theorem setChild_lays (hb : b.Termed) (t : TermId) (slot : Slot) {child : TermId}
    (hchild : child < b.forest.size) : Lays b Any (change (·.setChild t slot child)) := by
  intro u d h
  rw [change_eq_ok.1 h]
  have hsize : b.forest.size ≤ (b.forest.setChild t slot child).size :=
    (Forest.size_setChild _ _ _ _).ge
  exact ⟨hb.grown b.work (Forest.setChild_sound hb.sound t slot hchild) hsize, hsize, trivial⟩

private theorem addDeps_lays (hb : b.Termed) (t : TermId) (nodes : List NodeId) :
    Lays b Any (change (·.addDeps t nodes)) := by
  intro u d h
  rw [change_eq_ok.1 h]
  obtain ⟨hterms, hle⟩ := hb.becomes (.single (.register t nodes))
  exact ⟨hterms, hle, trivial⟩

private theorem forM_lays {step : β → BuildM Unit} (hstep : ∀ x b, b.Termed → Lays b Any (step x))
    (xs : List β) (hb : b.Termed) : Lays b Any (xs.forM step) := by
  induction xs generalizing b with
  | nil => exact lays_pure hb trivial
  | cons x rest ih => exact (hstep x b hb).bind fun _ c hc _ _ => ih hc

private theorem register_lays (hb : b.Termed) (id : NodeId) (types : List TermId) :
    Lays b Any (register id types) :=
  forM_lays (fun t _ hb => addDeps_lays hb t [id]) types hb

private theorem unify_lays (hb : b.Termed) {x y : TermId} (hx : x < b.forest.size)
    (hy : y < b.forest.size) : Lays b Any (unify x y) := by
  intro u d h
  obtain ⟨r, v, hrun, rfl⟩ := unify_eq_ok h
  have hs : (⟨b.forest, some b.work, [], []⟩ : Unifier).Sound :=
    ⟨hb.sound, fun p hp => absurd hp List.not_mem_nil⟩
  obtain ⟨hc, -⟩ := Unifier.unify_safe hs hx hy r v hrun
  exact ⟨hb.grown _ hc.sound.forest hc.size, hc.size, trivial⟩

/-! ## Changes of the tree -/

private theorem addNode_lays (hb : b.Termed) (parent : Option NodeId) {pinned : List TermId}
    {type : TermId} (htype : type < b.forest.size) (hpinned : ∀ t ∈ pinned, t < b.forest.size) :
    Lays b Any (addNode parent pinned type) := by
  intro id d h
  obtain ⟨-, rfl⟩ := addNode_eq_ok.1 h
  refine ⟨⟨hb.sound, fun n => ?_⟩, le_rfl, trivial⟩
  unfold node
  rw [Array.getElem?_push]
  split
  · exact ⟨htype, hpinned, fun t ht => absurd ht List.not_mem_nil⟩
  · exact hb.nodes n

/-- A node of the tree is changed. -/
theorem Termed.modify (hb : b.Termed) (id : NodeId) {change : Node → Node}
    (hchange : ∀ node : Node, node.TermsIn b.forest.size →
      (change node).TermsIn b.forest.size) :
    Termed { b with nodes := b.nodes.modify id change } := by
  refine ⟨hb.sound, fun n => ?_⟩
  have hn := hb.nodes n
  show ((b.nodes.modify id change)[n]?.getD default).TermsIn b.forest.size
  unfold node at hn
  rw [Array.getElem?_modify]
  split
  · cases hk : b.nodes[n]? with
    | none => rwa [hk] at hn
    | some found =>
      rw [hk] at hn
      exact hchange found hn
  · exact hn

private theorem setKind_lays (hb : b.Termed) (id : NodeId) {kind : NodeKind}
    (hkind : ∀ t ∈ kind.terms, t < b.forest.size) : Lays b Any (setKind id kind) := by
  intro u d h
  rw [setKind_eq_ok.1 h]
  exact ⟨hb.modify id fun node hnode => ⟨hnode.type, hnode.pinned, hkind⟩, le_rfl, trivial⟩

private theorem setType_lays (hb : b.Termed) (id : NodeId) {type : TermId} (htype : type < b.forest.size) :
    Lays b Any (setType id type) := by
  intro u d h
  rw [setType_eq_ok.1 h]
  exact ⟨hb.modify id fun node hnode => ⟨htype, hnode.pinned, hnode.kind⟩, le_rfl, trivial⟩

private theorem typeOf_lays (hb : b.Termed) (id : NodeId) : Lays b InForest (typeOf id) := by
  intro t d h
  obtain ⟨rfl, rfl⟩ := typeOf_eq_ok.1 h
  exact ⟨hb, le_rfl, (hb.nodes id).type⟩

private theorem nextFunction_lays (hb : b.Termed) : Lays b Any nextFunction := by
  intro fid d h
  obtain ⟨-, rfl⟩ := nextFunction_eq_ok.1 h
  exact ⟨hb, le_rfl, trivial⟩

private theorem addFunction_lays (hb : b.Termed) (id : NodeId) : Lays b Any (addFunction id) := by
  intro u d h
  rw [addFunction_eq_ok.1 h]
  exact ⟨⟨hb.sound, hb.nodes⟩, le_rfl, trivial⟩

private theorem newSite_lays (hb : b.Termed) : Lays b Any newSite := by
  intro site d h
  obtain ⟨-, rfl⟩ := newSite_eq_ok.1 h
  exact ⟨⟨hb.sound, hb.nodes⟩, le_rfl, trivial⟩

/-! ## Types of primitives -/

/-- The terms of the parameters and of the result are terms. -/
abbrev PartsInForest (r : List TermId × TermId) (b : Builder) : Prop :=
  (∀ t ∈ r.1, t < b.forest.size) ∧ r.2 < b.forest.size

private theorem alloc_last_lays {args : List TermId} {kind : Kind} (hb : b.Termed)
    (hargs : ∀ t ∈ args, t < b.forest.size) (hlink : kind.isLink = false)
    (hkind : ∀ x ∈ kind.children, x < b.forest.size) :
    Lays b PartsInForest (alloc kind >>= fun ret => pure (args, ret)) := by
  refine (alloc_lays hb hlink hkind).bind fun ret b₁ h₁ hsize hret => lays_pure h₁ ?_
  exact ⟨fun t ht => Nat.lt_of_lt_of_le (hargs t ht) hsize, hret⟩

private theorem primitiveParts_lays (hb : b.Termed) (primitive : Primitive) :
    Lays b PartsInForest (primitiveParts primitive) := by
  have hbase : ∀ {c : Builder} {args : List TermId} {flow : Flow}, c.Termed →
      (∀ t ∈ args, t < c.forest.size) →
      Lays c PartsInForest (alloc (.base flow) >>= fun ret => pure (args, ret)) :=
    fun hc hargs => alloc_last_lays hc hargs rfl fun _ hx => absurd hx List.not_mem_nil
  have htuple : ∀ (site : SiteId) (n : Nat), Lays b PartsInForest
      (allocVars n >>= fun args => alloc (tupleKind site args) >>= fun ret => pure (args, ret)) := by
    intro site n
    refine (allocVars_lays hb n).bind fun args c hc _ hargs => alloc_last_lays hc hargs rfl ?_
    intro x hx
    obtain ⟨l, hl⟩ := Fields.mem_values.1 hx
    exact hargs x (List.of_mem_zip (Fields.mem_of_find?_ofList hl)).2
  have hunary : ∀ parameter result : Flow,
      Lays b PartsInForest (primitiveParts.unary parameter result) := fun parameter result =>
    (alloc_leaf_lays hb rfl rfl).bind fun t c hc _ ht =>
      hbase hc (List.forall_mem_singleton.2 ht)
  have hbinary : Lays b PartsInForest (do
      let x ← alloc (.base .int64)
      let y ← alloc (.base .int64)
      return ([x, y], ← alloc (.base .int64))) := by
    refine (alloc_leaf_lays hb rfl rfl).bind fun t c hc _ ht => ?_
    refine (alloc_leaf_lays hc rfl rfl).bind fun u d hd hsize hu => hbase hd ?_
    exact List.forall_mem_cons.2
      ⟨Nat.lt_of_lt_of_le ht hsize, List.forall_mem_singleton.2 hu⟩
  cases primitive with
  | cond =>
    refine (allocVars_lays hb 3).bind fun args c hc _ hargs => ?_
    exact alloc_last_lays hc hargs rfl fun _ hx => absurd hx List.not_mem_nil
  | pair => exact htuple _ 2
  | triple => exact htuple _ 3
  | eq =>
    refine (alloc_leaf_lays hb rfl rfl).bind fun t c hc _ ht => hbase hc ?_
    exact List.forall_mem_cons.2 ⟨ht, List.forall_mem_singleton.2 ht⟩
  | notNil =>
    refine (alloc_leaf_lays hb rfl rfl).bind fun t c hc _ ht => ?_
    exact alloc_last_lays hc (List.forall_mem_singleton.2 ht) rfl fun _ hx =>
      absurd hx List.not_mem_nil
  | mul => exact hbinary
  | add => exact hbinary
  | eqZero => exact hunary .int64 .bool
  | isEmpty => exact hunary .anyText .bool
  | dec => exact hunary .int64 .int64
  | str => exact hunary .int64 .anyText
  | factor => exact hunary .double .double

private theorem primitiveType_lays (hb : b.Termed) (primitive : Primitive) (fid : FunctionId) :
    Lays b (fun r d => r.1 < d.forest.size ∧ ∀ t ∈ r.2, t < d.forest.size)
      (primitiveType primitive fid) := by
  refine (primitiveParts_lays hb primitive).bind fun r b₁ h₁ _ hr => ?_
  refine (allocFunction_lays h₁ _ _ hr.1 hr.2).bind fun t b₂ h₂ hsize ht => lays_pure h₂ ?_
  exact ⟨ht, fun x hx => Nat.lt_of_lt_of_le (hr.1 x hx) hsize⟩

/-! ## Expressions -/

/-- The terms pinned at a place and bound around it are among the first so many. -/
structure TermsAt (place : Place) (n : Nat) : Prop where
  pinned : ∀ t ∈ place.pinned, t < n
  bound : ∀ bd ∈ place.binders, ∀ t ∈ bd.types, t < n

private theorem TermsAt.mono {place : Place} {n m : Nat} (h : TermsAt place n) (hle : n ≤ m) :
    TermsAt place m where
  pinned t ht := Nat.lt_of_lt_of_le (h.pinned t ht) hle
  bound bd hbd t ht := Nat.lt_of_lt_of_le (h.bound bd hbd t ht) hle

/-- The place has a further binder. -/
theorem TermsAt.enter {place : Place} {n : Nat} (h : TermsAt place n) {id : NodeId}
    {pinned : List TermId} {bd : Binder} (hpinned : ∀ t ∈ pinned, t < n)
    (hbd : ∀ t ∈ bd.types, t < n) : TermsAt ⟨id, pinned, bd :: place.binders⟩ n :=
  ⟨hpinned, List.forall_mem_cons.2 ⟨hbd, h.bound⟩⟩

variable {place : Place}

private theorem addConst_lays (hb : b.Termed) (hplace : TermsAt place b.forest.size) {type : TermId}
    (htype : type < b.forest.size) (flow : Flow) : Lays b Any (addConst place type flow) := by
  refine (addNode_lays hb _ htype hplace.pinned).bind fun id b₁ h₁ _ _ => ?_
  refine (setKind_lays h₁ id fun t ht => absurd ht List.not_mem_nil).bind fun _ b₂ h₂ _ _ => ?_
  exact lays_pure h₂ trivial

private theorem addBase_lays (hb : b.Termed) (hplace : TermsAt place b.forest.size) (flow : Flow) :
    Lays b Any (addBase place flow) :=
  (alloc_leaf_lays hb rfl rfl).bind fun _ _ h₁ hsize ht =>
    addConst_lays h₁ (hplace.mono hsize) ht flow

/-- A node of a new variable. -/
theorem addVarNode_lays (hb : b.Termed) (hplace : TermsAt place b.forest.size) {k : NodeId → BuildM α}
    {post : α → Builder → Prop}
    (hk : ∀ id c, c.Termed → b.forest.size ≤ c.forest.size → Lays c post (k id)) :
    Lays b post (do let id ← addNode (some place.parent) place.pinned (← alloc .var); k id) := by
  refine (alloc_leaf_lays hb rfl rfl).bind fun t b₁ h₁ hsize₁ ht => ?_
  refine (addNode_lays h₁ _ ht (hplace.mono hsize₁).pinned).bind fun id b₂ h₂ hsize₂ _ => ?_
  exact hk id b₂ h₂ (hsize₁.trans hsize₂)

private theorem addIdent_lays (hb : b.Termed) (hplace : TermsAt place b.forest.size) (name : String) :
    Lays b Any (addIdent place name) := by
  refine addVarNode_lays hb hplace fun id b₁ h₁ hsize₁ => ?_
  refine (forM_lays (fun bd _ hb => register_lays hb id (Binder.typesOf bd name)) _ h₁).bind
    fun _ b₂ h₂ hsize₂ _ => ?_
  cases hfound : place.binders.findSome? (·.binding? name) with
  | none => exact fun x d h => nomatch h
  | some found =>
    obtain ⟨bd, hbd, hbinding⟩ := List.exists_of_findSome?_eq_some hfound
    have htype := (hplace.mono (hsize₁.trans hsize₂)).bound bd hbd _
      (Binder.binds_of_binding? hbinding).2.2.2
    refine (setKind_lays h₂ id ?_).bind fun _ b₃ h₃ _ _ => lays_pure h₃ trivial
    exact List.forall_mem_singleton.2 htype

private theorem addPrimitive_lays (hb : b.Termed) (hplace : TermsAt place b.forest.size)
    (primitive : Primitive) : Lays b Any (addPrimitive place primitive) := by
  refine (nextFunction_lays hb).bind fun fid b₁ h₁ hsize₁ _ => ?_
  refine (primitiveType_lays h₁ primitive fid).bind fun r b₂ h₂ hsize₂ hr => ?_
  obtain ⟨type, formals⟩ := r
  have hplace := hplace.mono (hsize₁.trans hsize₂)
  refine (addNode_lays h₂ _ hr.1 hplace.pinned).bind fun id b₃ h₃ hsize₃ _ => ?_
  refine (register_lays h₃ id formals).bind fun _ b₄ h₄ hsize₄ _ => ?_
  refine .either h₄ (fun c hc hsize => ?_) fun hlast => ?_
  · refine (addFunction_lays hc id).bind fun _ c₁ hc₁ hsize₁ _ => ?_
    refine (setKind_lays hc₁ id fun t ht => ?_).bind fun _ c₂ hc₂ _ _ => lays_pure hc₂ trivial
    exact Nat.lt_of_lt_of_le (hr.2 t ht) (((hsize₃.trans hsize₄).trans hsize).trans hsize₁)
  · refine (onForest_lays (Forest.keepsUp_child _ _) h₄).bind fun ret? c hc hsize _ => ?_
    cases ret? with
    | none => exact hlast c hc hsize
    | some ret =>
      exact (register_lays hc id [ret]).bind fun _ d hd hsize' _ => hlast d hd (hsize.trans hsize')

/-- Lowering the expression at a place with terms keeps the nodes' terms. -/
def LaysOut (e : Expr) : Prop :=
  ∀ place b, Termed b → TermsAt place b.forest.size → Lays b Any (lower e place)

private theorem lambda_lays {params : List String} {body : Expr} {widen : Bool} (hbody : LaysOut body) :
    LaysOut (.lambda params body widen) := by
  intro place b hb hplace
  refine (nextFunction_lays hb).bind fun fid b₁ h₁ hsize₁ _ => ?_
  refine (allocVars_lays h₁ _).bind fun formals b₂ h₂ hsize₂ hformals => ?_
  have hplace := hplace.mono (hsize₁.trans hsize₂)
  refine addVarNode_lays h₂ hplace fun id b₃ h₃ hsize₃ => ?_
  refine (addFunction_lays h₃ id).bind fun _ b₄ h₄ hsize₄ _ => ?_
  have hsize₄ := hsize₃.trans hsize₄
  have hformals₄ : ∀ t ∈ formals, t < b₄.forest.size := fun t ht =>
    Nat.lt_of_lt_of_le (hformals t ht) hsize₄
  have hplace := hplace.mono hsize₄
  have hpinned : ∀ t ∈ formals.reverse ++ place.pinned, t < b₄.forest.size := by
    intro t ht
    rcases List.mem_append.1 ht with ht | ht
    · exact hformals₄ t (List.mem_reverse.1 ht)
    · exact hplace.pinned t ht
  refine (hbody _ b₄ h₄ (hplace.enter hpinned hformals₄)).bind fun child b₅ h₅ hsize₅ _ => ?_
  have hformals₅ : ∀ t ∈ formals, t < b₅.forest.size := fun t ht =>
    Nat.lt_of_lt_of_le (hformals₄ t ht) hsize₅
  refine (setKind_lays h₅ id ?_).bind fun _ b₆ h₆ hsize₆ _ => ?_
  · exact hformals₅
  refine (find_lays h₆ child).bind fun ret b₇ h₇ hsize₇ hret => ?_
  refine (allocFunction_lays h₇ _ _ (fun t ht => ?_) hret).bind fun type b₈ h₈ hsize₈ htype => ?_
  · exact Nat.lt_of_lt_of_le (hformals₅ t ht) (hsize₆.trans hsize₇)
  refine (find_lays h₈ id).bind fun root b₉ h₉ hsize₉ hroot => ?_
  refine (unify_lays h₉ hroot (Nat.lt_of_lt_of_le htype hsize₉)).bind fun _ b₁₀ h₁₀ _ _ => ?_
  exact lays_pure h₁₀ trivial

private theorem letIn_lays {name : String} {definition body : Expr} (hdefinition : LaysOut definition)
    (hbody : LaysOut body) : LaysOut (.letIn name definition body) := by
  intro place b hb hplace
  refine (alloc_leaf_lays hb rfl rfl).bind fun binding b₁ h₁ hsize₁ hbinding => ?_
  have hplace := hplace.mono hsize₁
  refine (addNode_lays h₁ _ hbinding hplace.pinned).bind fun id b₂ h₂ hsize₂ _ => ?_
  have hplace := hplace.mono hsize₂
  have hbinding₂ := Nat.lt_of_lt_of_le hbinding hsize₂
  refine (hbody _ b₂ h₂ (hplace.enter hplace.pinned ?_)).bind fun inner b₃ h₃ hsize₃ _ => ?_
  · exact List.forall_mem_singleton.2 hbinding₂
  have hplace := hplace.mono hsize₃
  have hbinding₃ := Nat.lt_of_lt_of_le hbinding₂ hsize₃
  refine (hdefinition _ b₃ h₃ (hplace.enter (List.forall_mem_cons.2 ⟨hbinding₃, hplace.pinned⟩)
    ?_)).bind fun bound b₄ h₄ hsize₄ _ => ?_
  · exact List.forall_mem_singleton.2 hbinding₃
  refine (setKind_lays h₄ id fun t ht => absurd ht List.not_mem_nil).bind fun _ b₅ h₅ hsize₅ _ => ?_
  refine (typeOf_lays h₅ inner).bind fun type b₆ h₆ hsize₆ htype => ?_
  refine (setType_lays h₆ id htype).bind fun _ b₇ h₇ hsize₇ _ => ?_
  refine (find_lays h₇ bound).bind fun root b₈ h₈ hsize₈ hroot => ?_
  have hbinding₈ := Nat.lt_of_lt_of_le hbinding₃
    ((((hsize₄.trans hsize₅).trans hsize₆).trans hsize₇).trans hsize₈)
  exact (unify_lays h₈ hbinding₈ hroot).bind fun _ b₉ h₉ _ _ => lays_pure h₉ trivial

/-- A node of a new variable whose children are lowered first. -/
theorem inner_lays {m : Place → BuildM α} {kind : α → NodeKind}
    (hm : ∀ place b, Termed b → TermsAt place b.forest.size → Lays b Any (m place))
    (hkind : ∀ x, (kind x).terms = []) (hb : b.Termed) (hplace : TermsAt place b.forest.size)
    (id : NodeId) :
    Lays b Any (do
      let x ← m { place with parent := id }
      setKind id (kind x)
      return id) := by
  refine (hm { place with parent := id } b hb ⟨hplace.pinned, hplace.bound⟩).bind
    fun x b₁ h₁ _ _ => ?_
  refine (setKind_lays h₁ id fun t ht => ?_).bind fun _ b₂ h₂ _ _ => lays_pure h₂ trivial
  rw [hkind] at ht
  exact absurd ht List.not_mem_nil

mutual

/-- Lowering an expression keeps the nodes' terms among those of a sound forest. -/
theorem lower_lays : ∀ e : Expr, LaysOut e
  | .nil => fun place b hb hplace => by
    refine (alloc_leaf_lays hb rfl rfl).bind fun inner b₁ h₁ hsize₁ hinner => ?_
    refine (alloc_lays h₁ rfl ?_).bind fun type b₂ h₂ hsize₂ htype => ?_
    · exact List.forall_mem_singleton.2 hinner
    exact addConst_lays h₂ (hplace.mono (hsize₁.trans hsize₂)) htype _
  | .int _ => fun _ _ hb hplace => addBase_lays hb hplace _
  | .float _ => fun _ _ hb hplace => addBase_lays hb hplace _
  | .text _ => fun _ _ hb hplace => addBase_lays hb hplace _
  | .prim primitive => fun _ _ hb hplace => addPrimitive_lays hb hplace primitive
  | .ident name => fun _ _ hb hplace => addIdent_lays hb hplace name
  | .lambda _ body _ => lambda_lays (lower_lays body)
  | .letIn _ definition body => letIn_lays (lower_lays definition) (lower_lays body)
  | .apply fn args => fun place b hb hplace => by
    refine addVarNode_lays hb hplace fun id b₁ h₁ hsize₁ => ?_
    have hplace := hplace.mono hsize₁
    refine (lower_lays fn { place with parent := id } b₁ h₁ ⟨hplace.pinned, hplace.bound⟩).bind
      fun callee b₂ h₂ hsize₂ _ => ?_
    exact inner_lays (fun place b => lowerList_lays args place b) (fun _ => rfl) h₂
      (hplace.mono hsize₂) id
  | .record fields => fun place b hb hplace => by
    refine (newSite_lays hb).bind fun site b₁ h₁ hsize₁ _ => ?_
    refine (alloc_leaf_lays h₁ rfl rfl).bind fun type b₂ h₂ hsize₂ htype => ?_
    have hplace := hplace.mono (hsize₁.trans hsize₂)
    refine (addNode_lays h₂ _ htype hplace.pinned).bind fun id b₃ h₃ hsize₃ _ => ?_
    exact inner_lays (fun place b => lowerFields_lays fields place type b) (fun _ => rfl) h₃
      (hplace.mono hsize₃) id
  | .field source _ => fun place b hb hplace =>
    addVarNode_lays hb hplace fun id b₁ h₁ hsize₁ =>
      inner_lays (lower_lays source) (fun _ => rfl) h₁ (hplace.mono hsize₁) id
  termination_by structural e => e

private theorem lowerList_lays : ∀ (es : List Expr) (place : Place) (b : Builder), b.Termed →
    TermsAt place b.forest.size → Lays b Any (lowerList es place)
  | [], _, _, hb, _ => lays_pure hb trivial
  | e :: rest, place, b, hb, hplace => by
    refine (lower_lays e place b hb hplace).bind fun id b₁ h₁ hsize₁ _ => ?_
    refine (lowerList_lays rest place b₁ h₁ (hplace.mono hsize₁)).bind fun ids b₂ h₂ _ _ => ?_
    exact lays_pure h₂ trivial
  termination_by structural es => es

private theorem lowerFields_lays : ∀ (fields : List (String × Expr)) (place : Place) (type : TermId)
    (b : Builder), b.Termed → TermsAt place b.forest.size →
      Lays b Any (lowerFields fields place type)
  | [], _, _, _, hb, _ => lays_pure hb trivial
  | e :: rest, place, type, b, hb, hplace => by
    refine (lowerField_lays e place type b hb hplace).bind fun part b₁ h₁ hsize₁ _ => ?_
    refine (lowerFields_lays rest place type b₁ h₁ (hplace.mono hsize₁)).bind
      fun parts b₂ h₂ _ _ => ?_
    exact lays_pure h₂ trivial
  termination_by structural fields => fields

private theorem lowerField_lays : ∀ (field : String × Expr) (place : Place) (type : TermId) (b : Builder),
    b.Termed → TermsAt place b.forest.size → Lays b Any (lowerField field place type)
  | (label, e), place, type, b, hb, hplace => by
    refine (lower_lays e place b hb hplace).bind fun id b₁ h₁ _ _ => ?_
    refine (find_lays h₁ id).bind fun t b₂ h₂ _ ht => ?_
    refine (setChild_lays h₂ type (.field label) ht).bind fun _ b₃ h₃ _ _ => lays_pure h₃ trivial
  termination_by structural field => field

end

end Builder

namespace Program

variable {e : Expr} {settings : Settings} {depth : Nat} {p : Program} {s : State}

/-- A prepared program is left with a sound forest that has all its terms. -/
theorem termed_of_build (h : build e settings depth = .ok (p, s)) :
    s.forest.Sound ∧ p.TermsIn s.forest.size := by
  obtain ⟨b, hlower, rfl, rfl⟩ := build_eq_ok.1 h
  obtain ⟨type, b₁, halloc, hlower⟩ := Builder.bind_eq_ok.1 hlower
  -- The first node is made of the first term, before which nothing is termed yet.
  have h₁ : b₁.Termed ∧ type < b₁.forest.size := by
    obtain ⟨htype, hsize, -⟩ := Builder.alloc_eq_ok halloc
    have hlt : type < b₁.forest.size := by
      rw [hsize, htype]
      exact Nat.lt_succ_self _
    obtain ⟨-, rfl⟩ := Builder.grow_eq_ok.1 halloc
    refine ⟨⟨?_, fun id => ?_⟩, hlt⟩
    · have hbecomes : Forest.empty.Becomes (Forest.empty.alloc .var).2 :=
        Forest.becomes_alloc rfl fun _ hx => absurd hx List.not_mem_nil
      exact hbecomes.sound Forest.sound_empty
    · have hnode : (#[] : Array Node)[id]?.getD default = default := by simp
      show Node.TermsIn ((#[] : Array Node)[id]?.getD default) _
      rw [hnode]
      exact ⟨Nat.lt_of_le_of_lt (Nat.zero_le _) hlt, fun t ht => absurd ht List.not_mem_nil,
        fun t ht => absurd ht List.not_mem_nil⟩
  have hlays : Builder.Lays b₁ Builder.Any (do
      let root ← Builder.addNode none [] type
      let body ← Builder.lower e ⟨root, [], []⟩
      Builder.setKind root (.root body)
      Builder.register root [type]) := by
    refine (Builder.addNode_lays h₁.1 _ h₁.2 fun t ht => absurd ht List.not_mem_nil).bind
      fun root b₂ h₂ _ _ => ?_
    refine (Builder.lower_lays e _ b₂ h₂ ⟨fun t ht => absurd ht List.not_mem_nil,
      fun bd hbd => absurd hbd List.not_mem_nil⟩).bind fun body b₃ h₃ _ _ => ?_
    refine (Builder.setKind_lays h₃ root fun t ht => absurd ht List.not_mem_nil).bind
      fun _ b₄ h₄ _ _ => ?_
    exact Builder.register_lays h₄ root [type]
  obtain ⟨hb, -⟩ := hlays _ _ hlower
  exact ⟨hb.sound, hb.nodes⟩

end Program

end TypeFlow
