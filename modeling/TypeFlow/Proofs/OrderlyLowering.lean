import TypeFlow.Proofs.Lowering
import TypeFlow.Proofs.LoweredParts

/-!
# Lowering all expressions

Lowering an expression ends in the error that a name is undefined exactly if an identifier of the
expression is bound by nothing around it, and the name is that of the first one.  Otherwise a tree
of the expression is left, whose nodes have the scopes of their places.  The proof follows the
expression.

Main definitions:

- `Builder.Prepares`: lowering the expression does so.

Main results:

- `Builder.lower_prepares`: lowering any expression does so.
-/

namespace TypeFlow

namespace Builder

variable {place : Place} {scope : NodeId → List Binder} {b₀ b d : Builder} {id : NodeId}

/-! ## Leaves -/

/-- A constant of the kind was added. -/
def AddsConst (place : Place) (scope : NodeId → List Binder) (b : Builder) (flow : Flow)
    (id : NodeId) (d : Builder) : Prop :=
  d.kind id = .const flow ∧ ∃ scope', Lowered place scope scope' b d [id] 1

private theorem addConst_meets {type : TermId} {flow : Flow} (h : Site place scope b₀)
    (hg : Grown False b₀ b) (ht : Tends b₀ b) (hnew : b₀.forest.size ≤ type)
    (hlt : type < b.forest.size) (hloose : b.forest.Loose type) :
    Meets b none (AddsConst place scope b₀ flow) (addConst place type flow) := by
  refine .addNode fun id c hadd => .setKind fun d hset => ?_
  have hopen := h.open hg ht hnew hlt hloose hadd
  obtain ⟨hl, hkind⟩ := hopen.closeLeaf (.refl hopen.spares.orderly) rfl
    (fun _ _ _ _ e => by cases e) hset
  exact meets_pure ⟨hkind, _, hl⟩

private theorem addBase_meets {flow : Flow} (h : Site place scope b) (hflow : flow.Plain False) :
    Meets b none (AddsConst place scope b flow) (addBase place flow) := by
  refine (alloc_leaf_meets h.orderly rfl rfl rfl).step fun t c halloc ⟨ht, hloose⟩ => ?_
  obtain ⟨hnew, hsize, -⟩ := alloc_eq_ok halloc
  refine addConst_meets h (grown_base hflow b t c halloc) ht hnew.ge ?_ hloose
  rw [hnew, hsize]
  exact Nat.lt_succ_self _

/-- Nil is typed by a new wrapper of a new variable. -/
theorem addNil_meets (h : Site place scope b) :
    Meets b none (AddsConst place scope b .nil) (do
      let inner ← alloc .var
      addConst place (← alloc (.nilable inner)) .nil) := by
  have hf := h.orderly.forest
  refine (alloc_leaf_meets h.orderly rfl rfl rfl).step fun inner b₁ halloc ⟨h₁, _⟩ => ?_
  have hext := (grown_var (N := False) b inner b₁ halloc).extend h.orderly.rooted
  obtain ⟨hinner, hsize, hvar⟩ := alloc_eq_ok halloc
  have hlt : inner < b₁.forest.size := by
    rw [hinner, hsize]
    exact Nat.lt_succ_self _
  have hsingle : ∀ t, t < b₁.forest.size → t ≠ inner → b₁.forest.rep t ≠ inner := by
    intro t ht hne
    have hold : t < b.forest.size := by
      rw [hsize] at ht
      exact Nat.lt_of_le_of_ne (Nat.le_of_lt_succ ht) (hinner ▸ hne)
    rw [hext.rep t hold, hinner]
    exact Nat.ne_of_lt (Forest.rep_lt_size h.orderly.rooted hold)
  obtain ⟨horderly, hself, hloose⟩ := h₁.orderly.forest.allocNilable hvar hlt hsingle
  have hadd : alloc (.nilable inner) b₁ = .ok (b₁.forest.size,
      { b₁ with forest := (b₁.forest.alloc (.nilable inner)).2 }) := grow_eq_ok.2 ⟨rfl, rfl⟩
  have hplain : (Kind.nilable inner).Plain False := not_false
  have hgrown := grown_alloc rfl hplain b₁ _ _ hadd
  -- The wrapper makes no term tight but its variable, which is newer than all others.
  have ht : Tends b { b₁ with forest := (b₁.forest.alloc (.nilable inner)).2 } := by
    refine ⟨⟨⟨horderly, h₁.orderly.pending⟩, ⟨horderly, ?_, ?_⟩, ?_⟩, h₁.nodes⟩
    · exact h₁.spares.size.trans (hgrown.extend h₁.orderly.rooted).size
    · intro t ht hlooset
      refine hloose t (Nat.lt_of_lt_of_le ht h₁.spares.size) ?_ (h₁.spares.loose t ht hlooset)
      exact hinner ▸ Nat.ne_of_lt ht
    · exact h₁.grows.trans ((hgrown.extend h₁.orderly.rooted).grows h₁.orderly.rooted)
  refine Meets.known hadd ?_
  refine addConst_meets h (IsTrans.trans _ _ _ (grown_var b inner b₁ halloc) hgrown) ht
    h₁.spares.size ?_ hself
  rw [Forest.size_alloc]
  exact Nat.lt_succ_self _

/-! ## Primitives -/

/-- A test for nil is registered with its result as well. -/
theorem register_result_meets {α : Type} {primitive : Primitive} {type : TermId} {rest : BuildM α}
    {missing : Option String} {post : α → Builder → Prop} (hb : b.Orderly)
    (hid : id < b.nodes.size) (hrest : ∀ c, Tends b c → Meets c missing post rest) :
    Meets b missing post (if primitive = .notNil then do
        match ← onForest (Forest.child type .ret) with
        | some ret => do
          register id [ret]
          rest
        | none => rest
      else rest) := by
  split
  · refine (child_meets hb type .ret).step fun ret c _ hc => ?_
    cases ret with
    | none => exact hrest c hc
    | some ret =>
      refine (register_meets hc.orderly [ret] (hc.nodes ▸ hid)).step fun _ d _ hd => ?_
      exact hrest d (hc.trans hd)
  · exact hrest b (.refl hb)

private theorem addPrimitive_meets (h : Site place scope b₀) (primitive : Primitive) :
    Meets b₀ none (fun id d => (∃ fid formals, d.kind id = .prim primitive fid formals) ∧
      ∃ scope', Lowered place scope scope' b₀ d [id] 1) (addPrimitive place primitive) := by
  refine .known (nextFunction_eq_ok.2 ⟨rfl, rfl⟩) ?_
  refine (primitiveType_meets h.orderly primitive _).step fun r b₁ htype ⟨h₁, hloose⟩ => ?_
  obtain ⟨type, formals⟩ := r
  obtain ⟨hnew, hlt⟩ := primitiveType_eq_ok h.orderly.rooted htype
  refine .addNode fun id b₂ hadd => ?_
  have hopen := h.open (grown_primitiveType primitive _ b₀ _ b₁ htype) h₁ hnew hlt hloose hadd
  have hid := hopen.built.lt
  refine (register_meets hopen.spares.orderly formals hid).step fun _ b₃ _ h₃ => ?_
  refine register_result_meets h₃.orderly (h₃.nodes ▸ hid) fun b₄ h₄ => ?_
  refine .addFunction fun b₅ hfunction => .setKind fun d hset => ?_
  have h₅ := addFunction_tends h₄.orderly hfunction
  obtain ⟨hl, hkind⟩ := hopen.closeLeaf ((h₃.trans h₄).trans h₅) rfl
    (fun _ _ _ _ e => by cases e) hset
  exact meets_pure ⟨⟨_, _, hkind⟩, _, hl⟩

/-! ## Identifiers -/

private theorem Site.mem_names_iff (h : Site place scope b) {name : String} :
    name ∈ place.names ↔ place.binders.findSome? (·.binding? name) ≠ none := by
  rw [Ne, List.findSome?_eq_none_iff, Place.names, List.mem_flatMap]
  constructor
  · rintro ⟨bd, hbd, hname⟩ hnone
    exact (Binder.binding?_eq_none_iff (h.named bd hbd)).1 (hnone bd hbd) hname
  · intro hsome
    by_contra hnot
    refine hsome fun bd hbd => (Binder.binding?_eq_none_iff (h.named bd hbd)).2 fun hname => ?_
    exact hnot ⟨bd, hbd, hname⟩

private theorem addIdent_meets (h : Site place scope b₀) (name : String) :
    Meets b₀ (firstUnbound [(name, place.names)])
      (fun id d => (∃ binder position binding, d.kind id = .ident name binder position binding) ∧
        ∃ scope', Lowered place scope scope' b₀ d [id] 1) (addIdent place name) := by
  refine h.openVar (Std.Refl.refl b₀) (.refl h.orderly) fun t b₁ id b₂ halloc hadd hopen => ?_
  have hgood := hopen.built.good
  refine (forM_meets hopen.spares.orderly place.binders.reverse fun bd c hc hnodes =>
    register_meets hc (bd.typesOf name) (hnodes ▸ hopen.built.lt)).step fun u b₃ hregister h₃ => ?_
  rw [firstUnbound_singleton]
  cases hfound : place.binders.findSome? (·.binding? name) with
  | none =>
    rw [if_neg fun hmem => h.mem_names_iff.1 hmem hfound]
    rfl
  | some found =>
    rw [if_pos (h.mem_names_iff.2 (hfound ▸ Option.some_ne_none _))]
    refine .setKind fun d hset => ?_
    have hregistered : ∀ bd ∈ place.binders, ∀ t ∈ bd.typesOf name,
        id ∈ b₃.forest.deps (b₃.forest.rep t) := fun bd hbd t ht =>
      registers_bindings hgood.rooted hbd ht
        ((hgood.binder bd hbd).2 t (Binder.mem_types_of_mem_typesOf ht)).1 hregister
    obtain ⟨hl, hkind⟩ := hopen.closeLeaf h₃ rfl
      (fun _ _ _ _ e => by cases e; exact ⟨hfound, hregistered⟩) hset
    exact meets_pure ⟨⟨_, _, _, hkind⟩, _, hl⟩

/-! ## Inner nodes -/

/-- Lowering the expression ends in an error if an identifier is unbound, and leaves its tree
otherwise. -/
def Prepares (e : Expr) : Prop :=
  ∀ place scope b, Site place scope b → Meets b (firstUnbound (e.identifiers place.names))
    (fun id d => e.Mirrors d.kind id ∧
      ∃ scope', Lowered place scope scope' b d [id] e.subterms.length) (lower e place)

/-- Lowering the expressions in turn does so. -/
def PreparesAll (es : List Expr) : Prop :=
  ∀ place scope b, Site place scope b →
    Meets b (firstUnbound (Expr.identifiersOfArgs es place.names))
      (fun ids d => Expr.MirrorArgs d.kind es ids ∧
        ∃ scope', Lowered place scope scope' b d ids (Expr.subtermsOfArgs es).length)
      (lowerList es place)

/-- Lowering the fields in turn does so. -/
def PreparesFields (fields : List (String × Expr)) : Prop :=
  ∀ place type scope b, Site place scope b →
    Meets b (firstUnbound (Expr.identifiersOfFields fields place.names))
      (fun parts d => parts.map Prod.fst = fields.map Prod.fst ∧
        Expr.MirrorFields d.kind fields (parts.map Prod.snd) ∧
        ∃ scope', Lowered place scope scope' b d (parts.map Prod.snd)
          (Expr.subtermsOfFields fields).length)
      (lowerFields fields place type)

/-- What is lowered at a site is built. -/
theorem Site.built (h : Site place scope b) {e : Expr} (hlower : lower e place b = .ok (id, d)) :
    Built False place.binders (some place.parent) b d id :=
  lower_built e False.elim place b id d h.prepared hlower

private theorem apply_prepares {fn : Expr} {args : List Expr} (hfn : Prepares fn)
    (hargs : PreparesAll args) : Prepares (.apply fn args) := by
  intro place scope b₀ h
  have hcount : (Expr.apply fn args).subterms.length =
      fn.subterms.length + (Expr.subtermsOfArgs args).length + 1 := by
    rw [Expr.subterms, List.length_cons, List.length_append]
  rw [hcount, Expr.identifiers, firstUnbound_append]
  refine h.openVar (Std.Refl.refl b₀) (.refl h.orderly) fun t b₁ id b₂ _ _ hopen => ?_
  have hsite := hopen.site h
  refine (hfn _ _ b₂ hsite).bind fun callee b₃ hlower hpost => ?_
  obtain ⟨hfn', scope₁, hl₁⟩ := hpost
  have hcallee := hsite.built hlower
  have hsite₁ := hsite.after hcallee.all hl₁
  refine (hargs _ _ b₃ hsite₁).last fun parts b₄ hlower' hpost => ?_
  obtain ⟨hargs', scope₂, hl₂⟩ := hpost
  have hparts := lowerList_built args False.elim _ b₃ parts b₄ hsite₁.prepared hlower'
  refine .setKind fun d hset => ?_
  obtain ⟨hl, hkind, hkeep⟩ := hopen.closeInner (hl₁.append hl₂ hparts.frame)
    (hcallee.all.append hparts) rfl (fun _ => rfl) (fun _ _ _ _ => NodeKind.noConfusion) hset
  refine meets_pure ⟨⟨callee, parts, hkind, ?_, Expr.MirrorArgs.mono hkeep args hargs'⟩, scope₂, hl⟩
  exact Expr.Mirrors.mono hkeep fn (Expr.Mirrors.mono hparts.frame.keepsKinds fn hfn')

private theorem field_prepares {source : Expr} {label : String} (hsource : Prepares source) :
    Prepares (.field source label) := by
  intro place scope b₀ h
  rw [Expr.subterms, List.length_cons, Expr.identifiers]
  refine h.openVar (Std.Refl.refl b₀) (.refl h.orderly) fun t b₁ id b₂ _ _ hopen => ?_
  have hsite := hopen.site h
  refine (hsource _ _ b₂ hsite).last fun inner b₃ hlower hpost => ?_
  obtain ⟨hsource', scope₁, hl₁⟩ := hpost
  have hinner := hsite.built hlower
  refine .setKind fun d hset => ?_
  obtain ⟨hl, hkind, hkeep⟩ := hopen.closeInner hl₁ hinner.all rfl (fun _ => rfl)
    (fun _ _ _ _ => NodeKind.noConfusion) hset
  exact meets_pure ⟨⟨inner, hkind, Expr.Mirrors.mono hkeep source hsource'⟩, scope₁, hl⟩

private theorem record_prepares {fields : List (String × Expr)} (hfields : PreparesFields fields) :
    Prepares (.record fields) := by
  intro place scope b₀ h
  rw [Expr.subterms, List.length_cons, Expr.identifiers]
  have hsite₀ : newSite b₀ = .ok (b₀.nextSite, { b₀ with nextSite := b₀.nextSite + 1 }) :=
    newSite_eq_ok.2 ⟨rfl, rfl⟩
  refine .known hsite₀ ?_
  have h₁ := newSite_tends h.orderly hsite₀
  refine (alloc_leaf_meets h₁.orderly rfl rfl rfl).step fun type b₂ halloc hpost => ?_
  obtain ⟨h₂, hloose⟩ := hpost
  have hplain : (Kind.record .nil (.singleton b₀.nextSite) false false).Plain False := fun _ => rfl
  have hg := IsTrans.trans _ _ _ (grown_newSite b₀ _ _ hsite₀)
    (grown_alloc rfl hplain _ type b₂ halloc)
  obtain ⟨hnew, hsize, -⟩ := alloc_eq_ok halloc
  refine .addNode fun id b₃ hadd => ?_
  have hlt : type < b₂.forest.size := by
    rw [hnew, hsize]
    exact Nat.lt_succ_self _
  have hopen := h.open hg (h₁.trans h₂) hnew.ge hlt hloose hadd
  have hsite := hopen.site h
  refine (hfields _ type _ b₃ hsite).last fun parts b₄ hlower hpost => ?_
  obtain ⟨hlabels, hfields', scope₁, hl₁⟩ := hpost
  have hparts := lowerFields_built fields False.elim _ type b₃ parts b₄ hsite.prepared hlower
  refine .setKind fun d hset => ?_
  obtain ⟨hl, hkind, hkeep⟩ := hopen.closeInner hl₁ hparts rfl (fun _ => rfl)
    (fun _ _ _ _ => NodeKind.noConfusion) hset
  refine meets_pure ⟨⟨_, _, hlabels ▸ hkind, ?_⟩, scope₁, hl⟩
  exact Expr.MirrorFields.mono hkeep fields hfields'

/-! ## Functions -/

variable {scope' : NodeId → List Binder} {count : Nat}

/-- A function is typed: the variable that its type was becomes a new function type. -/
theorem Lowered.sign {child : NodeId} {widen : Bool} {fid : FunctionId} {formals : List TermId}
    {type : TermId} (h : Lowered place scope scope' b₀ b [id] count)
    (htype : (b.node id).type = type) (hvar : b.forest.kind type = .var)
    (hformals : ∀ t ∈ formals, t < b.forest.size) (hchild : (b.node child).type < b.forest.size) :
    Meets b none (fun id' d => id' = id ∧ d.nodes = b.nodes ∧
        Lowered place scope scope' b₀ d [id] count) (do
      let ret ← find child
      let type ← grow (·.allocFunction widen (.singleton fid) formals ret)
      unify (← find id) type
      return id) := by
  have hb := h.spares.orderly
  have hsize := fun {c : Builder} (hc : Tends b c) {t : TermId} (ht : t < b.forest.size) =>
    Nat.lt_of_lt_of_le ht hc.spares.size
  obtain ⟨hlt, hloose⟩ := htype ▸ h.loose id (List.mem_singleton_self id)
  refine (find_meets hb child).step fun ret c₁ hret h₁ => ?_
  have hretlt : ret < c₁.forest.size := by
    rw [find_eq_rep hb.rooted hret]
    exact hsize h₁ (Forest.rep_lt_size hb.rooted hchild)
  refine (allocFunction_meets h₁.orderly widen _ (fun t ht => hsize h₁ (hformals t ht))
    hretlt).step fun signature c₂ hsignature ⟨h₂, hloose₂⟩ => ?_
  refine (find_meets h₂.orderly id).step fun root c₃ hroot h₃ => ?_
  -- The type of the node is still the variable that it was.
  have hext₁ := (grown_find (N := False) child b ret c₁ hret).extend hb.rooted
  have hext₂ := (grown_allocFunction (N := False) _ _ _ _ c₁ signature c₂ hsignature).extend
    h₁.orderly.rooted
  have hext₃ := (grown_find (N := False) id c₂ root c₃ hroot).extend h₂.orderly.rooted
  have hvar₂ := (hext₁.trans hext₂).var type hlt hvar
  have hvar₃ := hext₃.var type (hsize (h₁.trans h₂) hlt) hvar₂
  obtain rfl : root = type := by
    rw [find_eq_rep h₂.orderly.rooted hroot, node_of_nodes (h₁.trans h₂).nodes, htype]
    exact Forest.rep_of_not_link (by rw [hvar₂]; rfl)
  have hnew := (allocFunction_eq_ok h₁.orderly.rooted hsignature).2
  have ht := (h₁.trans h₂).trans h₃
  refine (unify_meets h₃.orderly ?_ (hsize ht hlt) (Nat.lt_of_lt_of_le hnew h₃.spares.size)
    (ht.spares.loose root hlt hloose) (h₃.spares.loose _ hnew hloose₂)).step fun _ d _ h₄ => ?_
  · rw [Forest.rep_of_not_link (by rw [hvar₃]; rfl), hvar₃]
  · exact meets_pure ⟨rfl, (ht.trans h₄).nodes, h.tends (ht.trans h₄)⟩

/-- A function is filled in after its body was lowered. -/
theorem Opened.closeFunction {params : List String} {child : NodeId} {fid : FunctionId}
    {formals : List TermId} {widen : Bool} {c : Builder} {u : Unit}
    (h : Opened place scope b₀ b id) (hframe : Framed b c)
    (hl : Lowered ⟨id, formals.reverse ++ place.pinned, ⟨id, params, formals, true⟩ ::
      place.binders⟩ (Function.update scope id place.binders) scope' b c [child] count)
    (hparent : (c.node child).parent = some id)
    (hset : setKind id (.lambda params child fid formals widen) c = .ok (u, d)) :
    Lowered place scope scope' b₀ d [id] (count + 1) ∧
      Filled id (.lambda params child fid formals widen) (b.node id).type c d := by
  have hlt := h.built.lt
  have hself := hframe.node id hlt
  have htyped := h.built.good.typed id hlt
  have hd := filled_of_setKind (Nat.lt_of_lt_of_le hlt hframe.size) hset
  rw [hself] at hd
  refine ⟨h.close hd hself hl.spares hl.size hl.planted (List.Perm.refl _)
    (List.forall_mem_singleton.2 hparent) hl.scopes hl.kept hl.around
    (fun _ _ _ _ => NodeKind.noConfusion) ?_, hd⟩
  exact ⟨Nat.lt_of_lt_of_le htyped hl.spares.spares.size,
    hl.spares.spares.loose _ htyped h.loose⟩

private theorem lambda_prepares {params : List String} {body : Expr} {widen : Bool}
    (hbody : Prepares body) : Prepares (.lambda params body widen) := by
  intro place scope b₀ h
  rw [Expr.subterms, List.length_cons, Expr.identifiers]
  refine .known (nextFunction_eq_ok.2 ⟨rfl, rfl⟩) ?_
  refine (allocVars_meets h.orderly params.length).step fun formals b₁ hallocs hpost => ?_
  obtain ⟨h₁, hlength, _⟩ := hpost
  have hg₁ : Grown False b₀ b₁ := grown_allocVars params.length b₀ formals b₁ hallocs
  refine h.openVar hg₁ h₁ fun type b₂ id b₃ halloc hadd hopen => ?_
  refine .addFunction fun b₄ hfunction => ?_
  have h₄ := addFunction_tends hopen.spares.orderly hfunction
  obtain ⟨hstart, hvacant, htype, hforest, -⟩ := Built.start_var h.prepared hg₁ halloc hadd
  -- The parameters are variables while the body is lowered.
  have hformals : ∀ t ∈ formals, t < b₃.forest.size ∧ b₃.forest.kind t = .var := by
    intro t ht
    obtain ⟨hlt, hvar⟩ := kind_allocVars h.orderly.rooted hallocs t ht
    have hext := (grown_var (N := False) b₁ type b₂ halloc).extend h₁.orderly.rooted
    rw [hforest]
    exact ⟨Nat.lt_of_lt_of_le hlt hext.size, hext.var t hlt hvar⟩
  obtain ⟨hinside, hframe₄, -⟩ := hstart.addFunction ⟨id, params, formals, true⟩ h.prepared hvacant
    rfl rfl hformals hfunction
  have hsite : Site ⟨id, formals.reverse ++ place.pinned, ⟨id, params, formals, true⟩ ::
      place.binders⟩ (Function.update scope id place.binders) b₄ :=
    ⟨hinside.prepared ((hframe₄.kind hstart.lt).trans hvacant), h₄.orderly,
      List.forall_mem_cons.2 ⟨hlength.symm, h.named⟩, scoped_grows hopen.scopes h₄.nodes h₄.grows⟩
  refine (hbody _ _ b₄ hsite).last fun child b₅ hlower hpost => ?_
  obtain ⟨hbody', scope₁, hl₁⟩ := hpost
  have hinner := hsite.built hlower
  have hframe₅ := hframe₄.trans hinner.frame
  refine .setKind fun b₆ hset => ?_
  obtain ⟨hclosed, hd⟩ := hopen.closeFunction hframe₅ (hl₁.from h₄) hinner.parent hset
  rw [htype] at hd
  have htyped : type < b₃.forest.size := htype ▸ hstart.good.typed id hstart.lt
  have hkeep := hd.keepsKinds ((hframe₅.kind hstart.lt).trans hvacant)
  have hne : child ≠ id := Nat.ne_of_gt (hinside.child hinner).2.1
  refine (hclosed.sign (by rw [hd.node, if_pos rfl]) ?_ ?_ ?_).imp fun id' d _ hpost => ?_
  · rw [hd.forest]
    refine hframe₅.forest.var type htyped ?_
    rw [hforest]
    exact (alloc_eq_ok halloc).2.2
  · rw [hd.forest]
    exact fun t ht => Nat.lt_of_lt_of_le (hformals t ht).1 hframe₅.forest.size
  · rw [hd.node, if_neg hne, hd.forest]
    exact hinner.good.typed child hinner.lt
  · obtain ⟨hid, hnodes, hlast⟩ := hpost
    subst hid
    have hkeep' := keepsKinds_of_nodes hnodes
    have hkind : b₆.kind id' = .lambda params child (b₀.functions.size + 1) formals widen := by
      rw [Builder.kind, hd.node, if_pos rfl]
    refine ⟨⟨child, _, formals, hkeep'.kept hkind (by simp), hlength, ?_⟩, scope₁, hlast⟩
    exact Expr.Mirrors.mono hkeep' body (Expr.Mirrors.mono hkeep body hbody')

/-! ## Definitions -/

/-- The name of a definition and what it stands for become one class. -/
theorem Lowered.tie {child : NodeId} {binding : TermId}
    (h : Lowered place scope scope' b₀ b [id] count) (hlt : binding < b.forest.size)
    (hvar : b.forest.kind binding = .var) (hloose : b.forest.Loose binding)
    (hchild : (b.node child).type < b.forest.size)
    (hchild' : b.forest.Loose (b.node child).type) :
    Meets b none (fun id' d => id' = id ∧ d.nodes = b.nodes ∧
        Lowered place scope scope' b₀ d [id] count) (do
      unify binding (← find child)
      return id) := by
  have hb := h.spares.orderly
  refine (find_meets hb child).step fun root c hroot hc => ?_
  have hrep := find_eq_rep hb.rooted hroot
  have hroot' : root < b.forest.size := hrep ▸ Forest.rep_lt_size hb.rooted hchild
  have hlooseroot : b.forest.Loose root := hchild'.congr (by rw [hrep, Forest.rep_rep hb.rooted])
  have hext := (grown_find (N := False) child b root c hroot).extend hb.rooted
  have hvar' := hext.var binding hlt hvar
  refine (unify_meets hc.orderly ?_ (Nat.lt_of_lt_of_le hlt hc.spares.size)
    (Nat.lt_of_lt_of_le hroot' hc.spares.size) (hc.spares.loose binding hlt hloose)
    (hc.spares.loose root hroot' hlooseroot)).step fun _ d _ hd => ?_
  · rw [Forest.rep_of_not_link (by rw [hvar']; rfl), hvar']
  · exact meets_pure ⟨rfl, (hc.trans hd).nodes, h.tends (hc.trans hd)⟩

/-- A definition is filled in after its body and what its name stands for were lowered. -/
theorem Opened.closeDefinition {name : String} {binding : TermId} {inner bound : NodeId}
    {scope₁ scope₂ : NodeId → List Binder} {count' : Nat} {c₁ c c' : Builder} {u v : Unit}
    (h : Opened place scope b₀ b id)
    (hl₁ : Lowered ⟨id, place.pinned, ⟨id, [name], [binding], false⟩ :: place.binders⟩
      (Function.update scope id place.binders) scope₁ b c₁ [inner] count)
    (hl₂ : Lowered ⟨id, binding :: place.pinned, ⟨id, [name], [binding], false⟩ :: place.binders⟩
      scope₁ scope₂ c₁ c [bound] count')
    (hframe₁ : Framed b c₁) (hframe₂ : Framed c₁ c)
    (hinner : (c₁.node inner).parent = some id) (hbound : (c.node bound).parent = some id)
    (hset : setKind id (.letIn name bound inner binding) c = .ok (u, c'))
    (hsetType : setType id (c'.node inner).type c' = .ok (v, d)) :
    Lowered place scope scope₂ b₀ d [id] (count + count' + 1) ∧
      Filled id (.letIn name bound inner binding) (c.node inner).type c d := by
  obtain ⟨hinner₁, hinnerlt⟩ := hl₁.planted.new inner (List.mem_singleton_self _)
  obtain ⟨hbound₁, -⟩ := hl₂.planted.new bound (List.mem_singleton_self _)
  obtain ⟨htyped, hloose⟩ := hl₁.loose inner (List.mem_singleton_self _)
  have hid := Nat.lt_of_lt_of_le h.built.lt (hframe₁.trans hframe₂).size
  have hnode : c.node inner = c₁.node inner := hframe₂.node inner hinnerlt
  have hne : inner ≠ bound := Nat.ne_of_lt (Nat.lt_of_lt_of_le hinnerlt hbound₁)
  have htype : (c'.node inner).type = (c.node inner).type := by
    rw [(filled_of_setKind hid hset).node,
      if_neg (Nat.ne_of_gt (Nat.lt_of_lt_of_le h.built.lt hinner₁))]
  have hd := filled_of_setType hid hset (htype ▸ hsetType)
  have hsize : c.nodes.size = b.nodes.size + (count + count') := by
    rw [hl₂.size, hl₁.size, Nat.add_assoc]
  refine ⟨h.close hd ((hframe₁.trans hframe₂).node id h.built.lt) (hl₁.spares.trans hl₂.spares)
    hsize (hl₁.planted.append hl₂.planted hframe₁.size hframe₂) (List.Perm.swap _ _ _) ?_
    hl₂.scopes (fun n hn => ?_) ?_ (fun _ _ _ _ => NodeKind.noConfusion) ?_, hd⟩
  · exact List.forall_mem_cons.2 ⟨hnode ▸ hinner, List.forall_mem_singleton.2 hbound⟩
  · rw [hl₂.kept n (Nat.lt_of_lt_of_le hn hframe₁.size), hl₁.kept n hn]
  · refine List.forall_mem_cons.2 ⟨?_, List.forall_mem_singleton.2 ?_⟩
    · obtain ⟨hscope, hpinned⟩ := hl₂.around bound (List.mem_singleton_self _)
      rw [hscope, hpinned, NodeKind.pins, if_pos rfl]
      exact ⟨rfl, rfl⟩
    · obtain ⟨hscope, hpinned⟩ := hl₁.around inner (List.mem_singleton_self _)
      rw [hl₂.kept inner hinnerlt, hnode, hscope, hpinned, NodeKind.pins, if_neg hne]
      exact ⟨rfl, rfl⟩
  · rw [hnode]
    exact ⟨Nat.lt_of_lt_of_le htyped hl₂.spares.spares.size,
      hl₂.spares.spares.loose _ htyped hloose⟩

private theorem letIn_prepares {name : String} {definition body : Expr} (hdefinition : Prepares definition)
    (hbody : Prepares body) : Prepares (.letIn name definition body) := by
  intro place scope b₀ h
  have hcount : (Expr.letIn name definition body).subterms.length =
      body.subterms.length + definition.subterms.length + 1 := by
    rw [Expr.subterms, List.length_cons, List.length_append, Nat.add_comm body.subterms.length]
  rw [hcount, Expr.identifiers, firstUnbound_append]
  refine h.openVar (Std.Refl.refl b₀) (.refl h.orderly) fun binding b₁ id b₂ halloc hadd hopen => ?_
  obtain ⟨hstart, hvacant, htype, hforest, -⟩ :=
    Built.start_var h.prepared (Std.Refl.refl b₀) halloc hadd
  have hbinding : binding < b₂.forest.size ∧ b₂.forest.kind binding = .var := by
    obtain ⟨hnew, hsize, hvar⟩ := alloc_eq_ok halloc
    rw [hforest]
    refine ⟨?_, hvar⟩
    rw [hnew, hsize]
    exact Nat.lt_succ_self _
  have hinside : Built False (⟨id, [name], [binding], false⟩ :: place.binders) (some place.parent)
      b₀ b₂ id := by
    refine hstart.after (hstart.good.enclose hstart.lt ?_) (Framed.refl hstart.good.rooted)
    exact List.forall_mem_singleton.2 hbinding
  have hprepared := hinside.prepared hvacant
  have hnamed : ∀ bd ∈ ⟨id, [name], [binding], false⟩ :: place.binders,
      bd.names.length = bd.types.length := List.forall_mem_cons.2 ⟨rfl, h.named⟩
  -- The body is lowered first, where the name is not pinned.
  have hsite : Site ⟨id, place.pinned, ⟨id, [name], [binding], false⟩ :: place.binders⟩
      (Function.update scope id place.binders) b₂ :=
    ⟨hprepared, hopen.spares.orderly, hnamed, hopen.scopes⟩
  refine (hbody _ _ b₂ hsite).bind fun inner b₃ hlower hpost => ?_
  obtain ⟨hbody', scope₁, hl₁⟩ := hpost
  have hinner := hsite.built hlower
  have hsite₁ : Site ⟨id, binding :: place.pinned, ⟨id, [name], [binding], false⟩ ::
      place.binders⟩ scope₁ b₃ :=
    ⟨hprepared.after hinner.good hinner.frame, hl₁.spares.orderly, hnamed, hl₁.scopes⟩
  refine (hdefinition _ _ b₃ hsite₁).last fun bound b₄ hlower' hpost => ?_
  obtain ⟨hdefinition', scope₂, hl₂⟩ := hpost
  have hbound := hsite₁.built hlower'
  have hframe : Framed b₂ b₄ := hinner.frame.trans hbound.frame
  refine .setKind fun b₅ hset => .known (typeOf_eq_ok.2 ⟨rfl, rfl⟩) (.setType fun b₆ hsetType => ?_)
  obtain ⟨hclosed, hd⟩ := hopen.closeDefinition hl₁ hl₂ hinner.frame hbound.frame hinner.parent
    hbound.parent hset hsetType
  have hkeep := hd.keepsKinds ((hframe.kind hstart.lt).trans hvacant)
  have hbound' : b₆.node bound = b₄.node bound := by
    have hlt : id < bound :=
      Nat.lt_of_lt_of_le hstart.lt (hinner.frame.size.trans hbound.new)
    rw [hd.node, if_neg (Nat.ne_of_gt hlt)]
  obtain ⟨hboundtyped, hboundloose⟩ := hl₂.loose bound (List.mem_singleton_self _)
  refine (hclosed.tie ?_ ?_ ?_ ?_ ?_).imp fun id' d _ hpost => ?_
  · rw [hd.forest]
    exact Nat.lt_of_lt_of_le hbinding.1 hframe.forest.size
  · rw [hd.forest]
    exact hframe.forest.var binding hbinding.1 hbinding.2
  · rw [hd.forest]
    exact (hl₁.spares.trans hl₂.spares).spares.loose binding hbinding.1 (htype ▸ hopen.loose)
  · rw [hbound', hd.forest]
    exact hboundtyped
  · rw [hbound', hd.forest]
    exact hboundloose
  · obtain ⟨hid, hnodes, hlast⟩ := hpost
    subst hid
    have hkeep' := keepsKinds_of_nodes hnodes
    have hkind : b₆.kind id' = .letIn name bound inner binding := by
      rw [Builder.kind, hd.node, if_pos rfl]
    refine ⟨⟨bound, inner, binding, hkeep'.kept hkind (by simp), ?_, ?_⟩, scope₂, hlast⟩
    · exact Expr.Mirrors.mono hkeep' _ (Expr.Mirrors.mono hkeep definition hdefinition')
    · exact Expr.Mirrors.mono hkeep' _ (Expr.Mirrors.mono hkeep _
        (Expr.Mirrors.mono hbound.frame.keepsKinds body hbody'))
/-! ## Every expression -/

mutual

/-- Lowering an expression ends in an error if an identifier is unbound, and leaves its tree
otherwise. -/
theorem lower_prepares : ∀ e : Expr, Prepares e
  | .nil => fun _ _ _ h => addNil_meets h
  | .int c => fun _ _ _ h => addBase_meets h (.int (.const c))
  | .float x => fun _ _ _ h => addBase_meets h (.float (.const x))
  | .text s => fun _ _ _ h => addBase_meets h (.text (some s))
  | .prim primitive => fun _ _ _ h => addPrimitive_meets h primitive
  | .ident name => fun _ _ _ h => addIdent_meets h name
  | .lambda _ body _ => lambda_prepares (lower_prepares body)
  | .letIn _ definition body => letIn_prepares (lower_prepares definition) (lower_prepares body)
  | .apply fn args => apply_prepares (lower_prepares fn) (lowerList_prepares args)
  | .record fields => record_prepares (lowerFields_prepares fields)
  | .field source _ => field_prepares (lower_prepares source)
  termination_by structural e => e

private theorem lowerList_prepares : ∀ es : List Expr, PreparesAll es
  | [] => fun _ scope _ h => meets_pure ⟨rfl, scope, .nil h⟩
  | e :: rest => by
    intro place scope b h
    rw [Expr.identifiersOfArgs, firstUnbound_append, Expr.subtermsOfArgs, List.length_append]
    refine (lower_prepares e place scope b h).bind fun id c hlower hpost => ?_
    obtain ⟨he, scope₁, hl₁⟩ := hpost
    have hsite := h.after (h.built hlower).all hl₁
    refine (lowerList_prepares rest place scope₁ c hsite).last fun ids d hlower' hpost => ?_
    obtain ⟨hrest, scope₂, hl₂⟩ := hpost
    have hframe := (lowerList_built rest False.elim place c ids d hsite.prepared hlower').frame
    refine meets_pure ⟨⟨id, ids, rfl, ?_, hrest⟩, scope₂, hl₁.append hl₂ hframe⟩
    exact Expr.Mirrors.mono hframe.keepsKinds e he
  termination_by structural es => es

private theorem lowerFields_prepares : ∀ fields : List (String × Expr), PreparesFields fields
  | [] => fun _ _ scope _ h => meets_pure ⟨rfl, rfl, scope, .nil h⟩
  | field :: rest => by
    intro place type scope b h
    rw [Expr.identifiersOfFields, firstUnbound_append, Expr.subtermsOfFields, List.length_append]
    refine (lowerField_prepares field place type scope b h).bind fun part c hlower hpost => ?_
    obtain ⟨hlabel, hfield, scope₁, hl₁⟩ := hpost
    have hpart := lowerField_built field False.elim place type b part c h.prepared hlower
    have hsite := h.after hpart hl₁
    refine (lowerFields_prepares rest place type scope₁ c hsite).last fun parts d hlower' hpost => ?_
    obtain ⟨hlabels, hrest, scope₂, hl₂⟩ := hpost
    have hframe :=
      (lowerFields_built rest False.elim place type c parts d hsite.prepared hlower').frame
    refine meets_pure ⟨?_, ⟨part.2, _, rfl, ?_, hrest⟩, scope₂, hl₁.append hl₂ hframe⟩
    · rw [List.map_cons, List.map_cons, hlabel, hlabels]
    · exact Expr.MirrorField.mono hframe.keepsKinds field hfield
  termination_by structural fields => fields

private theorem lowerField_prepares : ∀ field : String × Expr, ∀ place type scope b, Site place scope b →
    Meets b (firstUnbound (Expr.identifiersOfField field place.names))
      (fun part d => part.1 = field.1 ∧ Expr.MirrorField d.kind field part.2 ∧
        ∃ scope', Lowered place scope scope' b d [part.2] (Expr.subtermsOfField field).length)
      (lowerField field place type)
  | (label, e) => by
    intro place type scope b h
    refine (lower_prepares e place scope b h).last fun id c hlower hpost => ?_
    obtain ⟨he, scope₁, hl⟩ := hpost
    have hbuilt := h.built hlower
    have hc := hl.spares.orderly
    refine (find_meets hc id).step fun t c₁ hfind h₁ => ?_
    have ht : t < c₁.forest.size := by
      rw [find_eq_rep hc.rooted hfind]
      exact Nat.lt_of_lt_of_le (Forest.rep_lt_size hc.rooted (hbuilt.good.typed id hbuilt.lt))
        h₁.spares.size
    refine (setField_meets h₁.orderly type label ht).step fun _ d _ h₂ => ?_
    have hd := h₁.trans h₂
    refine meets_pure ⟨rfl, ?_, scope₁, hl.tends hd⟩
    exact Expr.Mirrors.mono (keepsKinds_of_nodes hd.nodes) e he
  termination_by structural field => field

end

end Builder

end TypeFlow
