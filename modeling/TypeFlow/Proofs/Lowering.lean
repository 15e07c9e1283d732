import TypeFlow.Proofs.NewNodes

/-!
# Lowering an expression

Lowering an expression adds nodes below the parent that its place names, all complete at the end,
and leaves everything outside alone.  The proof follows the expression.

Main definitions:

- `Expr.mentionsNil`: the expression mentions nil or tests for it.
- `Builder.Lowers`: lowering the expression adds one complete node.

Main results:

- `Builder.lower_built`: every expression is lowered to a complete node.
-/

namespace TypeFlow

/-! ## Nil in expressions -/

mutual

/-- The expression mentions nil or tests for it. -/
def Expr.mentionsNil : Expr → Bool
  | .nil => true
  | .prim primitive => primitive = .notNil
  | .apply fn args => fn.mentionsNil || Expr.anyMentionsNil args
  | .lambda _ body _ => body.mentionsNil
  | .letIn _ definition body => definition.mentionsNil || body.mentionsNil
  | .record fields => Expr.anyFieldMentionsNil fields
  | .field source _ => source.mentionsNil
  | .int _ | .float _ | .text _ | .ident _ => false
  termination_by structural e => e

/-- One of the expressions mentions nil. -/
def Expr.anyMentionsNil : List Expr → Bool
  | [] => false
  | e :: rest => e.mentionsNil || Expr.anyMentionsNil rest
  termination_by structural es => es

/-- One of the fields mentions nil. -/
def Expr.anyFieldMentionsNil : List (String × Expr) → Bool
  | [] => false
  | e :: rest => Expr.fieldMentionsNil e || Expr.anyFieldMentionsNil rest
  termination_by structural es => es

/-- The expression of the field mentions nil. -/
def Expr.fieldMentionsNil : String × Expr → Bool
  | (_, e) => e.mentionsNil
  termination_by structural e => e

end

namespace Builder

variable {N : Prop} {binders : List Binder} {place : Place} {b₀ b d : Builder} {id : NodeId}

/-! ## Leaves -/

private theorem addConst_built {type : TermId} {flow : Flow}
    (h₀ : b₀.Prepared N place.binders (some place.parent)) (hg : Grown N b₀ b)
    (hnew : b₀.forest.size ≤ type) (hlt : type < b.forest.size) (hflow : flow.Plain N)
    (h : addConst place type flow b = .ok (id, d)) :
    Built N place.binders (some place.parent) b₀ d id := by
  obtain ⟨id', b₁, hadd, h₁⟩ := bind_eq_ok.1 h
  obtain ⟨u, b₂, hset, h₂⟩ := bind_eq_ok.1 h₁
  obtain ⟨rfl, rfl⟩ := pure_eq_ok.1 h₂
  obtain ⟨hbuilt, hvacant, -⟩ := Built.start h₀ hg hnew hlt hadd
  exact hbuilt.complete h₀ hvacant hset (fits_const hflow)

private theorem addBase_built {flow : Flow} (h₀ : b₀.Prepared N place.binders (some place.parent))
    (hflow : flow.Plain N) (h : addBase place flow b₀ = .ok (id, d)) :
    Built N place.binders (some place.parent) b₀ d id := by
  obtain ⟨t, b₁, halloc, h₁⟩ := bind_eq_ok.1 h
  have hg : Grown N b₀ b₁ := grown_base hflow b₀ t b₁ halloc
  obtain ⟨rfl, hsize, -⟩ := alloc_eq_ok halloc
  refine addConst_built h₀ hg le_rfl ?_ hflow h₁
  rw [hsize]
  exact Nat.lt_succ_self _

/-! ## Identifiers -/

/-- What one of several steps brings about stays. -/
theorem forM_reaches {β : Type} {step : β → BuildM Unit} {P : Builder → Prop}
    (hgrown : ∀ x, Keeps (Grown N) (step x))
    (hstable : ∀ b d, b.forest.Rooted → Grown N b d → P b → P d) {x : β}
    (hstep : ∀ b u d, Grown N b₀ b → step x b = .ok (u, d) → P d) (hrooted : b₀.forest.Rooted)
    {xs : List β} (hx : x ∈ xs) {b d : Builder} {u : Unit} (hb : Grown N b₀ b)
    (h : xs.forM step b = .ok (u, d)) : P d := by
  induction xs generalizing b with
  | nil => exact absurd hx List.not_mem_nil
  | cons y rest ih =>
    obtain ⟨v, b₁, hfirst, h₁⟩ := bind_eq_ok.1 h
    have hb₁ : Grown N b₀ b₁ := IsTrans.trans _ _ _ hb (hgrown y b v b₁ hfirst)
    rcases List.mem_cons.1 hx with rfl | hx
    · have hrest : Grown N b₁ d := grown_forM hgrown rest b₁ u d h₁
      exact hstable b₁ d (hb₁.extend hrooted).rooted hrest (hstep b v b₁ hb hfirst)
    · exact ih hx hb₁ h₁

private theorem Grown.mem_deps {t : TermId} {n : NodeId} (h : Grown N b d) (hrooted : b.forest.Rooted)
    (hn : n ∈ b.forest.deps (b.forest.rep t)) : n ∈ d.forest.deps (d.forest.rep t) :=
  ((h.extend hrooted).grows hrooted).deps t n hn

private theorem addDeps_registers {t : TermId} {u : Unit} (hrooted : b.forest.Rooted)
    (ht : t < b.forest.size) (h : change (·.addDeps t [id]) b = .ok (u, d)) :
    id ∈ d.forest.deps (d.forest.rep t) := by
  rw [change_eq_ok.1 h]
  dsimp only
  rw [(Forest.addDeps_tidied b.forest t [id] hrooted).1.rep, Forest.mem_deps_addDeps]
  exact Or.inr ⟨List.mem_singleton_self id, Forest.rep_mem_reach _ t, Forest.rep_lt_size hrooted ht⟩

/-- An identifier is registered with every binding of its name. -/
theorem registers_bindings {name : String} {bd : Binder} {t : TermId} {u : Unit}
    (hrooted : b.forest.Rooted) (hbd : bd ∈ binders) (ht : t ∈ bd.typesOf name)
    (hlt : t < b.forest.size)
    (h : (binders.reverse.forM fun bd => register id (bd.typesOf name)) b = .ok (u, d)) :
    id ∈ d.forest.deps (d.forest.rep t) := by
  have hstable : ∀ c d : Builder, c.forest.Rooted → Grown True c d →
      id ∈ c.forest.deps (c.forest.rep t) → id ∈ d.forest.deps (d.forest.rep t) :=
    fun c d hrooted hg hn => hg.mem_deps hrooted hn
  refine forM_reaches (fun bd : Binder => grown_register id (bd.typesOf name)) hstable ?_ hrooted
    (List.mem_reverse.2 hbd) (Std.Refl.refl b) h
  intro c v c' hc hregister
  refine forM_reaches (fun t => grown_addDeps t [id]) hstable ?_ hrooted ht hc hregister
  intro c v c' hc hadd
  have hext := hc.extend hrooted
  exact addDeps_registers hext.rooted (Nat.lt_of_lt_of_le hlt hext.size) hadd

private theorem addIdent_built {name : String} (h₀ : b₀.Prepared N place.binders (some place.parent))
    (h : addIdent place name b₀ = .ok (id, d)) :
    Built N place.binders (some place.parent) b₀ d id := by
  obtain ⟨t, b₁, halloc, h₁⟩ := bind_eq_ok.1 h
  obtain ⟨id', b₂, hadd, h₂⟩ := bind_eq_ok.1 h₁
  obtain ⟨u, b₃, hregister, h₃⟩ := bind_eq_ok.1 h₂
  obtain ⟨hbuilt, hvacant, -, -, -⟩ := Built.start_var h₀ (Std.Refl.refl b₀) halloc hadd
  have hg : Grown N b₂ b₃ :=
    grown_forM (fun bd : Binder => grown_register id' (bd.typesOf name)) _ b₂ u b₃ hregister
  have hframe := hg.framed hbuilt.good.rooted
  cases hfound : place.binders.findSome? (·.binding? name) with
  | none =>
    simp only [hfound] at h₃
    cases h₃
  | some found =>
    simp only [hfound] at h₃
    obtain ⟨v, b₄, hset, h₄⟩ := bind_eq_ok.1 h₃
    obtain ⟨rfl, rfl⟩ := pure_eq_ok.1 h₄
    obtain ⟨bd, hbd, hbinding⟩ := List.exists_of_findSome?_eq_some hfound
    obtain ⟨hnode, hbinds, hof, htypes⟩ := Binder.binds_of_binding? hbinding
    have hlt : found.type < b₂.forest.size :=
      Nat.lt_of_lt_of_le ((h₀.good.binder bd hbd).2 _ htypes).1 hbuilt.frame.forest.size
    refine (hbuilt.grown hg).complete h₀ ((hframe.kind hbuilt.lt).trans hvacant) hset ?_
    refine ⟨fun _ hmem => absurd hmem List.not_mem_nil, ?_, ?_, ?_, ?_, ?_⟩
    · exact fun _ _ hfunction => by cases hfunction
    · intro name' binder position binding hident
      cases hident
      exact ⟨registers_bindings hbuilt.good.rooted hbd hof hlt hregister,
        Or.inr ⟨bd, hbd, hnode.symm, hbinds⟩⟩
    · exact fun _ _ _ _ hlet => by cases hlet
    · exact fun _ hflow => by cases hflow
    · exact fun _ _ _ _ hprim => by cases hprim

/-! ## Functions -/

/-- A test for nil is registered with its result as well. -/
theorem register_result {α : Type} {primitive : Primitive} {type : TermId} {rest : BuildM α} {x : α}
    (h : (if primitive = .notNil then do
        match ← onForest (Forest.child type .ret) with
        | some ret => do
          register id [ret]
          rest
        | none => rest
      else rest) b = .ok (x, d)) : ∃ c, Grown N b c ∧ rest c = .ok (x, d) := by
  split at h
  · obtain ⟨ret, c, hchild, h⟩ := bind_eq_ok.1 h
    have hc : Grown N b c := grown_child type .ret b ret c hchild
    cases ret with
    | none => exact ⟨c, hc, h⟩
    | some ret =>
      obtain ⟨u, c', hregister, h⟩ := bind_eq_ok.1 h
      exact ⟨c', IsTrans.trans _ _ _ hc (grown_register id [ret] c u c' hregister), h⟩
  · exact ⟨b, Std.Refl.refl b, h⟩

private theorem addPrimitive_built {primitive : Primitive}
    (h₀ : b₀.Prepared N place.binders (some place.parent)) (hN : N → primitive ≠ .notNil)
    (h : addPrimitive place primitive b₀ = .ok (id, d)) :
    Built N place.binders (some place.parent) b₀ d id := by
  obtain ⟨fid, c, hnext, h⟩ := bind_eq_ok.1 h
  obtain ⟨rfl, rfl⟩ := nextFunction_eq_ok.1 hnext
  obtain ⟨⟨type, formals⟩, b₁, htype, h⟩ := bind_eq_ok.1 h
  obtain ⟨id', b₂, hadd, h⟩ := bind_eq_ok.1 h
  obtain ⟨u, b₃, hregister, h⟩ := bind_eq_ok.1 h
  obtain ⟨b₄, hg₄, h⟩ := register_result (N := N) h
  obtain ⟨u, b₅, hfunction, h⟩ := bind_eq_ok.1 h
  obtain ⟨u, b₆, hset, h⟩ := bind_eq_ok.1 h
  obtain ⟨rfl, rfl⟩ := pure_eq_ok.1 h
  have hg₁ : Grown N b₀ b₁ := grown_primitiveType primitive _ b₀ _ b₁ htype
  obtain ⟨hnew, hlt⟩ := primitiveType_eq_ok h₀.good.rooted htype
  obtain ⟨hstart, hvacant, -, -, hfunctions⟩ := Built.start h₀ hg₁ hnew hlt hadd
  have hg₃ : Grown N b₂ b₃ := grown_register id' formals b₂ _ b₃ hregister
  have hg : Grown N b₂ b₄ := IsTrans.trans _ _ _ hg₃ hg₄
  have hbuilt := hstart.grown hg
  have hvacant₄ := ((hg.framed hstart.good.rooted).kind hstart.lt).trans hvacant
  obtain ⟨hregistered, hframe, hmem⟩ := hbuilt.addFunction ⟨id', [], [], true⟩ h₀
    hvacant₄ rfl rfl (fun t ht => absurd ht List.not_mem_nil) hfunction
  have hsize : b₄.functions.size = b₀.functions.size := by
    rw [hg.functions, hfunctions, hg₁.functions]
  rw [hsize] at hmem
  have hvacant₅ := (hframe.kind hbuilt.lt).trans hvacant₄
  refine (hregistered.completeFunction h₀ hvacant₅ hset ?_ rfl ?_).1
  · refine ⟨fun _ hmem => absurd hmem List.not_mem_nil, ?_, ?_, ?_, ?_, ?_⟩
    · intro fid formals hkind
      cases hkind
      exact ⟨Nat.succ_ne_zero _, hmem⟩
    · exact fun _ _ _ _ hident => by cases hident
    · exact fun _ _ _ _ hlet => by cases hlet
    · exact fun _ hflow => by cases hflow
    · intro hnil primitive fid formals hkind
      cases hkind
      exact hN hnil
  · exact fun i t ht => absurd ht (by simp)

/-- Lowering the expression adds one complete node below the parent of its place. -/
def Lowers (N : Prop) (e : Expr) : Prop :=
  ∀ place b id d, b.Prepared N place.binders (some place.parent) →
    lower e place b = .ok (id, d) → Built N place.binders (some place.parent) b d id

private theorem lambda_built {params : List String} {body : Expr} {widen : Bool} (hbody : Lowers N body) :
    Lowers N (.lambda params body widen) := by
  intro place b₀ id d h₀ h
  obtain ⟨fid, c, hnext, h⟩ := bind_eq_ok.1 h
  obtain ⟨rfl, rfl⟩ := nextFunction_eq_ok.1 hnext
  obtain ⟨formals, b₁, hformals, h⟩ := bind_eq_ok.1 h
  obtain ⟨type, b₂, halloc, h⟩ := bind_eq_ok.1 h
  obtain ⟨id', b₃, hadd, h⟩ := bind_eq_ok.1 h
  obtain ⟨u, b₄, hfunction, h⟩ := bind_eq_ok.1 h
  obtain ⟨child, b₅, hlower, h⟩ := bind_eq_ok.1 h
  obtain ⟨u, b₆, hset, h⟩ := bind_eq_ok.1 h
  obtain ⟨ret, b₇, hret, h⟩ := bind_eq_ok.1 h
  obtain ⟨signature, b₈, hsignature, h⟩ := bind_eq_ok.1 h
  obtain ⟨root, b₉, hroot, h⟩ := bind_eq_ok.1 h
  obtain ⟨u, b₁₀, hunify, h⟩ := bind_eq_ok.1 h
  obtain ⟨rfl, rfl⟩ := pure_eq_ok.1 h
  have hg₁ : Grown N b₀ b₁ := grown_allocVars params.length b₀ formals b₁ hformals
  have hg₂ : Grown N b₁ b₂ := grown_var b₁ type b₂ halloc
  obtain ⟨hstart, hvacant, htype, hforest, hfunctions⟩ := Built.start_var h₀ hg₁ halloc hadd
  -- The parameters are variables while the body is lowered.
  have hrooted₁ := (hg₁.extend h₀.good.rooted).rooted
  have hformal : ∀ t ∈ formals, t < b₃.forest.size ∧ b₃.forest.kind t = .var := by
    intro t ht
    obtain ⟨hlt, hvar⟩ := kind_allocVars h₀.good.rooted hformals t ht
    have hext := hg₂.extend hrooted₁
    rw [hforest]
    exact ⟨Nat.lt_of_lt_of_le hlt hext.size, hext.var t hlt hvar⟩
  obtain ⟨hopen, hframe₄, hmem⟩ :=
    hstart.addFunction ⟨id', params, formals, true⟩ h₀ hvacant rfl rfl hformal hfunction
  have hsize : b₃.functions.size = b₀.functions.size := by
    rw [hfunctions, hg₂.functions, hg₁.functions]
  rw [hsize] at hmem
  have hinner := hbody ⟨id', formals.reverse ++ place.pinned, ⟨id', params, formals, true⟩ ::
    place.binders⟩ b₄ child b₅ (hopen.prepared ((hframe₄.kind hstart.lt).trans hvacant)) hlower
  have hframe₅ := hframe₄.trans hinner.frame
  have hfits : b₅.Fits N place.binders id'
      (.lambda params child (b₀.functions.size + 1) formals widen) := by
    refine fits_inner rfl ?_ ?_
    · intro n hn
      rw [List.mem_singleton.1 hn]
      exact hopen.child hinner
    · intro fid formals' hkind
      cases hkind
      exact ⟨Nat.succ_ne_zero _, hinner.frame.functions _ _ hmem⟩
  obtain ⟨hfilled, htype₆, hforest₆⟩ := (hopen.after hinner.good hinner.frame).completeFunction h₀
    ((hframe₅.kind hstart.lt).trans hvacant) hset hfits rfl fun _ _ ht => ht
  -- The type of the node is still the variable that it was.
  obtain ⟨-, -, hvar₂⟩ := alloc_eq_ok halloc
  have hlt₃ : type < b₃.forest.size := by
    rw [← htype]
    exact hstart.good.typed id' hstart.lt
  refine hfilled.sign h₀ (?_ : _ = type) ?_ hret hsignature hroot hunify
  · rw [htype₆, hframe₅.node id' hstart.lt, htype]
  · rw [hforest₆]
    refine hframe₅.forest.var type hlt₃ ?_
    rw [hforest]
    exact hvar₂

/-! ## Definitions -/

private theorem letIn_built {name : String} {definition body : Expr} (hdefinition : Lowers N definition)
    (hbody : Lowers N body) :
    Lowers N (.letIn name definition body) := by
  intro place b₀ id d h₀ h
  obtain ⟨binding, b₁, halloc, h⟩ := bind_eq_ok.1 h
  obtain ⟨id', b₂, hadd, h⟩ := bind_eq_ok.1 h
  obtain ⟨inner, b₃, hlower, h⟩ := bind_eq_ok.1 h
  obtain ⟨bound, b₄, hlower', h⟩ := bind_eq_ok.1 h
  obtain ⟨u, b₅, hset, h⟩ := bind_eq_ok.1 h
  obtain ⟨type, b₆, htypeOf, h⟩ := bind_eq_ok.1 h
  obtain ⟨v, b₇, hsetType, h⟩ := bind_eq_ok.1 h
  obtain ⟨root, b₈, hfind, h⟩ := bind_eq_ok.1 h
  obtain ⟨u, b₉, hunify, h⟩ := bind_eq_ok.1 h
  obtain ⟨rfl, rfl⟩ := pure_eq_ok.1 h
  obtain ⟨rfl, rfl⟩ := typeOf_eq_ok.1 htypeOf
  obtain ⟨hstart, hvacant, -, hforest, -⟩ := Built.start_var h₀ (Std.Refl.refl b₀) halloc hadd
  obtain ⟨hnew, hsize₁, hvar₁⟩ := alloc_eq_ok halloc
  have hbinding : binding < b₂.forest.size ∧ b₂.forest.kind binding = .var := by
    rw [hforest]
    refine ⟨?_, hvar₁⟩
    rw [hnew, hsize₁]
    exact Nat.lt_succ_self _
  set bd : Binder := ⟨id', [name], [binding], false⟩ with hbd
  have hopen : Built N (bd :: place.binders) (some place.parent) b₀ b₂ id' := by
    refine hstart.after (hstart.good.enclose hstart.lt ?_) (Framed.refl hstart.good.rooted)
    intro t ht
    rw [List.mem_singleton.1 ht]
    exact hbinding
  have hprepared := hopen.prepared hvacant
  have hinner := hbody ⟨id', place.pinned, bd :: place.binders⟩ b₂ inner b₃ hprepared hlower
  have hbound := hdefinition ⟨id', binding :: place.pinned, bd :: place.binders⟩ b₃ bound b₄
    (hprepared.after hinner.good hinner.frame) hlower'
  have hframe : Framed b₂ b₄ := hinner.frame.trans hbound.frame
  have hlast := hopen.after hbound.good hframe
  have hchild : ∀ child ∈ [bound, inner], ((b₄.node child).parent = some id' ∧ id' < child ∧
      child < b₄.nodes.size) ∧ b₀.forest.size ≤ (b₄.node child).type := by
    intro child hmem
    rcases List.mem_cons.1 hmem with rfl | hmem
    · have hopen₃ := hopen.after hinner.good hinner.frame
      exact ⟨hopen₃.child hbound, hopen₃.frame.forest.size.trans hbound.fresh⟩
    · rw [List.mem_singleton.1 hmem, hbound.frame.node inner hinner.lt]
      obtain ⟨hparent, hlt, hsize⟩ := hopen.child hinner
      exact ⟨⟨hparent, hlt, Nat.lt_of_lt_of_le hsize hbound.frame.size⟩,
        hopen.frame.forest.size.trans hinner.fresh⟩
  have htype : (b₅.node inner).type = (b₄.node inner).type := by
    have hmem : inner ∈ [bound, inner] := List.mem_cons_of_mem _ (List.mem_singleton_self _)
    rw [Builder.node, setKind_eq_ok.1 hset]
    dsimp only
    rw [node_modify hlast.lt, if_neg (Nat.ne_of_gt (hchild inner hmem).1.2.1)]
    rfl
  rw [htype] at hsetType
  refine hlast.completeLet h₀ ((hframe.kind hopen.lt).trans hvacant) hchild
    ⟨?_, Nat.lt_of_lt_of_le hbinding.1 hframe.forest.size⟩
    (hframe.forest.var binding hbinding.1 hbinding.2)
    (filled_of_setType hlast.lt hset hsetType) hfind hunify
  rw [hnew]

/-! ## Inner nodes -/

/-- Lowering the expressions adds one complete node each. -/
def LowersAll (N : Prop) (es : List Expr) : Prop :=
  ∀ place b ids d, b.Prepared N place.binders (some place.parent) →
    lowerList es place b = .ok (ids, d) →
    BuiltAll N place.binders (some place.parent) b d ids

/-- Lowering the fields adds one complete node each. -/
def LowersFields (N : Prop) (fields : List (String × Expr)) : Prop :=
  ∀ place type b parts d, b.Prepared N place.binders (some place.parent) →
    lowerFields fields place type b = .ok (parts, d) →
    BuiltAll N place.binders (some place.parent) b d (parts.map Prod.snd)

private theorem apply_built {fn : Expr} {args : List Expr} (hfn : Lowers N fn) (hargs : LowersAll N args) :
    Lowers N (.apply fn args) := by
  intro place b₀ id d h₀ h
  obtain ⟨type, b₁, halloc, h⟩ := bind_eq_ok.1 h
  obtain ⟨id', b₂, hadd, h⟩ := bind_eq_ok.1 h
  obtain ⟨callee, b₃, hlower, h⟩ := bind_eq_ok.1 h
  obtain ⟨parts, b₄, hlower', h⟩ := bind_eq_ok.1 h
  obtain ⟨u, b₅, hset, h⟩ := bind_eq_ok.1 h
  obtain ⟨rfl, rfl⟩ := pure_eq_ok.1 h
  obtain ⟨hstart, hvacant, -⟩ := Built.start_var h₀ (Std.Refl.refl b₀) halloc hadd
  have hprepared := hstart.prepared hvacant
  have hcallee := hfn { place with parent := id' } b₂ callee b₃ hprepared hlower
  have hparts := hargs { place with parent := id' } b₃ parts b₄
    (hprepared.after hcallee.good hcallee.frame) hlower'
  exact hstart.completeInner h₀ hvacant (hcallee.all.append hparts) rfl rfl hset

private theorem field_built {source : Expr} {label : String} (hsource : Lowers N source) :
    Lowers N (.field source label) := by
  intro place b₀ id d h₀ h
  obtain ⟨type, b₁, halloc, h⟩ := bind_eq_ok.1 h
  obtain ⟨id', b₂, hadd, h⟩ := bind_eq_ok.1 h
  obtain ⟨inner, b₃, hlower, h⟩ := bind_eq_ok.1 h
  obtain ⟨u, b₄, hset, h⟩ := bind_eq_ok.1 h
  obtain ⟨rfl, rfl⟩ := pure_eq_ok.1 h
  obtain ⟨hstart, hvacant, -⟩ := Built.start_var h₀ (Std.Refl.refl b₀) halloc hadd
  have hinner := hsource { place with parent := id' } b₂ inner b₃ (hstart.prepared hvacant) hlower
  exact hstart.completeInner h₀ hvacant hinner.all rfl rfl hset

/-- Giving out a site grows what is built. -/
theorem grown_newSite : Keeps (Grown N) newSite := by
  intro b site d h
  obtain ⟨-, rfl⟩ := newSite_eq_ok.1 h
  exact ⟨rfl, rfl, rfl, Forest.Extends.refl, fun _ hplain => hplain⟩

private theorem record_built {fields : List (String × Expr)} (hfields : LowersFields N fields) :
    Lowers N (.record fields) := by
  intro place b₀ id d h₀ h
  obtain ⟨site, b₁, hsite, h⟩ := bind_eq_ok.1 h
  obtain ⟨type, b₂, halloc, h⟩ := bind_eq_ok.1 h
  obtain ⟨id', b₃, hadd, h⟩ := bind_eq_ok.1 h
  obtain ⟨parts, b₄, hlower, h⟩ := bind_eq_ok.1 h
  obtain ⟨u, b₅, hset, h⟩ := bind_eq_ok.1 h
  obtain ⟨rfl, rfl⟩ := pure_eq_ok.1 h
  have hg₁ : Grown N b₀ b₁ := grown_newSite b₀ site b₁ hsite
  have hplain : (Kind.record .nil (.singleton site) false false).Plain N := fun _ => rfl
  have hg₂ : Grown N b₁ b₂ := grown_alloc rfl hplain b₁ type b₂ halloc
  obtain ⟨hnew, hsize, -⟩ := alloc_eq_ok halloc
  have hlt : type < b₂.forest.size := by
    rw [hnew, hsize]
    exact Nat.lt_succ_self _
  obtain ⟨hstart, hvacant, -⟩ := Built.start h₀ (IsTrans.trans _ _ _ hg₁ hg₂)
    (hnew ▸ (hg₁.extend h₀.good.rooted).size) hlt hadd
  have hparts := hfields { place with parent := id' } type b₃ parts b₄ (hstart.prepared hvacant)
    hlower
  exact hstart.completeInner h₀ hvacant hparts rfl rfl hset

private theorem nil_built (hN : ¬N) :
    Lowers N .nil := by
  intro place b₀ id d h₀ h
  obtain ⟨inner, b₁, hinner, h⟩ := bind_eq_ok.1 h
  obtain ⟨type, b₂, halloc, h⟩ := bind_eq_ok.1 h
  have hg₁ : Grown N b₀ b₁ := grown_var b₀ inner b₁ hinner
  have hplain : (Kind.nilable inner).Plain N := hN
  have hg₂ : Grown N b₁ b₂ := grown_alloc rfl hplain b₁ type b₂ halloc
  obtain ⟨hnew, hsize, -⟩ := alloc_eq_ok halloc
  refine addConst_built h₀ (IsTrans.trans _ _ _ hg₁ hg₂) ?_ ?_ ⟨rfl, fun h => absurd h hN⟩ h
  · rw [hnew]
    exact (hg₁.extend h₀.good.rooted).size
  · rw [hnew, hsize]
    exact Nat.lt_succ_self _

/-! ## Every expression -/

mutual

/-- Lowering an expression adds one complete node below the parent of its place. -/
theorem lower_built : ∀ e : Expr, (N → e.mentionsNil = false) → Lowers N e
  | .nil, hN => nil_built fun hnil => Bool.noConfusion (hN hnil)
  | .int c, _ => fun _ _ _ _ h₀ h => addBase_built h₀ (.int (.const c)) h
  | .float x, _ => fun _ _ _ _ h₀ h => addBase_built h₀ (.float (.const x)) h
  | .text s, _ => fun _ _ _ _ h₀ h => addBase_built h₀ (.text (some s)) h
  | .prim _, hN => fun _ _ _ _ h₀ h =>
    addPrimitive_built h₀ (fun hnil => of_decide_eq_false (hN hnil)) h
  | .ident _, _ => fun _ _ _ _ h₀ h => addIdent_built h₀ h
  | .lambda _ body _, hN => lambda_built (lower_built body hN)
  | .letIn _ definition body, hN =>
    letIn_built (lower_built definition fun hnil => (Bool.or_eq_false_iff.1 (hN hnil)).1)
      (lower_built body fun hnil => (Bool.or_eq_false_iff.1 (hN hnil)).2)
  | .apply fn args, hN =>
    apply_built (lower_built fn fun hnil => (Bool.or_eq_false_iff.1 (hN hnil)).1)
      (lowerList_built args fun hnil => (Bool.or_eq_false_iff.1 (hN hnil)).2)
  | .record fields, hN => record_built (lowerFields_built fields hN)
  | .field source _, hN => field_built (lower_built source hN)
  termination_by structural e => e

/-- Lowering a list of expressions builds a node for each. -/
theorem lowerList_built : ∀ es : List Expr, (N → Expr.anyMentionsNil es = false) → LowersAll N es
  | [], _ => by
    intro place b ids d h₀ h
    obtain ⟨rfl, rfl⟩ := pure_eq_ok.1 h
    exact .nil h₀
  | e :: rest, hN => by
    intro place b ids d h₀ h
    obtain ⟨id, b₁, hlower, h⟩ := bind_eq_ok.1 h
    obtain ⟨ids', b₂, hrest, h⟩ := bind_eq_ok.1 h
    obtain ⟨rfl, rfl⟩ := pure_eq_ok.1 h
    have hfirst := lower_built e (fun hnil => (Bool.or_eq_false_iff.1 (hN hnil)).1) place b id b₁ h₀
      hlower
    exact hfirst.all.append (lowerList_built rest (fun hnil => (Bool.or_eq_false_iff.1 (hN hnil)).2)
      place b₁ ids' b₂ (h₀.after hfirst.good hfirst.frame) hrest)
  termination_by structural es => es

/-- So does lowering the fields of a record. -/
theorem lowerFields_built : ∀ fields : List (String × Expr),
    (N → Expr.anyFieldMentionsNil fields = false) → LowersFields N fields
  | [], _ => by
    intro place type b parts d h₀ h
    obtain ⟨rfl, rfl⟩ := pure_eq_ok.1 h
    exact .nil h₀
  | e :: rest, hN => by
    intro place type b parts d h₀ h
    obtain ⟨part, b₁, hlower, h⟩ := bind_eq_ok.1 h
    obtain ⟨parts', b₂, hrest, h⟩ := bind_eq_ok.1 h
    obtain ⟨rfl, rfl⟩ := pure_eq_ok.1 h
    have hfirst := lowerField_built e (fun hnil => (Bool.or_eq_false_iff.1 (hN hnil)).1) place type b
      part b₁ h₀ hlower
    exact hfirst.append (lowerFields_built rest (fun hnil => (Bool.or_eq_false_iff.1 (hN hnil)).2)
      place type b₁ parts' b₂ (h₀.after hfirst.good hfirst.frame) hrest)
  termination_by structural fields => fields

/-- And lowering one field. -/
theorem lowerField_built : ∀ field : String × Expr, (N → Expr.fieldMentionsNil field = false) →
    ∀ place type b part d, b.Prepared N place.binders (some place.parent) →
      lowerField field place type b = .ok (part, d) →
      BuiltAll N place.binders (some place.parent) b d [part.2]
  | (label, e), hN => by
    intro place type b part d h₀ h
    obtain ⟨id, b₁, hlower, h⟩ := bind_eq_ok.1 h
    obtain ⟨t, b₂, hfind, h⟩ := bind_eq_ok.1 h
    obtain ⟨u, b₃, hset, h⟩ := bind_eq_ok.1 h
    obtain ⟨rfl, rfl⟩ := pure_eq_ok.1 h
    have hbuilt := lower_built e hN place b id b₁ h₀ hlower
    exact (hbuilt.all.grown (grown_find id b₁ t b₂ hfind)).grown
      (grown_setChild type (.field label) t b₂ u b₃ hset)
  termination_by structural field => field

end

end Builder

end TypeFlow
