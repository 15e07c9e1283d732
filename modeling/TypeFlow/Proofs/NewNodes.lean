import TypeFlow.Proofs.WellBuilt

/-!
# New nodes

A node is added open, its children are built inside the binder that it is, and its kind is filled in
at the end.  Everything that was there before is left alone.

Main definitions:

- `Builder.Prepared`: a place where nodes may be added.
- `Builder.Built`, `Builder.BuiltAll`: what adding nodes leaves.

Main results:

- `Builder.Built.start`: a node is added.
- `Builder.Built.completeInner`, `Builder.Built.completeFunction`, `Builder.Built.completeLet`: its
  kind is filled in.
-/

namespace TypeFlow

/-- The node passes on what its children are. -/
def NodeKind.isInner : NodeKind → Bool
  | .lambda _ _ _ _ _ | .apply _ _ | .root _ | .record _ _ _ | .field _ _ => true
  | .const _ | .ident _ _ _ _ | .letIn _ _ _ _ | .prim _ _ _ => false

namespace Builder

variable {N : Prop} {binders binders' : List Binder} {parent : Option NodeId}

/-! ## Unifying while building -/

/-- The classes of two terms became one, and nothing else changed. -/
structure Unified (s t : TermId) (b d : Builder) : Prop where
  nodes : d.nodes = b.nodes
  functions : d.functions = b.functions
  grows : Forest.Grows b.forest d.forest
  rep : d.forest.rep s = d.forest.rep t
  extend : ∀ base : Forest, base.Rooted → Forest.Extends base b.forest →
    base.size ≤ b.forest.rep s → base.size ≤ b.forest.rep t → Forest.Extends base d.forest
  plain : ∀ N, b.forest.Plain N → d.forest.Plain N
  pending : ∀ n, n ∈ b.work.pending → n ∈ d.work.pending

/-- Unifying a variable with another type at first makes them one class. -/
theorem unify_unified {s t : TermId} {b d : Builder} {u : Unit} (hrooted : b.forest.Rooted)
    (hvar : b.forest.kind (b.forest.rep s) = .var) (hs : s < b.forest.size)
    (ht : t < b.forest.size) (h : unify s t b = .ok (u, d)) : Unified s t b d := by
  obtain ⟨r, v, hunify, rfl⟩ := unify_eq_ok h
  have hmerged := Unifier.unify_merged (s := ⟨b.forest, some b.work, [], []⟩) hrooted hvar hs ht rfl
    hunify
  obtain ⟨work, hwork, hpending⟩ := hmerged.pending b.work rfl
  refine ⟨rfl, rfl, hmerged.grows, hmerged.rep, hmerged.extend, hmerged.plain, ?_⟩
  intro n hn
  dsimp only
  rw [hwork]
  exact hpending n hn

/-! ## Nodes on their way -/

/-- An expression may be lowered below the parent, whose kind is not filled in yet. -/
structure Prepared (N : Prop) (binders : List Binder) (parent : Option NodeId) (b : Builder) :
    Prop where
  good : b.Good N binders
  parent : ∀ n, parent = some n → n < b.nodes.size ∧ b.kind n = .const .any

/-- The node was added below the parent, and everything outside was left alone. -/
structure Built (N : Prop) (binders : List Binder) (parent : Option NodeId) (b d : Builder)
    (id : NodeId) : Prop where
  good : d.Good N binders
  frame : Framed b d
  new : b.nodes.size ≤ id
  lt : id < d.nodes.size
  parent : (d.node id).parent = parent
  fresh : b.forest.size ≤ (d.node id).type

/-- Old nodes keep their kinds within a frame. -/
theorem Framed.kind {b d : Builder} (h : Framed b d) {n : NodeId} (hn : n < b.nodes.size) :
    d.kind n = b.kind n := by
  rw [Builder.kind, Builder.kind, h.node n hn]

/-- What is prepared stays so while nodes are added. -/
theorem Prepared.after {b d : Builder} (h : b.Prepared N binders parent) (hgood : d.Good N binders)
    (hframe : Framed b d) : d.Prepared N binders parent where
  good := hgood
  parent n hn := by
    obtain ⟨hlt, hkind⟩ := h.parent n hn
    exact ⟨Nat.lt_of_lt_of_le hlt hframe.size, (hframe.kind hlt).trans hkind⟩

/-- So does what is built. -/
theorem Built.after {b c d : Builder} {id : NodeId} (h : Built N binders' parent b c id)
    (hgood : d.Good N binders) (hframe : Framed c d) : Built N binders parent b d id where
  good := hgood
  frame := h.frame.trans hframe
  new := h.new
  lt := Nat.lt_of_lt_of_le h.lt hframe.size
  parent := by
    rw [hframe.node id h.lt]
    exact h.parent
  fresh := by
    rw [hframe.node id h.lt]
    exact h.fresh

/-- And it does while types are added. -/
theorem Built.grown {b c d : Builder} {id : NodeId} (h : Built N binders parent b c id)
    (hd : Grown N c d) : Built N binders parent b d id :=
  h.after (h.good.of_grown hd) (hd.framed h.good.rooted)

/-- The new classes may be merged. -/
theorem Built.unified {b c d : Builder} {id : NodeId} {s t : TermId}
    (h₀ : b.Prepared N binders parent) (h : Built N binders parent b c id)
    (hu : Unified s t c d) (hs : b.forest.size ≤ c.forest.rep s)
    (ht : b.forest.size ≤ c.forest.rep t) : Built N binders parent b d id := by
  have hext := hu.extend b.forest h₀.good.rooted h.frame.forest hs ht
  have hnode : ∀ n, d.node n = c.node n := fun n => by rw [Builder.node, Builder.node, hu.nodes]
  refine ⟨?_, ⟨?_, ?_, ?_, hext⟩, h.new, ?_, ?_, ?_⟩
  · refine h.good.of_grows hu.nodes hu.functions hu.grows (hu.plain N h.good.plain) ?_ hu.pending
    intro bd hbd t ht
    obtain ⟨hlt, hvar⟩ := (h₀.good.binder bd hbd).2 t ht
    exact hext.var t hlt hvar
  · rw [hu.nodes]
    exact h.frame.size
  · intro n hn
    rw [hnode]
    exact h.frame.node n hn
  · rw [hu.functions]
    exact h.frame.functions
  · rw [hu.nodes]
    exact h.lt
  · rw [hnode]
    exact h.parent
  · rw [hnode]
    exact h.fresh

/-- A new variable may be unified with a new term. -/
theorem Built.unify {b c d : Builder} {id : NodeId} {s t : TermId} {u : Unit}
    (h₀ : b.Prepared N binders parent) (h : Built N binders parent b c id)
    (hs : b.forest.size ≤ s ∧ s < c.forest.size) (hvar : c.forest.kind s = .var)
    (ht : b.forest.size ≤ t ∧ t < c.forest.size) (hunify : Builder.unify s t c = .ok (u, d)) :
    Built N binders parent b d id := by
  have hrep : c.forest.rep s = s := Forest.rep_of_not_link (by rw [hvar]; rfl)
  have hu := unify_unified h.good.rooted (by rw [hrep]; exact hvar) hs.2 ht.2 hunify
  exact h.unified h₀ hu (h.frame.forest.fresh s hs.1) (h.frame.forest.fresh t ht.1)

/-- A new node below the parent. -/
theorem Built.start {b₀ b d : Builder} {pinned : List TermId} {type : TermId} {id : NodeId}
    (h₀ : b₀.Prepared N binders parent) (hg : Grown N b₀ b) (hnew : b₀.forest.size ≤ type)
    (hlt : type < b.forest.size) (hadd : addNode parent pinned type b = .ok (id, d)) :
    Built N binders parent b₀ d id ∧ d.kind id = .const .any ∧ (d.node id).type = type ∧
      d.forest = b.forest ∧ d.functions = b.functions := by
  obtain ⟨hgood, hframe, rfl, hsize, hnode, hforest, hfunctions⟩ :=
    (h₀.good.of_grown hg).addNode hlt hadd
  refine ⟨⟨hgood, (hg.framed h₀.good.rooted).trans hframe, ?_, ?_, ?_, ?_⟩, ?_, ?_, hforest,
    hfunctions⟩
  · rw [hg.nodes]
  · rw [hsize]
    exact Nat.lt_succ_self _
  · rw [hnode]
  · rw [hnode]
    exact hnew
  · rw [kind, hnode]
  · rw [hnode]

/-! ## Filling kinds in -/

/-- Modifying a node changes that node only. -/
theorem node_modify {nodes : Array Node} {id : NodeId} (hid : id < nodes.size)
    (change : Node → Node) (n : NodeId) :
    (nodes.modify id change)[n]?.getD default =
      if n = id then change (nodes[id]?.getD default) else nodes[n]?.getD default := by
  rw [Array.getElem?_modify]
  by_cases e : n = id
  · rw [if_pos e, if_pos e.symm, e, Array.getElem?_eq_getElem hid]
    rfl
  · rw [if_neg e, if_neg (Ne.symm e)]

/-- No complete node has the new node among its children. -/
theorem Built.not_mem_children {b d : Builder} {id n : NodeId} (h₀ : b.Prepared N binders parent)
    (h : Built N binders' parent b d id) (hn : n < d.nodes.size) : id ∉ (d.kind n).children := by
  intro hmem
  have hparent : parent = some n := h.parent.symm.trans ((h.good.fits n hn).child id hmem).1
  obtain ⟨hlt, hvacant⟩ := h₀.parent n hparent
  rw [h.frame.kind hlt, hvacant] at hmem
  exact absurd hmem List.not_mem_nil

/-- The kind of the new node is filled in, which closes the binder that it is. -/
theorem Built.close {b₀ b d : Builder} {id : NodeId} (h₀ : b₀.Prepared N binders parent)
    (h : Built N binders' parent b₀ b id) (hsize : d.nodes.size = b.nodes.size)
    (hd : Changed id b d) (hparent : (d.node id).parent = (b.node id).parent)
    (hfunctions : d.functions = b.functions)
    (hext : Forest.Extends b₀.forest d.forest) (hplain : d.forest.Plain N)
    (hpending : ∀ n, n ∈ b.work.pending → n ∈ d.work.pending)
    (hsub : ∀ bd ∈ binders, bd ∈ binders')
    (hbinder : ∀ bd ∈ binders', bd ∈ binders ∨ bd.node = id ∧ ∀ position binding,
      bd.Binds position binding → Program.Bound d.kind bd.node position binding)
    (hfunction : ∀ k : Nat, b.functions[k]? = some id →
      ∃ formals, (d.kind id).function? = some (k + 1, formals))
    (htyped : b₀.forest.size ≤ (d.node id).type ∧ (d.node id).type < d.forest.size)
    (hself : d.Fits N binders id (d.kind id)) : Built N binders parent b₀ d id := by
  have hold : ∀ n, n < b₀.nodes.size → n ≠ id := fun n hn => Nat.ne_of_lt (Nat.lt_of_lt_of_le hn h.new)
  refine ⟨?_, ⟨?_, ?_, ?_, hext⟩, h.new, hsize ▸ h.lt, hparent.trans h.parent, htyped.1⟩
  · refine h.good.close (fun n hn => h.not_mem_children h₀ hn) hsize hd hfunctions hplain hpending ?_
      hbinder hfunction htyped.2 hself
    intro bd hbd
    refine ⟨hsub bd hbd, fun t ht => ?_⟩
    obtain ⟨hlt, hvar⟩ := (h₀.good.binder bd hbd).2 t ht
    exact hext.var t hlt hvar
  · rw [hsize]
    exact h.frame.size
  · intro n hn
    rw [hd.node n (Nat.lt_of_lt_of_le hn h.frame.size) (hold n hn)]
    exact h.frame.node n hn
  · rw [hfunctions]
    exact h.frame.functions

/-- No function is the new node, unless it is registered in an open binder. -/
theorem Built.function_binder {b₀ b : Builder} {id : NodeId} (h₀ : b₀.Prepared N binders parent)
    (h : Built N binders' parent b₀ b id) (hvacant : b.kind id = .const .any) {k : Nat}
    (hk : b.functions[k]? = some id) :
    ∃ bd ∈ binders', bd ∉ binders ∧ bd.isFunction = true ∧ bd.node = id := by
  rcases (h.good.functions k id hk).2 with ⟨formals, hfunction⟩ | ⟨bd, hbd, hisFunction, hnode⟩
  · rw [hvacant] at hfunction
    cases hfunction
  · refine ⟨bd, hbd, ?_, hisFunction, hnode⟩
    intro hmem
    have hlt := (h₀.good.binder bd hmem).1
    rw [hnode] at hlt
    exact absurd h.new (Nat.not_le.2 hlt)

/-- The kind of the new node is set. -/
theorem Built.setKind {b₀ b d : Builder} {id : NodeId} {kind : NodeKind} {u : Unit}
    (h₀ : b₀.Prepared N binders parent) (h : Built N binders' parent b₀ b id)
    (hvacant : b.kind id = .const .any) (hset : Builder.setKind id kind b = .ok (u, d))
    (hfits : b.Fits N binders id kind) (hsub : ∀ bd ∈ binders, bd ∈ binders')
    (hbinder : ∀ bd ∈ binders', bd ∈ binders ∨ bd.node = id ∧ ∀ position binding,
      bd.Binds position binding → Program.Bound d.kind bd.node position binding)
    (hfunction : ∀ k : Nat, b.functions[k]? = some id →
      ∃ formals, kind.function? = some (k + 1, formals)) :
    Built N binders parent b₀ d id ∧ (d.node id).type = (b.node id).type ∧
      d.forest = b.forest := by
  have hnode : ∀ n, d.node n = if n = id then { b.node id with kind := kind } else b.node n := by
    rw [setKind_eq_ok.1 hset]
    exact node_modify h.lt _
  have hself : d.node id = { b.node id with kind := kind } := by rw [hnode, if_pos rfl]
  have hkind : d.kind id = kind := by rw [Builder.kind, hself]
  have hforest : d.forest = b.forest := by rw [setKind_eq_ok.1 hset]
  have hsize : d.nodes.size = b.nodes.size := by
    rw [setKind_eq_ok.1 hset]
    exact Array.size_modify
  have hfunctions : d.functions = b.functions := by rw [setKind_eq_ok.1 hset]
  have hd : Changed id b d := by
    refine ⟨hsize.ge, ?_, hvacant, ?_, ?_⟩
    · intro n _ hne
      rw [hnode, if_neg hne]
    · rw [hfunctions]
      exact fun _ _ hk => hk
    · rw [hforest]
      exact (Forest.Extends.refl h.good.rooted).grows h.good.rooted
  refine ⟨h.close h₀ hsize hd ?_ hfunctions ?_ ?_ ?_ hsub hbinder ?_ ?_ ?_, ?_, hforest⟩
  · rw [hself]
  · rw [hforest]
    exact h.frame.forest
  · rw [hforest]
    exact h.good.plain
  · rw [setKind_eq_ok.1 hset]
    exact fun _ hn => hn
  · rw [hkind]
    exact hfunction
  · rw [hself, hforest]
    exact ⟨h.fresh, h.good.typed id h.lt⟩
  · rw [hkind]
    refine hfits.mono hd ?_ fun bd hbd => Or.inl hbd
    intro hmem
    exact absurd (hfits.child id hmem).2.1 (Nat.lt_irrefl _)
  · rw [hself]

/-- A node that is no function is completed. -/
theorem Built.complete {b₀ b d : Builder} {id : NodeId} {kind : NodeKind} {u : Unit}
    (h₀ : b₀.Prepared N binders parent) (h : Built N binders parent b₀ b id)
    (hvacant : b.kind id = .const .any) (hset : Builder.setKind id kind b = .ok (u, d))
    (hfits : b.Fits N binders id kind) : Built N binders parent b₀ d id := by
  refine (h.setKind h₀ hvacant hset hfits (fun _ hbd => hbd) (fun _ hbd => Or.inl hbd) ?_).1
  intro k hk
  obtain ⟨bd, hbd, hnew, -⟩ := h.function_binder h₀ hvacant hk
  exact absurd hbd hnew

/-- A function is completed. -/
theorem Built.completeFunction {b₀ b d : Builder} {id : NodeId} {kind : NodeKind}
    {names : List String} {types formals : List TermId} {fid : FunctionId} {u : Unit}
    (h₀ : b₀.Prepared N binders parent)
    (h : Built N (⟨id, names, types, true⟩ :: binders) parent b₀ b id)
    (hvacant : b.kind id = .const .any) (hset : Builder.setKind id kind b = .ok (u, d))
    (hfits : b.Fits N binders id kind) (hfunction : kind.function? = some (fid, formals))
    (htypes : ∀ (i : Nat) t, types[i]? = some t → formals[i]? = some t) :
    Built N binders parent b₀ d id ∧ (d.node id).type = (b.node id).type ∧
      d.forest = b.forest := by
  have hkind : d.kind id = kind := by
    rw [Builder.kind, Builder.node, setKind_eq_ok.1 hset]
    dsimp only
    rw [node_modify h.lt, if_pos rfl]
  refine h.setKind h₀ hvacant hset hfits (fun _ hbd => List.mem_cons_of_mem _ hbd) ?_ ?_
  · intro bd hbd
    rcases List.mem_cons.1 hbd with rfl | hbd
    · refine Or.inr ⟨rfl, ?_⟩
      intro position binding hbinds
      obtain ⟨i, rfl, hi⟩ := hbinds
      have hfilled : (d.kind id).function? = some (fid, formals) := by
        rw [hkind]
        exact hfunction
      exact .parameter hfilled (htypes i binding hi)
    · exact Or.inl hbd
  · intro k hk
    obtain ⟨hfid, hget⟩ := hfits.function fid formals hfunction
    have hpred : fid - 1 = k := h.good.injective _ _ id hget hk
    refine ⟨formals, ?_⟩
    rw [hfunction, ← hpred, Nat.sub_add_cancel (Nat.pos_of_ne_zero hfid)]

/-! ## Open nodes -/

variable {b₀ b d : Builder} {id : NodeId}

/-- A new node of a new type variable. -/
theorem Built.start_var {pinned : List TermId} {t : TermId} {b₁ : Builder}
    (h₀ : b₀.Prepared N binders parent) (hg : Grown N b₀ b)
    (halloc : alloc .var b = .ok (t, b₁)) (hadd : addNode parent pinned t b₁ = .ok (id, d)) :
    Built N binders parent b₀ d id ∧ d.kind id = .const .any ∧ (d.node id).type = t ∧
      d.forest = b₁.forest ∧ d.functions = b₁.functions := by
  have hg₁ : Grown N b₀ b₁ := IsTrans.trans _ _ _ hg (grown_var b t b₁ halloc)
  obtain ⟨ht, hsize, -⟩ := alloc_eq_ok halloc
  refine Built.start h₀ hg₁ ?_ ?_ hadd
  · rw [ht]
    exact (hg.extend h₀.good.rooted).size
  · rw [ht, hsize]
    exact Nat.lt_succ_self _

/-- An open node may hold further expressions. -/
theorem Built.prepared (h : Built N binders parent b d id) (hvacant : d.kind id = .const .any) :
    d.Prepared N binders (some id) where
  good := h.good
  parent n hn := by
    rw [Option.some.injEq] at hn
    rw [← hn]
    exact ⟨h.lt, hvacant⟩

/-- A child that was lowered just now. -/
theorem Built.child {b c d : Builder} {id child : NodeId} (h : Built N binders parent b c id)
    (hchild : Built N binders' (some id) c d child) :
    (d.node child).parent = some id ∧ id < child ∧ child < d.nodes.size :=
  ⟨hchild.parent, Nat.lt_of_lt_of_le h.lt hchild.new, hchild.lt⟩

/-- A node that has children fits if these come later and refer to it, and functions are registered. -/
theorem fits_inner {kind : NodeKind} (hinner : kind.isInner = true)
    (hchild : ∀ child ∈ kind.children,
      (b.node child).parent = some id ∧ id < child ∧ child < b.nodes.size)
    (hfunction : ∀ fid formals, kind.function? = some (fid, formals) →
      fid ≠ FunctionId.unknown ∧ b.functions[fid - 1]? = some id) : b.Fits N binders id kind := by
  refine ⟨hchild, hfunction, ?_, ?_, ?_, ?_⟩
  · rintro name binder position binding rfl
    cases hinner
  · rintro name definition body binding rfl
    cases hinner
  · rintro flow rfl
    cases hinner
  · rintro - primitive fid formals rfl
    cases hinner

/-- The new node is registered as the next function. -/
theorem Built.addFunction (bd : Binder) {u : Unit} (h₀ : b₀.Prepared N binders parent)
    (h : Built N binders parent b₀ b id) (hvacant : b.kind id = .const .any) (hnode : bd.node = id)
    (hbd : bd.isFunction = true)
    (htypes : ∀ t ∈ bd.types, t < b.forest.size ∧ b.forest.kind t = .var)
    (hadd : Builder.addFunction id b = .ok (u, d)) :
    Built N (bd :: binders) parent b₀ d id ∧ Framed b d ∧
      d.functions[b.functions.size]? = some id := by
  subst hnode
  have hnew : ∀ k : Nat, b.functions[k]? ≠ some bd.node := by
    intro k hk
    obtain ⟨bd', hbd', hnew, -⟩ := h.function_binder h₀ hvacant hk
    exact hnew hbd'
  have hgood := (h.good.enclose h.lt htypes).addFunction hbd hnew hadd
  have hd := addFunction_eq_ok.1 hadd
  have hframe : Framed b d := by
    rw [hd]
    refine ⟨le_rfl, fun _ _ => rfl, ?_, Forest.Extends.refl h.good.rooted⟩
    intro k n hk
    have hne : k ≠ b.functions.size := by
      rintro rfl
      rw [Array.getElem?_eq_none le_rfl] at hk
      cases hk
    rw [Array.getElem?_push, if_neg hne]
    exact hk
  refine ⟨h.after hgood hframe, hframe, ?_⟩
  rw [hd]
  exact Array.getElem?_push_size

/-- A function is typed: the variable that its type was becomes a new function type. -/
theorem Built.sign {child : NodeId} {widen : Bool} {fid : FunctionId} {formals : List TermId}
    {type ret signature root : TermId} {c₁ c₂ c₃ : Builder} {u : Unit}
    (h₀ : b₀.Prepared N binders parent) (h : Built N binders parent b₀ b id)
    (htype : (b.node id).type = type) (hvar : b.forest.kind type = .var)
    (hret : find child b = .ok (ret, c₁))
    (hsignature : grow (·.allocFunction widen (.singleton fid) formals ret) c₁ = .ok (signature, c₂))
    (hroot : find id c₂ = .ok (root, c₃)) (hunify : Builder.unify root signature c₃ = .ok (u, d)) :
    Built N binders parent b₀ d id := by
  have hg₁ : Grown N b c₁ := grown_find child b ret c₁ hret
  have hg₂ : Grown N c₁ c₂ := grown_allocFunction _ _ _ _ c₁ signature c₂ hsignature
  have hg₃ : Grown N c₂ c₃ := grown_find id c₂ root c₃ hroot
  have h₁ := h.grown hg₁
  have h₂ := h₁.grown hg₂
  have hext := hg₃.extend h₂.good.rooted
  have htype₂ : (c₂.node id).type = type := by
    rw [Builder.node, hg₂.nodes, hg₁.nodes]
    exact htype
  have hlt : type < c₂.forest.size := by
    rw [← htype₂]
    exact h₂.good.typed id h₂.lt
  have hvar₂ : c₂.forest.kind type = .var := by
    have hext₂ := (hg₁.extend h.good.rooted).trans (hg₂.extend h₁.good.rooted)
    refine hext₂.var type ?_ hvar
    rw [← htype]
    exact h.good.typed id h.lt
  have hrep : root = type := by
    rw [find_eq_rep h₂.good.rooted hroot, htype₂]
    exact Forest.rep_of_not_link (by rw [hvar₂]; rfl)
  obtain ⟨hnew, hltnew⟩ := allocFunction_eq_ok h₁.good.rooted hsignature
  subst hrep
  refine (h₂.grown hg₃).unify h₀ ⟨?_, ?_⟩ (hext.var _ hlt hvar₂) ⟨?_, ?_⟩ hunify
  · rw [← htype₂]
    exact h₂.fresh
  · exact Nat.lt_of_lt_of_le hlt hext.size
  · rw [hnew]
    exact h₁.frame.forest.size
  · exact Nat.lt_of_lt_of_le hltnew hext.size

/-! ## Definitions -/

/-- Only the kind and the type of one node were filled in. -/
structure Filled (id : NodeId) (kind : NodeKind) (type : TermId) (b d : Builder) : Prop where
  node : ∀ n, d.node n = if n = id then { b.node id with kind := kind, type := type } else b.node n
  size : d.nodes.size = b.nodes.size
  functions : d.functions = b.functions
  forest : d.forest = b.forest
  work : d.work = b.work

/-- Setting the kind and the type of a node fills it. -/
theorem filled_of_setType {kind : NodeKind} {type : TermId} {b c d : Builder} {u v : Unit}
    (hid : id < b.nodes.size) (hset : setKind id kind b = .ok (u, c))
    (htype : setType id type c = .ok (v, d)) : Filled id kind type b d := by
  have hc : ∀ n, c.node n = if n = id then { b.node id with kind := kind } else b.node n := by
    rw [setKind_eq_ok.1 hset]
    exact node_modify hid _
  have hsize : c.nodes.size = b.nodes.size := by
    rw [setKind_eq_ok.1 hset]
    exact Array.size_modify
  have hd : ∀ n, d.node n = if n = id then { c.node id with type := type } else c.node n := by
    rw [setType_eq_ok.1 htype]
    exact node_modify (hsize ▸ hid) _
  refine ⟨?_, ?_, ?_, ?_, ?_⟩
  · intro n
    rw [hd]
    split
    · rw [hc, if_pos rfl]
    · rename_i hne
      rw [hc, if_neg hne]
  · rw [setType_eq_ok.1 htype]
    exact Array.size_modify.trans hsize
  · rw [setType_eq_ok.1 htype, setKind_eq_ok.1 hset]
  · rw [setType_eq_ok.1 htype, setKind_eq_ok.1 hset]
  · rw [setType_eq_ok.1 htype, setKind_eq_ok.1 hset]

/-- The binding of a definition becomes one class with the type of what it stands for. -/
theorem unify_binding {binding root : TermId} {bound : NodeId} {c c' : Builder} {u : Unit}
    (hrooted : b.forest.Rooted) (hlt : binding < b.forest.size)
    (hvar : b.forest.kind binding = .var) (hbound : (b.node bound).type < b.forest.size)
    (hforest : c.forest = b.forest) (htype : (c.node bound).type = (b.node bound).type)
    (hfind : find bound c = .ok (root, c')) (hunify : unify binding root c' = .ok (u, d)) :
    Forest.Extends b.forest c'.forest ∧ Unified binding root c' d ∧
      root = b.forest.rep (b.node bound).type := by
  have hroot : root = b.forest.rep (b.node bound).type := by
    rw [find_eq_rep (by rw [hforest]; exact hrooted) hfind, htype, hforest]
  have hext : Forest.Extends b.forest c'.forest := by
    rw [← hforest]
    exact (grown_find (N := False) bound c root c' hfind).extend (by rw [hforest]; exact hrooted)
  have hvar' := hext.var binding hlt hvar
  have hrep : c'.forest.rep binding = binding := Forest.rep_of_not_link (by rw [hvar']; rfl)
  refine ⟨hext, unify_unified hext.rooted ?_ ?_ ?_ hunify, hroot⟩
  · rw [hrep]
    exact hvar'
  · exact Nat.lt_of_lt_of_le hlt hext.size
  · rw [hroot]
    exact Nat.lt_of_lt_of_le (Forest.rep_lt_size hrooted hbound) hext.size

/-- A definition is completed: its name and what it stands for become one class. -/
theorem Built.completeLet {name : String} {binding root : TermId} {bound inner : NodeId}
    {c c' : Builder} {u : Unit} (h₀ : b₀.Prepared N binders parent)
    (h : Built N (⟨id, [name], [binding], false⟩ :: binders) parent b₀ b id)
    (hvacant : b.kind id = .const .any)
    (hchild : ∀ child ∈ [bound, inner], ((b.node child).parent = some id ∧ id < child ∧
      child < b.nodes.size) ∧ b₀.forest.size ≤ (b.node child).type)
    (hbinding : b₀.forest.size ≤ binding ∧ binding < b.forest.size)
    (hvar : b.forest.kind binding = .var)
    (hfilled : Filled id (.letIn name bound inner binding) (b.node inner).type b c)
    (hfind : find bound c = .ok (root, c')) (hunify : Builder.unify binding root c' = .ok (u, d)) :
    Built N binders parent b₀ d id := by
  have hmem : bound ∈ [bound, inner] := List.mem_cons_self
  have hmem' : inner ∈ [bound, inner] := List.mem_cons_of_mem _ (List.mem_singleton_self _)
  have hother : ∀ child ∈ [bound, inner], c.node child = b.node child := by
    intro child hmem
    rw [hfilled.node, if_neg (Nat.ne_of_gt (hchild child hmem).1.2.1)]
  have htyped : ∀ child ∈ [bound, inner], (b.node child).type < b.forest.size :=
    fun child hmem => h.good.typed child (hchild child hmem).1.2.2
  have hg : Grown N c c' := grown_find bound c root c' hfind
  obtain ⟨hext, hu, hroot⟩ := unify_binding h.good.rooted hbinding.2 hvar (htyped bound hmem)
    hfilled.forest (congrArg Node.type (hother bound hmem)) hfind hunify
  have hext₀ := h.frame.forest.trans hext
  have hgrows := (hext.grows h.good.rooted).trans hu.grows
  have hrootnew : b₀.forest.size ≤ root := by
    rw [hroot]
    exact h.frame.forest.fresh _ (hchild bound hmem).2
  -- Besides the forest, only the node itself changed.
  have hnode : ∀ n, d.node n = c.node n := fun n => by
    rw [Builder.node, Builder.node, hu.nodes, hg.nodes]
  have hfunctions : d.functions = b.functions := by
    rw [hu.functions, hg.functions, hfilled.functions]
  have hsize : d.nodes.size = b.nodes.size := by rw [hu.nodes, hg.nodes, hfilled.size]
  have hself : d.node id = { b.node id with
      kind := .letIn name bound inner binding, type := (b.node inner).type } := by
    rw [hnode, hfilled.node, if_pos rfl]
  have hkind : d.kind id = .letIn name bound inner binding := by rw [Builder.kind, hself]
  have hchanged : Changed id b d := by
    refine ⟨hsize.ge, ?_, hvacant, ?_, hgrows⟩
    · intro n _ hne
      rw [hnode, hfilled.node, if_neg hne]
    · rw [hfunctions]
      exact fun _ _ hk => hk
  refine h.close h₀ hsize hchanged ?_ hfunctions ?_ ?_ ?_ ?_ ?_ ?_ ?_ ?_
  · rw [hself]
  · exact hu.extend b₀.forest h₀.good.rooted hext₀ (hext₀.fresh binding hbinding.1)
      (hext₀.fresh root hrootnew)
  · have hforest := hfilled.forest
    exact hu.plain N (hg.plain (hforest ▸ h.good.rooted) (hforest ▸ h.good.plain))
  · intro n hn
    refine hu.pending n ?_
    rw [hg.work, hfilled.work]
    exact hn
  · exact fun _ hbd => List.mem_cons_of_mem _ hbd
  · intro bd hbd
    rcases List.mem_cons.1 hbd with rfl | hbd
    · refine Or.inr ⟨rfl, ?_⟩
      rintro position t ⟨rfl, ht⟩
      rw [List.mem_singleton.1 ht]
      exact .definition hkind
    · exact Or.inl hbd
  · intro k hk
    obtain ⟨bd, hbd, hnew, hisFunction, -⟩ := h.function_binder h₀ hvacant hk
    rcases List.mem_cons.1 hbd with rfl | hbd
    · cases hisFunction
    · exact absurd hbd hnew
  · rw [hself]
    exact ⟨(hchild inner hmem').2, Nat.lt_of_lt_of_le (htyped inner hmem') hgrows.size⟩
  · rw [hkind]
    refine ⟨?_, ?_, ?_, ?_, ?_, ?_⟩
    · intro child hmem
      rw [hnode, hother child hmem, hsize]
      exact (hchild child hmem).1
    · exact fun _ _ hfunction => by cases hfunction
    · exact fun _ _ _ _ hident => by cases hident
    · intro name' definition body binding' hlet
      cases hlet
      rw [hnode, hother bound hmem, hu.rep]
      refine hgrows.rep _ _ ?_
      rw [hroot, Forest.rep_rep h.good.rooted]
    · exact fun _ hflow => by cases hflow
    · exact fun _ _ _ _ hprim => by cases hprim

/-! ## Several children -/

/-- Several nodes were added below the parent. -/
structure BuiltAll (N : Prop) (binders : List Binder) (parent : Option NodeId) (b d : Builder)
    (ids : List NodeId) : Prop where
  good : d.Good N binders
  frame : Framed b d
  child : ∀ id ∈ ids, b.nodes.size ≤ id ∧ id < d.nodes.size ∧ (d.node id).parent = parent

/-- No nodes are built at first. -/
theorem BuiltAll.nil {b : Builder} (h : b.Prepared N binders parent) :
    BuiltAll N binders parent b b [] :=
  ⟨h.good, Framed.refl h.good.rooted, fun _ hmem => absurd hmem List.not_mem_nil⟩

/-- Nodes that are built stay so while types are added. -/
theorem BuiltAll.grown {b c d : Builder} {ids : List NodeId}
    (h : BuiltAll N binders parent b c ids) (hd : Grown N c d) :
    BuiltAll N binders parent b d ids where
  good := h.good.of_grown hd
  frame := h.frame.trans (hd.framed h.good.rooted)
  child id hmem := by
    rw [Builder.node, hd.nodes]
    exact h.child id hmem

/-- Nodes are built one after the other. -/
theorem BuiltAll.append {b c d : Builder} {ids rest : List NodeId}
    (h : BuiltAll N binders parent b c ids) (hrest : BuiltAll N binders parent c d rest) :
    BuiltAll N binders parent b d (ids ++ rest) where
  good := hrest.good
  frame := h.frame.trans hrest.frame
  child id hmem := by
    rcases List.mem_append.1 hmem with hmem | hmem
    · obtain ⟨hnew, hlt, hparent⟩ := h.child id hmem
      rw [hrest.frame.node id hlt]
      exact ⟨hnew, Nat.lt_of_lt_of_le hlt hrest.frame.size, hparent⟩
    · obtain ⟨hnew, hlt, hparent⟩ := hrest.child id hmem
      exact ⟨h.frame.size.trans hnew, hlt, hparent⟩

/-- One node that is built is a list of such. -/
theorem Built.all {b d : Builder} {id : NodeId} (h : Built N binders parent b d id) :
    BuiltAll N binders parent b d [id] where
  good := h.good
  frame := h.frame
  child n hmem := by
    rw [List.mem_singleton.1 hmem]
    exact ⟨h.new, h.lt, h.parent⟩

/-- A node whose children were lowered is completed. -/
theorem Built.completeInner {c : Builder} {kind : NodeKind} {u : Unit}
    (h₀ : b₀.Prepared N binders parent) (h : Built N binders parent b₀ b id)
    (hvacant : b.kind id = .const .any) (hall : BuiltAll N binders (some id) b c kind.children)
    (hinner : kind.isInner = true) (hfunction : kind.function? = none)
    (hset : Builder.setKind id kind c = .ok (u, d)) : Built N binders parent b₀ d id := by
  refine (h.after hall.good hall.frame).complete h₀ ((hall.frame.kind h.lt).trans hvacant) hset ?_
  refine fits_inner hinner ?_ ?_
  · intro child hmem
    obtain ⟨hnew, hlt, hparent⟩ := hall.child child hmem
    exact ⟨hparent, Nat.lt_of_lt_of_le h.lt hnew, hlt⟩
  · intro fid formals hsome
    rw [hfunction] at hsome
    cases hsome

end Builder

end TypeFlow
