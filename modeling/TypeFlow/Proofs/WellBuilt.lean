import TypeFlow.Proofs.GrownTypes
import TypeFlow.Proofs.SettledFlows

/-!
# Programs under construction

While an expression is prepared, the nodes around it are open: their kinds are not filled in yet.
All other nodes have a parent that names them, functions that are registered and identifiers whose
binder is either complete or open around the place.  Adding a node, changing the forest and filling
a kind in keep this.

Main definitions:

- `Binder.Binds`: what a binder binds names to.
- `Builder.Fits`: what the kind of a node may be.
- `Builder.Good`: what holds of a program under construction.
- `Builder.Framed`: nodes, functions and types that were there already stayed.

Main results:

- `Builder.Good.of_grown`, `Builder.Good.addNode`, `Builder.Good.close`: the steps of the
  construction.
-/

namespace TypeFlow

/-- The binder binds some name to the term at the position. -/
def Binder.Binds (binder : Binder) (position : Option Nat) (binding : TermId) : Prop :=
  if binder.isFunction then ∃ i, position = some i ∧ binder.types[i]? = some binding
  else position = none ∧ binding ∈ binder.types

/-- A name is bound to its binder's node, with a type of that. -/
theorem Binder.binds_of_binding? {binder : Binder} {name : String} {b : Binding}
    (h : binder.binding? name = some b) :
    b.node = binder.node ∧ binder.Binds b.position b.type ∧ b.type ∈ binder.typesOf name ∧
      b.type ∈ binder.types := by
  unfold binding? at h
  dsimp only at h
  split at h
  · rename_i type htype
    split at h
    · rename_i hlt
      cases h
      have hmem : type ∈ binder.types := List.mem_of_getElem? htype
      refine ⟨rfl, ?_, ?_, hmem⟩
      · unfold Binds
        cases binder.isFunction with
        | true => exact ⟨_, rfl, htype⟩
        | false => exact ⟨rfl, hmem⟩
      · unfold typesOf
        refine List.mem_filterMap.2 ⟨(name, type), ?_, if_pos rfl⟩
        have hname : binder.names[binder.names.idxOf name]? = some name :=
          List.getElem?_idxOf (List.idxOf_lt_length_iff.1 hlt)
        apply List.mem_of_getElem? (i := binder.names.idxOf name)
        rw [List.getElem?_zip_eq_some]
        exact ⟨hname, htype⟩
    · cases h
  · cases h

namespace Builder

/-- What a node of a program under construction is. -/
def kind (b : Builder) (id : NodeId) : NodeKind := (b.node id).kind

/-- The kind may be that of the node.  An identifier may be bound by one of the open binders. -/
structure Fits (N : Prop) (binders : List Binder) (b : Builder) (n : NodeId) (kind : NodeKind) :
    Prop where
  child : ∀ child ∈ kind.children,
    (b.node child).parent = some n ∧ n < child ∧ child < b.nodes.size
  function : ∀ fid formals, kind.function? = some (fid, formals) →
    fid ≠ FunctionId.unknown ∧ b.functions[fid - 1]? = some n
  bound : ∀ name binder position binding, kind = .ident name binder position binding →
    n ∈ b.forest.deps (b.forest.rep binding) ∧
      (Program.Bound b.kind binder position binding ∨
        ∃ bd ∈ binders, bd.node = binder ∧ bd.Binds position binding)
  definition : ∀ name definition body binding, kind = .letIn name definition body binding →
    b.forest.rep binding = b.forest.rep (b.node definition).type
  const : ∀ flow, kind = .const flow → flow.Plain N
  prim : N → ∀ primitive fid formals, kind = .prim primitive fid formals → primitive ≠ .notNil

/-- What holds of a program under construction, inside the open binders. -/
structure Good (N : Prop) (binders : List Binder) (b : Builder) : Prop where
  rooted : b.forest.Rooted
  plain : b.forest.Plain N
  typed : ∀ n, n < b.nodes.size → (b.node n).type < b.forest.size
  fits : ∀ n, n < b.nodes.size → b.Fits N binders n (b.kind n)
  functions : ∀ (k : Nat) n, b.functions[k]? = some n → n < b.nodes.size ∧
    ((∃ formals, (b.kind n).function? = some (k + 1, formals)) ∨
      ∃ bd ∈ binders, bd.isFunction = true ∧ bd.node = n)
  injective : ∀ (k k' : Nat) n, b.functions[k]? = some n → b.functions[k']? = some n → k = k'
  binder : ∀ bd ∈ binders, bd.node < b.nodes.size ∧
    ∀ t ∈ bd.types, t < b.forest.size ∧ b.forest.kind t = .var
  pending : ∀ n, n < b.nodes.size → n ∈ b.work.pending

/-- At most one node changed, which was open, and others were added. -/
structure Changed (id : NodeId) (b d : Builder) : Prop where
  size : b.nodes.size ≤ d.nodes.size
  node : ∀ n, n < b.nodes.size → n ≠ id → d.node n = b.node n
  vacant : b.kind id = .const .any
  functions : ∀ (k : Nat) n, b.functions[k]? = some n → d.functions[k]? = some n
  forest : Forest.Grows b.forest d.forest

/-- A constant fits anywhere if its flow is plain. -/
theorem fits_const {N : Prop} {binders : List Binder} {b : Builder} {n : NodeId} {flow : Flow}
    (h : flow.Plain N) : b.Fits N binders n (.const flow) where
  child _ hmem := absurd hmem List.not_mem_nil
  function _ _ hfunction := by cases hfunction
  bound _ _ _ _ hident := by cases hident
  definition _ _ _ _ hlet := by cases hlet
  const flow hflow := by cases hflow; exact h
  prim _ _ _ _ hprim := by cases hprim

/-- What is no node yet is a constant. -/
theorem kind_of_size_le {b : Builder} {n : NodeId} (h : b.nodes.size ≤ n) :
    b.kind n = .const .any := by
  have hnode : b.nodes[n]? = none := Array.getElem?_eq_none h
  simp only [kind, node, hnode]
  rfl

/-- Complete nodes stay what they are. -/
theorem Changed.kind {id : NodeId} {b d : Builder} (h : Changed id b d) {n : NodeId}
    (hn : b.kind n ≠ .const .any) : d.kind n = b.kind n := by
  have hlt : n < b.nodes.size := by
    by_contra hle
    exact hn (kind_of_size_le (Nat.le_of_not_lt hle))
  have hne : n ≠ id := by
    rintro rfl
    exact hn h.vacant
  rw [Builder.kind, Builder.kind, h.node n hlt hne]

private theorem Changed.bound {id : NodeId} {b d : Builder} (h : Changed id b d) {binder : NodeId}
    {position : Option Nat} {binding : TermId} (hb : Program.Bound b.kind binder position binding) :
    Program.Bound d.kind binder position binding := by
  cases hb with
  | definition hlet =>
    refine .definition ((h.kind ?_).trans hlet)
    rw [hlet]
    exact NodeKind.noConfusion
  | parameter hfunction hformal =>
    have hkind : d.kind binder = b.kind binder := by
      apply h.kind
      intro hconst
      rw [hconst] at hfunction
      cases hfunction
    rw [← hkind] at hfunction
    exact .parameter hfunction hformal

/-- What fits a node still does while another changes. -/
theorem Fits.mono {N : Prop} {binders binders' : List Binder} {id n : NodeId} {b d : Builder}
    {kind : NodeKind} (h : b.Fits N binders' n kind) (hd : Changed id b d)
    (hchild : id ∉ kind.children)
    (hbinder : ∀ bd ∈ binders', bd ∈ binders ∨ ∀ position binding, bd.Binds position binding →
      Program.Bound d.kind bd.node position binding) : d.Fits N binders n kind := by
  have hnode : ∀ child ∈ kind.children, d.node child = b.node child := by
    intro child hmem
    refine hd.node child (h.child child hmem).2.2 ?_
    rintro rfl
    exact hchild hmem
  refine ⟨?_, ?_, ?_, ?_, h.const, h.prim⟩
  · intro child hmem
    obtain ⟨hparent, hlt, hsize⟩ := h.child child hmem
    rw [hnode child hmem]
    exact ⟨hparent, hlt, Nat.lt_of_lt_of_le hsize hd.size⟩
  · intro fid formals hfunction
    obtain ⟨hfid, hmem⟩ := h.function fid formals hfunction
    exact ⟨hfid, hd.functions _ _ hmem⟩
  · intro name binder position binding hident
    obtain ⟨hdeps, hbound⟩ := h.bound name binder position binding hident
    refine ⟨hd.forest.deps _ _ hdeps, ?_⟩
    rcases hbound with hbound | ⟨bd, hbd, rfl, hbinds⟩
    · exact Or.inl (hd.bound hbound)
    · rcases hbinder bd hbd with hmem | hclosed
      · exact Or.inr ⟨bd, hmem, rfl, hbinds⟩
      · exact Or.inl (hclosed position binding hbinds)
  · intro name definition body binding hlet
    have hmem : definition ∈ kind.children := by
      rw [hlet]
      exact List.mem_cons_self
    rw [hnode definition hmem]
    exact hd.forest.rep _ _ (h.definition name definition body binding hlet)

/-! ## Steps -/

/-- Changes of the forest change no node. -/
theorem Changed.of_nodes {b d : Builder} (hnodes : d.nodes = b.nodes)
    (hfunctions : d.functions = b.functions) (hforest : Forest.Grows b.forest d.forest) :
    Changed b.nodes.size b d where
  size := by rw [hnodes]
  node n _ _ := by rw [Builder.node, Builder.node, hnodes]
  vacant := kind_of_size_le le_rfl
  functions k n h := by rw [hfunctions]; exact h
  forest := hforest

private theorem Good.not_mem_children {N : Prop} {binders : List Binder} {b : Builder}
    (h : b.Good N binders) {n : NodeId} (hn : n < b.nodes.size) :
    b.nodes.size ∉ (b.kind n).children := by
  intro hmem
  exact absurd ((h.fits n hn).child _ hmem).2.2 (Nat.lt_irrefl _)

/-- A change of the forest keeps a construction good. -/
theorem Good.of_grows {N : Prop} {binders : List Binder} {b d : Builder} (h : b.Good N binders)
    (hnodes : d.nodes = b.nodes) (hfunctions : d.functions = b.functions)
    (hforest : Forest.Grows b.forest d.forest) (hplain : d.forest.Plain N)
    (hvar : ∀ bd ∈ binders, ∀ t ∈ bd.types, d.forest.kind t = .var)
    (hpending : ∀ n, n ∈ b.work.pending → n ∈ d.work.pending) : d.Good N binders := by
  have hd := Changed.of_nodes hnodes hfunctions hforest
  have hkind : ∀ n, d.kind n = b.kind n := fun n => by
    rw [Builder.kind, Builder.kind, Builder.node, Builder.node, hnodes]
  constructor
  · exact hforest.rooted
  · exact hplain
  · intro n hn
    rw [hnodes] at hn
    rw [Builder.node, hnodes]
    exact Nat.lt_of_lt_of_le (h.typed n hn) hforest.size
  · intro n hn
    rw [hnodes] at hn
    rw [hkind]
    exact (h.fits n hn).mono hd (h.not_mem_children hn) fun bd hbd => Or.inl hbd
  · intro k n hk
    rw [hfunctions] at hk
    rw [hnodes, hkind]
    exact h.functions k n hk
  · intro k k' n hk hk'
    rw [hfunctions] at hk hk'
    exact h.injective k k' n hk hk'
  · intro bd hbd
    obtain ⟨hnode, htypes⟩ := h.binder bd hbd
    rw [hnodes]
    exact ⟨hnode, fun t ht => ⟨Nat.lt_of_lt_of_le (htypes t ht).1 hforest.size, hvar bd hbd t ht⟩⟩
  · intro n hn
    rw [hnodes] at hn
    exact hpending n (h.pending n hn)

/-- What is well built stays so while types are added. -/
theorem Good.of_grown {N : Prop} {binders : List Binder} {b d : Builder} (h : b.Good N binders)
    (hd : Grown N b d) : d.Good N binders := by
  have hext := hd.extend h.rooted
  refine h.of_grows hd.nodes hd.functions (hext.grows h.rooted) ?_ ?_ ?_
  · exact hd.plain h.rooted h.plain
  · intro bd hbd t ht
    obtain ⟨hlt, hvar⟩ := (h.binder bd hbd).2 t ht
    exact hext.var t hlt hvar
  · intro n hn
    rw [hd.work]
    exact hn

/-- Nodes, functions and types that were there already stayed. -/
structure Framed (b d : Builder) : Prop where
  size : b.nodes.size ≤ d.nodes.size
  node : ∀ n, n < b.nodes.size → d.node n = b.node n
  functions : ∀ (k : Nat) n, b.functions[k]? = some n → d.functions[k]? = some n
  forest : Forest.Extends b.forest d.forest

/-- Doing nothing stays in any frame. -/
theorem Framed.refl {b : Builder} (h : b.forest.Rooted) : Framed b b :=
  ⟨le_rfl, fun _ _ => rfl, fun _ _ h => h, Forest.Extends.refl h⟩

/-- Frames are kept in turn. -/
theorem Framed.trans {b c d : Builder} (hbc : Framed b c) (hcd : Framed c d) : Framed b d where
  size := hbc.size.trans hcd.size
  node n hn := (hcd.node n (Nat.lt_of_lt_of_le hn hbc.size)).trans (hbc.node n hn)
  functions k n hk := hcd.functions k n (hbc.functions k n hk)
  forest := hbc.forest.trans hcd.forest

/-- Adding types only stays in any frame. -/
theorem Grown.framed {N : Prop} {b d : Builder} (h : Grown N b d) (hrooted : b.forest.Rooted) :
    Framed b d where
  size := by rw [h.nodes]
  node n _ := by rw [Builder.node, Builder.node, h.nodes]
  functions k n hk := by rw [h.functions]; exact hk
  forest := h.extend hrooted

/-- A node that is pushed comes last. -/
theorem node_push (b : Builder) (new : Node) (n : NodeId) :
    (b.nodes.push new)[n]?.getD default = if n = b.nodes.size then new else b.node n := by
  rw [Array.getElem?_push]
  by_cases e : n = b.nodes.size
  · rw [if_pos e, if_pos e]
    rfl
  · rw [if_neg e, if_neg e]
    rfl

/-- A new node is open, and keeps a construction good. -/
theorem Good.addNode {N : Prop} {binders : List Binder} {b d : Builder} {parent : Option NodeId}
    {pinned : List TermId} {type : TermId} {id : NodeId} (h : b.Good N binders)
    (htype : type < b.forest.size) (hadd : addNode parent pinned type b = .ok (id, d)) :
    d.Good N binders ∧ Framed b d ∧ id = b.nodes.size ∧ d.nodes.size = b.nodes.size + 1 ∧
      d.node id = ⟨.const .any, parent, pinned, type⟩ ∧ d.forest = b.forest ∧
      d.functions = b.functions := by
  obtain ⟨rfl, rfl⟩ := addNode_eq_ok.1 hadd
  set d : Builder := { b with
    nodes := b.nodes.push ⟨.const .any, parent, pinned, type⟩
    work := b.work.push b.nodes.size } with hd
  have hnode : ∀ n, d.node n =
      if n = b.nodes.size then ⟨.const .any, parent, pinned, type⟩ else b.node n :=
    node_push b _
  have hsize : d.nodes.size = b.nodes.size + 1 := Array.size_push _
  have hold : ∀ n, n < b.nodes.size → d.node n = b.node n := by
    intro n hn
    rw [hnode, if_neg (Nat.ne_of_lt hn)]
  have hchanged : Changed b.nodes.size b d :=
    ⟨by rw [hsize]; exact Nat.le_succ _, fun n hn _ => hold n hn, kind_of_size_le le_rfl,
      fun _ _ hk => hk, (Forest.Extends.refl h.rooted).grows h.rooted⟩
  have hself : d.node b.nodes.size = ⟨.const .any, parent, pinned, type⟩ := by
    rw [hnode, if_pos rfl]
  refine ⟨⟨h.rooted, h.plain, ?_, ?_, ?_, h.injective, ?_, ?_⟩, ?_, rfl, hsize, hself, rfl, rfl⟩
  · intro n hn
    rw [hsize] at hn
    rw [hnode]
    split
    · exact htype
    · rename_i hne
      exact h.typed n ((Nat.lt_succ_iff_lt_or_eq.1 hn).resolve_right hne)
  · intro n hn
    rw [hsize] at hn
    rcases Nat.lt_succ_iff_lt_or_eq.1 hn with hn | rfl
    · rw [kind, hold n hn]
      exact (h.fits n hn).mono hchanged (h.not_mem_children hn) fun bd hbd => Or.inl hbd
    · rw [kind, hself]
      exact fits_const .any
  · intro k n hk
    obtain ⟨hn, hfunction⟩ := h.functions k n hk
    refine ⟨by rw [hsize]; exact Nat.lt_succ_of_lt hn, ?_⟩
    rw [kind, hold n hn]
    exact hfunction
  · intro bd hbd
    obtain ⟨hn, htypes⟩ := h.binder bd hbd
    exact ⟨by rw [hsize]; exact Nat.lt_succ_of_lt hn, htypes⟩
  · intro n hn
    rw [hsize] at hn
    refine OrderedSet.mem_insert.2 ?_
    rcases Nat.lt_succ_iff_lt_or_eq.1 hn with hn | rfl
    · exact Or.inr (h.pending n hn)
    · exact Or.inl rfl
  · exact ⟨by rw [hsize]; exact Nat.le_succ _, hold, fun _ _ hk => hk, Forest.Extends.refl h.rooted⟩

/-- An open node may bind names. -/
theorem Good.enclose {N : Prop} {binders : List Binder} {b : Builder} {bd : Binder}
    (h : b.Good N binders) (hnode : bd.node < b.nodes.size)
    (htypes : ∀ t ∈ bd.types, t < b.forest.size ∧ b.forest.kind t = .var) :
    b.Good N (bd :: binders) := by
  refine ⟨h.rooted, h.plain, h.typed, ?_, ?_, h.injective, ?_, h.pending⟩
  · intro n hn
    have hgood := h.fits n hn
    refine ⟨hgood.child, hgood.function, ?_, hgood.definition, hgood.const, hgood.prim⟩
    intro name binder position binding hident
    obtain ⟨hdeps, hbound⟩ := hgood.bound name binder position binding hident
    refine ⟨hdeps, hbound.imp_right ?_⟩
    rintro ⟨bd', hbd', hbinds⟩
    exact ⟨bd', List.mem_cons_of_mem _ hbd', hbinds⟩
  · intro k n hk
    obtain ⟨hn, hfunction⟩ := h.functions k n hk
    refine ⟨hn, hfunction.imp_right ?_⟩
    rintro ⟨bd', hbd', hbinds⟩
    exact ⟨bd', List.mem_cons_of_mem _ hbd', hbinds⟩
  · intro bd' hbd'
    rcases List.mem_cons.1 hbd' with rfl | hbd'
    · exact ⟨hnode, htypes⟩
    · exact h.binder bd' hbd'

/-- An open node that binds names may be registered as a function, once. -/
theorem Good.addFunction {N : Prop} {binders : List Binder} {b d : Builder} {bd : Binder}
    {u : Unit} (h : b.Good N (bd :: binders)) (hbd : bd.isFunction = true)
    (hnew : ∀ k : Nat, b.functions[k]? ≠ some bd.node)
    (hadd : addFunction bd.node b = .ok (u, d)) : d.Good N (bd :: binders) := by
  rw [addFunction_eq_ok.1 hadd]
  have hmem : ∀ (k : Nat) n, (b.functions.push bd.node)[k]? = some n →
      k = b.functions.size ∧ n = bd.node ∨ b.functions[k]? = some n := by
    intro k n hk
    rw [Array.getElem?_push] at hk
    split at hk
    · rename_i e
      exact Or.inl ⟨e, (Option.some.inj hk).symm⟩
    · exact Or.inr hk
  have hkept : ∀ (k : Nat) n, b.functions[k]? = some n →
      (b.functions.push bd.node)[k]? = some n := by
    intro k n hk
    have hne : k ≠ b.functions.size := by
      rintro rfl
      rw [Array.getElem?_eq_none le_rfl] at hk
      cases hk
    rw [Array.getElem?_push, if_neg hne]
    exact hk
  refine ⟨h.rooted, h.plain, h.typed, ?_, ?_, ?_, h.binder, h.pending⟩
  · intro n hn
    have hgood := h.fits n hn
    refine ⟨hgood.child, ?_, hgood.bound, hgood.definition, hgood.const, hgood.prim⟩
    intro fid formals hfunction
    obtain ⟨hfid, hget⟩ := hgood.function fid formals hfunction
    exact ⟨hfid, hkept _ _ hget⟩
  · intro k n hk
    rcases hmem k n hk with ⟨-, rfl⟩ | hk
    · exact ⟨(h.binder bd List.mem_cons_self).1, Or.inr ⟨bd, List.mem_cons_self, hbd, rfl⟩⟩
    · exact h.functions k n hk
  · intro k k' n hk hk'
    rcases hmem k n hk with ⟨rfl, rfl⟩ | hk
    · rcases hmem k' _ hk' with ⟨rfl, -⟩ | hk'
      · rfl
      · exact absurd hk' (hnew k')
    · rcases hmem k' n hk' with ⟨-, rfl⟩ | hk'
      · exact absurd hk (hnew k)
      · exact h.injective k k' n hk hk'

/-- Filling in an open node closes the binder that it is. -/
theorem Good.close {N : Prop} {binders binders' : List Binder} {b d : Builder} {id : NodeId}
    (h : b.Good N binders')
    (hfree : ∀ n, n < b.nodes.size → id ∉ (b.kind n).children)
    (hsize : d.nodes.size = b.nodes.size) (hd : Changed id b d)
    (hfunctions : d.functions = b.functions) (hplain : d.forest.Plain N)
    (hpending : ∀ n, n ∈ b.work.pending → n ∈ d.work.pending)
    (hbinders : ∀ bd ∈ binders, bd ∈ binders' ∧ ∀ t ∈ bd.types, d.forest.kind t = .var)
    (hbinder : ∀ bd ∈ binders', bd ∈ binders ∨ bd.node = id ∧ ∀ position binding,
      bd.Binds position binding → Program.Bound d.kind bd.node position binding)
    (hfunction : ∀ k : Nat, b.functions[k]? = some id →
      ∃ formals, (d.kind id).function? = some (k + 1, formals))
    (htyped : (d.node id).type < d.forest.size) (hself : d.Fits N binders id (d.kind id)) :
    d.Good N binders := by
  refine ⟨hd.forest.rooted, hplain, ?_, ?_, ?_, ?_, ?_, ?_⟩
  · intro n hn
    rw [hsize] at hn
    by_cases hne : n = id
    · rw [hne]
      exact htyped
    · rw [hd.node n hn hne]
      exact Nat.lt_of_lt_of_le (h.typed n hn) hd.forest.size
  · intro n hn
    rw [hsize] at hn
    by_cases hne : n = id
    · rw [hne]
      exact hself
    · rw [kind, hd.node n hn hne]
      exact (h.fits n hn).mono hd (hfree n hn) fun bd hbd => (hbinder bd hbd).imp_right And.right
  · intro k n hk
    rw [hfunctions] at hk
    obtain ⟨hn, hold⟩ := h.functions k n hk
    refine ⟨hsize ▸ hn, ?_⟩
    by_cases hne : n = id
    · rw [hne] at hk ⊢
      exact Or.inl (hfunction k hk)
    · have hkind : d.kind n = b.kind n := by rw [Builder.kind, Builder.kind, hd.node n hn hne]
      rw [hkind]
      refine hold.imp_right ?_
      rintro ⟨bd, hbd, hisFunction, hnode⟩
      refine ⟨bd, (hbinder bd hbd).resolve_right ?_, hisFunction, hnode⟩
      exact fun hclosed => hne (hnode.symm.trans hclosed.1)
  · rw [hfunctions]
    exact h.injective
  · intro bd hbd
    obtain ⟨hmem, hvar⟩ := hbinders bd hbd
    obtain ⟨hnode, htypes⟩ := h.binder bd hmem
    exact ⟨hsize ▸ hnode, fun t ht =>
      ⟨Nat.lt_of_lt_of_le (htypes t ht).1 hd.forest.size, hvar t ht⟩⟩
  · intro n hn
    rw [hsize] at hn
    exact hpending n (h.pending n hn)

end Builder

end TypeFlow
