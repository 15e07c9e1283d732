import TypeFlow.Proofs.FirstStates
import TypeFlow.Proofs.OrderlyLowering

/-!
# Prepared trees

A whole program is prepared from nothing: its expression is lowered below the root.  What is left is
a tree of one node for each part of the expression, where all nodes wait.

Main definitions:

- `Builder.Complete`: what a finished construction leaves.
- `Program.WellFormed`: the tree of a program is that of its expression.

Main results:

- `Builder.lowerProgram_meets`: the construction ends in an error if an identifier is unbound, and
  is finished otherwise.
- `Program.wellFormed_of_build`: a prepared program is well formed.
-/

namespace TypeFlow

namespace Builder

variable {e : Expr} {b c d : Builder}

/-! ## Finished constructions -/

/-- The tree of the expression was built below a root, and its nodes have scopes. -/
structure Complete (e : Expr) (d : Builder) : Prop where
  size : d.nodes.size = e.subterms.length + 1
  orderly : d.Orderly
  root : ∃ body, d.kind 0 = .root body ∧ e.Mirrors d.kind body
  top : (d.node 0).parent = none ∧ (d.node 0).pinned = []
  hangs : ∀ n, 0 < n → n < d.nodes.size → d.Hangs 0 n
  scopes : ∃ scope, scope 0 = [] ∧ Scoped d.node d.forest scope

/-- The root is filled in after the expression was lowered below it. -/
theorem Lowered.complete {scope scope' : NodeId → List Binder} {body : NodeId} {type : TermId}
    (hl : Lowered ⟨0, [], []⟩ scope scope' b c [body] e.subterms.length)
    (he : e.Mirrors c.kind body) (hparent : (c.node body).parent = some 0)
    (hframe : Framed b c) (hsize : b.nodes.size = 1) (hvacant : b.kind 0 = .const .any)
    (htop : (b.node 0).parent = none ∧ (b.node 0).pinned = []) (hscope : scope 0 = [])
    (hd : Filled 0 (.root body) type c d) : Complete e d := by
  have hlt : 0 < b.nodes.size := hsize ▸ Nat.one_pos
  have hself := hframe.node 0 hlt
  have hroot : d.node 0 = { b.node 0 with kind := .root body, type := type } := by
    rw [hd.node, if_pos rfl, hself]
  have hkeep := hd.keepsKinds ((hframe.kind hlt).trans hvacant)
  have hscope' : scope' 0 = [] := (hl.kept 0 hlt).trans hscope
  have hplanted : Planted ⟨#[], b.functions, b.nextSite, b.forest, b.work⟩ d [0] :=
    hl.planted.close (List.Perm.refl _) (List.forall_mem_singleton.2 hparent) rfl hsize hframe.size
      hd
  refine ⟨?_, (hd.spares hl.spares.orderly).orderly, ⟨body, ?_, Expr.Mirrors.mono hkeep e he⟩,
    hroot ▸ htop, fun n hn hlt' => ?_, scope', hscope', ?_⟩
  · rw [hd.size, hl.size, hsize, Nat.add_comm]
  · rw [Builder.kind, hroot]
  · refine (hplanted.hangs n (Nat.zero_le n) hlt').resolve_left fun hmem => ?_
    exact Nat.ne_of_gt hn (List.mem_singleton.1 hmem)
  · refine scoped_fill hl.spares.orderly.rooted hl.scopes hd ?_
      (fun _ _ _ _ hident => NodeKind.noConfusion hident)
    intro n hn
    obtain ⟨haround, hpinned⟩ := hl.around n hn
    rw [haround, hpinned, hscope', hself, htop.2]
    exact ⟨rfl, rfl⟩

/-- Further changes of the forest. -/
theorem Complete.tends (h : Complete e c) (hd : Tends c d) : Complete e d := by
  have hnode : d.node = c.node := funext fun n => node_of_nodes hd.nodes n
  have hkind : d.kind = c.kind := funext fun n => congrArg Node.kind (node_of_nodes hd.nodes n)
  obtain ⟨scope, hscope, hscoped⟩ := h.scopes
  refine ⟨hd.nodes ▸ h.size, hd.orderly, hkind ▸ h.root, hnode ▸ h.top, fun n hn hlt => ?_, scope,
    hscope, scoped_grows hscoped hd.nodes hd.grows⟩
  exact (h.hangs n hn (hd.nodes ▸ hlt)).mono le_rfl fun m _ _ => congrFun hnode m

/-- Only the root has no parent. -/
theorem Complete.eq_root (h : Complete e d) {n : NodeId} (hn : n < d.nodes.size)
    (hparent : (d.node n).parent = none) : n = 0 := by
  by_contra hne
  obtain ⟨m, -, -, hsome, -⟩ := h.hangs n (Nat.pos_of_ne_zero hne) hn
  rw [hparent] at hsome
  cases hsome

/-- Parents come first and name their children. -/
theorem Complete.up (h : Complete e d) {n m : NodeId} (hparent : (d.node n).parent = some m) :
    m < n ∧ n ∈ (d.kind m).children := by
  have hn : n < d.nodes.size := by
    by_contra hle
    have hnode : d.node n = default := by
      rw [node, Array.getElem?_eq_none (Nat.le_of_not_lt hle)]
      rfl
    rw [hnode] at hparent
    cases hparent
  have hne : n ≠ 0 := by
    rintro rfl
    rw [h.top.1] at hparent
    cases hparent
  obtain ⟨m', -, hlt, hparent', hcount⟩ := h.hangs n (Nat.pos_of_ne_zero hne) hn
  rw [hparent] at hparent'
  cases hparent'
  exact ⟨hlt, List.count_pos_iff.1 (hcount ▸ Nat.one_pos)⟩

/-! ## From nothing -/

private theorem start_orderly (settings : Settings) : (start settings).Orderly where
  forest := ⟨Forest.sound_empty, fun _ _ hw => (nomatch hw), fun _ _ hn => (nomatch hn)⟩
  pending := rfl

/-- A whole program is prepared unless an identifier is unbound. -/
theorem lowerProgram_meets (e : Expr) (settings : Settings) :
    Meets (start settings) (firstUnbound (e.identifiers [])) (fun _ d => Complete e d)
      (lowerProgram e) := by
  have h₀ : (start settings).Prepared False [] none :=
    ⟨start_good settings, fun n hn => (nomatch hn)⟩
  refine (alloc_leaf_meets (start_orderly settings) rfl rfl rfl).step fun type b₁ halloc hpost => ?_
  obtain ⟨h₁, _⟩ := hpost
  refine .addNode fun root b₂ hadd => ?_
  obtain ⟨hstart, hvacant, -⟩ := Built.start_var h₀ (Std.Refl.refl _) halloc hadd
  have hnamed : ∀ bd : Binder, bd ∈ [] → bd.names.length = bd.types.length :=
    fun _ hbd => absurd hbd List.not_mem_nil
  have hscoped : Scoped (start settings).node (start settings).forest fun _ => [] :=
    fun _ => seated_const rfl hnamed
  have hscoped := scoped_addNode (h₀.good.of_grown (grown_var _ type b₁ halloc))
    (scoped_grows hscoped h₁.nodes h₁.grows) hnamed hadd
  have hsite : Site ⟨root, [], []⟩ (Function.update (fun _ => []) root []) b₂ :=
    ⟨hstart.prepared hvacant, (addNode_spares h₁.orderly hadd).orderly, hnamed, hscoped⟩
  obtain ⟨hroot, hb₂⟩ := addNode_eq_ok.1 hadd
  have hnodes : b₂.nodes = #[⟨.const .any, none, [], type⟩] := by
    rw [hb₂, h₁.nodes]
    rfl
  obtain rfl : 0 = root := by
    rw [← hroot, h₁.nodes]
    rfl
  have htop : b₂.node 0 = ⟨.const .any, none, [], type⟩ := by
    rw [node, hnodes]
    rfl
  refine (lower_prepares e ⟨0, [], []⟩ _ b₂ hsite).last fun body b₃ hlower hpost => ?_
  obtain ⟨he, scope, hl⟩ := hpost
  have hbody := hsite.built hlower
  refine .setKind fun b₄ hset => ?_
  have hcomplete : Complete e b₄ :=
    hl.complete he hbody.parent hbody.frame (by rw [hnodes]; rfl) hvacant
      (htop ▸ ⟨rfl, rfl⟩) (Function.update_self _ _ _)
      (filled_of_setKind (Nat.lt_of_lt_of_le hstart.lt hbody.frame.size) hset)
  refine (register_meets hcomplete.orderly [type] (hcomplete.size ▸ Nat.succ_pos _)).imp ?_
  exact fun _ d _ hd => hcomplete.tends hd

end Builder

namespace Program

/-! ## Well-formed programs -/

/-- The tree of a program is that of its expression below a root: one node for each part, which
hangs below an earlier one that names it once.  All nodes wait, and what is pinned at a node was
pinned by the nodes on its way up. -/
structure WellFormed (p : Program) (e : Expr) (s : State) : Prop where
  size : p.size = e.subterms.length + 1
  root : ∃ body, p.kind rootId = .root body ∧ e.Mirrors p.kind body
  top : p.parent rootId = none
  below : ∀ n, n ≠ rootId → n < p.size →
    ∃ m, m < n ∧ p.parent n = some m ∧ (p.kind m).children.count n = 1
  pending : s.work.pending.toList = List.range p.size
  pinned : ∀ n, n < p.size → ∃ way, p.Way n way ∧
    (p.node n).pinned = way.flatMap fun a => (p.kind a.1).pins a.2

variable {e : Expr} {settings : Settings} {depth : Nat} {p : Program} {s : State}

/-- A prepared program and its first state are those of a finished construction. -/
theorem complete_of_build (h : build e settings depth = .ok (p, s)) :
    ∃ b : Builder, b.Complete e ∧ p = ⟨b.nodes, b.functions, settings, depth⟩ ∧
      s = ⟨b.forest, b.initialFlows, b.work⟩ := by
  obtain ⟨b, hb, rfl, rfl⟩ := build_eq_ok.1 h
  exact ⟨b, ((Builder.lowerProgram_meets e settings).result hb).2, rfl, rfl⟩

/-- Every node has a way up, which tells what is pinned at it and what it can see. -/
theorem exists_scopes_of_build (h : build e settings depth = .ok (p, s)) :
    ∃ scope, Scoped p.node s.forest scope ∧ ∀ n, n < p.size → ∃ way, p.Way n way ∧
      (p.node n).pinned = way.flatMap (fun a => (p.kind a.1).pins a.2) ∧
      scope n = way.filterMap fun a => (p.kind a.1).binder? a.1 := by
  obtain ⟨b, hb, rfl, rfl⟩ := complete_of_build h
  obtain ⟨scope, htop, hscoped⟩ := hb.scopes
  have hup : ∀ n m, parent ⟨b.nodes, b.functions, settings, depth⟩ n = some m →
      m < n ∧ n ∈ (b.kind m).children := fun _ _ => hb.up
  refine ⟨scope, hscoped, fun n hn => ?_⟩
  obtain ⟨way, hway⟩ := exists_way hup n
  refine ⟨way, hway, hway.scoped hn hscoped hup fun m hm hparent => ?_⟩
  rw [hb.eq_root hm hparent]
  exact ⟨htop, hb.top.2⟩

/-- A prepared program is well formed. -/
theorem wellFormed_of_build (h : build e settings depth = .ok (p, s)) : p.WellFormed e s := by
  obtain ⟨scope, -, hscope⟩ := exists_scopes_of_build h
  obtain ⟨b, hb, rfl, rfl⟩ := complete_of_build h
  refine ⟨hb.size, hb.root, hb.top.1, fun n hn hlt => ?_, hb.orderly.pending, fun n hn => ?_⟩
  · obtain ⟨m, -, hm, hparent, hcount⟩ := hb.hangs n (Nat.pos_of_ne_zero hn) hlt
    exact ⟨m, hm, hparent, hcount⟩
  · obtain ⟨way, hway, hpinned, -⟩ := hscope n hn
    exact ⟨way, hway, hpinned⟩

/-- The program `let f = { x y -> x } in f`: nothing is pinned at the body of the definition, and
the terms of `y`, `x` and `f` are at that of the function. -/
theorem wellFormed_of_build_first : ∃ p s,
    build (.letIn "f" (.lambda ["x", "y"] (.ident "x") true) (.ident "f")) {} = .ok (p, s) ∧
      p.WellFormed (.letIn "f" (.lambda ["x", "y"] (.ident "x") true) (.ident "f")) s ∧
      (p.node 2).pinned = [] ∧ (p.node 4).pinned = [4, 3, 1] := by
  have hpinned : ((build (.letIn "f" (.lambda ["x", "y"] (.ident "x") true) (.ident "f"))
      {}).toOption.map fun r => ((r.1.node 2).pinned, (r.1.node 4).pinned)) =
        some ([], [4, 3, 1]) := by
    decide +kernel
  obtain ⟨⟨p, s⟩, h, hpinned⟩ := ok_of_map hpinned
  obtain ⟨hbody, hfunction⟩ := Prod.mk.inj hpinned
  exact ⟨p, s, h, wellFormed_of_build h, hbody, hfunction⟩

end Program

end TypeFlow
