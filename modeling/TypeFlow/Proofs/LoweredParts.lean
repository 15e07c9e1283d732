import TypeFlow.Proofs.MirroredTrees
import TypeFlow.Proofs.OrderlySteps
import TypeFlow.Proofs.Scopes

/-!
# Lowered parts of a program

At a place where expressions may be lowered, a node is added open, its children are lowered, and its
kind is filled in.  Each of these steps keeps the forest orderly, hangs the new nodes below one
another and gives them the scopes of their places.

Main definitions:

- `Builder.Site`: a place where expressions may be lowered.
- `Builder.Opened`: a node was added there, whose kind is not filled in yet.
- `Builder.Lowered`: expressions were lowered there.

Main results:

- `Builder.Site.open`, `Builder.Opened.close`: a node is added, and completed.
- `Builder.Lowered.append`: expressions are lowered in turn.
-/

namespace TypeFlow

/-- The names that are bound at a place. -/
def Place.names (place : Place) : List String := place.binders.flatMap Binder.names

namespace Builder

variable {α : Type} {place : Place} {scope scope' scope'' : NodeId → List Binder}
  {b₀ b c d : Builder} {ids ids' : List NodeId} {id : NodeId} {count count' : Nat}

/-- Expressions may be lowered at the place. -/
structure Site (place : Place) (scope : NodeId → List Binder) (b : Builder) : Prop where
  prepared : b.Prepared False place.binders (some place.parent)
  orderly : b.Orderly
  named : ∀ bd ∈ place.binders, bd.names.length = bd.types.length
  scopes : Scoped b.node b.forest scope

/-- Expressions were lowered at the place: their nodes are orderly and hang below one another, and
the outermost ones have the scope of the place. -/
structure Lowered (place : Place) (scope scope' : NodeId → List Binder) (b d : Builder)
    (ids : List NodeId) (count : Nat) : Prop where
  size : d.nodes.size = b.nodes.size + count
  spares : Spares b d
  planted : Planted b d ids
  loose : ∀ id ∈ ids, (d.node id).type < d.forest.size ∧ d.forest.Loose (d.node id).type
  around : ∀ id ∈ ids, scope' id = place.binders ∧ (d.node id).pinned = place.pinned
  scopes : Scoped d.node d.forest scope'
  kept : ∀ n, n < b.nodes.size → scope' n = scope n

/-- A node was added at the place, whose kind is not filled in yet. -/
structure Opened (place : Place) (scope : NodeId → List Binder) (b d : Builder) (id : NodeId) :
    Prop where
  built : Built False place.binders (some place.parent) b d id
  vacant : d.kind id = .const .any
  first : id = b.nodes.size
  size : d.nodes.size = b.nodes.size + 1
  spares : Spares b d
  pinned : (d.node id).pinned = place.pinned
  loose : d.forest.Loose (d.node id).type
  scopes : Scoped d.node d.forest (Function.update scope id place.binders)

/-- A node is read off the nodes. -/
theorem node_of_nodes (h : d.nodes = b.nodes) (n : NodeId) : d.node n = b.node n := by
  rw [node, node, h]

/-! ## Several expressions -/

/-- No parts are lowered at first. -/
theorem Lowered.nil (h : Site place scope b) : Lowered place scope scope b b [] 0 where
  size := rfl
  spares := .refl h.orderly
  planted := .nil b
  loose _ hid := absurd hid List.not_mem_nil
  around _ hid := absurd hid List.not_mem_nil
  scopes := h.scopes
  kept _ _ := rfl

/-- Parts are lowered one after the other. -/
theorem Lowered.append (h : Lowered place scope scope' b c ids count)
    (h' : Lowered place scope' scope'' c d ids' count') (hframe : Framed c d) :
    Lowered place scope scope'' b d (ids ++ ids') (count + count') where
  size := by rw [h'.size, h.size, Nat.add_assoc]
  spares := h.spares.trans h'.spares
  planted := h.planted.append h'.planted (h.size ▸ Nat.le_add_right _ _) hframe
  loose id hid := by
    rcases List.mem_append.1 hid with hid | hid
    · obtain ⟨hlt, hloose⟩ := h.loose id hid
      rw [hframe.node id (h.planted.new id hid).2]
      exact ⟨Nat.lt_of_lt_of_le hlt h'.spares.spares.size, h'.spares.spares.loose _ hlt hloose⟩
    · exact h'.loose id hid
  around id hid := by
    rcases List.mem_append.1 hid with hid | hid
    · have hlt := (h.planted.new id hid).2
      rw [h'.kept id hlt, hframe.node id hlt]
      exact h.around id hid
    · exact h'.around id hid
  scopes := h'.scopes
  kept n hn :=
    (h'.kept n (Nat.lt_of_lt_of_le hn (h.size ▸ Nat.le_add_right _ _))).trans (h.kept n hn)

/-- Further changes of the forest. -/
theorem Lowered.tends (h : Lowered place scope scope' b c ids count) (hd : Tends c d) :
    Lowered place scope scope' b d ids count where
  size := hd.nodes ▸ h.size
  spares := h.spares.trans hd.toSpares
  planted := h.planted.of_nodes hd.nodes
  loose id hid := by
    obtain ⟨hlt, hloose⟩ := h.loose id hid
    rw [node_of_nodes hd.nodes]
    exact ⟨Nat.lt_of_lt_of_le hlt hd.spares.size, hd.spares.loose _ hlt hloose⟩
  around id hid := by
    rw [node_of_nodes hd.nodes]
    exact h.around id hid
  scopes := scoped_grows h.scopes hd.nodes hd.grows
  kept := h.kept

/-- Changes of the forest before. -/
theorem Lowered.from (h : Lowered place scope scope' c d ids count) (hc : Tends b c) :
    Lowered place scope scope' b d ids count where
  size := hc.nodes ▸ h.size
  spares := hc.toSpares.trans h.spares
  planted := ⟨h.planted.nodup, hc.nodes ▸ h.planted.new, hc.nodes ▸ h.planted.hangs⟩
  loose := h.loose
  around := h.around
  scopes := h.scopes
  kept := hc.nodes ▸ h.kept

/-- More may be lowered at the same place. -/
theorem Site.after (h : Site place scope b)
    (hbuilt : BuiltAll False place.binders (some place.parent) b c ids)
    (hl : Lowered place scope scope' b c ids count) : Site place scope' c :=
  ⟨h.prepared.after hbuilt.good hbuilt.frame, hl.spares.orderly, h.named, hl.scopes⟩

/-! ## New nodes -/

/-- A node is added. -/
theorem Site.open {type : TermId} (h : Site place scope b₀) (hg : Grown False b₀ b)
    (ht : Tends b₀ b) (hnew : b₀.forest.size ≤ type) (hlt : type < b.forest.size)
    (hloose : b.forest.Loose type)
    (hadd : addNode (some place.parent) place.pinned type b = .ok (id, d)) :
    Opened place scope b₀ d id := by
  obtain ⟨hbuilt, hvacant, htype, hforest, -⟩ := Built.start h.prepared hg hnew hlt hadd
  have hscoped := scoped_addNode (h.prepared.good.of_grown hg)
    (scoped_grows h.scopes ht.nodes ht.grows) h.named hadd
  obtain ⟨hid, hd⟩ := addNode_eq_ok.1 hadd
  have hnode := node_push b ⟨.const .any, some place.parent, place.pinned, type⟩
  refine ⟨hbuilt, hvacant, ?_, ?_, ht.toSpares.trans (addNode_spares ht.orderly hadd), ?_, ?_,
    hscoped⟩
  · rw [← hid, ht.nodes]
  · rw [hd, ← ht.nodes]
    exact Array.size_push _
  · rw [← hid, hd]
    exact congrArg Node.pinned ((hnode b.nodes.size).trans (if_pos rfl))
  · rw [htype, hforest]
    exact hloose

/-- A node of a new type variable is added. -/
theorem Site.openVar {missing : Option String} {post : α → Builder → Prop}
    (h : Site place scope b₀) (hg : Grown False b₀ b) (ht : Tends b₀ b)
    {k : TermId → NodeId → BuildM α}
    (hk : ∀ t b₁ id d, alloc .var b = .ok (t, b₁) →
      addNode (some place.parent) place.pinned t b₁ = .ok (id, d) → Opened place scope b₀ d id →
      Meets d missing post (k t id)) :
    Meets b missing post
      (alloc .var >>= fun t => addNode (some place.parent) place.pinned t >>= k t) := by
  refine (alloc_leaf_meets ht.orderly rfl rfl rfl).step fun t b₁ halloc ⟨h₁, hloose⟩ => ?_
  obtain ⟨hnew, hsize, -⟩ := alloc_eq_ok halloc
  refine .addNode fun id d hadd => hk t b₁ id d halloc hadd ?_
  refine h.open (IsTrans.trans _ _ _ hg (grown_var b t b₁ halloc)) (ht.trans h₁) ?_ ?_ hloose hadd
  · rw [hnew]
    exact ht.spares.size
  · rw [hnew, hsize]
    exact Nat.lt_succ_self _

/-- The children of an open node that binds nothing are lowered at a site of their own. -/
theorem Opened.site (h : Opened place scope b₀ b id) (h₀ : Site place scope b₀) :
    Site { place with parent := id } (Function.update scope id place.binders) b :=
  ⟨h.built.prepared h.vacant, h.spares.orderly, h₀.named, h.scopes⟩

/-! ## Kept trees -/

/-- Old nodes keep their kinds within a frame. -/
theorem Framed.keepsKinds (h : Framed c d) : KeepsKinds c.kind d.kind := by
  intro n hn
  refine h.kind ?_
  by_contra hle
  exact hn (kind_of_size_le (Nat.le_of_not_lt hle))

/-- They do if no node is touched. -/
theorem keepsKinds_of_nodes (h : d.nodes = c.nodes) : KeepsKinds c.kind d.kind := by
  intro n _
  rw [Builder.kind, Builder.kind, node_of_nodes h]

/-- Filling a vacant node changes no other kind. -/
theorem Filled.keepsKinds {kind : NodeKind} {type : TermId} (h : Filled id kind type c d)
    (hvacant : c.kind id = .const .any) : KeepsKinds c.kind d.kind := by
  intro n hn
  rw [Builder.kind, h.node, if_neg]
  · rfl
  · rintro rfl
    exact hn hvacant

/-! ## Complete nodes -/

/-- Setting the kind of a node fills it. -/
theorem filled_of_setKind {kind : NodeKind} {u : Unit} (hid : id < b.nodes.size)
    (hset : setKind id kind b = .ok (u, d)) : Filled id kind (b.node id).type b d := by
  rw [setKind_eq_ok.1 hset]
  refine ⟨fun n => ?_, Array.size_modify, rfl, rfl, rfl⟩
  refine (node_modify hid _ n).trans ?_
  split
  · rfl
  · rfl

/-- An open node is filled in after its children were lowered. -/
theorem Opened.close {kind : NodeKind} {type : TermId} (h : Opened place scope b₀ b id)
    (hd : Filled id kind type c d) (hself : c.node id = b.node id) (hs : Spares b c)
    (hsize : c.nodes.size = b.nodes.size + count)
    (hplanted : Planted b c ids) (hperm : kind.children.Perm ids)
    (hparent : ∀ n ∈ ids, (c.node n).parent = some id)
    (hscoped : Scoped c.node c.forest scope')
    (hkept : ∀ n, n < b.nodes.size → scope' n = Function.update scope id place.binders n)
    (hchild : ∀ n ∈ kind.children, scope' n = (kind.binder? id).toList ++ place.binders ∧
      (c.node n).pinned = kind.pins n ++ place.pinned)
    (hident : ∀ name binder position binding, kind = .ident name binder position binding →
      place.binders.findSome? (·.binding? name) = some ⟨binder, position, binding⟩ ∧
        ∀ bd ∈ place.binders, ∀ t ∈ bd.typesOf name, id ∈ c.forest.deps (c.forest.rep t))
    (htype : type < c.forest.size ∧ c.forest.Loose type) :
    Lowered place scope scope' b₀ d [id] (count + 1) := by
  have hscope : scope' id = place.binders := by
    rw [hkept id h.built.lt, Function.update_self]
  have hfilled : d.node id = { c.node id with kind := kind, type := type } := by
    rw [hd.node, if_pos rfl]
  have hpinned : (c.node id).pinned = place.pinned := by rw [hself, h.pinned]
  constructor
  · rw [hd.size, hsize, h.size]
    omega
  · exact (h.spares.trans hs).trans (hd.spares hs.orderly)
  · exact hplanted.close hperm hparent h.first h.size (hsize ▸ Nat.le_add_right _ _) hd
  · intro n hn
    rw [List.mem_singleton.1 hn, hfilled, hd.forest]
    exact htype
  · intro n hn
    rw [List.mem_singleton.1 hn, hfilled]
    exact ⟨hscope, hpinned⟩
  · refine scoped_fill hs.orderly.rooted hscoped hd ?_ ?_
    · rw [hscope, hpinned]
      exact hchild
    · rw [hscope]
      exact hident
  · intro n hn
    have hlt : n < b.nodes.size := h.size ▸ Nat.lt_succ_of_lt hn
    rw [hkept n hlt, Function.update_of_ne]
    exact h.first ▸ Nat.ne_of_lt hn

/-- A node without children is filled in. -/
theorem Opened.closeLeaf {kind : NodeKind} {u : Unit} (h : Opened place scope b₀ b id)
    (ht : Tends b c) (hleaf : kind.children = [])
    (hident : ∀ name binder position binding, kind = .ident name binder position binding →
      place.binders.findSome? (·.binding? name) = some ⟨binder, position, binding⟩ ∧
        ∀ bd ∈ place.binders, ∀ t ∈ bd.typesOf name, id ∈ c.forest.deps (c.forest.rep t))
    (hset : setKind id kind c = .ok (u, d)) :
    Lowered place scope (Function.update scope id place.binders) b₀ d [id] 1 ∧
      d.kind id = kind := by
  have hlt : id < c.nodes.size := ht.nodes ▸ h.built.lt
  have hd := filled_of_setKind hlt hset
  have hself := node_of_nodes ht.nodes id
  have htyped := h.built.good.typed id h.built.lt
  refine ⟨?_, by rw [Builder.kind, hd.node, if_pos rfl]⟩
  have hsize : c.nodes.size = b.nodes.size + 0 := by rw [ht.nodes, Nat.add_zero]
  refine h.close hd hself ht.toSpares hsize ((Planted.nil b).of_nodes ht.nodes) (by rw [hleaf])
    (fun _ hn => absurd hn List.not_mem_nil) (scoped_grows h.scopes ht.nodes ht.grows)
    (fun _ _ => rfl) ?_ hident ?_
  · rw [hleaf]
    exact fun _ hn => absurd hn List.not_mem_nil
  · rw [hself]
    exact ⟨Nat.lt_of_lt_of_le htyped ht.spares.size, ht.spares.loose _ htyped h.loose⟩

/-- A node that binds nothing is filled in after its children. -/
theorem Opened.closeInner {kind : NodeKind} {u : Unit} (h : Opened place scope b₀ b id)
    (hl : Lowered { place with parent := id } (Function.update scope id place.binders) scope' b c
      kind.children count)
    (hbuilt : BuiltAll False place.binders (some id) b c kind.children)
    (hbinder : kind.binder? id = none) (hpins : ∀ n, kind.pins n = [])
    (hident : ∀ name binder position binding, kind ≠ .ident name binder position binding)
    (hset : setKind id kind c = .ok (u, d)) :
    Lowered place scope scope' b₀ d [id] (count + 1) ∧ d.kind id = kind ∧
      KeepsKinds c.kind d.kind := by
  have hlt : id < c.nodes.size := Nat.lt_of_lt_of_le h.built.lt hbuilt.frame.size
  have hd := filled_of_setKind hlt hset
  have hself := hbuilt.frame.node id h.built.lt
  have htyped := h.built.good.typed id h.built.lt
  refine ⟨?_, by rw [Builder.kind, hd.node, if_pos rfl],
    hd.keepsKinds ((hbuilt.frame.kind h.built.lt).trans h.vacant)⟩
  refine h.close hd hself hl.spares hl.size hl.planted (List.Perm.refl _)
    (fun n hn => (hbuilt.child n hn).2.2) hl.scopes hl.kept ?_
    (fun _ _ _ _ e => absurd e (hident _ _ _ _)) ?_
  · intro n hn
    rw [hbinder, hpins]
    exact hl.around n hn
  · rw [hself]
    exact ⟨Nat.lt_of_lt_of_le htyped hl.spares.spares.size,
      hl.spares.spares.loose _ htyped h.loose⟩

end Builder

end TypeFlow
