import Mathlib.Data.List.Nodup
import TypeFlow.Proofs.NewNodes
import TypeFlow.Proofs.SpelledForms

/-!
# Trees that mirror expressions

The nodes of a prepared program are those of its expression: each node is what the expression at its
place says, and every node but the first hangs below an earlier one that names it once.

Main definitions:

- `Expr.Mirrors`: the tree below a node is that of the expression.
- `Builder.Planted`: all new nodes hang below some of them.

Main results:

- `Expr.Mirrors.mono`: a tree stays as long as its nodes do.
- `Builder.Planted.append`, `Builder.Planted.close`: the steps of the construction.
-/

namespace TypeFlow

/-! ## Mirrors -/

mutual

/-- The tree below a node is that of the expression. -/
def Expr.Mirrors (kind : NodeId → NodeKind) : Expr → NodeId → Prop
  | .nil, n => kind n = .const .nil
  | .int c, n => kind n = .const (.int (.const c))
  | .float x, n => kind n = .const (.float (.const x))
  | .text s, n => kind n = .const (.text (some s) false)
  | .prim primitive, n => ∃ fid formals, kind n = .prim primitive fid formals
  | .ident name, n => ∃ binder position binding, kind n = .ident name binder position binding
  | .lambda params body widen, n => ∃ c fid formals, kind n = .lambda params c fid formals widen ∧
      formals.length = params.length ∧ body.Mirrors kind c
  | .letIn name definition body, n => ∃ c c' binding, kind n = .letIn name c c' binding ∧
      definition.Mirrors kind c ∧ body.Mirrors kind c'
  | .apply fn args, n => ∃ c cs, kind n = .apply c cs ∧ fn.Mirrors kind c ∧
      Expr.MirrorArgs kind args cs
  | .record fields, n => ∃ site cs, kind n = .record site (fields.map Prod.fst) cs ∧
      Expr.MirrorFields kind fields cs
  | .field source label, n => ∃ c, kind n = .field label c ∧ source.Mirrors kind c
  termination_by structural e => e

/-- The trees below several nodes are those of the expressions in turn. -/
def Expr.MirrorArgs (kind : NodeId → NodeKind) : List Expr → List NodeId → Prop
  | [], ns => ns = []
  | e :: rest, ns => ∃ n others, ns = n :: others ∧ e.Mirrors kind n ∧
      Expr.MirrorArgs kind rest others
  termination_by structural es => es

/-- The trees below several nodes are those of the fields in turn. -/
def Expr.MirrorFields (kind : NodeId → NodeKind) : List (String × Expr) → List NodeId → Prop
  | [], ns => ns = []
  | e :: rest, ns => ∃ n others, ns = n :: others ∧ Expr.MirrorField kind e n ∧
      Expr.MirrorFields kind rest others
  termination_by structural es => es

/-- The tree below a node is that of the field. -/
def Expr.MirrorField (kind : NodeId → NodeKind) : String × Expr → NodeId → Prop
  | (_, e), n => e.Mirrors kind n
  termination_by structural e => e

end

section Mono

variable {kind kind' : NodeId → NodeKind}

/-- Complete nodes stay what they are. -/
def KeepsKinds (kind kind' : NodeId → NodeKind) : Prop :=
  ∀ n, kind n ≠ .const .any → kind' n = kind n

/-- What has become of a node stays. -/
theorem KeepsKinds.kept (hkeep : KeepsKinds kind kind') {n : NodeId} {k : NodeKind} (h : kind n = k)
    (hk : k ≠ .const .any) : kind' n = k := by
  rw [hkeep n (h ▸ hk), h]

mutual

/-- A tree stays what it is as long as complete nodes do. -/
theorem Expr.Mirrors.mono (hkeep : KeepsKinds kind kind') :
    ∀ (e : Expr) {n : NodeId}, e.Mirrors kind n → e.Mirrors kind' n
  | .nil, _, h => hkeep.kept h fun e => by cases e
  | .int _, _, h => hkeep.kept h fun e => by cases e
  | .float _, _, h => hkeep.kept h fun e => by cases e
  | .text _, _, h => hkeep.kept h fun e => by cases e
  | .prim _, _, ⟨fid, formals, h⟩ => ⟨fid, formals, hkeep.kept h (by simp)⟩
  | .ident _, _, ⟨binder, position, binding, h⟩ =>
    ⟨binder, position, binding, hkeep.kept h (by simp)⟩
  | .lambda _ body _, _, ⟨c, fid, formals, h, hlength, hbody⟩ =>
    ⟨c, fid, formals, hkeep.kept h (by simp), hlength, Expr.Mirrors.mono hkeep body hbody⟩
  | .letIn _ definition body, _, ⟨c, c', binding, h, hdefinition, hbody⟩ =>
    ⟨c, c', binding, hkeep.kept h (by simp), Expr.Mirrors.mono hkeep definition hdefinition,
      Expr.Mirrors.mono hkeep body hbody⟩
  | .apply fn args, _, ⟨c, cs, h, hfn, hargs⟩ =>
    ⟨c, cs, hkeep.kept h (by simp), Expr.Mirrors.mono hkeep fn hfn,
      Expr.MirrorArgs.mono hkeep args hargs⟩
  | .record fields, _, ⟨site, cs, h, hfields⟩ =>
    ⟨site, cs, hkeep.kept h (by simp), Expr.MirrorFields.mono hkeep fields hfields⟩
  | .field source _, _, ⟨c, h, hsource⟩ =>
    ⟨c, hkeep.kept h (by simp), Expr.Mirrors.mono hkeep source hsource⟩
  termination_by structural e => e

/-- Nodes that mirror expressions do so later. -/
theorem Expr.MirrorArgs.mono (hkeep : KeepsKinds kind kind') :
    ∀ (es : List Expr) {ns : List NodeId},
    Expr.MirrorArgs kind es ns → Expr.MirrorArgs kind' es ns
  | [], _, h => h
  | e :: rest, _, ⟨n, others, hns, he, hrest⟩ =>
    ⟨n, others, hns, Expr.Mirrors.mono hkeep e he, Expr.MirrorArgs.mono hkeep rest hrest⟩
  termination_by structural es => es

/-- So do those that mirror fields. -/
theorem Expr.MirrorFields.mono (hkeep : KeepsKinds kind kind') :
    ∀ (es : List (String × Expr)) {ns : List NodeId},
    Expr.MirrorFields kind es ns → Expr.MirrorFields kind' es ns
  | [], _, h => h
  | e :: rest, _, ⟨n, others, hns, he, hrest⟩ =>
    ⟨n, others, hns, Expr.MirrorField.mono hkeep e he, Expr.MirrorFields.mono hkeep rest hrest⟩
  termination_by structural es => es

/-- So does one that mirrors a field. -/
theorem Expr.MirrorField.mono (hkeep : KeepsKinds kind kind') :
    ∀ (e : String × Expr) {n : NodeId},
    Expr.MirrorField kind e n → Expr.MirrorField kind' e n
  | (_, e), _, h => Expr.Mirrors.mono hkeep e h
  termination_by structural e => e

end

end Mono

/-! ## Planting -/

namespace Builder

variable {b b₀ c d : Builder} {ids ids' : List NodeId} {id : NodeId}

/-- The node hangs below an earlier one, not before the first, that names it once. -/
def Hangs (b : Builder) (first n : NodeId) : Prop :=
  ∃ m, first ≤ m ∧ m < n ∧ (b.node n).parent = some m ∧ (b.kind m).children.count n = 1

/-- Of the new nodes all but these hang below some of them. -/
structure Planted (b d : Builder) (ids : List NodeId) : Prop where
  nodup : ids.Nodup
  new : ∀ id ∈ ids, b.nodes.size ≤ id ∧ id < d.nodes.size
  hangs : ∀ n, b.nodes.size ≤ n → n < d.nodes.size → n ∈ ids ∨ d.Hangs b.nodes.size n

/-- A node that hangs in the tree does so later. -/
theorem Hangs.mono {first first' n : NodeId} (h : b.Hangs first n) (hle : first' ≤ first)
    (hnode : ∀ m, first ≤ m → m ≤ n → d.node m = b.node m) : d.Hangs first' n := by
  obtain ⟨m, hm, hlt, hparent, hcount⟩ := h
  refine ⟨m, hle.trans hm, hlt, ?_, ?_⟩
  · rwa [hnode n (hm.trans hlt.le) le_rfl]
  · rwa [kind, hnode m hm hlt.le]

/-- No nodes are planted at first. -/
theorem Planted.nil (b : Builder) : Planted b b [] :=
  ⟨List.nodup_nil, fun _ h => absurd h List.not_mem_nil,
    fun _ hle hlt => absurd hlt (Nat.not_lt.2 hle)⟩

/-- Nodes are planted one after the other. -/
theorem Planted.append (h : Planted b c ids) (h' : Planted c d ids')
    (hbc : b.nodes.size ≤ c.nodes.size) (hframe : Framed c d) : Planted b d (ids ++ ids') where
  nodup := by
    refine List.Nodup.append h.nodup h'.nodup fun n hn hn' => ?_
    exact absurd (h.new n hn).2 (Nat.not_lt.2 (h'.new n hn').1)
  new n hn := by
    rcases List.mem_append.1 hn with hn | hn
    · exact ⟨(h.new n hn).1, Nat.lt_of_lt_of_le (h.new n hn).2 hframe.size⟩
    · exact ⟨hbc.trans (h'.new n hn).1, (h'.new n hn).2⟩
  hangs n hle hlt := by
    rw [List.mem_append, or_assoc]
    by_cases hn : n < c.nodes.size
    · refine (h.hangs n hle hn).imp_right fun hhangs => Or.inr ?_
      exact hhangs.mono le_rfl fun m _ hm => hframe.node m (Nat.lt_of_le_of_lt hm hn)
    · refine Or.inr ((h'.hangs n (Nat.le_of_not_lt hn) hlt).imp_right fun hhangs => ?_)
      exact hhangs.mono hbc fun _ _ _ => rfl

/-- Nodes are planted whatever becomes of types. -/
theorem Planted.of_nodes (h : Planted b c ids) (hnodes : d.nodes = c.nodes) : Planted b d ids where
  nodup := h.nodup
  new := hnodes ▸ h.new
  hangs n hle hlt := (h.hangs n hle (hnodes ▸ hlt)).imp_right fun hhangs =>
    hhangs.mono le_rfl fun m _ _ => by rw [node, node, hnodes]

/-- The node that is filled in names the nodes that did not hang below others yet. -/
theorem Planted.close {kind : NodeKind} {type : TermId} (h : Planted b c ids)
    (hperm : kind.children.Perm ids) (hparent : ∀ n ∈ ids, (c.node n).parent = some id)
    (hfirst : id = b₀.nodes.size) (hsize : b.nodes.size = b₀.nodes.size + 1)
    (hbc : b.nodes.size ≤ c.nodes.size) (hd : Filled id kind type c d) : Planted b₀ d [id] where
  nodup := List.nodup_singleton id
  new n hn := by
    rw [List.mem_singleton.1 hn, hd.size, hfirst]
    exact ⟨le_rfl, Nat.lt_of_lt_of_le (Nat.lt_of_lt_of_eq (Nat.lt_succ_self _) hsize.symm) hbc⟩
  hangs n hle hlt := by
    rw [List.mem_singleton]
    by_cases hn : n = id
    · exact Or.inl hn
    have hgt : id < n := Nat.lt_of_le_of_ne (hfirst ▸ hle) (Ne.symm hn)
    have hsize : b.nodes.size = id + 1 := by rw [hsize, hfirst]
    refine Or.inr ?_
    rcases h.hangs n (hsize ▸ hgt) (hd.size ▸ hlt) with hmem | hhangs
    · refine ⟨id, hfirst.ge, hgt, ?_, ?_⟩
      · rw [hd.node, if_neg hn]
        exact hparent n hmem
      · rw [Builder.kind, hd.node, if_pos rfl]
        dsimp only
        rw [hperm.count_eq, List.count_eq_one_of_mem h.nodup hmem]
    · refine hhangs.mono ?_ fun m hm _ => ?_
      · rw [hsize, hfirst]
        exact Nat.le_succ _
      · have hgt : id < m := Nat.lt_of_succ_le (hsize.ge.trans hm)
        rw [hd.node, if_neg (Nat.ne_of_gt hgt)]

end Builder

end TypeFlow
