import TypeFlow.Proofs.Construction
import TypeFlow.Proofs.VariableUnification

/-!
# Types under construction

Between two nodes, the preparation of a program only adds terms to the forest, looks classes up and
registers nodes.  None of this touches the tree, and the types stay plain.

Main definitions:

- `Builder.Grown`: only the forest changed, and it was extended.

Main results:

- `Builder.grown_primitiveType`: the type of a primitive only extends the forest.
- `Builder.register_eq_ok`: registering a node with several terms.
-/

namespace TypeFlow

namespace Forest

/-- The child of a class in a slot, looked up. -/
theorem child_extends {t : TermId} {slot : Slot} {f g : Forest} {r : Option TermId}
    (hrooted : f.Rooted) (h : child t slot f = some (r, g)) :
    Extends f g ∧ ∀ N, f.Plain N → g.Plain N := by
  obtain ⟨f₀, f₁, hget, h₁⟩ := bind_eq_some.1 h
  obtain ⟨rfl, rfl⟩ := get_eq_some.1 hget
  cases hchild : (f.kind t).child? slot with
  | none =>
    simp only [hchild] at h₁
    obtain ⟨-, rfl⟩ := pure_eq_some.1 h₁
    exact ⟨Extends.refl hrooted, fun _ => id⟩
  | some raw =>
    simp only [hchild] at h₁
    obtain ⟨found, f₂, hfind, h₂⟩ := bind_eq_some.1 h₁
    obtain ⟨hc, ht, -⟩ := find_tidied hrooted hfind
    have hext := Extends.of_sameClasses hc
    have hplain : ∀ N, f.Plain N → f₂.Plain N :=
      fun N hf => hf.of_tidied hrooted fun _ => ⟨hc, ht⟩
    split at h₂
    · obtain ⟨u, f₃, hset, h₃⟩ := bind_eq_some.1 h₂
      obtain ⟨-, rfl⟩ := pure_eq_some.1 h₃
      rw [← modify_eq_some.1 hset]
      exact ⟨hext.trans (setChild_extends hc.rooted _ _ _),
        fun N hf => setChild_plain (hplain N hf) _ _ _⟩
    · obtain ⟨-, rfl⟩ := pure_eq_some.1 h₂
      exact ⟨hext, hplain⟩

/-- Registering nodes extends a forest. -/
theorem addDeps_extends {f : Forest} (h : f.Rooted) (t : TermId) (nodes : List NodeId) :
    Extends f (f.addDeps t nodes) :=
  .of_sameClasses (addDeps_tidied f t nodes h).1

private theorem addDeps_plain {N : Prop} {f : Forest} (h : f.Plain N) (t : TermId) (nodes : List NodeId) :
    (f.addDeps t nodes).Plain N := by
  intro u
  rw [kind_addDeps]
  exact h u

end Forest

namespace Builder

variable {N : Prop} {α : Type}

/-- Only the forest changed.  It was extended, and its types stayed plain. -/
structure Grown (N : Prop) (b d : Builder) : Prop where
  nodes : d.nodes = b.nodes
  functions : d.functions = b.functions
  work : d.work = b.work
  extend : b.forest.Rooted → Forest.Extends b.forest d.forest
  plain : b.forest.Rooted → b.forest.Plain N → d.forest.Plain N

instance : IsPreorder Builder (Grown N) where
  refl _ := ⟨rfl, rfl, rfl, Forest.Extends.refl, fun _ h => h⟩
  trans _ _ _ hbc hcd :=
    ⟨hcd.nodes.trans hbc.nodes, hcd.functions.trans hbc.functions, hcd.work.trans hbc.work,
      fun h => (hbc.extend h).trans (hcd.extend (hbc.extend h).rooted),
      fun h hp => hcd.plain (hbc.extend h).rooted (hbc.plain h hp)⟩

/-! ## New terms -/

/-- Making a plain type grows what is built. -/
theorem grown_alloc {kind : Kind} (hlink : kind.isLink = false) (hplain : kind.Plain N) :
    Keeps (Grown N) (alloc kind) := by
  intro b t d h
  obtain ⟨-, rfl⟩ := grow_eq_ok.1 h
  exact ⟨rfl, rfl, rfl, fun hrooted => Forest.alloc_extends hrooted hlink,
    fun _ hp => Forest.alloc_plain hp hplain⟩

/-- So does making a base type. -/
theorem grown_base {flow : Flow} (h : flow.Plain N) : Keeps (Grown N) (alloc (.base flow)) :=
  grown_alloc rfl h

/-- So does making a variable. -/
theorem grown_var : Keeps (Grown N) (alloc .var) := grown_alloc rfl trivial

/-- A new type comes last. -/
theorem alloc_eq_ok {kind : Kind} {b d : Builder} {t : TermId} (h : alloc kind b = .ok (t, d)) :
    t = b.forest.size ∧ d.forest.size = b.forest.size + 1 ∧ d.forest.kind t = kind := by
  obtain ⟨rfl, rfl⟩ := grow_eq_ok.1 h
  refine ⟨rfl, Forest.size_alloc _ _, ?_⟩
  rw [Forest.kind_alloc, if_pos (Forest.alloc_fst _ _)]

/-- Making several variables grows what is built. -/
theorem grown_allocVars (n : Nat) : Keeps (Grown N) (allocVars n) := by
  induction n with
  | zero => exact keeps_pure _
  | succ n ih =>
    refine keeps_bind grown_var fun t => ?_
    exact keeps_bind ih fun ts => keeps_pure _

/-- Fresh type variables are variables. -/
theorem kind_allocVars {n : Nat} {b d : Builder} {ts : List TermId}
    (hrooted : b.forest.Rooted) (h : allocVars n b = .ok (ts, d)) :
    ∀ t ∈ ts, t < d.forest.size ∧ d.forest.kind t = .var := by
  induction n generalizing b ts with
  | zero =>
    obtain ⟨rfl, -⟩ := pure_eq_ok.1 h
    exact fun t ht => absurd ht List.not_mem_nil
  | succ n ih =>
    obtain ⟨t, b₁, hfirst, h₁⟩ := bind_eq_ok.1 h
    obtain ⟨rest, b₂, hrest, h₂⟩ := bind_eq_ok.1 h₁
    obtain ⟨rfl, rfl⟩ := pure_eq_ok.1 h₂
    have hrooted₁ := ((grown_var (N := False) b t b₁ hfirst).extend hrooted).rooted
    obtain ⟨ht, hsize, hvar⟩ := alloc_eq_ok hfirst
    have hlt : t < b₁.forest.size := by
      rw [ht, hsize]
      exact Nat.lt_succ_self _
    have hext := (grown_allocVars (N := False) n b₁ rest b₂ hrest).extend hrooted₁
    intro x hx
    rcases List.mem_cons.1 hx with rfl | hx
    · exact ⟨Nat.lt_of_lt_of_le hlt hext.size, hext.var _ hlt hvar⟩
    · exact ih hrooted₁ hrest x hx

/-- So does making a function. -/
theorem grown_allocFunction (input : Bool) (fids : IdSet) (args : List TermId) (ret : TermId) :
    Keeps (Grown N) (grow (·.allocFunction input fids args ret)) := by
  intro b t d h
  obtain ⟨-, rfl⟩ := grow_eq_ok.1 h
  exact ⟨rfl, rfl, rfl, fun hrooted => (Forest.allocFunction_extends hrooted _ _ _ _).1,
    fun hrooted => (Forest.allocFunction_extends hrooted _ _ _ _).2.2.2 N⟩

/-- A new function type is the newest term. -/
theorem allocFunction_eq_ok {input : Bool} {fids : IdSet} {args : List TermId} {ret t : TermId}
    {b d : Builder} (hrooted : b.forest.Rooted)
    (h : grow (·.allocFunction input fids args ret) b = .ok (t, d)) :
    t = b.forest.size ∧ t < d.forest.size := by
  obtain ⟨rfl, rfl⟩ := grow_eq_ok.1 h
  obtain ⟨-, hnew, hsize, -⟩ := Forest.allocFunction_extends hrooted input fids args ret
  refine ⟨hnew, ?_⟩
  dsimp only
  rw [hnew, hsize]
  exact Nat.lt_succ_self _

/-! ## Primitives -/

private theorem grown_primitiveParts (primitive : Primitive) :
    Keeps (Grown N) (primitiveParts primitive) := by
  have htuple : ∀ site parts, Keeps (Grown N) (alloc (tupleKind site parts)) :=
    fun site parts => grown_alloc rfl fun _ => rfl
  have hunary : ∀ {a b : Flow}, a.Plain N → b.Plain N →
      Keeps (Grown N) (primitiveParts.unary a b) := by
    intro a b ha hb
    refine keeps_bind (grown_base ha) fun t => ?_
    exact keeps_bind (grown_base hb) fun r => keeps_pure _
  cases primitive with
  | cond =>
    refine keeps_bind (grown_allocVars 3) fun args => ?_
    exact keeps_bind grown_var fun r => keeps_pure _
  | pair =>
    refine keeps_bind (grown_allocVars 2) fun args => ?_
    exact keeps_bind (htuple _ _) fun r => keeps_pure _
  | triple =>
    refine keeps_bind (grown_allocVars 3) fun args => ?_
    exact keeps_bind (htuple _ _) fun r => keeps_pure _
  | eq =>
    refine keeps_bind grown_var fun t => ?_
    exact keeps_bind (grown_base (.int _)) fun r => keeps_pure _
  | notNil =>
    refine keeps_bind grown_var fun t => ?_
    exact keeps_bind grown_var fun r => keeps_pure _
  | mul =>
    refine keeps_bind (grown_base (.int _)) fun t => keeps_bind (grown_base (.int _)) fun u => ?_
    exact keeps_bind (grown_base (.int _)) fun r => keeps_pure _
  | add =>
    refine keeps_bind (grown_base (.int _)) fun t => keeps_bind (grown_base (.int _)) fun u => ?_
    exact keeps_bind (grown_base (.int _)) fun r => keeps_pure _
  | eqZero => exact hunary (.int _) (.int _)
  | isEmpty => exact hunary (.text _) (.int _)
  | dec => exact hunary (.int _) (.int _)
  | str => exact hunary (.int _) (.text _)
  | factor => exact hunary (.float _) (.float _)

/-- So does making the type of a primitive. -/
theorem grown_primitiveType (primitive : Primitive) (fid : FunctionId) :
    Keeps (Grown N) (primitiveType primitive fid) := by
  refine keeps_bind (grown_primitiveParts primitive) fun r => ?_
  exact keeps_bind (grown_allocFunction _ _ _ _) fun t => keeps_pure _

/-- The type of a primitive is the newest term. -/
theorem primitiveType_eq_ok {primitive : Primitive} {fid : FunctionId} {b d : Builder}
    {type : TermId} {formals : List TermId} (hrooted : b.forest.Rooted)
    (h : primitiveType primitive fid b = .ok ((type, formals), d)) :
    b.forest.size ≤ type ∧ type < d.forest.size := by
  obtain ⟨⟨args, ret⟩, b₁, hparts, h₁⟩ := bind_eq_ok.1 h
  obtain ⟨t, b₂, hgrow, h₂⟩ := bind_eq_ok.1 h₁
  obtain ⟨hr, rfl⟩ := pure_eq_ok.1 h₂
  rw [Prod.mk.injEq] at hr
  obtain ⟨rfl, rfl⟩ := hr
  have hext := (grown_primitiveParts (N := False) primitive b _ b₁ hparts).extend hrooted
  obtain ⟨hnew, hlt⟩ := allocFunction_eq_ok hext.rooted hgrow
  exact ⟨hnew ▸ hext.size, hlt⟩

/-! ## Looking up and registering -/

/-- So does looking up the type of a node. -/
theorem grown_find (id : NodeId) : Keeps (Grown N) (find id) := by
  intro b t d h
  obtain ⟨forest, hfind, rfl⟩ := find_eq_ok.1 h
  refine ⟨rfl, rfl, rfl, fun hrooted => ?_, fun hrooted hplain => ?_⟩
  · exact .of_sameClasses (Forest.find_tidied hrooted hfind).1
  · obtain ⟨hc, ht, -⟩ := Forest.find_tidied hrooted hfind
    exact hplain.of_tidied hrooted fun _ => ⟨hc, ht⟩

/-- The type of a node that is looked up is its class. -/
theorem find_eq_rep {id : NodeId} {b d : Builder} {t : TermId} (hrooted : b.forest.Rooted)
    (h : find id b = .ok (t, d)) : t = b.forest.rep (b.node id).type := by
  obtain ⟨forest, hfind, rfl⟩ := find_eq_ok.1 h
  exact (Forest.find_tidied hrooted hfind).2.2

/-- Looking up a child grows what is built. -/
theorem grown_child (t : TermId) (slot : Slot) :
    Keeps (Grown N) (onForest (Forest.child t slot)) := by
  intro b r d h
  obtain ⟨forest, hchild, rfl⟩ := onForest_eq_ok.1 h
  exact ⟨rfl, rfl, rfl, fun hrooted => (Forest.child_extends hrooted hchild).1,
    fun hrooted => (Forest.child_extends hrooted hchild).2 N⟩

/-- So does setting one. -/
theorem grown_setChild (t : TermId) (slot : Slot) (child : TermId) :
    Keeps (Grown N) (change (·.setChild t slot child)) := by
  intro b u d h
  rw [change_eq_ok.1 h]
  exact ⟨rfl, rfl, rfl, fun hrooted => Forest.setChild_extends hrooted _ _ _,
    fun _ hplain => Forest.setChild_plain hplain _ _ _⟩

/-- So does registering nodes with a type. -/
theorem grown_addDeps (t : TermId) (nodes : List NodeId) :
    Keeps (Grown N) (change (·.addDeps t nodes)) := by
  intro b u d h
  rw [change_eq_ok.1 h]
  exact ⟨rfl, rfl, rfl, fun hrooted => Forest.addDeps_extends hrooted _ _,
    fun _ hplain => Forest.addDeps_plain hplain _ _⟩

/-- So do such steps for each of a list. -/
theorem grown_forM {β : Type} {step : β → BuildM Unit} (h : ∀ x, Keeps (Grown N) (step x))
    (xs : List β) : Keeps (Grown N) (xs.forM step) := by
  induction xs with
  | nil => exact keeps_pure _
  | cons x rest ih => exact keeps_bind (h x) fun _ => ih

/-- So does registering a node with several types. -/
theorem grown_register (id : NodeId) (types : List TermId) :
    Keeps (Grown N) (register id types) :=
  grown_forM (fun t => grown_addDeps t [id]) types

end Builder

end TypeFlow
