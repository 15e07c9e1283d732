import TypeFlow.Proofs.Instantiations

/-!
# Histories of a forest

All that can be done to a forest from outside is an operation: making terms out of terms that there
are, looking classes up, registering nodes, widening inputs, comparing types, and calls of the
unifier, with or without a worklist.  Whatever the operations were that led to a forest, it is in
order, and whatever follows, merged terms stay merged and what is known of their types accumulates.

Main definitions:

- `Forest.Operation`: what is done to a forest from outside.
- `Forest.perform`, `Forest.performAll`: the forest after an operation, and after several.
- `Forest.InOrder`: what the terms of a forest are like at any moment.
- `Forest.Persists`: what stays as time goes by.

Main results:

- `Forest.perform_leads`, `Forest.performAll_leads`: every operation is made of changes.
- `Forest.histories_inOrder`: forests are in order after any operations, and merges persist.
- `Forest.histories_accrue`: what is known of a type is never taken back.
- `Forest.classes_grow`: classes may become more only because there are more terms to count.
-/

namespace TypeFlow

namespace Unifier

/-- A call of the unifier. -/
inductive Call
  | unify (a b : TermId)
  | instantiate (definition use : TermId) (pinned : List TermId)

namespace Call

/-- The terms that a call is about. -/
def terms : Call → List TermId
  | unify a b => [a, b]
  | instantiate definition use pinned => definition :: use :: pinned

/-- Makes a call, which nests less than `depth` times. -/
def run (depth : Nat) : Call → UnifyM Bool
  | unify a b => Unifier.unify depth a b
  | instantiate definition use pinned => Unifier.instantiate depth definition use pinned

/-- A unifier that begins a call. -/
def start (f : Forest) (work : Option Worklist) : Unifier := ⟨f, work, [], []⟩

/-- Calls begin in a sound state. -/
theorem sound_start {f : Forest} (hf : f.Sound) (work : Option Worklist) : (start f work).Sound :=
  ⟨hf, fun _ hp => absurd hp List.not_mem_nil⟩

/-- A call proceeds from a sound state. -/
theorem run_proceeds {call : Call} {depth : Nat} {s u : Unifier} {r : Bool} (hs : s.Sound)
    (hterms : ∀ t ∈ call.terms, t < s.forest.size) (h : call.run depth s = some (r, u)) :
    Proceeds s u := by
  cases call with
  | unify a b =>
    exact (unify_proceeds hs (hterms a List.mem_cons_self)
      (hterms b (List.mem_cons_of_mem _ List.mem_cons_self)) h).1
  | instantiate definition use pinned =>
    exact instantiate_proceeds hs (hterms definition List.mem_cons_self)
      (hterms use (List.mem_cons_of_mem _ List.mem_cons_self)) h

end Call

end Unifier

namespace Forest

open Unifier (Call)

/-! ## Operations -/

/-- What is done to a forest from outside. -/
inductive Operation
  | var
  | base (flow : Flow)
  | nilable (inner : TermId)
  | function (input : Bool) (fids : IdSet) (args : List TermId) (ret : TermId)
  | record (fields : Fields TermId none) (sites : IdSet) (isOpen : Bool)
  | error (cause : TypeError)
  | find (t : TermId)
  | child (t : TermId) (slot : Slot)
  | occurs (t : TermId) (types : List TermId)
  | alike (a b : TermId)
  | register (t : TermId) (node : NodeId)
  | widen (t : TermId)
  /-- A call of the unifier, which only probes unless it is given a worklist. -/
  | call (call : Call) (depth : Nat) (work : Option Worklist)

namespace Operation

/-- The terms that an operation is given. -/
def terms : Operation → List TermId
  | var | base _ | error _ => []
  | nilable inner => [inner]
  | function _ _ args ret => args ++ [ret]
  | record fields _ _ => fields.values
  | find t | child t _ | register t _ | widen t => [t]
  | occurs t types => t :: types
  | alike a b => [a, b]
  | call c _ _ => c.terms

/-- The forest after an operation, if that has a result. -/
def effect (f : Forest) : Operation → Option Forest
  | var => some (f.alloc .var).2
  | base flow => some (f.alloc (.base flow)).2
  | nilable inner => some (f.alloc (.nilable inner)).2
  | function input fids args ret => some (f.allocFunction input fids args ret).2
  | record fields sites isOpen => some (f.alloc (.record fields sites isOpen false)).2
  | error cause => some (f.alloc (.error cause)).2
  | find t => (Forest.find t f).map Prod.snd
  | child t slot => (Forest.child t slot f).map Prod.snd
  | occurs t types => (occursInAny t types f).map Prod.snd
  | alike a b => (Forest.alike a b f).map Prod.snd
  | register t node => some (f.addDeps t [node])
  | widen t => some (f.widenInputs t)
  | call c depth work => (c.run depth (Call.start f work)).map fun r => r.2.forest

end Operation

/-- The forest after an operation on terms that there are, if that has a result. -/
def perform (op : Operation) (f : Forest) : Option Forest :=
  if ∀ t ∈ op.terms, t < f.size then op.effect f else none

/-- An operation has an effect on terms of the forest only. -/
theorem perform_eq_some {op : Operation} {f g : Forest} : perform op f = some g ↔
    (∀ t ∈ op.terms, t < f.size) ∧ op.effect f = some g := by
  rw [perform, Option.ite_none_right_eq_some]

/-- The forest after several operations in turn. -/
def performAll : List Operation → Forest → Option Forest
  | [], f => some f
  | op :: rest, f => (perform op f).bind (performAll rest)

/-- Operations are performed one part after the other. -/
theorem performAll_append (before after : List Operation) (f : Forest) :
    performAll (before ++ after) f = (performAll before f).bind (performAll after) := by
  induction before generalizing f with
  | nil => rfl
  | cons op rest ih =>
    rw [List.cons_append, performAll, performAll, Option.bind_assoc]
    exact congrArg _ (funext ih)

variable {f g : Forest}

/-! ## Changes -/

/-- Changes in turn, whoever is told of them. -/
abbrev Becomes (f g : Forest) : Prop := Leads (fun _ => True) f g

/-- A change is a history. -/
theorem Becomes.single (h : f.Change g) : f.Becomes g :=
  Relation.ReflTransGen.single ⟨h, fun _ _ _ _ => trivial⟩

/-- So is making a term of such as are there. -/
theorem becomes_alloc {k : Kind} (hlink : k.isLink = false) (hk : ∀ x ∈ k.children, x < f.size) :
    f.Becomes (f.alloc k).2 :=
  .single (.sprouts (.single (.add hlink hk)))

/-- So is making a function of such. -/
theorem becomes_allocFunction {input : Bool} {fids : IdSet} {args : List TermId} {ret : TermId}
    (h : ∀ x ∈ args ++ [ret], x < f.size) : f.Becomes (f.allocFunction input fids args ret).2 := by
  have hwiden : ∀ (args : List TermId) (f : Forest), f.Becomes (args.foldl widenInputs f) ∧
      (args.foldl widenInputs f).size = f.size := by
    intro args
    induction args with
    | nil => exact fun f => ⟨.refl, rfl⟩
    | cons t rest ih =>
      intro f
      obtain ⟨hrest, hsize⟩ := ih (f.widenInputs t)
      exact ⟨(Becomes.single (.widen t)).trans hrest, hsize.trans (size_widenInputs f t)⟩
  unfold allocFunction
  cases input with
  | false => exact becomes_alloc rfl h
  | true =>
    obtain ⟨hwidened, hsize⟩ := hwiden args f
    refine hwidened.trans (becomes_alloc rfl fun x hx => ?_)
    rw [hsize]
    exact h x hx

/-- What only looks is made of changes. -/
theorem becomes_of_keptUp {α : Type} {m : ForestM α} (hm : Keeps KeptUp m) (hf : f.Sound)
    (h : (m f).map Prod.snd = some g) : f.Becomes g := by
  obtain ⟨⟨a, g'⟩, hrun, rfl⟩ := Option.map_eq_some_iff.1 h
  exact .of_upkeeps hf.rooted (hm f a g' hrun hf.rooted)

/-- Every operation is made of changes. -/
theorem perform_becomes {op : Operation} (hf : f.Sound) (h : perform op f = some g) :
    f.Becomes g := by
  obtain ⟨hterms, h⟩ := perform_eq_some.1 h
  cases op with
  | var | base | error | nilable | record =>
    cases h
    exact becomes_alloc rfl hterms
  | function input fids args ret =>
    cases h
    exact becomes_allocFunction hterms
  | find t => exact becomes_of_keptUp (keepsUp_find t) hf h
  | child t slot => exact becomes_of_keptUp (keepsUp_child t slot) hf h
  | occurs t types => exact becomes_of_keptUp (keepsUp_occursInAny t types) hf h
  | alike a b => exact becomes_of_keptUp (keepsUp_alike a b) hf h
  | register t node =>
    cases h
    exact .single (.register t [node])
  | widen t =>
    cases h
    exact .single (.widen t)
  | call c depth work =>
    obtain ⟨⟨r, u⟩, hrun, rfl⟩ := Option.map_eq_some_iff.1 h
    have hp := Call.run_proceeds (Call.sound_start hf work) hterms hrun
    exact hp.leads.mono fun _ _ => trivial

/-- So are several operations in turn. -/
theorem performAll_becomes {ops : List Operation} (hf : f.Sound) (h : performAll ops f = some g) :
    f.Becomes g := by
  induction ops generalizing f with
  | nil =>
    cases h
    exact .refl
  | cons op rest ih =>
    obtain ⟨f₁, hop, hrest⟩ := Option.bind_eq_some_iff.1 h
    have hfirst := perform_becomes hf hop
    exact hfirst.trans (ih (hfirst.sound hf) hrest)

/-- What operations make of nothing is sound. -/
theorem performAll_sound {ops : List Operation} (h : performAll ops empty = some f) : f.Sound :=
  (performAll_becomes sound_empty h).sound sound_empty

/-! ## Order -/

/-- The terms of a forest are in order. -/
structure InOrder (f : Forest) : Prop where
  /-- Children, and what links lead to, are terms. -/
  children : ∀ t, ∀ x ∈ (f.kind t).children, x < f.size
  /-- The links from a term end at a term that is none. -/
  ends : ∀ t, t < f.size → f.rep t < f.size ∧ (f.kind (f.rep t)).isLink = false
  /-- Every term is a class of its own or was merged into another once. -/
  counted : f.unions + f.classes f.size = f.size
  /-- A look-up has a result unless wrappers are nested in a circle. -/
  returns : ∀ t, (Forest.find t f).isSome ↔ f.Ends t
  /-- A look-up answers where the links from the term end. -/
  answers : ∀ t r g, Forest.find t f = some (r, g) → r = f.rep t

/-- What stays as time goes by. -/
structure Persists (f g : Forest) : Prop where
  /-- A link never becomes a class again. -/
  link : ∀ t, (f.kind t).isLink = true → (g.kind t).isLink = true
  /-- Terms of one class are never separated. -/
  rep : ∀ t u, f.rep t = f.rep u → g.rep t = g.rep u
  /-- The classes among the terms that there are do not become more. -/
  classes : ∀ upto, upto ≤ f.size → g.classes upto ≤ f.classes upto

private theorem Sound.inOrder (hf : f.Sound) : f.InOrder where
  children := hf.inRange
  ends _ ht := ⟨rep_lt_size hf.rooted ht, not_isLink_rep hf.rooted _⟩
  counted := hf.counted
  returns t := find_isSome_iff hf.rooted t
  answers _ _ _ h := (find_upkeeps hf.rooted h).1

private theorem Evolves.persists (h : Evolves f g) : f.Persists g :=
  ⟨h.link, h.grows.rep, fun _ hupto => h.classes_le hupto⟩

/-- After any operations that have a result a forest is in order, and whatever operations follow,
merged terms stay merged. -/
theorem histories_inOrder {before after : List Operation}
    (hf : performAll before empty = some f) (hg : performAll after f = some g) :
    f.InOrder ∧ f.Persists g :=
  have hsound := performAll_sound hf
  ⟨hsound.inOrder, ((performAll_becomes hsound hg).evolves hsound).persists⟩

/-- A nilable wrapper is unified with a function that takes what it wraps, which makes the type
cyclic, and then with the result of the function: of the four terms at first one class is left. -/
theorem histories_inOrder_cycle : ∃ f g,
    performAll [.var, .var, .function false .empty [0] 1, .nilable 0] empty = some f ∧
      performAll [.call (.unify 3 2) 5 (some .empty), .find 0,
        .call (.unify 1 2) 5 (some .empty)] f = some g ∧
      (f.classes 4 = 4 ∧ g.classes 4 = 1 ∧ g.unions = 3) ∧ f.InOrder ∧ f.Persists g := by
  have hrun : ((performAll [.var, .var, .function false .empty [0] 1, .nilable 0] empty).bind
      fun f => (performAll [.call (.unify 3 2) 5 (some .empty), .find 0,
        .call (.unify 1 2) 5 (some .empty)] f).map
          fun g => (f.classes 4, g.classes 4, g.unions)) = some (4, 1, 3) := by
    decide +kernel
  obtain ⟨f, hf, hrun⟩ := Option.bind_eq_some_iff.1 hrun
  obtain ⟨g, hg, hcount⟩ := Option.map_eq_some_iff.1 hrun
  simp only [Prod.mk.injEq] at hcount
  exact ⟨f, g, hf, hg, hcount, histories_inOrder hf hg⟩

/-- More terms than there are may be asked for, and then a new term counts as one more class. -/
theorem classes_grow : ¬∀ (before after : List Operation) (f g : Forest) (upto : Nat),
    performAll before empty = some f → performAll after f = some g →
      g.classes upto ≤ f.classes upto := by
  intro h
  have hgrown := h [] [.var] empty (empty.alloc .var).2 1 rfl rfl
  revert hgrown
  decide

/-! ## Types -/

/-- An operation takes nothing back that is known of a type. -/
theorem perform_accrues {op : Operation} (hf : f.Sound) (h : perform op f = some g) :
    f.Accrues g :=
  (perform_becomes hf h).accrues hf

private theorem performAll_accrues {ops : List Operation} (hf : f.Sound) (h : performAll ops f = some g) :
    f.Accrues g := by
  induction ops generalizing f with
  | nil =>
    cases h
    exact .refl hf.rooted
  | cons op rest ih =>
    obtain ⟨f₁, hop, hrest⟩ := Option.bind_eq_some_iff.1 h
    have hsound := (perform_becomes hf hop).sound hf
    exact (perform_accrues hf hop).trans (ih hsound hrest)

/-- Whatever operations led to a forest, one more or several leave every term with a type of which at
least as much is known as before, and only what was a variable can be one. -/
theorem histories_accrue {before after : List Operation} (hf : performAll before empty = some f)
    (hg : performAll after f = some g) (t : TermId) :
    (f.kind (f.rep t)).Accrues (g.kind (g.rep t)) ∧
      (g.kind (g.rep t) = .var → f.kind (f.rep t) = .var) :=
  have haccrues := performAll_accrues (performAll_sound hf) hg t
  ⟨haccrues, haccrues.eq_var⟩

/-- A nilable wrapper that is unified with a text becomes a text that may be nil. -/
theorem histories_accrue_nilable : ∃ f g,
    performAll [.var, .nilable 0, .base (.text none false)] empty = some f ∧
      performAll [.call (.unify 1 2) 5 (some .empty)] f = some g ∧
      (f.kind (f.rep 1) = .nilable 0 ∧ g.kind (g.rep 1) = .base (.text none true)) ∧
      (f.kind (f.rep 1)).Accrues (g.kind (g.rep 1)) ∧
      (g.kind (g.rep 1) = .var → f.kind (f.rep 1) = .var) := by
  have hrun : ((performAll [.var, .nilable 0, .base (.text none false)] empty).bind fun f =>
      (performAll [.call (.unify 1 2) 5 (some .empty)] f).map fun g =>
        decide (f.kind (f.rep 1) = .nilable 0 ∧ g.kind (g.rep 1) = .base (.text none true))) =
          some true := by
    decide +kernel
  obtain ⟨f, hf, hrun⟩ := Option.bind_eq_some_iff.1 hrun
  obtain ⟨g, hg, hkinds⟩ := Option.map_eq_some_iff.1 hrun
  exact ⟨f, g, hf, hg, of_decide_eq_true hkinds, histories_accrue hf hg 1⟩

end Forest

end TypeFlow
