import TypeFlow.Program.Typing
import TypeFlow.Proofs.ForestHistories
import TypeFlow.Proofs.Probes

/-!
# Type steps keep the forest sound

A type step looks classes up, adds terms, unifies and instantiates.  If the terms of the program are
terms of a sound forest, the forest stays sound and merged terms stay merged.

Main definitions:

- `Unifier.Continues`: the forest is still sound, and classes were merged at most.
- `Unifier.Safe`: a computation continues, and its answer has a property.
- `Node.TermsIn`, `Program.TermsIn`: the terms of a node, or of a program, are among the first so
  many.

Main results:

- `Program.typeStep_safe`: every type step continues.
-/

namespace TypeFlow

open Forest (IsClass Steady Evolves)

namespace Forest

/-- Looking several classes up answers them and tidies up. -/
theorem findAll_upkeeps {f g : Forest} {ts rs : List TermId} (hf : f.Rooted)
    (h : findAll ts f = some (rs, g)) : rs = ts.map f.rep ∧ f.Upkeeps g := by
  induction ts generalizing f rs with
  | nil =>
    obtain ⟨rfl, rfl⟩ := pure_eq_some.1 h
    exact ⟨rfl, .refl⟩
  | cons t rest ih =>
    obtain ⟨r, f₁, hfind, h⟩ := bind_eq_some.1 h
    obtain ⟨rs', f₂, hrest, h⟩ := bind_eq_some.1 h
    obtain ⟨rfl, rfl⟩ := pure_eq_some.1 h
    obtain ⟨rfl, hup⟩ := find_upkeeps hf hfind
    have hsteady := hup.steady hf
    obtain ⟨rfl, hup'⟩ := ih hsteady.rooted hrest
    refine ⟨?_, hup.trans hup'⟩
    rw [List.map_cons]
    congr 1
    exact List.map_congr_left fun x _ => hsteady.rep x

/-- So it keeps the forest up. -/
theorem keepsUp_findAll (ts : List TermId) : Keeps KeptUp (findAll ts) :=
  fun _ _ _ h hf => (findAll_upkeeps hf h).2

end Forest

namespace Unifier

variable {α β : Type} {s t u : Unifier}

/-! ## Continuing -/

/-- The forest is sound, and classes were merged at most. -/
structure Continues (s u : Unifier) : Prop where
  sound : u.Sound
  probe : u.work.isNone = s.work.isNone
  evolves : Evolves s.forest u.forest

namespace Continues

private theorem refl (hs : s.Sound) : Continues s s := ⟨hs, rfl, .refl hs.forest.rooted⟩

/-- States continue in turn. -/
theorem trans (h : Continues s t) (h' : Continues t u) : Continues s u :=
  ⟨h'.sound, h'.probe.trans h.probe, h.evolves.trans h'.evolves⟩

private theorem of_proceeds (hs : s.Sound) (h : Proceeds s u) : Continues s u :=
  ⟨h.sound, h.probe, h.evolves hs⟩

/-- A forest that continues is no smaller. -/
theorem size (h : Continues s u) : s.forest.size ≤ u.forest.size := h.evolves.grows.size

/-- Terms stay terms. -/
theorem lt (h : Continues s u) {x : TermId} (hx : x < s.forest.size) : x < u.forest.size :=
  Nat.lt_of_lt_of_le hx h.size

/-- One change of the forest. -/
theorem change {f : Forest} (hs : s.Sound) (h : s.forest.Becomes f) :
    Continues s { s with forest := f } where
  sound := by
    refine ⟨h.sound hs.forest, fun p hp => ?_⟩
    exact Nat.lt_of_lt_of_le (hs.image p hp) (h.evolves hs.forest).grows.size
  probe := rfl
  evolves := h.evolves hs.forest

end Continues

/-- The computation continues, and what it answers has the property. -/
def Safe (s : Unifier) (post : α → Unifier → Prop) (m : UnifyM α) : Prop :=
  ∀ a u, m s = some (a, u) → Continues s u ∧ post a u

/-- Nothing is said of an answer. -/
abbrev Any (_ : α) (_ : Unifier) : Prop := True

/-- The answer is a term. -/
abbrev InForest (x : TermId) (u : Unifier) : Prop := x < u.forest.size

/-- The answers are terms. -/
abbrev AllInForest (xs : List TermId) (u : Unifier) : Prop := ∀ x ∈ xs, x < u.forest.size

/-- The answer is a term, if there is one. -/
abbrev AnyInForest (x? : Option TermId) (u : Unifier) : Prop := ∀ x, x? = some x → x < u.forest.size

section Rules

variable {post : α → Unifier → Prop} {post' : β → Unifier → Prop}

private theorem safe_pure {a : α} (hs : s.Sound) (h : post a s) : Safe s post (pure a) := by
  intro b u hr
  obtain ⟨rfl, rfl⟩ := pure_eq_some.1 hr
  exact ⟨.refl hs, h⟩

private theorem Safe.bind {m : UnifyM β} {k : β → UnifyM α} (hm : Safe s post' m)
    (hk : ∀ b u, Continues s u → post' b u → Safe u post (k b)) : Safe s post (m >>= k) := by
  intro a u h
  obtain ⟨b, s₁, hb, h⟩ := bind_eq_some.1 h
  obtain ⟨hc, hpost⟩ := hm b s₁ hb
  obtain ⟨hc', hpost'⟩ := hk b s₁ hc hpost a u h
  exact ⟨hc.trans hc', hpost'⟩

/-- Computations one after the other are safe if each is, whatever the first one answers. -/
theorem Safe.next {m : UnifyM β} {k : β → UnifyM α} (hm : Safe s Any m)
    (hk : ∀ b u, Continues s u → Safe u post (k b)) : Safe s post (m >>= k) :=
  hm.bind fun b u h _ => hk b u h

private theorem Safe.view {read : Forest → β} {k : β → UnifyM α} (hk : Safe s post (k (read s.forest))) :
    Safe s post (Unifier.view read >>= k) := hk

private theorem Safe.probing {k : Bool → UnifyM α} (hk : Safe s post (k s.work.isNone)) :
    Safe s post (isProbe >>= k) := hk

/-- Where only a probe ends, something may be changed from then on. -/
theorem Safe.guard {m : UnifyM α} {a : α} (hs : s.Sound) (ha : post a s)
    (hm : s.work.isNone = false → Safe s post m) :
    Safe s post (isProbe >>= fun probing => if probing then pure a else m) := by
  refine .probing ?_
  cases hwork : s.work.isNone with
  | true => exact safe_pure hs ha
  | false => exact hm hwork

/-- What follows a choice goes on from either side of it. -/
theorem Safe.otherwise (post' : β → Unifier → Prop) {c : Prop} [Decidable c] {m : UnifyM α} {b : β}
    {k : β → UnifyM α} (hs : s.Sound) (hb : post' b s)
    (hk : ∀ b u, Continues s u → post' b u → Safe u post (k b))
    (hthen : (∀ b u, Continues s u → post' b u → Safe u post (k b)) → Safe s post m) :
    Safe s post (if c then m else pure b >>= k) := by
  split
  · exact hthen hk
  · exact hk b s (.refl hs) hb

/-- What follows something that is done in one case only goes on either way. -/
theorem Safe.either {c : Prop} [Decidable c] {m rest : UnifyM α} (hs : s.Sound)
    (hrest : ∀ u, Continues s u → Safe u post rest)
    (hthen : (∀ u, Continues s u → Safe u post rest) → Safe s post m) :
    Safe s post (if c then m else rest) := by
  split
  · exact hthen hrest
  · exact hrest s (.refl hs)

private theorem safe_ite {c : Prop} [Decidable c] {m m' : UnifyM α} (h : c → Safe s post m)
    (h' : ¬c → Safe s post m') : Safe s post (if c then m else m') := by
  split
  · rename_i hc
    exact h hc
  · rename_i hc
    exact h' hc

end Rules

/-- Looking a class up is safe. -/
theorem find_safe (hs : s.Sound) {x : TermId} (hx : x < s.forest.size) :
    Safe s InForest (find x) := fun _ _ h =>
  ⟨.of_proceeds hs ((find_looks hs h).2.proceeds hs), (isClass_of_find hs hx h).lt⟩

private theorem findAll_safe (hs : s.Sound) {xs : List TermId} (hxs : ∀ x ∈ xs, x < s.forest.size) :
    Safe s AllInForest (onForest (Forest.findAll xs)) := by
  intro rs u h
  obtain ⟨f, hf, rfl⟩ := onForest_eq_some.1 h
  obtain ⟨rfl, hup⟩ := Forest.findAll_upkeeps hs.forest.rooted hf
  refine ⟨.change hs (.of_upkeeps hs.forest.rooted hup), fun x hx => ?_⟩
  obtain ⟨y, hy, rfl⟩ := List.mem_map.1 hx
  exact Nat.lt_of_lt_of_eq (Forest.rep_lt_size hs.forest.rooted (hxs y hy)) hup.size.symm

/-- So is looking up a child. -/
theorem child_safe (hs : s.Sound) (x : TermId) (slot : Slot) : Safe s AnyInForest (child x slot) :=
  fun _ _ h => ⟨.of_proceeds hs ((child_looks hs h).1.proceeds hs),
    fun y hy => ((child_looks hs h).2 y hy).lt⟩

private theorem alloc_safe (hs : s.Sound) {kind : Kind} (hlink : kind.isLink = false)
    (hkind : ∀ x ∈ kind.children, x < s.forest.size) : Safe s InForest (alloc kind) := by
  intro x u h
  obtain ⟨rfl, rfl⟩ := alloc_eq_some.1 h
  refine ⟨.change hs (Forest.becomes_alloc hlink hkind), ?_⟩
  show s.forest.size < (s.forest.alloc kind).2.size
  rw [Forest.size_alloc]
  exact Nat.lt_succ_self _

private theorem alloc_error_safe (hs : s.Sound) (cause : TypeError) :
    Safe s InForest (alloc (.error cause)) :=
  alloc_safe hs rfl fun _ hx => absurd hx List.not_mem_nil

/-- A change of the forest that leaves it sound. -/
theorem change_safe (hs : s.Sound) {f : Forest → Forest} (h : s.forest.Becomes (f s.forest)) :
    Safe s Any (change f) := by
  intro v u hr
  rw [change_eq_some.1 hr]
  exact ⟨.change hs h, trivial⟩

/-- So is registering nodes. -/
theorem addDeps_safe (hs : s.Sound) (x : TermId) (nodes : Forest → List NodeId) :
    Safe s Any (change fun f => f.addDeps x (nodes f)) :=
  change_safe hs (.single (.register x _))

/-- So is unifying two terms. -/
theorem unify_safe (hs : s.Sound) {depth : Nat} {a b : TermId} (ha : a < s.forest.size)
    (hb : b < s.forest.size) : Safe s Any (unify depth a b) :=
  fun _ _ h => ⟨.of_proceeds hs (unify_proceeds hs ha hb h).1, trivial⟩

private theorem instantiate_safe (hs : s.Sound) {depth : Nat} {definition use : TermId}
    {pinned : List TermId} (hdefinition : definition < s.forest.size)
    (huse : use < s.forest.size) : Safe s Any (instantiate depth definition use pinned) :=
  fun _ _ h => ⟨.of_proceeds hs (instantiate_proceeds hs hdefinition huse h), trivial⟩

private theorem addField_safe (hs : s.Sound) (hwork : s.work.isNone = false) {x value : TermId}
    {label : String} (hvalue : value < s.forest.size) : Safe s Any (addField x label value) :=
  fun _ _ h => ⟨.of_proceeds hs (addField_proceeds hs hwork hvalue h).1, trivial⟩

end Unifier

open Unifier (Continues Safe Any InForest AllInForest AnyInForest safe_pure safe_ite Spares)

/-- The terms that a node is given besides its type: its binding, or its parameters. -/
def NodeKind.terms : NodeKind → List TermId
  | ident _ _ _ binding => [binding]
  | lambda _ _ _ formals _ | prim _ _ formals => formals
  | _ => []

private theorem NodeKind.terms_of_function? {k : NodeKind} {fid : FunctionId} {formals : List TermId}
    (h : k.function? = some (fid, formals)) : k.terms = formals := by
  cases k with
  | lambda | prim =>
    cases h
    rfl
  | _ => cases h

/-- The terms of the node are among the first so many. -/
structure Node.TermsIn (node : Node) (n : Nat) : Prop where
  type : node.type < n
  pinned : ∀ t ∈ node.pinned, t < n
  kind : ∀ t ∈ node.kind.terms, t < n

/-- The terms of a node are so in a greater forest. -/
theorem Node.TermsIn.mono {node : Node} {n m : Nat} (h : node.TermsIn n) (hle : n ≤ m) :
    node.TermsIn m where
  type := Nat.lt_of_lt_of_le h.type hle
  pinned t ht := Nat.lt_of_lt_of_le (h.pinned t ht) hle
  kind t ht := Nat.lt_of_lt_of_le (h.kind t ht) hle

namespace Program

/-- The terms of the program are among the first so many. -/
def TermsIn (p : Program) (n : Nat) : Prop := ∀ id, (p.node id).TermsIn n

namespace TermsIn

variable {p : Program} {n m : Nat}

/-- So are those of a program. -/
theorem mono (h : p.TermsIn n) (hle : n ≤ m) : p.TermsIn m := fun id => (h id).mono hle

/-- A use of a name is bound to a term. -/
theorem binding (h : p.TermsIn n) {id : NodeId} {name : String} {binder : NodeId}
    {position : Option Nat} {binding : TermId}
    (hk : p.kind id = .ident name binder position binding) : binding < n := by
  refine (h id).kind binding ?_
  rw [show (p.node id).kind = _ from hk]
  exact List.mem_singleton_self binding

private theorem formals (h : p.TermsIn n) {id : NodeId} {fid : FunctionId} {formals : List TermId}
    (hk : (p.kind id).function? = some (fid, formals)) : ∀ t ∈ formals, t < n := by
  intro t ht
  refine (h id).kind t ?_
  rwa [show (p.node id).kind.terms = formals from NodeKind.terms_of_function? hk]

end TermsIn

/-! ## Parts of the steps -/

section Parts

open Unifier (isProbe find kindOf alloc addField change view)

/-- A call goes on after an argument, unless an error came up or a probe has seen enough. -/
def nextArgument (p : Program) (id : NodeId) (i : Nat) (rest : List NodeId) (callee : TermId)
    (progress : Bool) : UnifyM CallOutcome := do
  if progress && (← isProbe) then return .finished true
  let callee ← find callee
  if (← kindOf callee).isError then return .finished (← p.passError id callee progress)
  p.unifyArguments id (i + 1) rest callee progress

/-- In the end a call takes over the error that its callee has become. -/
def endCall (p : Program) (id : NodeId) (callee : TermId) (progress : Bool) : UnifyM Bool := do
  let callee ← find callee
  if (← kindOf callee).isError then p.passError id callee progress else return progress

/-- A record literal goes on after a part, unless a probe has seen enough. -/
def nextPart (p : Program) (rest : List (String × NodeId)) (rec : TermId) (progress : Bool) :
    UnifyM (TermId × Bool) := do
  if progress && (← isProbe) then return (rec, true)
  p.unifyParts rest rec progress

/-- A class that lacks a field gains it, becomes a record with it or an error. -/
def addMissing (p : Program) (label : String) (me rec : TermId) : UnifyM Bool := do
  let kind ← kindOf rec
  if kind.isError then p.unify me rec
  else if kind.isOpen then addField rec label me
  else if kind.isVar || kind.isFunction then
    change fun f => f.addDeps me (f.deps rec).toList
    let shape ← alloc (.record (.ofList [(label, me)]) .empty true false)
    p.unify shape rec
  else
    let missing ← alloc (.error (← view fun f => .missingField label (f.render rec)))
    p.unify me missing

/-- The argument of `notNil` wraps its result. -/
def wrapArgument (p : Program) (arg ret : TermId) : UnifyM Bool := do
  let kind ← kindOf arg
  if kind.isNilable && (← kindOf ret).isNilable then p.unify arg ret
  else
    let wrapped ← alloc (.nilable ret)
    let wrapped ← find wrapped
    p.unify wrapped arg

/-- Nothing is wrapped that is nilable and shares the children already. -/
def wrapUnaligned (p : Program) (arg ret : TermId) (karg kret : Kind) : UnifyM Bool := do
  let sameShape := (karg.isRecord && kret.isRecord) || (karg.isFunction && kret.isFunction)
  if ← (do if sameShape && karg.mayNil then isAligned arg ret else return false) then return false
  if ← isProbe then return true
  p.wrapArgument arg ret

end Parts

section Steps

variable {p : Program} {s : Unifier} (hs : s.Sound) (hp : p.TermsIn s.forest.size)

/-! ## Access -/

include hs hp in
/-- Looking up the type of a node is safe. -/
theorem typeOf_safe (id : NodeId) : Safe s InForest (p.typeOf id) :=
  Unifier.find_safe hs ((hp id).type)

include hs hp in
/-- So is looking up those of several. -/
theorem typesOf_safe (ids : List NodeId) : Safe s AllInForest (p.typesOf ids) := by
  induction ids generalizing s with
  | nil => exact safe_pure hs fun x hx => absurd hx List.not_mem_nil
  | cons id rest ih =>
    refine (typeOf_safe hs hp id).bind fun t s₁ h₁ ht => ?_
    refine (ih h₁.sound (hp.mono h₁.size)).bind fun ts s₂ h₂ hts => safe_pure h₂.sound ?_
    exact List.forall_mem_cons.2 ⟨h₂.lt ht, hts⟩

include hs hp in
/-- So is looking up the parameters of a function. -/
theorem formalsOf_safe (id : NodeId) : Safe s AllInForest (p.formalsOf id) := by
  unfold formalsOf
  split
  · rename_i hk
    exact Unifier.findAll_safe hs (hp.formals hk)
  · exact safe_pure hs fun x hx => absurd hx List.not_mem_nil

include hs hp in
private theorem pinnedAt_safe (id : NodeId) : Safe s AllInForest (p.pinnedAt id) :=
  Unifier.findAll_safe hs ((hp id).pinned)

include hs hp in
private theorem passError_safe (id : NodeId) {error : TermId} (herror : error < s.forest.size)
    (progress : Bool) : Safe s Any (p.passError id error progress) := by
  refine (typeOf_safe hs hp id).bind fun me s₁ h₁ hme => ?_
  refine (Unifier.unify_safe h₁.sound hme (h₁.lt herror)).bind fun passed s₂ h₂ _ => ?_
  exact safe_pure h₂.sound trivial

include hs hp in
private theorem endCall_safe (id : NodeId) {callee : TermId} (hcallee : callee < s.forest.size)
    (progress : Bool) : Safe s Any (p.endCall id callee progress) := by
  refine (Unifier.find_safe hs hcallee).bind fun callee' s₁ h₁ hcallee' => ?_
  refine .view (safe_ite (fun _ => ?_) fun _ => safe_pure h₁.sound trivial)
  exact passError_safe h₁.sound (hp.mono h₁.size) id hcallee' progress

/-! ## Steps -/

include hs hp in
private theorem identStep_safe (id : NodeId) {binding : TermId} (hbinding : binding < s.forest.size) :
    Safe s Any (p.identStep id binding) := by
  refine (Unifier.find_safe hs hbinding).bind fun r s₁ h₁ hr => ?_
  refine (typeOf_safe h₁.sound (hp.mono h₁.size) id).bind fun me s₂ h₂ hme => ?_
  refine (pinnedAt_safe h₂.sound (hp.mono (h₁.trans h₂).size) id).bind fun pinned s₃ h₃ _ => ?_
  exact Unifier.instantiate_safe h₃.sound (h₃.lt (h₂.lt hr)) (h₃.lt hme)

private theorem unifyParameters_safe (hs : s.Sound) (fn : TermId) (i : Nat) {formals : List TermId}
    (hformals : ∀ x ∈ formals, x < s.forest.size) (progress : Bool) :
    Safe s Any (p.unifyParameters fn i formals progress) := by
  induction formals generalizing s i progress with
  | nil => exact safe_pure hs trivial
  | cons formal rest ih =>
    obtain ⟨hformal, hrest⟩ := List.forall_mem_cons.1 hformals
    refine (Unifier.child_safe hs fn (.arg i)).bind fun arg? s₁ h₁ harg => ?_
    cases arg? with
    | none => exact ih h₁.sound _ (fun x hx => h₁.lt (hrest x hx)) _
    | some arg =>
      refine (Unifier.unify_safe h₁.sound (harg arg rfl) (h₁.lt hformal)).bind fun _ s₂ h₂ _ => ?_
      exact ih h₂.sound _ (fun x hx => h₂.lt (h₁.lt (hrest x hx))) _

include hs hp in
private theorem lambdaStep_safe (id body : NodeId) : Safe s Any (p.lambdaStep id body) := by
  refine (typeOf_safe hs hp id).bind fun fn s₁ h₁ hfn => .view (safe_ite (fun _ => ?_) fun _ => ?_)
  · exact safe_pure h₁.sound trivial
  refine (formalsOf_safe h₁.sound (hp.mono h₁.size) id).bind fun formals s₂ h₂ hformals => ?_
  refine (unifyParameters_safe h₂.sound fn 0 hformals false).bind fun progress s₃ h₃ _ => ?_
  have h₃ := (h₁.trans h₂).trans h₃
  refine (typeOf_safe h₃.sound (hp.mono h₃.size) body).bind fun result s₄ h₄ hresult => ?_
  refine (Unifier.child_safe h₄.sound fn .ret).bind fun slot? s₅ h₅ hslot => ?_
  cases slot? with
  | none => exact safe_pure h₅.sound trivial
  | some slot =>
    refine (Unifier.unify_safe h₅.sound (hslot slot rfl) (h₅.lt hresult)).bind fun _ s₆ h₆ _ => ?_
    exact safe_pure h₆.sound trivial

/-- The function that a call builds of its arguments. -/
theorem allocFunction_safe (hs : s.Sound) {args : List TermId} {ret : TermId}
    (hargs : ∀ x ∈ args, x < s.forest.size) (hret : ret < s.forest.size) :
    Safe s InForest fun s => some ((s.forest.allocFunction true .empty args ret).1,
      { s with forest := (s.forest.allocFunction true .empty args ret).2 }) := by
  intro t u h
  cases h
  have hterms : ∀ x ∈ args ++ [ret], x < s.forest.size := by
    intro x hx
    rcases List.mem_append.1 hx with hx | hx
    · exact hargs x hx
    · rwa [List.mem_singleton.1 hx]
  refine ⟨.change hs (Forest.becomes_allocFunction hterms), ?_⟩
  obtain ⟨-, hnew, hsize, -⟩ := Forest.allocFunction_extends hs.forest.rooted true .empty args ret
  show (s.forest.allocFunction true .empty args ret).1 <
    (s.forest.allocFunction true .empty args ret).2.size
  rw [hnew, hsize]
  exact Nat.lt_succ_self _

include hs hp in
private theorem callUnknown_safe (id : NodeId) {callee : TermId} (hcallee : callee < s.forest.size)
    (args : List NodeId) : Safe s Any (p.callUnknown id callee args) := by
  refine .guard hs trivial fun _ => ?_
  refine (typesOf_safe hs hp args).bind fun actuals s₁ h₁ hactuals => ?_
  refine (typeOf_safe h₁.sound (hp.mono h₁.size) id).bind fun me s₂ h₂ hme => ?_
  have hargs : ∀ x ∈ actuals, x < s₂.forest.size := fun x hx => h₂.lt (hactuals x hx)
  refine (allocFunction_safe h₂.sound hargs hme).bind fun shape s₃ h₃ hshape => ?_
  have h₃ := (h₁.trans h₂).trans h₃
  refine (Unifier.unify_safe h₃.sound (h₃.lt hcallee) hshape).bind fun progress s₄ h₄ _ => ?_
  have h₄ := h₃.trans h₄
  exact endCall_safe h₄.sound (hp.mono h₄.size) id (h₄.lt hcallee) progress

/-- The callee that a call goes on with is a term. -/
abbrev CallOutcome.InForest (outcome : CallOutcome) (u : Unifier) : Prop :=
  ∀ callee progress, outcome = .ongoing callee progress → callee < u.forest.size

include hs hp in
private theorem nextArgument_safe (id : NodeId) (i : Nat) {rest : List NodeId} {callee : TermId}
    (hcallee : callee < s.forest.size) (progress : Bool)
    (hrest : ∀ callee u, Continues s u → callee < u.forest.size →
      Safe u CallOutcome.InForest (p.unifyArguments id (i + 1) rest callee progress)) :
    Safe s CallOutcome.InForest (p.nextArgument id i rest callee progress) := by
  have hfinished : ∀ {s : Unifier} (b : Bool), s.Sound →
      Safe s CallOutcome.InForest (pure (.finished b)) := fun b hs =>
    safe_pure hs fun _ _ h => nomatch h
  refine .probing (safe_ite (fun _ => hfinished true hs) fun _ => ?_)
  refine (Unifier.find_safe hs hcallee).bind fun callee' s₁ h₁ hcallee' => ?_
  refine .view (safe_ite (fun _ => ?_) fun _ => hrest callee' s₁ h₁ hcallee')
  refine (passError_safe h₁.sound (hp.mono h₁.size) id hcallee' progress).bind ?_
  exact fun b s₂ h₂ _ => hfinished b h₂.sound

include hs hp in
/-- So is unifying arguments with parameters. -/
theorem unifyArguments_safe (id : NodeId) (i : Nat) (args : List NodeId) {callee : TermId}
    (hcallee : callee < s.forest.size) (progress : Bool) :
    Safe s CallOutcome.InForest (p.unifyArguments id i args callee progress) := by
  induction args generalizing s i callee progress with
  | nil =>
    refine safe_pure hs fun callee' progress' h => ?_
    cases h
    exact hcallee
  | cons arg rest ih =>
    have hnext : ∀ (s₂ : Unifier) (progress : Bool), Continues s s₂ →
        Safe s₂ CallOutcome.InForest (p.nextArgument id i rest callee progress) :=
      fun s₂ progress h₂ => nextArgument_safe h₂.sound (hp.mono h₂.size) id i (h₂.lt hcallee)
        progress fun callee' s₃ h₃ hcallee' =>
          ih h₃.sound (hp.mono (h₂.trans h₃).size) _ hcallee' _
    refine (Unifier.child_safe hs callee (.arg i)).bind fun formal? s₁ h₁ hformal => ?_
    cases formal? with
    | none => exact hnext s₁ _ h₁
    | some formal =>
      refine (typeOf_safe h₁.sound (hp.mono h₁.size) arg).bind fun actual s₂ h₂ hactual => ?_
      refine (Unifier.unify_safe h₂.sound (h₂.lt (hformal formal rfl)) hactual).bind ?_
      exact fun changed s₃ h₃ _ => hnext s₃ _ ((h₁.trans h₂).trans h₃)

include hs hp in
private theorem applyStep_safe (id fn : NodeId) (args : List NodeId) :
    Safe s Any (p.applyStep id fn args) := by
  refine (typeOf_safe hs hp fn).bind fun callee s₁ h₁ hcallee => .view (safe_ite (fun _ => ?_)
    fun _ => safe_ite (fun _ => ?_) fun _ => ?_)
  · exact passError_safe h₁.sound (hp.mono h₁.size) id hcallee false
  · exact callUnknown_safe h₁.sound (hp.mono h₁.size) id hcallee args
  refine (typeOf_safe h₁.sound (hp.mono h₁.size) id).bind fun me s₂ h₂ hme => .view (.probing ?_)
  refine safe_ite (fun _ => safe_pure h₂.sound trivial) fun _ => ?_
  have hp₂ := hp.mono (h₁.trans h₂).size
  refine .otherwise Any h₂.sound trivial (fun progress s₃ h₃ _ => ?_) fun hrest => ?_
  · have hp₃ := hp₂.mono h₃.size
    refine (unifyArguments_safe h₃.sound hp₃ id 0 args (h₃.lt (h₂.lt hcallee)) progress).bind ?_
    intro outcome s₄ h₄ hcallee
    cases outcome with
    | finished progress => exact safe_pure h₄.sound trivial
    | ongoing callee progress =>
      have hcallee := hcallee callee progress rfl
      have hp₄ := hp₃.mono h₄.size
      have hend : ∀ (s₅ : Unifier) (progress : Bool), Continues s₄ s₅ →
          Safe s₅ Any (p.endCall id callee progress) := fun s₅ progress h₅ =>
        endCall_safe h₅.sound (hp₄.mono h₅.size) id (h₅.lt hcallee) progress
      refine (typeOf_safe h₄.sound hp₄ id).bind fun me s₅ h₅ hme => ?_
      refine (Unifier.child_safe h₅.sound callee .ret).bind fun result? s₆ h₆ hresult => ?_
      cases result? with
      | none => exact hend s₆ _ (h₅.trans h₆)
      | some result =>
        refine (Unifier.unify_safe h₆.sound (h₆.lt hme) (hresult result rfl)).bind ?_
        exact fun changed s₇ h₇ _ => hend s₇ _ ((h₅.trans h₆).trans h₇)
  · refine (Unifier.alloc_error_safe h₂.sound .arity).bind fun error s₃ h₃ herror => ?_
    refine (Unifier.unify_safe h₃.sound herror (h₃.lt hme)).bind fun progress s₄ h₄ _ => ?_
    exact hrest progress s₄ (h₃.trans h₄) trivial

include hs hp in
private theorem rejectExtra_safe (id : NodeId) (labels : List String) (rec : TermId)
    (remaining : List String) (progress : Bool) :
    Safe s Any (p.rejectExtra id labels rec remaining progress) := by
  induction remaining generalizing s progress with
  | nil => exact safe_pure hs trivial
  | cons label rest ih =>
    refine safe_ite (fun _ => ih hs hp _) fun _ => ?_
    refine (Unifier.child_safe hs rec (.field label)).bind fun extra? s₁ h₁ hextra => ?_
    have hp₁ := hp.mono h₁.size
    cases extra? with
    | none => exact ih h₁.sound hp₁ _
    | some extra =>
      refine .view (safe_ite (fun _ => ih h₁.sound hp₁ _) fun _ => ?_)
      refine .guard h₁.sound trivial fun _ => ?_
      refine (typeOf_safe h₁.sound hp₁ id).bind fun me s₂ h₂ _ => .view ?_
      refine (Unifier.alloc_error_safe h₂.sound _).bind fun missing s₃ h₃ hmissing => ?_
      refine (Unifier.unify_safe h₃.sound (h₃.lt (h₂.lt (hextra extra rfl))) hmissing).bind ?_
      exact fun changed s₄ h₄ _ => ih h₄.sound (hp₁.mono ((h₂.trans h₃).trans h₄).size) _

include hs hp in
private theorem unifyParts_safe (fields : List (String × NodeId)) {rec : TermId}
    (hrec : rec < s.forest.size) (progress : Bool) :
    Safe s (fun r u => r.1 < u.forest.size) (p.unifyParts fields rec progress) := by
  induction fields generalizing s rec progress with
  | nil => exact safe_pure hs hrec
  | cons field rest ih =>
    refine (Unifier.find_safe hs hrec).bind fun rec' s₁ h₁ hrec' => ?_
    have hp₁ := hp.mono h₁.size
    have hnext : ∀ (s₂ : Unifier) (progress : Bool), Continues s₁ s₂ →
        Safe s₂ (fun r u => r.1 < u.forest.size) (p.nextPart rest rec' progress) :=
      fun s₂ progress h₂ =>
      .probing (safe_ite (fun _ => safe_pure h₂.sound (h₂.lt hrec')) fun _ =>
        ih h₂.sound (hp₁.mono h₂.size) (h₂.lt hrec') _)
    refine (Unifier.child_safe h₁.sound rec' (.field field.1)).bind fun slot? s₂ h₂ hslot => ?_
    cases slot? with
    | none => exact hnext s₂ _ h₂
    | some slot =>
      refine (typeOf_safe h₂.sound (hp₁.mono h₂.size) field.2).bind fun t s₃ h₃ ht => ?_
      refine (Unifier.unify_safe h₃.sound (h₃.lt (hslot slot rfl)) ht).bind ?_
      exact fun changed s₄ h₄ _ => hnext s₄ _ ((h₂.trans h₃).trans h₄)

/-- The record of the types of the parts of a literal. -/
theorem alloc_parts_safe (hs : s.Sound) {types : List TermId} (htypes : ∀ x ∈ types, x < s.forest.size)
    (labels : List String) (sites : IdSet) (isOpen : Bool) :
    Safe s InForest (Unifier.alloc (.record (.ofList (labels.zip types)) sites isOpen false)) := by
  refine Unifier.alloc_safe hs rfl fun x hx => ?_
  obtain ⟨l, hl⟩ := Fields.mem_values.1 hx
  exact htypes x (List.of_mem_zip (Fields.mem_of_find?_ofList hl)).2

include hs hp in
private theorem recordStep_safe (id : NodeId) (site : SiteId) (labels : List String) (parts : List NodeId) :
    Safe s Any (p.recordStep id site labels parts) := by
  refine (typeOf_safe hs hp id).bind fun rec s₁ h₁ hrec => .view (safe_ite (fun _ => ?_) fun _ => ?_)
  · exact safe_pure h₁.sound trivial
  have hp₁ := hp.mono h₁.size
  refine .probing (safe_ite (fun _ => safe_pure h₁.sound trivial) fun _ => ?_)
  refine .otherwise (fun r u => r.1 < u.forest.size) h₁.sound hrec
    (fun r s₂ h₂ hrec => ?_) fun hrest => ?_
  · obtain ⟨rec, built⟩ := r
    have hp₂ := hp₁.mono h₂.size
    refine .view (safe_ite (fun _ => safe_pure h₂.sound trivial) fun _ => ?_)
    refine (rejectExtra_safe h₂.sound hp₂ id labels rec _ built).bind fun progress? s₃ h₃ _ => ?_
    have hp₃ := hp₂.mono h₃.size
    cases progress? with
    | none => exact safe_pure h₃.sound trivial
    | some progress =>
      refine (unifyParts_safe h₃.sound hp₃ _ (h₃.lt hrec) progress).bind fun r s₄ h₄ hrec => ?_
      obtain ⟨rec, progress⟩ := r
      refine .guard h₄.sound trivial fun _ => ?_
      refine (Unifier.find_safe h₄.sound hrec).bind fun rec' s₅ h₅ _ => ?_
      refine (Unifier.addDeps_safe h₅.sound rec' fun _ => [id]).bind fun _ s₆ h₆ _ => ?_
      exact safe_pure h₆.sound trivial
  · refine (typesOf_safe h₁.sound hp₁ parts).bind fun types s₂ h₂ htypes => ?_
    refine (alloc_parts_safe h₂.sound htypes labels _ false).bind fun shape s₃ h₃ hshape => ?_
    have h₃ := h₂.trans h₃
    refine (Unifier.unify_safe h₃.sound hshape (h₃.lt hrec)).bind fun _ s₄ h₄ _ => ?_
    have h₄ := h₃.trans h₄
    refine (typeOf_safe h₄.sound (hp₁.mono h₄.size) id).bind fun rec s₅ h₅ hrec => ?_
    exact hrest (rec, true) s₅ (h₄.trans h₅) hrec

include hs in
private theorem addMissing_safe (hwork : s.work.isNone = false) (label : String) {me rec : TermId}
    (hme : me < s.forest.size) (hrec : rec < s.forest.size) :
    Safe s Any (p.addMissing label me rec) := by
  refine .view (safe_ite (fun _ => ?_) fun _ => safe_ite (fun _ => ?_) fun _ =>
    safe_ite (fun _ => ?_) fun _ => .view ?_)
  · exact Unifier.unify_safe hs hme hrec
  · exact Unifier.addField_safe hs hwork hme
  · refine (Unifier.addDeps_safe hs me fun f => (f.deps rec).toList).bind fun _ s₁ h₁ _ => ?_
    have htypes : ∀ x ∈ [me], x < s₁.forest.size := List.forall_mem_singleton.2 (h₁.lt hme)
    refine (alloc_parts_safe h₁.sound htypes [label] .empty true).bind fun shape s₂ h₂ hshape => ?_
    exact Unifier.unify_safe h₂.sound hshape (h₂.lt (h₁.lt hrec))
  · refine (Unifier.alloc_error_safe hs _).bind fun missing s₁ h₁ hmissing => ?_
    exact Unifier.unify_safe h₁.sound (h₁.lt hme) hmissing

include hs hp in
private theorem fieldStep_safe (id : NodeId) (label : String) (source : NodeId) :
    Safe s Any (p.fieldStep id label source) := by
  refine (typeOf_safe hs hp id).bind fun me s₁ h₁ hme => .view (safe_ite (fun _ => ?_) fun _ => ?_)
  · exact safe_pure h₁.sound trivial
  refine (typeOf_safe h₁.sound (hp.mono h₁.size) source).bind fun rec s₂ h₂ hrec => .view ?_
  have hme := h₂.lt hme
  refine safe_ite (fun _ => .guard h₂.sound trivial fun _ => ?_) fun _ => .probing ?_
  · refine (Unifier.alloc_error_safe h₂.sound _).bind fun error s₃ h₃ herror => ?_
    exact Unifier.unify_safe h₃.sound (h₃.lt hme) herror
  refine .either h₂.sound (fun s₃ h₃ => ?_) fun hrest =>
    (Unifier.addDeps_safe h₂.sound rec fun _ => [id]).bind fun _ s₃ h₃ _ => hrest s₃ h₃
  have hme := h₃.lt hme
  refine (Unifier.child_safe h₃.sound rec (.field label)).bind fun value? s₄ h₄ hvalue => ?_
  have hme := h₄.lt hme
  have hrec := h₄.lt (h₃.lt hrec)
  cases value? with
  | some value => exact Unifier.unify_safe h₄.sound (hvalue value rfl) hme
  | none =>
    refine .guard h₄.sound trivial fun hwork => ?_
    exact addMissing_safe h₄.sound hwork label hme hrec

/-- So is looking for the first error. -/
theorem firstError_safe (hs : s.Sound) {types : List TermId} (htypes : ∀ x ∈ types, x < s.forest.size) :
    Safe s AnyInForest (firstError types) := by
  induction types with
  | nil => exact safe_pure hs fun _ h => nomatch h
  | cons t rest ih =>
    obtain ⟨ht, hrest⟩ := List.forall_mem_cons.1 htypes
    refine .view (safe_ite (fun _ => safe_pure hs fun x hx => ?_) fun _ => ih hrest)
    rwa [← Option.some.inj hx]

include hs hp in
private theorem primitiveStep_safe (id : NodeId) : Safe s Any (p.primitiveStep id) := by
  refine (typeOf_safe hs hp id).bind fun me s₁ h₁ hme => .view (safe_ite (fun _ => ?_) fun _ => ?_)
  · exact safe_pure h₁.sound trivial
  refine (formalsOf_safe h₁.sound (hp.mono h₁.size) id).bind fun formals s₂ h₂ hformals => ?_
  refine (firstError_safe h₂.sound hformals).bind fun error? s₃ h₃ herror => ?_
  cases error? with
  | none => exact safe_pure h₃.sound trivial
  | some error => exact Unifier.unify_safe h₃.sound (h₃.lt (h₂.lt hme)) (herror error rfl)

/-- A branch that is missing is replaced by a term. -/
theorem branch_lt {formals : List TermId} {n : Nat} {me : TermId} (hformals : ∀ x ∈ formals, x < n)
    (hme : me < n) (i : Nat) : formals[i]?.getD me < n := by
  cases hi : formals[i]? with
  | none => exact hme
  | some t => exact hformals t (List.mem_of_getElem? hi)

include hs hp in
private theorem condStep_safe (flows : Flows) (id : NodeId) (fid : FunctionId) :
    Safe s Any (p.condStep flows id fid) := by
  refine (typeOf_safe hs hp id).bind fun me s₁ h₁ hme => ?_
  refine (Unifier.child_safe h₁.sound me .ret).bind fun result? s₂ h₂ hresult => ?_
  cases result? with
  | none => exact safe_pure h₂.sound trivial
  | some result =>
    have hp₂ := hp.mono (h₁.trans h₂).size
    refine (formalsOf_safe h₂.sound hp₂ id).bind fun formals s₃ h₃ hformals => ?_
    have hbranch := branch_lt hformals (h₃.lt (h₂.lt hme))
    have hresult := h₃.lt (hresult result rfl)
    dsimp only
    split
    · exact safe_pure h₃.sound trivial
    · exact Unifier.unify_safe h₃.sound hresult (hbranch 2)
    · exact Unifier.unify_safe h₃.sound hresult (hbranch 1)
    · refine (Unifier.unify_safe h₃.sound hresult (hbranch 1)).bind fun progress s₄ h₄ _ => ?_
      refine (Unifier.find_safe h₄.sound (h₄.lt hresult)).bind fun result' s₅ h₅ hresult' => ?_
      refine (Unifier.find_safe h₅.sound (h₅.lt (h₄.lt (hbranch 2)))).bind fun other s₆ h₆ hother => ?_
      refine (Unifier.unify_safe h₆.sound (h₆.lt hresult') hother).bind fun changed s₇ h₇ _ => ?_
      exact safe_pure h₇.sound trivial

private theorem sameSlots_safe (hs : s.Sound) (a b : TermId) (slots : List Slot) :
    Safe s Any (sameSlots a b slots) := by
  induction slots generalizing s with
  | nil => exact safe_pure hs trivial
  | cons slot rest ih =>
    refine (Unifier.child_safe hs a slot).bind fun x s₁ h₁ _ => ?_
    refine (Unifier.child_safe h₁.sound b slot).bind fun y s₂ h₂ _ => ?_
    exact safe_ite (fun _ => safe_pure h₂.sound trivial) fun _ => ih h₂.sound

private theorem isAligned_safe (hs : s.Sound) (arg ret : TermId) : Safe s Any (isAligned arg ret) := by
  refine .view ((sameSlots_safe hs arg ret _).bind fun same s₁ h₁ _ => safe_ite (fun _ => ?_)
    fun _ => .view ?_)
  · exact safe_pure h₁.sound trivial
  · exact safe_pure h₁.sound trivial

/-- Pushing a node queues it. -/
theorem push_eq_some {id : NodeId} {u : Unifier} {v : Unit} :
    push id s = some (v, u) ↔ u = { s with work := s.work.map (·.push id) } := by
  have h : push id s = some ((), { s with work := s.work.map (·.push id) }) := rfl
  rw [h, Option.some.injEq, Prod.mk.injEq, eq_comm (a := u)]
  exact and_iff_right rfl

private theorem push?_safe (hs : s.Sound) (id? : Option NodeId) : Safe s Any (push? id?) := by
  unfold push?
  split
  · intro v u h
    rw [push_eq_some.1 h]
    refine ⟨⟨⟨hs.forest, hs.image⟩, ?_, .refl hs.forest.rooted⟩, trivial⟩
    cases s.work <;> rfl
  · exact safe_pure hs trivial

/-- The flow of a base class is replaced. -/
theorem setBase_safe (hs : s.Sound) (t : TermId) (flow : Flow) (reader : Option NodeId) :
    Safe s Any (setBase t flow reader) := by
  refine .view ?_
  cases hk : s.forest.kind t with
  | base old =>
    refine safe_ite (fun _ => ?_) fun _ => safe_pure hs trivial
    refine Safe.next (fun v u h => ?_) fun _ u h => push?_safe h.sound reader
    have hsteady : Steady s.forest (s.forest.setKind t (.base flow)) := by
      apply Forest.steady_of_kinds hs.forest.rooted (Forest.size_setKind _ _ _).ge
      · intro x
        rw [Forest.kind_setKind]
        split
        · rename_i e
          rw [← e.1, hk]
          exact Or.inr ⟨rfl, rfl, nofun⟩
        · exact Or.inl rfl
      · intro x n hn
        rwa [Forest.deps_setKind]
    rw [Unifier.change_eq_some.1 h]
    refine ⟨⟨⟨hs.forest.of_steady hsteady (Forest.size_setKind _ _ _) rfl fun x y hy => ?_,
      fun p hp => ?_⟩, rfl, hsteady.evolves⟩, trivial⟩
    · rw [Forest.kind_setKind] at hy
      split at hy
      · exact absurd hy List.not_mem_nil
      · exact hs.forest.inRange x y hy
    · exact Nat.lt_of_lt_of_le (hs.image p hp) hsteady.size
  | _ => exact safe_pure hs trivial

/-- An argument that is missing is replaced by a term. -/
theorem argument_lt {n : Nat} (hp : p.TermsIn n) (id : NodeId) {formals : List TermId}
    (hformals : ∀ x ∈ formals, x < n) : formals.headD 0 < n := by
  cases formals with
  | nil => exact Nat.lt_of_le_of_lt (Nat.zero_le _) ((hp id).type)
  | cons arg rest => exact hformals arg List.mem_cons_self

include hs in
private theorem wrapArgument_safe {arg ret : TermId} (harg : arg < s.forest.size)
    (hret : ret < s.forest.size) : Safe s Any (p.wrapArgument arg ret) := by
  refine .view (.view (safe_ite (fun _ => Unifier.unify_safe hs harg hret) fun _ => ?_))
  refine (Unifier.alloc_safe hs rfl ?_).bind fun wrapped s₁ h₁ hwrapped => ?_
  · exact List.forall_mem_singleton.2 hret
  refine (Unifier.find_safe h₁.sound hwrapped).bind fun wrapped' s₂ h₂ hwrapped' => ?_
  exact Unifier.unify_safe h₂.sound hwrapped' (h₂.lt (h₁.lt harg))

include hs hp in
/-- The step of a node that is not nil is safe. -/
theorem notNilStep_safe (id : NodeId) : Safe s Any (p.notNilStep id) := by
  refine (formalsOf_safe hs hp id).bind fun formals s₁ h₁ hformals => ?_
  have hp₁ := hp.mono h₁.size
  have harg := argument_lt hp₁ id hformals
  dsimp only
  generalize formals.headD 0 = arg at harg ⊢
  refine .view (safe_ite (fun _ => safe_pure h₁.sound trivial) fun _ => ?_)
  refine (typeOf_safe h₁.sound hp₁ id).bind fun me s₂ h₂ hme => ?_
  refine (Unifier.child_safe h₂.sound me .ret).bind fun ret? s₃ h₃ hret => ?_
  cases ret? with
  | none => exact safe_pure h₃.sound trivial
  | some ret =>
    have hret := hret ret rfl
    have harg₃ := h₃.lt (h₂.lt harg)
    refine safe_ite (fun _ => safe_pure h₃.sound trivial) fun _ => .view ?_
    refine .either h₃.sound (fun s₄ h₄ => ?_) fun hrest => ?_
    · have hret := h₄.lt hret
      have harg := h₄.lt harg₃
      have hother : Safe s₄ Any
          (p.wrapUnaligned arg ret (s₄.forest.kind arg) (s₄.forest.kind ret)) := by
        refine .next (safe_ite (fun _ => isAligned_safe h₄.sound _ _) fun _ =>
          safe_pure h₄.sound trivial) fun aligned s₅ h₅ => safe_ite (fun _ => ?_) fun _ => ?_
        · exact safe_pure h₅.sound trivial
        · exact .guard h₅.sound trivial fun _ => wrapArgument_safe h₅.sound (h₅.lt harg) (h₅.lt hret)
      refine .view (.view ?_)
      cases hka : (s₄.forest.kind arg).baseFlow? with
      | none => exact hother
      | some a =>
        cases hkr : (s₄.forest.kind ret).baseFlow? with
        | none => exact hother
        | some r =>
          refine safe_ite (fun _ => safe_pure h₄.sound trivial) fun _ =>
            .guard h₄.sound trivial fun _ => ?_
          refine (setBase_safe h₄.sound _ _ _).next fun _ s₅ h₅ => ?_
          exact (setBase_safe h₅.sound _ _ _).next fun _ s₆ h₆ => safe_pure h₆.sound trivial
    · refine (Unifier.child_safe h₃.sound _ .inner).bind fun inner? s₄ h₄ _ => ?_
      exact safe_ite (fun _ => safe_pure h₄.sound trivial) fun _ => hrest s₄ h₄

include hs hp in
/-- Every type step continues, with or without a worklist. -/
theorem typeStep_safe (flows : Flows) (id : NodeId) : Safe s Any (p.typeStep flows id) := by
  unfold typeStep
  split
  · exact safe_pure hs trivial
  · exact safe_pure hs trivial
  · rename_i hk
    exact identStep_safe hs hp id (hp.binding hk)
  · exact lambdaStep_safe hs hp id _
  · exact applyStep_safe hs hp id _ _
  · rename_i body hk
    refine (typeOf_safe hs hp id).bind fun me s₁ h₁ hme => ?_
    refine (typeOf_safe h₁.sound (hp.mono h₁.size) body).bind fun b s₂ h₂ hb => ?_
    exact Unifier.unify_safe h₂.sound (h₂.lt hme) hb
  · exact recordStep_safe hs hp id _ _ _
  · exact fieldStep_safe hs hp id _ _
  · exact condStep_safe hs hp flows id _
  · exact notNilStep_safe hs hp id
  · exact primitiveStep_safe hs hp id

end Steps

end Program

end TypeFlow
