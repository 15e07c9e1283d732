import TypeFlow.Proofs.FaithfulInstantiations
import TypeFlow.Proofs.TypeStepProbes

/-!
# Probes of type steps are faithful

A type step chains look-ups, unifications and instantiations, and leaves early where a probe sees
that something would be changed.  Its probe answers what the step answers, and a step that answers
`false` added no term and merged no class.

Main definitions:

- `Unifier.Rests`: no term was added and no class merged.
- `Unifier.Honest`: two computations answer the same, and unless their answer shows a change the
  first one rests.

Main results:

- `Program.typeStep_honest`: every type step and its probe are honest.
-/

namespace TypeFlow

open Forest (IsClass Steady)

namespace Unifier

variable {α β : Type} {s t u : Unifier} {moved : α → Prop} {moved' : β → Prop}

namespace Faithful

/-- A computation may ask whether it only probes. -/
theorem ask {k k' : Bool → UnifyM α} (hs : s.Ready) (h : Faithful moved (k false) (k' true) s) :
    Faithful moved (isProbe >>= k) (isProbe >>= k') s := by
  intro a u hr
  have hk : k s.work.isNone s = some (a, u) := hr
  rw [hs.commits] at hk
  exact h a u hk

/-- What follows something that is done in one case only goes on either way. -/
theorem either {c : Prop} [Decidable c] {m rest : UnifyM α} (hs : s.Ready)
    (hrest : ∀ u, Idle s u → Faithful moved rest rest u)
    (hthen : (∀ u, Idle s u → Faithful moved rest rest u) → Faithful moved m m s) :
    Faithful moved (if c then m else rest) (if c then m else rest) s := by
  split
  · exact hthen hrest
  · exact hrest s (.refl hs)

end Faithful

private theorem pure_observes (hs : s.Ready) (a : α) : Observes (pure a) s := by
  intro b u h
  obtain ⟨rfl, rfl⟩ := pure_eq_some.1 h
  exact ⟨.refl hs, rfl⟩

/-- Looks in turn are looks. -/
theorem Observes.bind {m : UnifyM β} {k : β → UnifyM α} (hm : Observes m s)
    (hk : ∀ b u, m s = some (b, u) → Idle s u → Observes (k b) u) : Observes (m >>= k) s := by
  intro a u h
  obtain ⟨b, s₁, hb, h⟩ := bind_eq_some.1 h
  obtain ⟨hidle, hprobe⟩ := hm b s₁ hb
  obtain ⟨hidle', hprobe'⟩ := hk b s₁ hb hidle a u h
  exact ⟨hidle.trans hidle', bind_eq_some.2 ⟨b, _, hprobe, hprobe'⟩⟩

private theorem Observes.ite {c : Prop} [Decidable c] {m m' : UnifyM α} (h : Observes m s)
    (h' : Observes m' s) : Observes (if c then m else m') s := by
  split
  · exact h
  · exact h'

private theorem Observes.view {read : Forest → β} {k : β → UnifyM α} (h : Observes (k (read s.forest)) s) :
    Observes (Unifier.view read >>= k) s := h

/-- A unification answers whether its terms were two classes. -/
theorem unify_eq_true_iff {depth : Nat} {a b : TermId} {r : Bool} (hs : s.Sound)
    (ha : a < s.forest.size) (hb : b < s.forest.size) (h : unify depth a b s = some (r, u)) :
    r = true ↔ s.forest.rep a ≠ s.forest.rep b := by
  rcases unify_answer hs ha hb h with ⟨rfl, hne⟩ | ⟨rfl, -, heq⟩
  · exact ⟨fun _ => hne, fun _ => rfl⟩
  · exact ⟨fun hfalse => (Bool.false_ne_true hfalse).elim, fun hne => absurd heq hne⟩

/-- Terms of two classes are merged by a unification. -/
theorem unify_yields {depth : Nat} {a b : TermId} {r : Bool} (hs : s.Sound) (ha : a < s.forest.size)
    (hb : b < s.forest.size) (hne : s.forest.rep a ≠ s.forest.rep b)
    (h : unify depth a b s = some (r, u)) : r = true := (unify_eq_true_iff hs ha hb h).2 hne

/-- The probe of the computation is faithful. -/
abbrev Foretells (moved : α → Prop) (m : UnifyM α) (s : Unifier) : Prop := Faithful moved m m s

/-! ## Honest computations -/

/-- No term was added and no class merged. -/
structure Rests (s u : Unifier) : Prop where
  steady : Steady s.forest u.forest
  size : u.forest.size = s.forest.size
  unions : u.forest.unions = s.forest.unions

private theorem rests_of_upkeeps (hs : s.Sound) (h : s.forest.Upkeeps u.forest) : Rests s u :=
  ⟨h.steady hs.forest.rooted, h.size, h.unions⟩

private theorem Idle.rests (hs : s.Ready) (h : Idle s u) : Rests s u := rests_of_upkeeps hs.sound h.upkeeps

private theorem Rests.trans (h : Rests s t) (h' : Rests t u) : Rests s u :=
  ⟨h.steady.trans h'.steady, h'.size.trans h.size, h'.unions.trans h.unions⟩

private theorem rests_addDeps (hs : s.Sound) (x : TermId) (nodes : List NodeId) :
    Rests s { s with forest := s.forest.addDeps x nodes } where
  steady := Forest.addDeps_steady hs.forest.rooted x nodes
  size := Forest.size_addDeps _ _ _
  unions := Forest.unions_addDeps _ _ _

/-- A unification of terms of one class merges nothing. -/
theorem unify_rests {depth : Nat} {a b : TermId} (hs : s.Sound) (ha : a < s.forest.size)
    (hb : b < s.forest.size) (h : unify depth a b s = some (false, u)) : Rests s u := by
  rcases unify_answer hs ha hb h with ⟨hfalse, -⟩ | ⟨-, hup, -⟩
  · cases hfalse
  · exact rests_of_upkeeps hs hup

/-- A probe looks up the same child as a step that registered with a class before. -/
theorem child_registered {x y : TermId} {slot : Slot} {nodes : List NodeId} {r r' : Option TermId}
    (hs : s.Sound) (h : child x slot { s with forest := s.forest.addDeps y nodes } = some (r, t))
    (h' : child x slot s.probing = some (r', u)) : r' = r := by
  rw [child_eq (hs.change (.register y nodes)) h, child_eq hs.probing h',
    funext (rests_addDeps hs y nodes).steady.rep, Forest.kind_addDeps]
  rfl

/-- If a run of the first computation does not rest, its answer and all answers of the second one as
a probe show that.  Else all of them are the same. -/
def Honest (moved : α → Prop) (m m' : UnifyM α) (s : Unifier) : Prop :=
  ∀ a u, m s = some (a, u) →
    (Rests s u ∧ ∀ b v, m' s.probing = some (b, v) → b = a) ∨
      (moved a ∧ ∀ b v, m' s.probing = some (b, v) → moved b)

/-- What a probe tells of faithfully it tells of honestly. -/
theorem Faithful.honest {m m' : UnifyM α} (hs : s.Ready) (h : Faithful moved m m' s) :
    Honest moved m m' s := by
  intro a u hr
  rcases h a u hr with ⟨hidle, hsame⟩ | hmoved
  · exact Or.inl ⟨hidle.rests hs, fun b v hr' => (hsame b v hr').1⟩
  · exact Or.inr hmoved

namespace Honest

/-- A probe that answers the same is honest, if the answer `false` shows a rest. -/
theorem of_same {m m' : UnifyM Bool}
    (h : ∀ a u, m s = some (a, u) →
      (a = false → Rests s u) ∧ ∀ b v, m' s.probing = some (b, v) → b = a) :
    Honest (· = true) m m' s := by
  intro a u hr
  obtain ⟨hrests, hsame⟩ := h a u hr
  cases a with
  | false => exact Or.inl ⟨hrests rfl, hsame⟩
  | true => exact Or.inr ⟨rfl, hsame⟩

private theorem observe {m : UnifyM β} {k k' : β → UnifyM α} (hs : s.Ready) (hm : Observes m s)
    (hk : ∀ b u, m s = some (b, u) → Idle s u → Honest moved (k b) (k' b) u) :
    Honest moved (m >>= k) (m >>= k') s := by
  intro a u h
  obtain ⟨b, s₁, hb, h⟩ := bind_eq_some.1 h
  obtain ⟨hidle, hprobe⟩ := hm b s₁ hb
  have hsame : ∀ c v, (m >>= k') s.probing = some (c, v) → k' b s₁.probing = some (c, v) := by
    intro c v h'
    obtain ⟨b', s₁', hb', h'⟩ := bind_eq_some.1 h'
    rw [hprobe] at hb'
    cases hb'
    exact h'
  rcases hk b s₁ hb hidle a u h with ⟨hrests, hrun⟩ | ⟨hmoved, hrun⟩
  · exact Or.inl ⟨(hidle.rests hs).trans hrests, fun c v h' => hrun c v (hsame c v h')⟩
  · exact Or.inr ⟨hmoved, fun c v h' => hrun c v (hsame c v h')⟩

private theorem bind {m : UnifyM β} {k : β → UnifyM α} (hs : s.Ready) (hm : Faithful moved' m m s)
    (hk : ∀ b u, m s = some (b, u) → Idle s u → ¬moved' b → Honest moved (k b) (k b) u)
    (hmoved : ∀ b, moved' b → Yields moved (k b)) : Honest moved (m >>= k) (m >>= k) s := by
  intro a u h
  obtain ⟨b, s₁, hb, h⟩ := bind_eq_some.1 h
  rcases hm b s₁ hb with ⟨hidle, hsame⟩ | ⟨hbm, hyes⟩
  · by_cases hbm : moved' b
    · refine Or.inr ⟨hmoved b hbm s₁ a u h, fun c v h' => ?_⟩
      obtain ⟨b', s₁', hb', h'⟩ := bind_eq_some.1 h'
      obtain ⟨rfl, -⟩ := hsame b' s₁' hb'
      exact hmoved b' hbm s₁' c v h'
    have hcont : ∀ c v, (m >>= k) s.probing = some (c, v) → k b s₁.probing = some (c, v) := by
      intro c v h'
      obtain ⟨b', s₁', hb', h'⟩ := bind_eq_some.1 h'
      obtain ⟨rfl, rfl⟩ := hsame b' s₁' hb'
      exact h'
    rcases hk b s₁ hb hidle hbm a u h with ⟨hrests, hrun⟩ | ⟨hmoved, hrun⟩
    · exact Or.inl ⟨(hidle.rests hs).trans hrests, fun c v h' => hrun c v (hcont c v h')⟩
    · exact Or.inr ⟨hmoved, fun c v h' => hrun c v (hcont c v h')⟩
  · refine Or.inr ⟨hmoved b hbm s₁ a u h, fun c v h' => ?_⟩
    obtain ⟨b', s₁', hb', h'⟩ := bind_eq_some.1 h'
    exact hmoved b' (hyes b' s₁' hb') s₁' c v h'

private theorem view {read : Forest → β} {k k' : β → UnifyM α}
    (hk : Honest moved (k (read s.forest)) (k' (read s.forest)) s) :
    Honest moved (Unifier.view read >>= k) (Unifier.view read >>= k') s := hk

private theorem ask {k k' : Bool → UnifyM α} (hs : s.Ready) (h : Honest moved (k false) (k' true) s) :
    Honest moved (isProbe >>= k) (isProbe >>= k') s := by
  intro a u hr
  have hk : k s.work.isNone s = some (a, u) := hr
  rw [hs.commits] at hk
  exact h a u hk

private theorem ite {c : Prop} [Decidable c] {m₁ m₂ m₁' m₂' : UnifyM α}
    (h : c → Honest moved m₁ m₁' s) (h' : ¬c → Honest moved m₂ m₂' s) :
    Honest moved (if c then m₁ else m₂) (if c then m₁' else m₂') s := by
  split
  · rename_i hc
    exact h hc
  · rename_i hc
    exact h' hc

/-- Where a probe ends a change is made first, and what follows goes on from it or from nothing. -/
theorem start {c : Bool} {m : UnifyM α} {a : α} {b : β} {k : β → UnifyM α} (hs : s.Ready)
    (ha : moved a) (hk : Honest moved (k b) (k b) s)
    (hmoved : ∀ b, moved' b → Yields moved (k b))
    (hm : (∀ b, moved' b → Yields moved (k b)) → ∀ a u, m s = some (a, u) → moved a) :
    Honest moved
      (isProbe >>= fun probing => if c && probing then pure a else if c then m else pure b >>= k)
      (isProbe >>= fun probing => if c && probing then pure a else if c then m else pure b >>= k)
      s := by
  refine .ask hs ?_
  cases c with
  | true =>
    refine fun a' u h => Or.inr ⟨hm hmoved a' u h, fun a'' v h' => ?_⟩
    rw [← (pure_eq_some.1 h').1]
    exact ha
  | false => exact hk

end Honest

/-! ## New terms -/

/-- A term is merged with one that was added after it. -/
theorem unify_new_yields {depth : Nat} {a x : TermId} {r : Bool} (hs : s.Sound)
    (ha : a < s.forest.size) (hx : x < s.forest.size) (hlt : s.forest.rep a < s.forest.rep x)
    (h : unify depth a x s = some (r, u) ∨ unify depth x a s = some (r, u)) : r = true := by
  have hne := Nat.ne_of_lt hlt
  rcases h with h | h
  · exact unify_yields hs ha hx hne h
  · exact unify_yields hs hx ha hne.symm h

private theorem alloc_new {kind : Kind} {x : TermId} (hs : s.Sound) (hlink : kind.isLink = false)
    (hchildren : ∀ y ∈ kind.children, y < s.forest.size) (h : alloc kind s = some (x, t)) :
    t.Sound ∧ Steady s.forest t.forest ∧ t.forest.IsClass x ∧ s.forest.size ≤ x := by
  obtain ⟨rfl, rfl⟩ := alloc_eq_some.1 h
  obtain ⟨hp, hsteady, hclass, -⟩ := add_proceeds hs ⟨kind, .empty, false⟩ hlink hchildren
  exact ⟨hp.sound, hsteady, hclass, le_rfl⟩

private theorem unify_alloc_yields {depth : Nat} {kind : Kind} {a x : TermId} {r : Bool} (hs : s.Sound)
    (hlink : kind.isLink = false) (hchildren : ∀ y ∈ kind.children, y < s.forest.size)
    (ha : a < s.forest.size) (halloc : alloc kind s = some (x, t))
    (h : unify depth a x t = some (r, u) ∨ unify depth x a t = some (r, u)) : r = true := by
  obtain ⟨ht, hsteady, hclass, hnew⟩ := alloc_new hs hlink hchildren halloc
  refine unify_new_yields ht (Nat.lt_of_lt_of_le ha hsteady.size) hclass.lt ?_ h
  rw [hsteady.rep, hclass.rep_eq]
  exact Nat.lt_of_lt_of_le (Forest.rep_lt_size hs.forest.rooted ha) hnew

private theorem unify_error_yields {depth : Nat} {cause : TypeError} {a x : TermId} {r : Bool}
    (hs : s.Sound) (ha : a < s.forest.size) (halloc : alloc (.error cause) s = some (x, t))
    (h : unify depth a x t = some (r, u) ∨ unify depth x a t = some (r, u)) : r = true :=
  unify_alloc_yields hs rfl (fun _ hy => absurd hy List.not_mem_nil) ha halloc h

private theorem unify_function_yields {depth : Nat} {args : List TermId} {ret a x : TermId} {r : Bool}
    (hs : s.Sound) (hargs : ∀ y ∈ args, y < s.forest.size) (hret : ret < s.forest.size)
    (ha : a < s.forest.size)
    (halloc : some ((s.forest.allocFunction true .empty args ret).1,
      { s with forest := (s.forest.allocFunction true .empty args ret).2 }) = some (x, t))
    (h : unify depth a x t = some (r, u)) : r = true := by
  obtain ⟨rfl, rfl⟩ : (s.forest.allocFunction true .empty args ret).1 = x ∧
      { s with forest := (s.forest.allocFunction true .empty args ret).2 } = t := by
    cases halloc
    exact ⟨rfl, rfl⟩
  obtain ⟨hext, hnew, hsize, -⟩ := Forest.allocFunction_extends hs.forest.rooted true .empty args ret
  have hbecomes : s.forest.Becomes (s.forest.allocFunction true .empty args ret).2 := by
    refine Forest.becomes_allocFunction fun y hy => ?_
    rcases List.mem_append.1 hy with hy | hy
    · exact hargs y hy
    · rwa [List.mem_singleton.1 hy]
  refine unify_new_yields (Continues.change hs hbecomes).sound (Nat.lt_of_lt_of_le ha hext.size) ?_
    ?_ (Or.inl h)
  · rw [hnew]
    exact Nat.lt_of_lt_of_eq (Nat.lt_succ_self _) hsize.symm
  · refine Nat.lt_of_lt_of_le ?_ (hext.fresh _ hnew.ge)
    show (s.forest.allocFunction true .empty args ret).2.rep a < s.forest.size
    rw [hext.rep _ ha]
    exact Forest.rep_lt_size hs.forest.rooted ha

end Unifier

open Unifier (Idle Faithful Foretells Observes Honest Rests yields_of_ne_false pure_observes
  find_observes child_observes unify_faithful)

namespace Program

section Steps

variable {p : Program} {s : Unifier} (hs : s.Ready) (hp : p.TermsIn s.forest.size)

/-! ## Looks of a step -/

include hs in
private theorem typeOf_observes (id : NodeId) : Observes (p.typeOf id) s := find_observes hs _

/-- What the type of a node is looked up to is a class. -/
theorem typeOf_isClass {u : Unifier} {id : NodeId} {t : TermId} (hs : s.Ready)
    (hp : p.TermsIn s.forest.size) (h : p.typeOf id s = some (t, u)) : u.forest.IsClass t :=
  Unifier.isClass_of_find hs.sound ((hp id).type) h

include hs in
private theorem findAll_observes (types : List TermId) :
    Observes (Unifier.onForest (Forest.findAll types)) s :=
  Unifier.onForest_observes (Forest.keepsUp_findAll types) hs

include hs in
private theorem formalsOf_observes (id : NodeId) : Observes (p.formalsOf id) s := by
  unfold formalsOf
  split
  · exact findAll_observes hs _
  · exact pure_observes hs _

include hs in
private theorem typesOf_observes (ids : List NodeId) : Observes (p.typesOf ids) s := by
  induction ids generalizing s with
  | nil => exact pure_observes hs _
  | cons id rest ih =>
    refine (typeOf_observes hs id).bind fun t s₁ _ h₁ => ?_
    exact (ih h₁.ready).bind fun ts s₂ _ h₂ => pure_observes h₂.ready _

/-- The terms of a program stay terms. -/
theorem TermsIn.idle {u : Unifier} (hp : p.TermsIn s.forest.size) (h : Idle s u) :
    p.TermsIn u.forest.size := hp.mono (h.upkeeps.size).ge

private theorem lt_of_idle {u : Unifier} (h : Idle s u) {x : TermId} (hx : x < s.forest.size) :
    x < u.forest.size := Nat.lt_of_lt_of_eq hx h.upkeeps.size.symm

/-! ## Steps -/

include hs hp in
private theorem passError_faithful (id : NodeId) {error : TermId} (herror : error < s.forest.size) :
    Foretells (· = true) (p.passError id error false) s := by
  refine .observe (typeOf_observes hs id) fun me s₁ hme h₁ => ?_
  have hme := (typeOf_isClass hs hp hme).lt
  refine .bind_same (unify_faithful h₁.ready hme (lt_of_idle h₁ herror))
    (fun passed s₂ _ h₂ _ => .pure h₂.ready _) ?_
  rintro _ rfl
  exact yields_pure rfl

private theorem passError_yields (id : NodeId) (error : TermId) :
    Yields (· = true) (p.passError id error true) :=
  yields_bind fun _ => yields_bind fun _ => yields_pure (Bool.or_true _)

include hs hp in
private theorem identStep_faithful (id : NodeId) {binding : TermId} (hbinding : binding < s.forest.size) :
    Foretells (· = true) (p.identStep id binding) s := by
  refine .observe (find_observes hs binding) fun r s₁ hr h₁ => ?_
  refine .observe (typeOf_observes h₁.ready id) fun me s₂ hme h₂ => ?_
  refine .observe (findAll_observes h₂.ready _) fun pinned s₃ _ h₃ => ?_
  have hr := (Unifier.isClass_of_find hs.sound hbinding hr).lt
  have hme := (typeOf_isClass h₁.ready (hp.idle h₁) hme).lt
  exact Unifier.instantiate_faithful h₃.ready (lt_of_idle (h₂.trans h₃) hr) (lt_of_idle h₃ hme)

private theorem unifyParameters_yields (fn : TermId) (i : Nat) (formals : List TermId) :
    Yields (· = true) (p.unifyParameters fn i formals true) := by
  induction formals generalizing i with
  | nil => exact yields_pure rfl
  | cons formal rest ih =>
    exact yields_bind_option (ih _) fun arg => yields_bind fun changed => ih _

private theorem unifyParameters_faithful (hs : s.Ready) (fn : TermId) (i : Nat) {formals : List TermId}
    (hformals : ∀ x ∈ formals, x < s.forest.size) : Foretells (· = true)
      (p.unifyParameters fn i formals false) s := by
  induction formals generalizing s i with
  | nil => exact .pure hs _
  | cons formal rest ih =>
    obtain ⟨hformal, hrest⟩ := List.forall_mem_cons.1 hformals
    refine .observe (child_observes hs fn (.arg i)) fun arg? s₁ harg h₁ => ?_
    have harg := (Unifier.child_looks hs.sound harg).2
    cases arg? with
    | none => exact ih h₁.ready _ fun x hx => lt_of_idle h₁ (hrest x hx)
    | some arg =>
      refine .bind_same (unify_faithful h₁.ready (harg arg rfl).lt (lt_of_idle h₁ hformal))
        (fun changed s₂ _ h₂ hchanged => ?_) ?_
      · rw [Bool.not_eq_true] at hchanged
        subst hchanged
        exact ih h₂.ready _ fun x hx => lt_of_idle (h₁.trans h₂) (hrest x hx)
      · rintro _ rfl
        exact unifyParameters_yields _ _ _

include hs hp in
private theorem lambdaStep_faithful (id body : NodeId) :
    Foretells (· = true) (p.lambdaStep id body) s := by
  refine .observe (typeOf_observes hs id) fun fn s₁ hfn h₁ => .view (.ite (fun _ => ?_) fun _ => ?_)
  · exact .pure h₁.ready _
  have hp₁ := hp.idle h₁
  refine .observe (formalsOf_observes h₁.ready id) fun formals s₂ hformals h₂ => ?_
  have hformals := (formalsOf_safe h₁.ready.sound hp₁ id _ _ hformals).2
  refine .bind_same (unifyParameters_faithful h₂.ready fn 0 hformals)
    (fun progress s₃ _ h₃ hprogress => ?_) ?_
  · rw [Bool.not_eq_true] at hprogress
    subst hprogress
    have hp₃ := hp₁.idle (h₂.trans h₃)
    refine .observe (typeOf_observes h₃.ready body) fun result s₄ hresult h₄ => ?_
    refine .observe (child_observes h₄.ready fn .ret) fun slot? s₅ hslot h₅ => ?_
    cases slot? with
    | none => exact .pure h₅.ready _
    | some slot =>
      have hslot := ((Unifier.child_looks h₄.ready.sound hslot).2 slot rfl).lt
      have hresult := lt_of_idle h₅ (typeOf_isClass h₃.ready hp₃ hresult).lt
      refine .bind_same (unify_faithful h₅.ready hslot hresult)
        (fun changed s₆ _ h₆ _ => .pure h₆.ready _) ?_
      rintro _ rfl
      exact yields_pure rfl
  · rintro _ rfl
    exact yields_bind fun result => yields_bind_option (yields_pure rfl) fun slot =>
      yields_bind fun changed => yields_pure (Bool.or_true _)

/-- How a call ends shows whether something was changed. -/
theorem endCall_yields (id : NodeId) (callee : TermId) :
    Yields (· = true) (p.endCall id callee true) :=
  yields_bind fun callee' => yields_bind fun _ =>
    yields_ite (passError_yields id callee') (yields_pure rfl)

include hs hp in
private theorem endCall_faithful (id : NodeId) {callee : TermId} (hcallee : callee < s.forest.size) :
    Foretells (· = true) (p.endCall id callee false) s := by
  refine .observe (find_observes hs callee) fun callee' s₁ hcallee' h₁ => .view (.ite (fun _ => ?_)
    fun _ => .pure h₁.ready _)
  exact passError_faithful h₁.ready (hp.idle h₁) id
    (Unifier.isClass_of_find hs.sound hcallee hcallee').lt

include hs hp in
/-- A callee that is no function yet is merged with the function that the call builds. -/
theorem callUnknown_faithful (id : NodeId) {callee : TermId} (hcallee : callee < s.forest.size)
    (args : List NodeId) :
    Foretells (· = true) (p.callUnknown id callee args) s := by
  refine .guard hs rfl fun b u h => ?_
  obtain ⟨actuals, s₁, hactuals, h⟩ := bind_eq_some.1 h
  obtain ⟨me, s₂, hme, h⟩ := bind_eq_some.1 h
  obtain ⟨shape, s₃, hshape, h⟩ := bind_eq_some.1 h
  obtain ⟨progress, s₄, hunify, hrest⟩ := bind_eq_some.1 h
  have h₁ := typesOf_observes hs args _ _ hactuals |>.1
  have h₂ := h₁.trans (typeOf_observes h₁.ready id _ _ hme).1
  have hactuals := (typesOf_safe hs.sound hp args _ _ hactuals).2
  have hme := (typeOf_isClass h₁.ready (hp.idle h₁) hme).lt
  have hactuals : ∀ x ∈ actuals, x < s₂.forest.size := fun x hx => by
    rw [h₂.upkeeps.size, ← h₁.upkeeps.size]
    exact hactuals x hx
  have hprogress : progress = true := Unifier.unify_function_yields h₂.ready.sound hactuals hme
    (lt_of_idle h₂ hcallee) hshape hunify
  subst hprogress
  exact endCall_yields id callee _ _ _ hrest

/-- How far a call got shows that something was changed. -/
def CallOutcome.Moved : CallOutcome → Prop
  | .finished progress | .ongoing _ progress => progress = true

private theorem nextArgument_yields (id : NodeId) (i : Nat) {rest : List NodeId} (callee : TermId)
    (hrest : ∀ callee, Yields CallOutcome.Moved (p.unifyArguments id (i + 1) rest callee true)) :
    Yields CallOutcome.Moved (p.nextArgument id i rest callee true) := by
  refine yields_bind fun probing => yields_ite (yields_pure rfl) ?_
  refine yields_bind fun callee' => yields_bind fun k => yields_ite ?_ (hrest callee')
  exact (passError_yields id callee').bind fun b hb => yields_pure hb

private theorem unifyArguments_yields (id : NodeId) (i : Nat) (args : List NodeId) (callee : TermId) :
    Yields CallOutcome.Moved (p.unifyArguments id i args callee true) := by
  induction args generalizing i callee with
  | nil => exact yields_pure rfl
  | cons arg rest ih =>
    have hnext := nextArgument_yields id i callee (ih (i + 1))
    refine yields_bind_option hnext fun formal => ?_
    exact yields_bind fun actual => yields_bind fun changed => hnext

include hs hp in
/-- As long as nothing was changed the probe goes on to the next argument like the step. -/
theorem nextArgument_faithful (id : NodeId) (i : Nat) {rest : List NodeId} {callee : TermId}
    (hcallee : callee < s.forest.size)
    (hrest : ∀ callee u, Idle s u → callee < u.forest.size →
      Foretells CallOutcome.Moved (p.unifyArguments id (i + 1) rest callee false) u) :
    Foretells CallOutcome.Moved (p.nextArgument id i rest callee false) s := by
  refine .ask hs (.observe (find_observes hs callee) fun callee' s₁ hcallee' h₁ => ?_)
  have hcallee' := (Unifier.isClass_of_find hs.sound hcallee hcallee').lt
  refine .view (.ite (fun _ => ?_) fun _ => hrest callee' s₁ h₁ hcallee')
  refine .bind_same (passError_faithful h₁.ready (hp.idle h₁) id hcallee')
    (fun b s₂ _ h₂ _ => .pure h₂.ready _) ?_
  exact fun b hb => yields_pure hb

include hs hp in
private theorem unifyArguments_faithful (id : NodeId) (i : Nat) (args : List NodeId) {callee : TermId}
    (hcallee : callee < s.forest.size) : Foretells CallOutcome.Moved
      (p.unifyArguments id i args callee false) s := by
  induction args generalizing s i callee with
  | nil => exact .pure hs _
  | cons arg rest ih =>
    have hnext : ∀ s₂, Idle s s₂ →
        Foretells CallOutcome.Moved (p.nextArgument id i rest callee false) s₂ := fun s₂ h₂ =>
      nextArgument_faithful h₂.ready (hp.idle h₂) id i (lt_of_idle h₂ hcallee)
        fun callee' s₃ h₃ hcallee' => ih h₃.ready (hp.idle (h₂.trans h₃)) _ hcallee'
    refine .observe (child_observes hs callee (.arg i)) fun formal? s₁ hformal h₁ => ?_
    cases formal? with
    | none => exact hnext s₁ h₁
    | some formal =>
      have hformal := ((Unifier.child_looks hs.sound hformal).2 formal rfl).lt
      refine .observe (typeOf_observes h₁.ready arg) fun actual s₂ hactual h₂ => ?_
      have hactual := (typeOf_isClass h₁.ready (hp.idle h₁) hactual).lt
      refine .bind_same (unify_faithful h₂.ready (lt_of_idle h₂ hformal) hactual)
        (fun changed s₃ _ h₃ hchanged => ?_) ?_
      · rw [Bool.not_eq_true] at hchanged
        subst hchanged
        exact hnext s₃ ((h₁.trans h₂).trans h₃)
      · rintro _ rfl
        exact nextArgument_yields id i callee (unifyArguments_yields id (i + 1) rest)

include hs hp in
private theorem applyStep_honest (id fn : NodeId) (args : List NodeId) :
    Honest (· = true) (p.applyStep id fn args) (p.applyStep id fn args) s := by
  refine .observe hs (typeOf_observes hs fn) fun callee s₁ hcallee h₁ => .view (.ite (fun _ => ?_)
    fun _ => .ite (fun _ => ?_) fun _ => ?_)
  · exact (passError_faithful h₁.ready (hp.idle h₁) id (typeOf_isClass hs hp hcallee).lt).honest
      h₁.ready
  · exact (callUnknown_faithful h₁.ready (hp.idle h₁) id (typeOf_isClass hs hp hcallee).lt
      args).honest h₁.ready
  have hp₁ := hp.idle h₁
  have hcallee := (typeOf_isClass hs hp hcallee).lt
  refine .observe h₁.ready (typeOf_observes h₁.ready id) fun me s₂ hme h₂ => .view ?_
  have hme := (typeOf_isClass h₁.ready hp₁ hme).lt
  have hp₂ := hp₁.idle h₂
  refine .start h₂.ready rfl (.bind h₂.ready (unifyArguments_faithful h₂.ready hp₂ id 0 args
    (lt_of_idle h₂ hcallee)) (fun outcome s₃ houtcome h₃ hmoved => ?_) ?hends)
    (fun progress (hprogress : progress = true) =>
      hprogress ▸ (unifyArguments_yields _ _ _ _).bind ?hends) fun hrest a u h => ?_
  case hends =>
    intro outcome hmoved
    cases outcome with
    | finished progress => exact yields_pure hmoved
    | ongoing callee progress =>
      obtain rfl : progress = true := hmoved
      exact yields_bind fun me => yields_bind_option (endCall_yields id callee) fun result =>
        yields_bind fun changed => endCall_yields id callee
  · have hcallee := (unifyArguments_safe h₂.ready.sound hp₂ id 0 args (lt_of_idle h₂ hcallee) _ _ _
      houtcome).2
    cases outcome with
    | finished progress => exact (Faithful.pure h₃.ready _).honest h₃.ready
    | ongoing callee progress =>
      obtain rfl : progress = false := Bool.not_eq_true _ ▸ hmoved
      have hcallee := hcallee callee false rfl
      have hp₃ := hp₂.idle h₃
      refine Faithful.honest h₃.ready (.observe (typeOf_observes h₃.ready id) fun me s₄ hme h₄ => ?_)
      have hme := (typeOf_isClass h₃.ready hp₃ hme).lt
      refine .observe (child_observes h₄.ready callee .ret) fun result? s₅ hresult h₅ => ?_
      have h₅' := h₄.trans h₅
      cases result? with
      | none => exact endCall_faithful h₅.ready (hp₃.idle h₅') id (lt_of_idle h₅' hcallee)
      | some result =>
        have hresult := ((Unifier.child_looks h₄.ready.sound hresult).2 result rfl).lt
        refine .bind_same (unify_faithful h₅.ready (lt_of_idle h₅ hme) hresult)
          (fun changed s₆ _ h₆ hchanged => ?_) ?_
        · rw [Bool.not_eq_true] at hchanged
          subst hchanged
          have h₆ := h₅'.trans h₆
          exact endCall_faithful h₆.ready (hp₃.idle h₆) id (lt_of_idle h₆ hcallee)
        · rintro _ rfl
          exact endCall_yields id callee
  · -- The call does not have as many arguments as the callee has parameters.
    obtain ⟨error, s₃, herror, h⟩ := bind_eq_some.1 h
    obtain ⟨progress, s₄, hunify, h⟩ := bind_eq_some.1 h
    exact hrest _ (Unifier.unify_error_yields h₂.ready.sound hme herror (Or.inr hunify)) _ _ _ h

private theorem rejectExtra_yields (id : NodeId) (labels : List String) (rec : TermId)
    (remaining : List String) :
    Yields (· ≠ some false) (p.rejectExtra id labels rec remaining true) := by
  induction remaining with
  | nil => exact yields_pure (by simp)
  | cons label rest ih =>
    refine yields_ite ih (yields_bind_option ih fun extra => ?_)
    refine yields_bind fun _ => yields_ite ih (yields_bind fun _ => yields_ite (yields_pure nofun) ?_)
    exact yields_bind fun _ => yields_bind fun _ => yields_bind fun _ => yields_bind fun _ => ih

include hs hp in
private theorem rejectExtra_faithful (id : NodeId) (labels : List String) (rec : TermId)
    (remaining : List String) : Foretells (· ≠ some false)
      (p.rejectExtra id labels rec remaining false) s := by
  induction remaining generalizing s with
  | nil => exact .pure hs _
  | cons label rest ih =>
    refine .ite (fun _ => ih hs hp) fun _ => ?_
    refine .observe (child_observes hs rec (.field label)) fun extra? s₁ hextra h₁ => ?_
    have hp₁ := hp.idle h₁
    cases extra? with
    | none => exact ih h₁.ready hp₁
    | some extra =>
      refine .view (.ite (fun _ => ih h₁.ready hp₁) fun _ => .guard h₁.ready nofun fun b u h => ?_)
      obtain ⟨me, s₂, hme, h⟩ := bind_eq_some.1 h
      have h₂ := (typeOf_observes h₁.ready id _ _ hme).1
      replace h := Unifier.of_bind_view h
      obtain ⟨missing, s₃, hmissing, h⟩ := bind_eq_some.1 h
      obtain ⟨changed, s₄, hunify, h⟩ := bind_eq_some.1 h
      have hextra := ((Unifier.child_looks hs.sound hextra).2 extra rfl).lt
      have hchanged : changed = true := Unifier.unify_error_yields h₂.ready.sound
        (lt_of_idle h₂ hextra) hmissing (Or.inl hunify)
      subst hchanged
      exact rejectExtra_yields id labels rec rest _ _ _ h

private theorem nextPart_yields {rest : List (String × NodeId)} (rec : TermId)
    (hrest : ∀ rec, Yields (·.2 = true) (p.unifyParts rest rec true)) :
    Yields (·.2 = true) (p.nextPart rest rec true) :=
  yields_bind fun _ => yields_ite (yields_pure (by rfl)) (hrest rec)

private theorem unifyParts_yields (fields : List (String × NodeId)) (rec : TermId) :
    Yields (·.2 = true) (p.unifyParts fields rec true) := by
  induction fields generalizing rec with
  | nil => exact yields_pure rfl
  | cons field rest ih =>
    refine yields_bind fun rec' => yields_bind_option (nextPart_yields rec' ih) fun slot => ?_
    exact yields_bind fun _ => yields_bind fun _ => nextPart_yields rec' ih

include hs hp in
private theorem unifyParts_faithful (fields : List (String × NodeId)) {rec : TermId}
    (hrec : rec < s.forest.size) : Foretells (·.2 = true)
      (p.unifyParts fields rec false) s := by
  induction fields generalizing s rec with
  | nil => exact .pure hs _
  | cons field rest ih =>
    refine .observe (find_observes hs rec) fun rec' s₁ hrec' h₁ => ?_
    have hrec' := (Unifier.isClass_of_find hs.sound hrec hrec').lt
    have hp₁ := hp.idle h₁
    have hnext : ∀ s₂, Idle s₁ s₂ → Foretells (·.2 = true) (p.nextPart rest rec' false) s₂ :=
      fun s₂ h₂ => .ask h₂.ready (ih h₂.ready (hp₁.idle h₂) (lt_of_idle h₂ hrec'))
    refine .observe (child_observes h₁.ready rec' (.field field.1)) fun slot? s₂ hslot h₂ => ?_
    cases slot? with
    | none => exact hnext s₂ h₂
    | some slot =>
      have hslot := ((Unifier.child_looks h₁.ready.sound hslot).2 slot rfl).lt
      have hp₂ := hp₁.idle h₂
      refine .observe (typeOf_observes h₂.ready field.2) fun t s₃ ht h₃ => ?_
      have ht := (typeOf_isClass h₂.ready hp₂ ht).lt
      refine .bind_same (unify_faithful h₃.ready (lt_of_idle h₃ hslot) ht)
        (fun changed s₄ _ h₄ hchanged => ?_) ?_
      · rw [Bool.not_eq_true] at hchanged
        subst hchanged
        exact hnext s₄ ((h₂.trans h₃).trans h₄)
      · rintro _ rfl
        exact nextPart_yields rec' (unifyParts_yields rest)

include hs hp in
private theorem recordStep_honest (id : NodeId) (site : SiteId) (labels : List String)
    (parts : List NodeId) : Honest (· = true) (p.recordStep id site labels parts)
      (p.recordStep id site labels parts) s := by
  refine .observe hs (typeOf_observes hs id) fun rec s₁ hrec h₁ => .view (.ite (fun _ => ?_)
    fun _ => ?_)
  · exact (Faithful.pure h₁.ready _).honest h₁.ready
  have hp₁ := hp.idle h₁
  have hrec := (typeOf_isClass hs hp hrec).lt
  have hlast : ∀ rec : TermId, Yields (· = true) (do
      if ← Unifier.isProbe then return true
      let rec ← Unifier.find rec
      Unifier.change (·.addDeps rec [id])
      return true) := fun rec =>
    yields_bind fun _ => yields_ite (yields_pure rfl) (yields_bind fun _ => yields_bind fun _ =>
      yields_pure rfl)
  refine .start h₁.ready rfl (.view (.ite (fun _ => ?_) fun _ => ?_))
    (fun (r : TermId × Bool) (hbuilt : r.2 = true) => ?_) fun hrest b u h => ?_
  · exact (Faithful.pure h₁.ready _).honest h₁.ready
  · refine .bind h₁.ready (rejectExtra_faithful h₁.ready hp₁ id labels rec _)
      (fun progress? s₂ _ h₂ hprogress => ?_) (yields_of_ne_false (yields_pure rfl)
        ((unifyParts_yields _ _).bind fun r hr => ?_))
    · rw [not_not] at hprogress
      subst hprogress
      refine .bind h₂.ready (unifyParts_faithful h₂.ready (hp₁.idle h₂) _ (lt_of_idle h₂ hrec))
        (fun r s₃ _ h₃ hprogress => ?_) fun r hr => ?_
      · -- The step only registers with the record.
        refine .ask h₃.ready fun b u h => Or.inl ?_
        obtain ⟨rec', s₄, hrec', h⟩ := bind_eq_some.1 h
        obtain ⟨v, s₅, hdeps, h⟩ := bind_eq_some.1 h
        obtain ⟨rfl, rfl⟩ := pure_eq_some.1 h
        have h₄ := (find_observes h₃.ready _ _ _ hrec').1
        rw [Unifier.change_eq_some.1 hdeps]
        exact ⟨(h₄.rests h₃.ready).trans (Unifier.rests_addDeps h₄.ready.sound _ _),
          fun c w h' => (pure_eq_some.1 h').1.symm⟩
      · obtain ⟨rec, progress⟩ := r
        obtain rfl : progress = true := hr
        exact hlast rec
    · obtain ⟨rec, progress⟩ := r
      obtain rfl : progress = true := hr
      exact hlast rec
  · obtain ⟨rec, built⟩ := r
    obtain rfl : built = true := hbuilt
    refine yields_bind fun _ => yields_ite (yields_pure rfl) ((rejectExtra_yields _ _ _ _).bind
      (yields_of_ne_false (yields_pure rfl) ((unifyParts_yields _ _).bind fun r hr => ?_)))
    obtain ⟨rec, progress⟩ := r
    obtain rfl : progress = true := hr
    exact hlast rec
  · obtain ⟨types, s₂, htypes, h⟩ := bind_eq_some.1 h
    obtain ⟨shape, s₃, hshape, h⟩ := bind_eq_some.1 h
    obtain ⟨changed, s₄, hunify, h⟩ := bind_eq_some.1 h
    obtain ⟨rec', s₅, hrec', h⟩ := bind_eq_some.1 h
    exact hrest (rec', true) rfl _ _ _ h

/-- A class without the field is merged with a new term, or with an error, or gains the field. -/
theorem addMissing_yields {label : String} {me rec : TermId} {b : Bool} {u : Unifier}
    (hs : s.Ready) (hme : s.forest.IsClass me) (hrec : s.forest.IsClass rec)
    (hokay : (s.forest.kind me).isError = false)
    (h : p.addMissing label me rec s = some (b, u)) : b = true := by
  replace h := Unifier.of_bind_view h
  rcases ite_eq_some.1 h with ⟨herror, h⟩ | ⟨-, h⟩
  · refine Unifier.unify_yields hs.sound hme.lt hrec.lt ?_ h
    rw [hme.rep_eq, hrec.rep_eq]
    rintro rfl
    rw [hokay] at herror
    cases herror
  rcases ite_eq_some.1 h with ⟨hopen, h⟩ | ⟨-, h⟩
  · replace h := Unifier.of_bind_view h
    have hrecord : (s.forest.kind rec).isRecord = true := by
      cases hk : s.forest.kind rec with
      | record fields sites isOpen nil => rfl
      | _ =>
        rw [hk] at hopen
        cases hopen
    rw [if_pos hrecord] at h
    obtain ⟨v₁, s₁, -, h⟩ := bind_eq_some.1 h
    obtain ⟨v₂, s₂, -, h⟩ := bind_eq_some.1 h
    obtain ⟨v₃, s₃, -, h⟩ := bind_eq_some.1 h
    exact (pure_eq_some.1 h).1.symm
  rcases ite_eq_some.1 h with ⟨-, h⟩ | ⟨-, h⟩
  · obtain ⟨v, s₁, hdeps, h⟩ := bind_eq_some.1 h
    obtain ⟨shape, s₂, hshape, h⟩ := bind_eq_some.1 h
    rw [Unifier.change_eq_some.1 hdeps] at hshape
    have hrests := Unifier.rests_addDeps hs.sound me (s.forest.deps rec).toList
    have hs₁ := (Unifier.addDeps_safe hs.sound me _ _ _ hdeps).1.sound
    rw [Unifier.change_eq_some.1 hdeps] at hs₁
    refine Unifier.unify_alloc_yields hs₁ rfl (fun y hy => ?_)
      (Nat.lt_of_lt_of_eq hrec.lt hrests.size.symm) hshape (Or.inr h)
    obtain ⟨l, hl⟩ := Fields.mem_values.1 hy
    rw [(Prod.mk.inj (List.mem_singleton.1 (Fields.mem_of_find?_ofList hl))).2]
    exact Nat.lt_of_lt_of_eq hme.lt hrests.size.symm
  · replace h := Unifier.of_bind_view h
    obtain ⟨missing, s₁, hmissing, h⟩ := bind_eq_some.1 h
    exact Unifier.unify_error_yields hs.sound hme.lt hmissing (Or.inl h)

include hs hp in
private theorem fieldStep_honest (id : NodeId) (label : String) (source : NodeId) :
    Honest (· = true) (p.fieldStep id label source) (p.fieldStep id label source) s := by
  refine .observe hs (typeOf_observes hs id) fun me s₁ hme h₁ => .view (.ite (fun _ => ?_)
    fun hokay => ?_)
  · exact (Faithful.pure h₁.ready _).honest h₁.ready
  have hp₁ := hp.idle h₁
  have hcalm := Unifier.calm_of_find hs.sound hme
  have hme := typeOf_isClass hs hp hme
  refine .observe h₁.ready (typeOf_observes h₁.ready source) fun rec s₂ hrec h₂ => .view ?_
  have hrec := typeOf_isClass h₁.ready hp₁ hrec
  obtain ⟨hkind, hcalm⟩ := h₂.calm h₁.ready hcalm
  have hme := hme.of_steady (h₂.steady h₁.ready)
  rw [Bool.not_eq_true, ← hkind.isError] at hokay
  refine .ite (fun _ => ?_) fun _ => .ask h₂.ready (.of_same fun a u h => ?_)
  · refine Faithful.honest h₂.ready (.guard h₂.ready rfl fun b u h => ?_)
    obtain ⟨error, s₃, herror, h⟩ := bind_eq_some.1 h
    exact Unifier.unify_error_yields h₂.ready.sound hme.lt herror (Or.inl h)
  -- The step registers with the record, and its probe does not.
  rw [if_pos (by rfl)] at h
  obtain ⟨v, s₃, hdeps, h⟩ := bind_eq_some.1 h
  obtain ⟨value?, s₄, hvalue, h⟩ := bind_eq_some.1 h
  obtain rfl := Unifier.change_eq_some.1 hdeps
  have hrests := Unifier.rests_addDeps h₂.ready.sound rec [id]
  have hs₃ : Unifier.Ready { s₂ with forest := s₂.forest.addDeps rec [id] } :=
    ⟨h₂.ready.sound.change (.register rec [id]), h₂.ready.commits⟩
  have h₄ := (child_observes hs₃ rec (.field label) _ _ hvalue).1
  have hsteady₄ := hrests.steady.trans (h₄.steady hs₃)
  cases value? with
  | none =>
    have hokay : (s₄.forest.kind me).isError = false := by
      have hcalm₃ : (s₂.forest.addDeps rec [id]).Calm me :=
        hcalm.of_kinds (Forest.kind_addDeps _ _ · _) hrests.steady.rep
      rw [(h₄.calm hs₃ hcalm₃).1.isError, Forest.kind_addDeps, hokay]
    have ha : a = true := by
      obtain ⟨probing, s₅, hprobing, h⟩ := bind_eq_some.1 h
      obtain ⟨rfl, rfl⟩ := Unifier.isProbe_eq_some.1 hprobing
      rw [h₄.ready.commits, if_neg Bool.false_ne_true] at h
      exact addMissing_yields h₄.ready (hme.of_steady hsteady₄) (hrec.of_steady hsteady₄) hokay h
    subst ha
    refine ⟨fun h => (Bool.false_ne_true h.symm).elim, fun b w h' => ?_⟩
    obtain ⟨value'?, s₅, hvalue', h'⟩ := bind_eq_some.1 h'
    obtain rfl := Unifier.child_registered h₂.ready.sound hvalue hvalue'
    obtain ⟨probing, s₆, hprobing, h'⟩ := bind_eq_some.1 h'
    obtain ⟨rfl, rfl⟩ := Unifier.isProbe_eq_some.1 hprobing
    have hwork := (Unifier.child_looks h₂.ready.sound.probing hvalue').1.work
    rw [hwork, if_pos (by rfl)] at h'
    exact (pure_eq_some.1 h').1.symm
  | some value =>
    have hclass := (Unifier.child_looks hs₃.sound hvalue).2 value rfl
    have hme₄ := hme.of_steady hsteady₄
    refine ⟨?_, fun b w h' => ?_⟩
    · rintro rfl
      exact (hrests.trans (h₄.rests hs₃)).trans
        (Unifier.unify_rests h₄.ready.sound hclass.lt hme₄.lt h)
    obtain ⟨value'?, s₅, hvalue', h'⟩ := bind_eq_some.1 h'
    obtain rfl := Unifier.child_registered h₂.ready.sound hvalue hvalue'
    obtain ⟨hlooks, hclass'⟩ := Unifier.child_looks h₂.ready.sound.probing hvalue'
    have hsteady₅ := hlooks.steady h₂.ready.sound.probing
    rw [Bool.eq_iff_iff, Unifier.unify_eq_true_iff (hlooks.proceeds h₂.ready.sound.probing).sound
        (hclass' value rfl).lt (hme.of_steady hsteady₅).lt h',
      Unifier.unify_eq_true_iff h₄.ready.sound hclass.lt hme₄.lt h, hsteady₅.rep, hsteady₅.rep,
      hsteady₄.rep, hsteady₄.rep]
    rfl

include hs in
private theorem firstError_observes (types : List TermId) : Observes (firstError types) s := by
  induction types with
  | nil => exact pure_observes hs _
  | cons t rest ih => exact .view (.ite (pure_observes hs _) ih)

include hs hp in
private theorem primitiveStep_faithful (id : NodeId) :
    Foretells (· = true) (p.primitiveStep id) s := by
  refine .observe (typeOf_observes hs id) fun me s₁ hme h₁ => .view (.ite (fun _ => ?_) fun _ => ?_)
  · exact .pure h₁.ready _
  have hp₁ := hp.idle h₁
  have hme := (typeOf_isClass hs hp hme).lt
  refine .observe (formalsOf_observes h₁.ready id) fun formals s₂ hformals h₂ => ?_
  have hformals := (formalsOf_safe h₁.ready.sound hp₁ id _ _ hformals).2
  refine .observe (firstError_observes h₂.ready formals) fun error? s₃ herror h₃ => ?_
  have herror := (firstError_safe h₂.ready.sound hformals _ _ herror).2
  cases error? with
  | none => exact .pure h₃.ready _
  | some error =>
    exact unify_faithful h₃.ready (lt_of_idle (h₂.trans h₃) hme) (herror error rfl)

include hs hp in
private theorem condStep_faithful (flows : Flows) (id : NodeId) (fid : FunctionId) :
    Foretells (· = true) (p.condStep flows id fid) s := by
  refine .observe (typeOf_observes hs id) fun me s₁ hme h₁ => ?_
  have hme := (typeOf_isClass hs hp hme).lt
  refine .observe (child_observes h₁.ready me .ret) fun result? s₂ hresult h₂ => ?_
  cases result? with
  | none => exact .pure h₂.ready _
  | some result =>
    have hresult := ((Unifier.child_looks h₁.ready.sound hresult).2 result rfl).lt
    have hp₂ := hp.idle (h₁.trans h₂)
    refine .observe (formalsOf_observes h₂.ready id) fun formals s₃ hformals h₃ => ?_
    have hbranch := branch_lt (formalsOf_safe h₂.ready.sound hp₂ id _ _ hformals).2
      (lt_of_idle (h₂.trans h₃) hme)
    have hresult := lt_of_idle h₃ hresult
    dsimp only
    split
    · exact .pure h₃.ready _
    · exact unify_faithful h₃.ready hresult (hbranch 2)
    · exact unify_faithful h₃.ready hresult (hbranch 1)
    · refine .bind_same (unify_faithful h₃.ready hresult (hbranch 1))
        (fun progress s₄ _ h₄ hprogress => ?_) ?_
      · rw [Bool.not_eq_true] at hprogress
        subst hprogress
        refine .observe (find_observes h₄.ready result) fun result' s₅ hresult' h₅ => ?_
        refine .observe (find_observes h₅.ready _) fun other s₆ hother h₆ => ?_
        have hresult' := Unifier.isClass_of_find h₄.ready.sound (lt_of_idle h₄ hresult) hresult'
        have hother := Unifier.isClass_of_find h₅.ready.sound
          (lt_of_idle (h₄.trans h₅) (hbranch 2)) hother
        refine .bind_same (unify_faithful h₆.ready (lt_of_idle h₆ hresult'.lt) hother.lt)
          (fun changed s₇ _ h₇ _ => .pure h₇.ready _) ?_
        rintro _ rfl
        exact yields_pure rfl
      · rintro _ rfl
        exact yields_bind fun _ => yields_bind fun _ => yields_bind fun _ =>
          yields_pure (Bool.or_true _)

private theorem sameSlots_observes (hs : s.Ready) (a b : TermId) (slots : List Slot) :
    Observes (sameSlots a b slots) s := by
  induction slots generalizing s with
  | nil => exact pure_observes hs _
  | cons slot rest ih =>
    refine (child_observes hs a slot).bind fun x s₁ _ h₁ => ?_
    refine (child_observes h₁.ready b slot).bind fun y s₂ _ h₂ => ?_
    exact .ite (pure_observes h₂.ready _) (ih h₂.ready)

include hs in
private theorem isAligned_observes (arg ret : TermId) : Observes (isAligned arg ret) s := by
  refine .view ((sameSlots_observes hs arg ret _).bind fun same s₁ _ h₁ => ?_)
  exact .ite (pure_observes h₁.ready _) (.view (.view (pure_observes h₁.ready _)))

/-- The argument of `notNil` is merged with its result, or with a new wrapper of it. -/
theorem wrapArgument_yields {arg ret : TermId} {b : Bool} {u : Unifier} (hs : s.Ready)
    (harg : arg < s.forest.size) (hret : s.forest.IsClass ret) (hne : arg ≠ ret)
    (h : p.wrapArgument arg ret s = some (b, u)) : b = true := by
  replace h := Unifier.of_bind_view h
  replace h := Unifier.of_bind_view h
  rcases ite_eq_some.1 h with ⟨hnilable, h⟩ | ⟨-, h⟩
  · have hclass : s.forest.IsClass arg := by
      refine ⟨harg, ?_⟩
      cases hk : s.forest.kind arg with
      | link _ =>
        rw [hk] at hnilable
        cases hnilable
      | _ => rfl
    refine Unifier.unify_yields hs.sound harg hret.lt ?_ h
    rwa [hclass.rep_eq, hret.rep_eq]
  · obtain ⟨wrapped, s₁, hwrapped, h⟩ := bind_eq_some.1 h
    obtain ⟨wrapped', s₂, hfind, h⟩ := bind_eq_some.1 h
    have hchildren : ∀ y ∈ (Kind.nilable ret).children, y < s.forest.size :=
      List.forall_mem_singleton.2 hret.lt
    obtain ⟨hs₁, hsteady, hclass, hnew⟩ := Unifier.alloc_new hs.sound rfl hchildren hwrapped
    obtain ⟨rfl, hlooks⟩ := Unifier.find_looks hs₁ hfind
    have hsteady₂ := hsteady.trans (hlooks.steady hs₁)
    have hclass₂ := hclass.of_steady (hlooks.steady hs₁)
    rw [hclass.rep_eq] at h
    refine Unifier.unify_new_yields (hlooks.proceeds hs₁).sound
      (Nat.lt_of_lt_of_le harg hsteady₂.size) hclass₂.lt ?_ (Or.inr h)
    rw [hsteady₂.rep, hclass₂.rep_eq]
    exact Nat.lt_of_lt_of_le (Forest.rep_lt_size hs.sound.forest.rooted harg) hnew

include hs hp in
private theorem notNilStep_faithful (id : NodeId) :
    Foretells (· = true) (p.notNilStep id) s := by
  refine .observe (formalsOf_observes hs id) fun formals s₁ hformals h₁ => ?_
  have hp₁ := hp.idle h₁
  have harg := argument_lt hp₁ id (formalsOf_safe hs.sound hp id _ _ hformals).2
  dsimp only
  generalize formals.headD 0 = arg at harg ⊢
  refine .view (.ite (fun _ => .pure h₁.ready _) fun _ => ?_)
  refine .observe (typeOf_observes h₁.ready id) fun me s₂ _ h₂ => ?_
  refine .observe (child_observes h₂.ready me .ret) fun ret? s₃ hret h₃ => ?_
  have hret := (Unifier.child_looks h₂.ready.sound hret).2
  cases ret? with
  | none => exact .pure h₃.ready _
  | some ret =>
    have hret := hret ret rfl
    refine .ite (fun _ => .pure h₃.ready _) fun hne => .view (.either h₃.ready (fun s₄ h₄ => ?_)
      fun hrest => ?_)
    · have harg := lt_of_idle (((h₂.trans h₃).trans h₄)) harg
      have hret := hret.of_steady (h₄.steady h₃.ready)
      have hother : Foretells (· = true)
          (p.wrapUnaligned arg ret (s₄.forest.kind arg) (s₄.forest.kind ret)) s₄ := by
        refine .observe (.ite (isAligned_observes h₄.ready _ _) (pure_observes h₄.ready _))
          fun aligned s₅ _ h₅ => .ite (fun _ => .pure h₅.ready _)
            fun _ => .guard h₅.ready rfl fun b u h => ?_
        exact wrapArgument_yields h₅.ready (lt_of_idle h₅ harg)
          (hret.of_steady (h₅.steady h₄.ready)) hne h
      refine .view (.view ?_)
      cases hka : (s₄.forest.kind arg).baseFlow? with
      | none => exact hother
      | some a =>
        cases hkr : (s₄.forest.kind ret).baseFlow? with
        | none => exact hother
        | some r =>
          refine .ite (fun _ => .pure h₄.ready _) fun _ => .guard h₄.ready rfl fun b u h => ?_
          obtain ⟨v, s₅, -, h⟩ := bind_eq_some.1 h
          obtain ⟨v', s₆, -, h⟩ := bind_eq_some.1 h
          exact (pure_eq_some.1 h).1.symm
    · refine .observe (child_observes h₃.ready _ .inner) fun inner? s₄ _ h₄ => ?_
      exact .ite (fun _ => .pure h₄.ready _) fun _ => hrest s₄ h₄

include hs hp in
/-- Every type step and its probe are honest: they answer the same, and if they answer `false` the
step added no term and merged no class. -/
theorem typeStep_honest (flows : Flows) (id : NodeId) :
    Honest (· = true) (p.typeStep flows id) (p.typeStep flows id) s := by
  unfold typeStep
  split
  · exact (Faithful.pure hs _).honest hs
  · exact (Faithful.pure hs _).honest hs
  · rename_i hk
    exact (identStep_faithful hs hp id (hp.binding hk)).honest hs
  · exact (lambdaStep_faithful hs hp id _).honest hs
  · exact applyStep_honest hs hp id _ _
  · rename_i body hk
    refine Faithful.honest hs (.observe (typeOf_observes hs id) fun me s₁ hme h₁ => ?_)
    refine .observe (typeOf_observes h₁.ready body) fun b s₂ hb h₂ => ?_
    have hme := (typeOf_isClass hs hp hme).lt
    have hb := (typeOf_isClass h₁.ready (hp.idle h₁) hb).lt
    exact unify_faithful h₂.ready (lt_of_idle h₂ hme) hb
  · exact recordStep_honest hs hp id _ _ _
  · exact fieldStep_honest hs hp id _ _
  · exact (condStep_faithful hs hp flows id _).honest hs
  · exact (notNilStep_faithful hs hp id).honest hs
  · exact (primitiveStep_faithful hs hp id).honest hs

end Steps

end Program

end TypeFlow
