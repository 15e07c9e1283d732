import TypeFlow.Proofs.Regions
import TypeFlow.Proofs.Unifications

/-!
# Unifications within a region

All that a unification looks at and changes is what its two terms lead to, and the terms it makes.
So if the two terms belong to a region, no term outside the region is changed, not even one that
leads into the region.

Main definitions:

- `Forest.Realm`: a region that the terms to come belong to.
- `Unifier.ActsIn`, `Unifier.Confined`: only terms of a region are changed.

Main results:

- `Unifier.acts_merge`, `Unifier.acts_addField`: so do the changes that unifications are made
  of.
- `Unifier.acts_unifyWithin`: the unification of two terms of a region changes terms of the
  region only.
-/

namespace TypeFlow

open Forest (KeepsTo Region)

/-- A region that the terms to come belong to. -/
structure Forest.Realm (f : Forest) (R : TermId → Prop) : Prop where
  region : f.Region R
  new : ∀ t, f.size ≤ t → R t

namespace Unifier

variable {α β : Type} {R : TermId → Prop} {P : α → Prop} {Q : β → Prop}

/-! ## Computations within a region -/

/-- Terms of the region were changed and made, and nothing else was done to the forest. -/
structure ActsIn (R : TermId → Prop) (s u : Unifier) : Prop where
  realm : u.forest.Realm R
  off : ∀ t, ¬R t → u.forest.terms[t]? = s.forest.terms[t]?
  image : u.image = s.image

/-- The computation changes and makes terms of the region only, if that is one, and something holds
of what it answers. -/
def Confined (R : TermId → Prop) (P : α → Prop) (m : UnifyM α) : Prop :=
  ∀ s a u, s.forest.Realm R → m s = some (a, u) → ActsIn R s u ∧ P a

/-- What is answered belongs to the region. -/
abbrev AnswersIn (R : TermId → Prop) (m : UnifyM TermId) : Prop := Confined R R m

/-- Whatever is answered, terms of the region are changed only. -/
abbrev Acts (R : TermId → Prop) (m : UnifyM α) : Prop := Confined R (fun _ => True) m

private theorem ActsIn.refl {s : Unifier} (h : s.forest.Realm R) : ActsIn R s s :=
  ⟨h, fun _ _ => rfl, rfl⟩

/-- Actions in a region follow each other. -/
theorem ActsIn.trans {s t u : Unifier} (h : ActsIn R s t) (h' : ActsIn R t u) : ActsIn R s u :=
  ⟨h'.realm, fun x hx => (h'.off x hx).trans (h.off x hx), h'.image.trans h.image⟩

private theorem confined_pure {a : α} (h : P a) : Confined R P (pure a) := by
  intro s b u hs h'
  obtain ⟨rfl, rfl⟩ := pure_eq_some.1 h'
  exact ⟨.refl hs, h⟩

/-- Answering changes nothing. -/
theorem acts_pure (a : α) : Acts R (pure a) := confined_pure trivial

private theorem confined_failure : Confined R P (failure : UnifyM α) :=
  fun _ _ _ _ h => (failure_eq_some.1 h).elim

/-- Computations one after the other stay in the region, and the second may rely on the first one's answer. -/
theorem confined_bind {m : UnifyM α} {f : α → UnifyM β} (hm : Confined R P m)
    (hf : ∀ a, P a → Confined R Q (f a)) : Confined R Q (m >>= f) := by
  intro s b u hs h
  obtain ⟨a, t, ha, hb⟩ := bind_eq_some.1 h
  obtain ⟨hacts, hP⟩ := hm s a t hs ha
  obtain ⟨hacts', hQ⟩ := hf a hP t b u hacts.realm hb
  exact ⟨hacts.trans hacts', hQ⟩

/-- Either branch stays in the region. -/
theorem confined_ite {c : Prop} [Decidable c] {m m' : UnifyM α} (h : Confined R P m)
    (h' : Confined R P m') : Confined R P (if c then m else m') := by
  split
  · exact h
  · exact h'

/-- What follows something that is done in one case only comes either way. -/
theorem confined_either {c : Prop} [Decidable c] {m rest : UnifyM α} (hrest : Confined R P rest)
    (hthen : Confined R P rest → Confined R P m) : Confined R P (if c then m else rest) :=
  confined_ite (hthen hrest) hrest

private theorem Confined.mono {P' : α → Prop} {m : UnifyM α} (h : Confined R P m) (hP : ∀ a, P a → P' a) :
    Confined R P' m := by
  intro s a u hs ha
  obtain ⟨hacts, h⟩ := h s a u hs ha
  exact ⟨hacts, hP a h⟩

/-! ## Access to the forest -/

/-- Reading the forest changes nothing. -/
theorem acts_view (read : Forest → α) : Acts R (view read) := by
  intro s a u hs h
  obtain ⟨-, rfl⟩ := view_eq_some.1 h
  exact ⟨.refl hs, trivial⟩

private theorem acts_isProbe : Acts R isProbe := by
  intro s a u hs h
  obtain ⟨-, rfl⟩ := isProbe_eq_some.1 h
  exact ⟨.refl hs, trivial⟩

/-- A probe ends where something else would be done. -/
theorem confined_guard {a : α} {m : UnifyM α} (ha : P a) (hm : Confined R P m) :
    Confined R P (isProbe >>= fun probing => if probing then pure a else m) :=
  confined_bind acts_isProbe fun _ _ => confined_ite (confined_pure ha) hm

/-- Neither does waking the nodes of a class. -/
theorem acts_wake (t : TermId) : Acts R (wake t) := by
  intro s a u hs h
  obtain rfl := wake_eq_some.1 h
  exact ⟨⟨hs, fun _ _ => rfl, rfl⟩, trivial⟩

/-- What the memory of the call says. -/
theorem acts_recall (read : Unifier → α) : Acts R fun s => some (read s, s) := by
  intro s a u hs h
  cases h
  exact ⟨.refl hs, trivial⟩

private theorem acts_remember (a b : TermId) :
    Acts R (modify fun s => { s with met := (a, b) :: s.met } : UnifyM Unit) := by
  intro s v u hs h
  obtain rfl := modify_eq_some.1 h
  exact ⟨⟨hs, fun _ _ => rfl, rfl⟩, trivial⟩

/-- The children of a term of the region belong to it. -/
theorem confined_kindOf {t : TermId} (ht : R t) :
    Confined R (fun k => ∀ x ∈ k.children, R x) (kindOf t) := by
  intro s a u hs h
  obtain ⟨rfl, rfl⟩ := view_eq_some.1 h
  exact ⟨.refl hs, hs.region t ht⟩

/-- A change of the forest that keeps to the region and makes no terms acts in it. -/
theorem acts_change {change : Forest → Forest} (h : ∀ f, KeepsTo R f (change f))
    (hsize : ∀ f, (change f).size = f.size) : Acts R (Unifier.change change) := by
  intro s a u hs hu
  obtain rfl := change_eq_some.1 hu
  obtain ⟨hregion, hoff⟩ := h s.forest hs.region
  refine ⟨⟨⟨hregion, fun t ht => hs.new t ?_⟩, hoff, rfl⟩, trivial⟩
  rwa [← hsize]

private theorem confined_onForest {run : ForestM α}
    (hrun : ∀ f a g, f.Region R → run f = some (a, g) → Forest.Tidies R f g ∧ P a) :
    Confined R P (onForest run) := by
  intro s a u hs h
  obtain ⟨g, hg, rfl⟩ := onForest_eq_some.1 h
  obtain ⟨htidies, hP⟩ := hrun _ _ _ hs.region hg
  obtain ⟨hregion, hoff⟩ := htidies.keepsTo hs.region
  refine ⟨⟨⟨hregion, fun t ht => hs.new t ?_⟩, hoff, rfl⟩, hP⟩
  rwa [← htidies.size]

/-- The class of a term of the region belongs to it. -/
theorem answers_find {t : TermId} (ht : R t) : AnswersIn R (find t) :=
  confined_onForest fun _ _ _ hf h => Forest.find_tidies hf ht h

/-- So does the child that is looked up. -/
theorem confined_child {t : TermId} (slot : Slot) (ht : R t) :
    Confined R (fun r => ∀ x, r = some x → R x) (child t slot) :=
  confined_onForest fun _ _ _ hf h => Forest.child_tidies hf ht h

private theorem answers_add (new : Forest → Term)
    (hnew : ∀ f, f.Region R → ∀ x ∈ (new f).kind.children, R x) :
    AnswersIn R fun s => some ((s.forest.add (new s.forest)).1,
      { s with forest := (s.forest.add (new s.forest)).2 }) := by
  intro s a u hs h
  cases h
  have hsize : R s.forest.size := hs.new _ le_rfl
  obtain ⟨hregion, hoff⟩ := Forest.add_keepsTo hsize (hnew s.forest hs.region) hs.region
  refine ⟨⟨⟨hregion, fun t ht => hs.new t ?_⟩, hoff, rfl⟩, hsize⟩
  rw [Forest.size_add] at ht
  exact Nat.le_of_succ_le ht

/-- A new term of the region is made of its terms. -/
theorem answers_alloc {kind : Kind} (hkind : ∀ x ∈ kind.children, R x) : AnswersIn R (alloc kind) :=
  answers_add (fun _ => ⟨kind, .empty, false⟩) fun _ _ => hkind

private theorem answers_copy {t : TermId} (ht : R t) : AnswersIn R (copy t) := by
  refine answers_add (fun f => f.terms[t]?.getD default) fun f hf x hx => ?_
  rw [Forest.kind_getD] at hx
  exact hf t ht x hx

/-! ## Merging -/

variable {a b loser winner this that : TermId}

private theorem acts_redirect (hl : R loser) (hw : R winner) : Acts R (redirect loser winner) := by
  refine confined_ite (acts_pure _) ?_
  refine confined_bind (acts_change (fun f => Forest.link_keepsTo hl hw) fun f => ?_) fun _ _ =>
    acts_pure _
  exact Forest.size_link _ _ _

private theorem acts_settle (hl : R loser) (hw : R winner) : Acts R (settle loser winner) := by
  unfold settle
  refine confined_ite (acts_pure _) (confined_guard trivial ?_)
  refine confined_bind (acts_view _) fun input _ => confined_either ?_ fun hrest => ?_
  · exact confined_bind (acts_wake _) fun _ _ => confined_bind (acts_wake _) fun _ _ =>
      acts_redirect hl hw
  · exact confined_bind (acts_change (fun f => Forest.widenInputs_keepsTo hw)
      fun f => Forest.size_widenInputs _ _) fun _ _ => hrest

private theorem acts_clash (cause : TypeError) (ha : R a) (hb : R b) : Acts R (clash a b cause) := by
  refine confined_bind (answers_alloc fun x hx => absurd hx List.not_mem_nil) fun t ht => ?_
  refine confined_bind (acts_settle ha ht) fun _ _ => ?_
  refine confined_bind (answers_find ha) fun error he => ?_
  refine confined_bind (answers_find hb) fun b hb => ?_
  exact confined_bind (acts_settle hb he) fun _ _ => acts_pure _

/-- The children of two classes that are merged are children of one of them. -/
theorem children_mergedKind {kl kw k : Kind} (h : mergedKind kl kw = some k) {x : TermId}
    (hx : x ∈ k.children) : x ∈ kl.children ∨ x ∈ kw.children := by
  unfold mergedKind at h
  split at h <;> first
    | (cases h; first | exact Or.inr hx | exact Or.inl hx)
    | (split at h <;> first | (cases h; exact Or.inr hx) | cases h)
    | cases h

/-- The kind of a term of the region may be set to one that is made of its terms. -/
theorem acts_setKind {t : TermId} {k : Kind} (ht : R t) (hk : ∀ x ∈ k.children, R x) :
    Acts R (change (·.setKind t k)) :=
  acts_change (fun _ => Forest.setKind_keepsTo ht fun _ => hk) fun _ => Forest.size_setKind _ _ _

/-- Merging two classes of the region acts in it. -/
theorem acts_merge (hl : R loser) (hw : R winner) : Acts R (merge loser winner) := by
  unfold merge
  refine confined_ite (acts_pure _) (confined_guard trivial ?_)
  refine confined_bind (confined_kindOf hw) fun kw hkw => ?_
  refine confined_ite (acts_settle hl hw) (confined_bind (confined_kindOf hl) fun kl hkl => ?_)
  cases hmerged : mergedKind kl kw with
  | none => exact confined_bind (acts_view _) fun cause _ => acts_clash cause hl hw
  | some k =>
    refine confined_bind (acts_setKind hw fun x hx => ?_) fun _ _ => acts_settle hl hw
    exact (children_mergedKind hmerged hx).elim (hkl x) (hkw x)

/-! ## Fields -/

/-- So does adding a field to a record of the region. -/
theorem acts_addField {t value : TermId} (label : String) (ht : R t) (hvalue : R value) :
    Acts R (addField t label value) := by
  refine confined_bind (acts_view _) fun k _ => confined_ite ?_ (acts_pure _)
  refine confined_bind (acts_change (fun f => Forest.setChild_keepsTo _ ht hvalue)
    fun f => Forest.size_setChild _ _ _ _) fun _ _ => ?_
  refine confined_bind (acts_change (fun f => Forest.addDeps_keepsTo _ hvalue)
    fun f => Forest.size_addDeps _ _ _) fun _ _ => ?_
  exact confined_bind (acts_wake _) fun _ _ => acts_pure _

/-- So does dropping one. -/
theorem acts_dropField {t : TermId} (label : String) (ht : R t) : Acts R (dropField t label) := by
  refine confined_bind (acts_wake _) fun _ _ => confined_bind (confined_kindOf ht) fun k hk => ?_
  cases k with
  | record fields sites isOpen nil =>
    refine confined_ite (confined_bind (acts_setKind ht fun x hx => hk x ?_) fun _ _ =>
      acts_pure _) (acts_pure _)
    obtain ⟨l, hl⟩ := Fields.mem_values.1 hx
    exact Fields.mem_values.2 ⟨l, Fields.find?_of_erase hl⟩
  | _ => exact acts_pure _

/-! ## Children -/

section Children

variable {rec : TermId → TermId → UnifyM Bool} (hrec : ∀ a b, R a → R b → Acts R (rec a b))

private theorem acts_balanceLabels (labels : List String) (progress : Bool) (hthis : R this)
    (hthat : R that) : Acts R (balanceLabels this that labels progress) := by
  induction labels generalizing progress with
  | nil => exact acts_pure _
  | cons label rest ih =>
    refine confined_bind (acts_view _) fun k _ => confined_ite (ih _) ?_
    refine confined_bind (acts_view _) fun k' _ => confined_ite ?_ ?_
    · refine confined_bind (confined_child _ hthat) fun child? hchild => ?_
      cases child? with
      | none => exact confined_bind (acts_pure _) fun changed _ => ih _
      | some rhs =>
        exact confined_bind (acts_addField label hthis (hchild rhs rfl)) fun changed _ => ih _
    · exact confined_bind (acts_dropField label hthat) fun changed _ => ih _

include hrec

private theorem confined_unifySlots (slots : List Slot) (progress : Bool) (hthis : R this)
    (hthat : R that) :
    Confined R (fun r => R r.1 ∧ R r.2.1) (unifySlots rec slots this that progress) := by
  induction slots generalizing this that progress with
  | nil => exact confined_pure ⟨hthis, hthat⟩
  | cons slot rest ih =>
    refine confined_bind (confined_child slot hthis) fun lhs? hlhs => ?_
    cases lhs? with
    | none => exact ih _ hthis hthat
    | some lhs =>
      -- Whatever happens in the slot, both terms are looked up again afterwards.
      have hnext : ∀ changed : Bool, Confined R (fun r => R r.1 ∧ R r.2.1) (do
          let this ← find this
          let that ← find that
          if (← kindOf this).isError || (← kindOf that).isError then
            return (this, that, progress || changed)
          unifySlots rec rest this that (progress || changed)) := by
        intro changed
        refine confined_bind (answers_find hthis) fun this hthis => ?_
        refine confined_bind (answers_find hthat) fun that hthat => ?_
        refine confined_bind (acts_view _) fun k _ => confined_bind (acts_view _) fun k' _ => ?_
        exact confined_ite (confined_pure ⟨hthis, hthat⟩) (ih _ hthis hthat)
      refine confined_bind (confined_child slot hthat) fun rhs? hrhs => ?_
      cases rhs? with
      | some rhs =>
        exact confined_bind (hrec _ _ (hlhs lhs rfl) (hrhs rhs rfl)) fun changed _ => hnext changed
      | none =>
        cases slot with
        | field label =>
          refine confined_bind (acts_view _) fun k _ => confined_ite ?_ ?_
          · exact confined_bind (acts_addField label hthat (hlhs lhs rfl)) fun changed _ =>
              hnext changed
          · exact confined_bind (acts_pure _) fun changed _ => hnext changed
        | _ => exact confined_bind (acts_pure _) fun changed _ => hnext changed

private theorem acts_unifyChildren (ha : R a) (hb : R b) : Acts R (unifyChildren rec a b) := by
  refine confined_bind (acts_view _) fun slots _ => ?_
  refine confined_bind (confined_unifySlots hrec _ _ ha hb) fun r hr => ?_
  obtain ⟨this, that, progress⟩ := r
  obtain ⟨hthis, hthat⟩ := hr
  refine confined_bind (acts_view _) fun k _ => confined_bind (acts_view _) fun k' _ => ?_
  have hmerge : ∀ progress : Bool, Acts R (do
      let merged ← do
        if (← kindOf this).isError && !(← kindOf that).isError then
          wake that
          redirect that this
        else merge this that
      return merged || progress) := by
    intro progress
    refine confined_bind (acts_view _) fun k _ => confined_bind (acts_view _) fun k' _ => ?_
    refine confined_ite ?_ ?_
    · exact confined_bind (acts_wake _) fun _ _ =>
        confined_bind (acts_redirect hthat hthis) fun merged _ => acts_pure _
    · exact confined_bind (acts_merge hthis hthat) fun merged _ => acts_pure _
  refine confined_ite ?_ ?_
  · exact confined_bind (acts_pure _) fun progress _ => hmerge progress
  · refine confined_bind (acts_view _) fun k _ => ?_
    exact confined_bind (acts_balanceLabels _ _ hthis hthat) fun progress _ => hmerge progress

private theorem acts_unifyNilable {wrapper : TermId} (hw : R wrapper) (hthat : R that) :
    Acts R (unifyNilable rec wrapper that) := by
  refine confined_guard trivial (confined_bind (confined_child _ hw) fun inner? hinner => ?_)
  cases inner? with
  | none => exact acts_pure _
  | some inner =>
    have hinner : R inner := hinner inner rfl
    refine confined_bind (acts_view _) fun k _ => confined_ite (hrec _ _ hinner hthat) ?_
    refine confined_bind (answers_copy hthat) fun c hc => ?_
    refine confined_bind (acts_change (fun f => Forest.setKind_keepsTo hc fun hf x hx => ?_)
      fun f => Forest.size_setKind _ _ _) fun _ _ => ?_
    · rw [Kind.children_withoutNil] at hx
      exact hf c hc x hx
    refine confined_bind (acts_wake _) fun _ _ => ?_
    refine confined_bind (acts_merge hinner hc) fun merged _ => ?_
    refine confined_bind (answers_find hw) fun nilable hn => ?_
    exact confined_bind (acts_wake _) fun _ _ =>
      confined_bind (acts_redirect hthat hn) fun joined _ => acts_pure _

private theorem acts_unifyStep (ha : R a) (hb : R b) : Acts R (unifyStep rec a b) := by
  refine confined_bind (answers_find ha) fun a ha => ?_
  refine confined_bind (answers_find hb) fun b hb => confined_ite (acts_pure _) ?_
  refine confined_bind (acts_view _) fun ka _ => confined_bind (acts_view _) fun kb _ => ?_
  refine confined_ite ?_ (confined_ite (acts_merge ha hb) (confined_ite (acts_merge hb ha) ?_))
  · rcases ranked_cases a b ka kb with h | h <;> rw [h]
    · exact acts_merge ha hb
    · exact acts_merge hb ha
  refine confined_ite (acts_unifyNilable hrec ha hb) (confined_ite (acts_unifyNilable hrec hb ha) ?_)
  refine confined_bind (acts_recall fun s => s.met.contains (a, b)) fun met _ =>
    confined_ite (acts_pure _) ?_
  refine confined_bind (acts_remember a b) fun _ _ => confined_guard trivial (confined_ite ?_ ?_)
  · exact confined_bind (acts_view _) fun cause _ => acts_clash cause ha hb
  · exact acts_unifyChildren hrec ha hb

end Children

/-- The unification of two terms of a region changes terms of the region only. -/
theorem acts_unifyWithin (depth : Nat) (ha : R a) (hb : R b) : Acts R (unifyWithin depth a b) := by
  induction depth generalizing a b with
  | zero => exact confined_failure
  | succ depth ih => exact acts_unifyStep (fun _ _ => ih) ha hb

end Unifier

end TypeFlow
