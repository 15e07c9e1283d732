import TypeFlow.Proofs.Instantiations

/-!
# Probes and answers

Without a worklist a call of the unifier only probes: it looks classes up and changes nothing else.
With one, a unification answers whether it changed anything, and whenever its two terms were no class
yet it did.

Main definitions:

- `Unifier.Spares`: what only probes leaves the forest tidied up at most.
- `Unifier.Answers`: a unification says `false` only if nothing happened but look-ups.

Main results:

- `Unifier.spares_unify`, `Unifier.spares_instantiate`: probes change nothing.
- `Unifier.unify_answer`: a unification changes something exactly if its terms are two classes.
-/

namespace TypeFlow

open Forest (IsClass Steady)

namespace Unifier

variable {α β : Type} {s t u : Unifier}

/-! ## Probing -/

/-- While there is no worklist nothing happens to the forest but look-ups. -/
def Spares (s u : Unifier) : Prop :=
  s.work.isNone = true → s.forest.Rooted → s.forest.Upkeeps u.forest ∧ u.work.isNone = true

instance : IsPreorder Unifier Spares where
  refl _ hwork _ := ⟨.refl, hwork⟩
  trans _ _ _ hst htu hwork hrooted := by
    obtain ⟨hup, hwork'⟩ := hst hwork hrooted
    obtain ⟨hup', hwork''⟩ := htu hwork' (hup.steady hrooted).rooted
    exact ⟨hup.trans hup', hwork''⟩

/-- Where something would be changed a probe has ended. -/
theorem spares_guard (b : α) (rest : UnifyM α) :
    Keeps Spares (isProbe >>= fun probing => if probing then pure b else rest) := by
  intro s a u h
  obtain rfl | ⟨hwork, -⟩ := unless_probe h
  · exact Std.Refl.refl s
  · intro hprobe
    rw [hwork] at hprobe
    cases hprobe

/-- A computation that keeps the forest up spares it in a probe. -/
theorem spares_onForest {run : ForestM α} (hrun : Keeps Forest.KeptUp run) :
    Keeps Spares (onForest run) := by
  intro s a u h hwork hrooted
  obtain ⟨f, hf, rfl⟩ := onForest_eq_some.1 h
  exact ⟨hrun _ _ _ hf hrooted, hwork⟩

/-- So does looking a class up. -/
theorem spares_find (t : TermId) : Keeps Spares (find t) := spares_onForest (Forest.keepsUp_find t)

/-- So does looking up a child. -/
theorem spares_child (t : TermId) (slot : Slot) : Keeps Spares (child t slot) :=
  spares_onForest (Forest.keepsUp_child t slot)

/-- So does reading the forest. -/
theorem spares_view (read : Forest → α) : Keeps Spares (view read) := by
  intro s a u h
  obtain ⟨-, rfl⟩ := view_eq_some.1 h
  exact Std.Refl.refl s

private theorem spares_isProbe : Keeps Spares isProbe := by
  intro s b u h
  obtain ⟨-, rfl⟩ := isProbe_eq_some.1 h
  exact Std.Refl.refl s

private theorem spares_occursInAny (t : TermId) (types : List TermId) :
    Keeps Spares (occursInAny t types) :=
  spares_onForest (Forest.keepsUp_occursInAny t types)

private theorem spares_imageOf (t : TermId) : Keeps Spares (imageOf t) := by
  intro s c u h
  obtain ⟨-, rfl⟩ := imageOf_eq_some.1 h
  exact Std.Refl.refl s

private theorem spares_setImage (t c : TermId) : Keeps Spares (setImage t c) :=
  keeps_modify fun _ hwork _ => ⟨.refl, hwork⟩

/-! ### Unifications -/

private theorem spares_merge (loser winner : TermId) : Keeps Spares (merge loser winner) := by
  unfold merge
  split
  · exact keeps_pure _
  · exact spares_guard _ _

section Probing

variable {inst rec : TermId → TermId → UnifyM Bool} (hinst : ∀ a b, Keeps Spares (inst a b))
  (hrec : ∀ a b, Keeps Spares (rec a b)) {pinned : List TermId}

/-- A unification ends its probe before it comes to children. -/
theorem spares_unifyStep (a b : TermId) : Keeps Spares (unifyStep rec a b) := by
  refine keeps_bind (spares_find a) fun ra => keeps_bind (spares_find b) fun rb => ?_
  split
  · exact keeps_pure _
  refine keeps_bind (spares_view _) fun ka => keeps_bind (spares_view _) fun kb => ?_
  split
  · exact spares_merge _ _
  split
  · exact spares_merge _ _
  split
  · exact spares_merge _ _
  split
  · exact spares_guard _ _
  split
  · exact spares_guard _ _
  refine keeps_bind (R := Spares) (fun s met u h => by cases h; exact Std.Refl.refl s) fun met => ?_
  split
  · exact keeps_pure _
  · exact keeps_bind (keeps_modify fun _ hwork _ => ⟨.refl, hwork⟩) fun _ => spares_guard _ _

private theorem spares_unifyWithin (depth : Nat) (a b : TermId) : Keeps Spares (unifyWithin depth a b) := by
  cases depth with
  | zero => exact keeps_failure
  | succ depth => exact spares_unifyStep a b

/-- So does unifying two terms. -/
theorem spares_unify (depth : Nat) (a b : TermId) : Keeps Spares (unify depth a b) := by
  refine keeps_bind (spares_find a) fun ra => keeps_bind (spares_find b) fun rb => ?_
  split
  · exact keeps_pure _
  · exact keeps_bind (keeps_modify fun _ hwork _ => ⟨.refl, hwork⟩) fun _ =>
      spares_unifyWithin depth ra rb

/-! ### Instantiations -/

private theorem spares_reject (this that : TermId) : Keeps Spares (reject rec this that) := spares_guard _ _

private theorem spares_instantiateBase (this that : TermId) (a b : Flow) :
    Keeps Spares (instantiateBase rec this that a b) := by
  unfold instantiateBase
  split
  · exact spares_reject _ _
  split
  · exact keeps_bind (spares_setImage _ _) fun _ => keeps_pure _
  · exact spares_guard _ _

private theorem spares_instantiateNilable (that : TermId) : Keeps Spares (instantiateNilable that) := by
  refine keeps_bind (spares_view _) fun k => ?_
  split
  · exact keeps_pure _
  · exact spares_guard _ _

private theorem spares_instantiateMissing (this that lhs : TermId) (label : String) :
    Keeps Spares (instantiateMissing inst pinned this that lhs label) := by
  refine keeps_bind (spares_view _) fun k => ?_
  split
  · exact spares_guard _ _
  refine keeps_bind (spares_view _) fun k => ?_
  split
  · exact spares_guard _ _
  · exact keeps_pure _

include hinst in
private theorem spares_instantiateSlots (this that : TermId) (slots : List Slot) (progress missing : Bool) :
    Keeps Spares (instantiateSlots inst pinned this slots that progress missing) := by
  induction slots generalizing that progress missing with
  | nil => exact keeps_pure _
  | cons slot rest ih =>
    refine keeps_bind (spares_child _ _) fun lhs? => ?_
    cases lhs? with
    | none => exact ih _ _ _
    | some lhs =>
      refine keeps_bind (spares_child _ _) fun rhs? => ?_
      have hnext : ∀ changed : Bool, Keeps Spares (do
          let progress := progress || changed
          let that ← find that
          if (← kindOf that).isError then return .finished
          if progress && (← isProbe) then return .finished
          instantiateSlots inst pinned this rest that progress (missing || rhs?.isNone)) := by
        intro changed
        refine keeps_bind (spares_find _) fun that' => keeps_bind (spares_view _) fun k => ?_
        split
        · exact keeps_pure _
        refine keeps_bind spares_isProbe fun probing => ?_
        split
        · exact keeps_pure _
        · exact ih _ _ _
      cases rhs? with
      | some rhs =>
        exact keeps_bind (hinst _ _) fun _ =>
          keeps_bind_option (keeps_pure _) (keeps_pure _) hnext
      | none =>
        cases slot with
        | field label =>
          exact keeps_bind_option (spares_instantiateMissing _ _ _ _) (keeps_pure _) hnext
        | _ => exact keeps_bind_option (keeps_pure _) (keeps_pure _) hnext

private theorem spares_dropExtra (this that : TermId) (labels : List String) (progress : Bool) :
    Keeps Spares (dropExtra this that labels progress) := by
  induction labels generalizing progress with
  | nil => exact keeps_pure _
  | cons label rest ih =>
    refine keeps_bind (spares_view _) fun k => ?_
    split
    · exact ih _
    refine keeps_bind (spares_child _ _) fun child? => ?_
    have hrest : ∀ keep : Bool, Keeps Spares (if keep then dropExtra this that rest progress else do
        if ← isProbe then return none
        else
          let changed ← dropField that label
          dropExtra this that rest (progress || changed)) := by
      intro keep
      split
      · exact ih _
      · exact spares_guard _ _
    cases child? with
    | none => exact keeps_bind (keeps_pure _) fun _ => hrest _
    | some x => exact keeps_bind (spares_view _) fun _ => keeps_bind (keeps_pure _) fun _ => hrest _

private theorem spares_refine (this that : TermId) : Keeps Spares (refine this that) := by
  refine keeps_bind (spares_view _) fun k => keeps_bind (spares_view _) fun k' => ?_
  split
  · exact keeps_pure _
  · exact spares_guard _ _

include hinst in
private theorem spares_instantiateChildren (this that : TermId) :
    Keeps Spares (instantiateChildren inst pinned this that) := by
  refine keeps_bind (spares_view _) fun slots => keeps_bind (spares_view _) fun others => ?_
  split
  · exact keeps_bind (spares_setImage _ _) fun _ => keeps_pure _
  refine keeps_bind (spares_setImage _ _) fun _ => ?_
  refine keeps_bind (spares_instantiateSlots hinst _ _ _ _ _) fun outcome => ?_
  cases outcome with
  | finished => exact keeps_pure _
  | ongoing that' progress missing =>
    have hlast : ∀ progress : Bool, Keeps Spares (do
        let refined ← refine this that'
        return progress || refined) := fun progress =>
      keeps_bind (spares_refine _ _) fun _ => keeps_pure _
    refine keeps_bind (spares_view _) fun k => keeps_bind (spares_view _) fun k' => ?_
    split
    · exact keeps_bind (spares_view _) fun _ =>
        keeps_bind_option (spares_dropExtra _ _ _ _) (keeps_pure _) hlast
    · exact keeps_bind_option (keeps_pure _) (keeps_pure _) hlast

include hinst hrec in
private theorem spares_instantiateStep (this that : TermId) :
    Keeps Spares (instantiateStep inst rec pinned this that) := by
  refine keeps_bind (spares_find _) fun x => keeps_bind (spares_find _) fun y => ?_
  refine keeps_bind (spares_imageOf _) fun prior => ?_
  cases prior with
  | some prior => exact keeps_bind (spares_find _) fun _ => hrec _ _
  | none =>
    have hended : ∀ b : Bool, Keeps Spares (setImage x y >>= fun _ => pure b) := fun b =>
      keeps_bind (spares_setImage _ _) fun _ => keeps_pure _
    refine keeps_bind (spares_onForest (Forest.keepsUp_alike _ _)) fun alike => ?_
    split
    · exact hended _
    refine keeps_bind (spares_view _) fun k => ?_
    split
    · exact hended _
    have hshared : Keeps Spares (kindOf x >>= fun k =>
        if k.isError then pure true else occursInAny x pinned) := by
      refine keeps_bind (spares_view _) fun k => ?_
      split
      · exact keeps_pure _
      · exact spares_occursInAny _ _
    refine keeps_bind hshared fun shared => ?_
    split
    · exact keeps_bind (hrec _ _) fun progress => hended progress
    refine keeps_bind (spares_view _) fun kx => keeps_bind (spares_view _) fun ky => ?_
    split
    · exact hended _
    split
    · exact spares_guard _ _
    have hknown : Keeps Spares (if kx.isNilable && !ky.isNilable then instantiateNilable y
        else if ky.isNilable && !kx.isNilable then instantiateInner inst x y
        else if kx.shape ≠ ky.shape then reject rec x y
        else instantiateChildren inst pinned x y) := by
      split
      · exact spares_instantiateNilable _
      split
      · exact spares_guard _ _
      split
      · exact spares_reject _ _
      · exact spares_instantiateChildren hinst _ _
    cases kx.baseFlow? with
    | none => exact hknown
    | some a =>
      cases ky.baseFlow? with
      | none => exact hknown
      | some b => exact spares_instantiateBase _ _ _ _

private theorem spares_instantiateWithin (pinned : List TermId) (depth : Nat) (this that : TermId) :
    Keeps Spares (instantiateWithin pinned depth this that) := by
  induction depth generalizing this that with
  | zero => exact keeps_failure
  | succ depth ih => exact spares_instantiateStep ih (spares_unifyWithin depth) this that

/-- So does an instantiation. -/
theorem spares_instantiate (depth : Nat) (definition use : TermId) (pinned : List TermId) :
    Keeps Spares (instantiate depth definition use pinned) :=
  keeps_bind (keeps_modify fun _ hwork _ => ⟨.refl, hwork⟩) fun _ =>
    spares_instantiateWithin pinned depth definition use

end Probing

/-! ## Answers of merges -/

section Merges

variable {loser winner : TermId} {r : Bool} (hne : loser ≠ winner)

include hne

private theorem redirect_answer (h : redirect loser winner s = some (r, u)) : r = true := by
  rw [redirect, if_neg hne] at h
  obtain ⟨v, s₁, -, h⟩ := bind_eq_some.1 h
  exact (pure_eq_some.1 h).1.symm

private theorem settle_answer (h : settle loser winner s = some (r, u)) : r = true := by
  rw [settle, if_neg hne] at h
  obtain ⟨probing, s₁, -, h⟩ := bind_eq_some.1 h
  rcases ite_eq_some.1 h with ⟨-, h⟩ | ⟨-, h⟩
  · exact (pure_eq_some.1 h).1.symm
  obtain ⟨input, s₂, -, h⟩ := bind_eq_some.1 h
  have hlast : ∀ s', (wake winner >>= fun _ => wake loser >>= fun _ => redirect loser winner) s' =
      some (r, u) → r = true := by
    intro s' h
    obtain ⟨v, s₃, -, h⟩ := bind_eq_some.1 h
    obtain ⟨v', s₄, -, h⟩ := bind_eq_some.1 h
    exact redirect_answer hne h
  rcases ite_eq_some.1 h with ⟨-, h⟩ | ⟨-, h⟩
  · obtain ⟨v, s₃, -, h⟩ := bind_eq_some.1 h
    exact hlast s₃ h
  · exact hlast s₂ h

omit hne in
private theorem clash_answer {a b : TermId} {cause : TypeError} (h : clash a b cause s = some (r, u)) :
    r = true := by
  obtain ⟨e, s₁, -, h⟩ := bind_eq_some.1 h
  obtain ⟨first, s₂, -, h⟩ := bind_eq_some.1 h
  obtain ⟨error, s₃, -, h⟩ := bind_eq_some.1 h
  obtain ⟨b', s₄, -, h⟩ := bind_eq_some.1 h
  obtain ⟨second, s₅, -, h⟩ := bind_eq_some.1 h
  exact (pure_eq_some.1 h).1.symm

/-- Merging two classes changes something. -/
theorem merge_answer (h : merge loser winner s = some (r, u)) : r = true := by
  rw [merge, if_neg hne] at h
  obtain ⟨probing, s₁, -, h⟩ := bind_eq_some.1 h
  rcases ite_eq_some.1 h with ⟨-, h⟩ | ⟨-, h⟩
  · exact (pure_eq_some.1 h).1.symm
  replace h := of_bind_view h
  rcases ite_eq_some.1 h with ⟨-, h⟩ | ⟨-, h⟩
  · exact settle_answer hne h
  replace h := of_bind_view h
  cases hk : mergedKind (s₁.forest.kind loser) (s₁.forest.kind winner) with
  | none =>
    simp only [hk] at h
    exact clash_answer (of_bind_view h)
  | some k =>
    simp only [hk] at h
    obtain ⟨v, s₂, -, h⟩ := bind_eq_some.1 h
    exact settle_answer hne h

end Merges

/-! ## Answers of unifications -/

/-- The computation says `false` only if nothing happened but look-ups. -/
def Answers (rec : TermId → TermId → UnifyM Bool) : Prop :=
  ∀ a b s u, s.Sound → a < s.forest.size → b < s.forest.size → s.work.isNone = false →
    rec a b s = some (false, u) → Looks s u

section Answering

variable {rec : TermId → TermId → UnifyM Bool} {r : Bool}

/-- A record gets any field. -/
theorem addField_answer {t value : TermId} {label : String}
    (hrecord : (s.forest.kind t).isRecord = true) (h : addField t label value s = some (r, u)) :
    r = true := by
  replace h := of_bind_view h
  rw [if_pos hrecord] at h
  obtain ⟨v, s₁, -, h⟩ := bind_eq_some.1 h
  obtain ⟨v', s₂, -, h⟩ := bind_eq_some.1 h
  obtain ⟨v'', s₃, -, h⟩ := bind_eq_some.1 h
  exact (pure_eq_some.1 h).1.symm

private theorem unifySlots_progress {slots : List Slot} {this that this' that' : TermId} {progress : Bool}
    (h : unifySlots rec slots this that progress s = some ((this', that', false), u)) :
    progress = false := by
  induction slots generalizing this that progress s with
  | nil =>
    obtain ⟨hr, -⟩ := pure_eq_some.1 h
    cases hr
    rfl
  | cons slot rest ih =>
    rcases unifySlots_cons h with ⟨s₁, -, h⟩ | ⟨lhs, s₁, rhs?, s₂, changed, s₃, this₁, s₄, that₁, s₅,
      -, -, -, -, -, ⟨-, hr, -⟩ | h⟩
    · exact ih h
    · simp only [Prod.mk.injEq, Bool.false_eq, Bool.or_eq_false_iff] at hr
      exact hr.2.2.1
    · exact (Bool.or_eq_false_iff.1 (ih h)).1

private theorem SlotStep.answer (hanswers : Answers rec) {slot : Slot} {that lhs : TermId}
    {rhs? : Option TermId} (hs : s.Sound) (hwork : s.work.isNone = false)
    (hlhs : lhs < s.forest.size) (hrhs : ∀ rhs, rhs? = some rhs → s.forest.IsClass rhs)
    (h : SlotStep rec slot that lhs rhs? false s u) : Looks s u := by
  cases h with
  | unified hr h => exact hanswers _ _ _ _ hs hlhs (hrhs _ hr).lt hwork h
  | added hr hslot hopen h =>
    have hrecord : (s.forest.kind that).isRecord = true := by
      revert hopen
      cases s.forest.kind that <;> first | exact fun _ => rfl | exact fun h => nomatch h
    cases addField_answer hrecord h
  | kept hr hclosed hchanged h => exact h ▸ .refl s

/-- Unifying the children of two classes says `false` only if it did nothing. -/
theorem unifySlots_answer (hanswers : Answers rec) {slots : List Slot}
    {this that this' that' : TermId} {progress : Bool} (hs : s.Sound)
    (hwork : s.work.isNone = false) (hthis : s.forest.IsClass this) (hthat : s.forest.IsClass that)
    (h : unifySlots rec slots this that progress s = some ((this', that', false), u)) :
    Looks s u ∧ this' = this ∧ that' = that := by
  induction slots generalizing this that progress s with
  | nil =>
    obtain ⟨hr, rfl⟩ := pure_eq_some.1 h
    cases hr
    exact ⟨.refl _, rfl, rfl⟩
  | cons slot rest ih =>
    rcases unifySlots_cons h with ⟨s₁, hchild, h⟩ | ⟨lhs, s₁, rhs?, s₂, changed, s₃, this₁, s₄, that₁,
      s₅, hchild, hchild', hstep, hfind, hfind', hlast⟩
    · obtain ⟨hlooks₁, -⟩ := child_looks hs hchild
      have hs₁ := (hlooks₁.proceeds hs).sound
      have hsteady₁ := hlooks₁.steady hs
      obtain ⟨hlooks, hr⟩ := ih hs₁ (by rw [hlooks₁.work, hwork]) (hthis.of_steady hsteady₁)
        (hthat.of_steady hsteady₁) h
      exact ⟨hlooks₁.trans hlooks, hr⟩
    have hchanged : changed = false := by
      rcases hlast with ⟨-, hr, -⟩ | h
      · simp only [Prod.mk.injEq, Bool.false_eq, Bool.or_eq_false_iff] at hr
        exact hr.2.2.2
      · exact (Bool.or_eq_false_iff.1 (unifySlots_progress h)).2
    subst hchanged
    obtain ⟨hlooks₁, hlhs⟩ := child_looks hs hchild
    have hs₁ := (hlooks₁.proceeds hs).sound
    obtain ⟨hlooks₂, hrhs⟩ := child_looks hs₁ hchild'
    have hlooks₂' := hlooks₁.trans hlooks₂
    have hs₂ := (hlooks₂'.proceeds hs).sound
    have hlooks₃ := hlooks₂'.trans (hstep.answer hanswers hs₂ (by rw [hlooks₂'.work, hwork])
      ((hlhs lhs rfl).of_steady (hlooks₂.steady hs₁)).lt hrhs)
    have hs₃ := (hlooks₃.proceeds hs).sound
    have hthis₃ := hthis.of_steady (hlooks₃.steady hs)
    have hthat₃ := hthat.of_steady (hlooks₃.steady hs)
    obtain ⟨hlooks₅, -, ⟨hthis₁, hthat₁⟩, hthis₅, hthat₅⟩ :=
      find_both hs₃ hthis₃.lt hthat₃.lt hfind hfind'
    rw [hthis₃.rep_eq] at hthis₁
    rw [hthat₃.rep_eq] at hthat₁
    subst hthis₁ hthat₁
    have hlooks₅ := hlooks₃.trans hlooks₅
    rcases hlast with ⟨-, hr, rfl⟩ | h
    · rw [Prod.mk.injEq, Prod.mk.injEq] at hr
      exact ⟨hlooks₅, hr.1, hr.2.1⟩
    · obtain ⟨hlooks, hr⟩ :=
        ih (hlooks₅.proceeds hs).sound (by rw [hlooks₅.work, hwork]) hthis₅ hthat₅ h
      exact ⟨hlooks₅.trans hlooks, hr⟩

private theorem balanceLabels_answer {this that : TermId} {labels : List String} {progress : Bool}
    (h : balanceLabels this that labels progress s = some (false, u)) : progress = false := by
  induction labels generalizing progress s with
  | nil => exact (pure_eq_some.1 h).1
  | cons label rest ih =>
    replace h := of_bind_view h
    rcases ite_eq_some.1 h with ⟨-, h⟩ | ⟨-, h⟩
    · exact ih h
    obtain ⟨changed, s₁, h⟩ : ∃ (changed : Bool) (s₁ : Unifier),
        balanceLabels this that rest (progress || changed) s₁ = some (false, u) := by
      replace h := of_bind_view h
      rcases ite_eq_some.1 h with ⟨-, h⟩ | ⟨-, h⟩
      · obtain ⟨rhs?, s₁, -, h⟩ := bind_eq_some.1 h
        cases rhs? with
        | none =>
          obtain ⟨changed, s₂, -, h⟩ := bind_eq_some.1 h
          exact ⟨changed, s₂, h⟩
        | some rhs =>
          obtain ⟨changed, s₂, -, h⟩ := bind_eq_some.1 h
          exact ⟨changed, s₂, h⟩
      · obtain ⟨changed, s₁, -, h⟩ := bind_eq_some.1 h
        exact ⟨changed, s₁, h⟩
    exact (Bool.or_eq_false_iff.1 (ih h)).1

/-- Once the children are unified the two classes are merged, unless they have become one, and then
something changed before. -/
theorem unifyChildren_answer (hanswers : Answers rec) {a b : TermId} (hs : s.Sound)
    (hwork : s.work.isNone = false) (ha : s.forest.IsClass a) (hb : s.forest.IsClass b)
    (hne : a ≠ b) (h : unifyChildren rec a b s = some (r, u)) : r = true := by
  replace h := of_bind_view h
  obtain ⟨⟨this, that, progress⟩, s₁, hunify, h⟩ := bind_eq_some.1 h
  replace h := of_bind_view h
  replace h := of_bind_view h
  obtain ⟨progress', s₂, hprogress, h⟩ : ∃ (progress' : Bool) (s₂ : Unifier),
      (progress' = false → progress = false) ∧ (do
        let merged ← do
          if (← kindOf this).isError && !(← kindOf that).isError then
            wake that
            redirect that this
          else merge this that
        return merged || progress') s₂ = some (r, u) := by
    dsimp only at h
    rcases ite_eq_some.1 h with ⟨-, h⟩ | ⟨-, h⟩
    · obtain ⟨progress', s₂, hpure, h⟩ := bind_eq_some.1 h
      obtain ⟨rfl, rfl⟩ := pure_eq_some.1 hpure
      exact ⟨_, s₁, id, h⟩
    · replace h := of_bind_view h
      obtain ⟨progress', s₂, hbalance, h⟩ := bind_eq_some.1 h
      refine ⟨progress', s₂, fun hfalse => ?_, h⟩
      subst hfalse
      exact balanceLabels_answer hbalance
  by_cases heq : this = that
  · cases hp : progress' with
    | false =>
      obtain rfl := hprogress hp
      obtain ⟨-, hthis, hthat⟩ := unifySlots_answer hanswers hs hwork ha hb hunify
      exact absurd (hthis.symm.trans (heq.trans hthat)) hne
    | true =>
      subst hp
      replace h := of_bind_view h
      replace h := of_bind_view h
      rcases ite_eq_some.1 h with ⟨-, h⟩ | ⟨-, h⟩
      · obtain ⟨v, s₃, -, h⟩ := bind_eq_some.1 h
        obtain ⟨merged, s₄, -, h⟩ := bind_eq_some.1 h
        rw [← (pure_eq_some.1 h).1, Bool.or_true]
      · obtain ⟨merged, s₃, -, h⟩ := bind_eq_some.1 h
        rw [← (pure_eq_some.1 h).1, Bool.or_true]
  · replace h := of_bind_view h
    replace h := of_bind_view h
    rcases ite_eq_some.1 h with ⟨-, h⟩ | ⟨-, h⟩
    · obtain ⟨v, s₃, -, h⟩ := bind_eq_some.1 h
      obtain ⟨merged, s₄, hredirect, h⟩ := bind_eq_some.1 h
      rw [← (pure_eq_some.1 h).1, redirect_answer (Ne.symm heq) hredirect, Bool.true_or]
    · obtain ⟨merged, s₃, hmerge, h⟩ := bind_eq_some.1 h
      rw [← (pure_eq_some.1 h).1, merge_answer heq hmerge, Bool.true_or]

/-- One layer of unification says `false` exactly if its classes are one, or their pair was met
before, and then nothing happened. -/
theorem Layer.answer (hanswers : Answers rec) {a b : TermId} (hs : s.Sound)
    (ha : s.forest.IsClass a) (hb : s.forest.IsClass b) (hca : s.forest.Calm a)
    (hcb : s.forest.Calm b) (h : Layer rec a b r s u) :
    r = true ∧ a ≠ b ∨ r = false ∧ Looks s u ∧ (a = b ∨ (a, b) ∈ s.met) := by
  have hs' : Sound { s with met := (a, b) :: s.met } := ⟨hs.forest, hs.image⟩
  cases h with
  | same heq hr hu => exact Or.inr ⟨hr, hu ▸ .refl s, Or.inl heq⟩
  | met hne hmet hr hu => exact Or.inr ⟨hr, hu ▸ .refl s, Or.inr hmet⟩
  | leaves hne hslots hslots' h =>
    refine Or.inl ⟨?_, hne⟩
    rcases ranked_cases a b (s.forest.kind a) (s.forest.kind b) with hr | hr <;> rw [hr] at h
    · exact merge_answer hne h
    · exact merge_answer (Ne.symm hne) h
  | joined hne hpair hcase h =>
    refine Or.inl ⟨?_, hne⟩
    rcases hpair with ⟨rfl, rfl⟩ | ⟨rfl, rfl⟩
    · exact merge_answer hne h
    · exact merge_answer (Ne.symm hne) h
  | wrapped hne hpair hnilable hplain hknown h =>
    refine Or.inl ⟨?_, hne⟩
    rcases hpair with ⟨rfl, rfl⟩ | ⟨rfl, rfl⟩
    · exact (unifyNilable_proceeds hs hb hca hnilable hknown hplain h).2.2.1
    · exact (unifyNilable_proceeds hs ha hcb hnilable hknown hplain h).2.2.1
  | probed hne hwork hr hu => exact Or.inl ⟨hr, hne⟩
  | clashed hne hwork hvar hvar' hshape h => exact Or.inl ⟨clash_answer h, hne⟩
  | paired hne hwork hmet hvar hvar' hshape h =>
    exact Or.inl ⟨unifyChildren_answer hanswers hs' hwork ha hb hne h, hne⟩

private theorem unifyStep_answer (hanswers : Answers rec) {a b : TermId} (hs : s.Sound)
    (ha : a < s.forest.size) (hb : b < s.forest.size) (h : unifyStep rec a b s = some (r, u)) :
    r = true ∧ s.forest.rep a ≠ s.forest.rep b ∨
      r = false ∧ Looks s u ∧
        (s.forest.rep a = s.forest.rep b ∨ (s.forest.rep a, s.forest.rep b) ∈ s.met) := by
  obtain ⟨ra, s₁, rb, s₂, hfind, hfind', hlayer⟩ := unifyStep_layer h
  obtain ⟨hlooks, hcalm, ⟨rfl, rfl⟩, hra, hrb⟩ := find_both hs ha hb hfind hfind'
  rcases hlayer.answer hanswers (hlooks.proceeds hs).sound hra hrb hcalm.1 hcalm.2 with
    h | ⟨hr, hlooks', h⟩
  · exact Or.inl h
  · rw [hlooks.met] at h
    exact Or.inr ⟨hr, hlooks.trans hlooks', h⟩

end Answering

/-- A unification reports progress if its terms are of two classes that were not met yet, and only looks
classes up otherwise. -/
theorem unifyWithin_answer {depth : Nat} {a b : TermId} {r : Bool} (hs : s.Sound)
    (ha : a < s.forest.size) (hb : b < s.forest.size)
    (h : unifyWithin depth a b s = some (r, u)) :
    r = true ∧ s.forest.rep a ≠ s.forest.rep b ∨
      r = false ∧ Looks s u ∧
        (s.forest.rep a = s.forest.rep b ∨ (s.forest.rep a, s.forest.rep b) ∈ s.met) := by
  induction depth generalizing a b s r u with
  | zero => exact (failure_eq_some.1 h).elim
  | succ depth ih =>
    refine unifyStep_answer (fun a b s u hs ha hb _ h => ?_) hs ha hb h
    rcases ih hs ha hb h with ⟨hr, -⟩ | ⟨-, hlooks, -⟩
    · cases hr
    · exact hlooks

/-- The unification of two terms changes something exactly if they are two classes. -/
theorem unify_answer {depth : Nat} {a b : TermId} {r : Bool} (hs : s.Sound)
    (ha : a < s.forest.size) (hb : b < s.forest.size) (h : unify depth a b s = some (r, u)) :
    r = true ∧ s.forest.rep a ≠ s.forest.rep b ∨
      r = false ∧ s.forest.Upkeeps u.forest ∧ s.forest.rep a = s.forest.rep b := by
  obtain ⟨ra, s₁, hfind, h⟩ := bind_eq_some.1 h
  obtain ⟨rb, s₂, hfind', h⟩ := bind_eq_some.1 h
  obtain ⟨hlooks, -, ⟨rfl, rfl⟩, hra, hrb⟩ := find_both hs ha hb hfind hfind'
  have hp₂ := hlooks.proceeds hs
  rcases ite_eq_some.1 h with ⟨heq, h⟩ | ⟨hne, h⟩
  · obtain ⟨hr, rfl⟩ := pure_eq_some.1 h
    exact Or.inr ⟨hr.symm, hlooks.upkeeps, heq⟩
  obtain ⟨v, s₃, hmodify, h⟩ := bind_eq_some.1 h
  obtain rfl := modify_eq_some.1 hmodify
  have hs₃ : Sound { s₂ with met := [] } := ⟨hp₂.sound.forest, hp₂.sound.image⟩
  rcases unifyWithin_answer hs₃ hra.lt hrb.lt h with ⟨hr, -⟩ | ⟨-, -, heq | hmet⟩
  · exact Or.inl ⟨hr, hne⟩
  · rw [hra.rep_eq, hrb.rep_eq] at heq
    exact absurd heq hne
  · exact absurd hmet List.not_mem_nil

end Unifier

end TypeFlow
