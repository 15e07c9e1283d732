import TypeFlow.Proofs.ForestHistories
import TypeFlow.Proofs.Probes

/-!
# Probes are faithful

A probe of a call of the unifier runs like the call itself as long as that changes nothing, and ends
where the call changes something first.  So both say the same, although the call goes on and may take
other ways from there.

Main definitions:

- `Unifier.Idle`: nothing was changed.
- `Unifier.Faithful`: a call that was idle is matched by its probe step by step, and a call that
  changed something is matched by the answer of its probe.

Main results:

- `Unifier.Faithful.bind`: faithful computations in turn are faithful.
-/

namespace TypeFlow

open Forest (IsClass Steady)

namespace Unifier

variable {α β : Type} {s t u : Unifier}

/-! ## Idle runs -/

/-- Changes may be made. -/
structure Ready (s : Unifier) : Prop where
  sound : s.Sound
  commits : s.work.isNone = false

/-- No children are being unified, and images are those of terms. -/
structure Fresh (s : Unifier) : Prop where
  met : s.met = []
  image : ∀ p ∈ s.image, p.1 < s.forest.size

/-- Nothing was changed. -/
structure Idle (s u : Unifier) : Prop where
  upkeeps : s.forest.Upkeeps u.forest
  ready : u.Ready
  fresh : s.Fresh → u.Fresh

/-- The unifier without a worklist. -/
def probing (s : Unifier) : Unifier := { s with work := none }

/-- A probe begins in a sound state. -/
theorem Sound.probing (hs : s.Sound) : s.probing.Sound := ⟨hs.forest, hs.image⟩

namespace Idle

/-- Doing nothing is idle. -/
theorem refl (hs : s.Ready) : Idle s s := ⟨.refl, hs, id⟩

/-- Idle computations follow each other. -/
theorem trans (h : Idle s t) (h' : Idle t u) : Idle s u :=
  ⟨Relation.ReflTransGen.trans h.upkeeps h'.upkeeps, h'.ready, fun hs => h'.fresh (h.fresh hs)⟩

/-- Looking classes up is idle. -/
theorem of_looks (hs : s.Ready) (h : Looks s u) : Idle s u where
  upkeeps := h.upkeeps
  ready := ⟨(h.proceeds hs.sound).sound, by rw [h.work, hs.commits]⟩
  fresh hfresh := by
    refine ⟨by rw [h.met, hfresh.met], fun p hp => ?_⟩
    rw [h.image] at hp
    rw [h.upkeeps.size]
    exact hfresh.image p hp

/-- What is idle moves no term to another class. -/
theorem steady (hs : s.Ready) (h : Idle s u) : Steady s.forest u.forest :=
  h.upkeeps.steady hs.sound.forest.rooted

/-- Classes that wrap variables at most stay what they are up to their children. -/
theorem calm (hs : s.Ready) (h : Idle s u) {c : TermId} (hc : s.forest.Calm c) :
    (s.forest.kind c).Refreshed s.forest.rep (u.forest.kind c) ∧ u.forest.Calm c :=
  h.upkeeps.calm hs.sound.forest.rooted hc

end Idle

/-! ## Faithful probes -/

/-- If a run of the first computation is idle, every run of the second one that only probes answers
the same and leaves the same, and else both answers show that something was to be changed. -/
def Faithful (moved : α → Prop) (m m' : UnifyM α) (s : Unifier) : Prop :=
  ∀ a u, m s = some (a, u) →
    (Idle s u ∧ ∀ b v, m' s.probing = some (b, v) → b = a ∧ v = u.probing) ∨
      (moved a ∧ ∀ b v, m' s.probing = some (b, v) → moved b)

/-- A look does not depend on whether changes may be made, and it makes none. -/
def Observes (m : UnifyM α) (s : Unifier) : Prop :=
  ∀ a u, m s = some (a, u) → Idle s u ∧ m s.probing = some (a, u.probing)

section Rules

variable {moved : α → Prop} {moved' : β → Prop}

/-- Nothing answered, and the answer that something was changed, lead to what shows that. -/
theorem yields_of_ne_false {k : Option Bool → UnifyM α} (hnone : Yields moved (k none))
    (htrue : Yields moved (k (some true))) : ∀ b?, b? ≠ some false → Yields moved (k b?) := by
  intro b? hne
  cases b? with
  | none => exact hnone
  | some b =>
    cases b with
    | false => exact absurd rfl hne
    | true => exact htrue

namespace Faithful

/-- Answering is told of faithfully. -/
theorem pure (hs : s.Ready) (a : α) : Faithful moved (pure a) (pure a) s := by
  intro b u h
  obtain ⟨rfl, rfl⟩ := pure_eq_some.1 h
  refine Or.inl ⟨.refl hs, fun b' v h' => ?_⟩
  obtain ⟨rfl, rfl⟩ := pure_eq_some.1 h'
  exact ⟨rfl, rfl⟩

private theorem of_yields {m m' : UnifyM α} (h : Yields moved m) (h' : Yields moved m') :
    Faithful moved m m' s :=
  fun a u hr => Or.inr ⟨h s a u hr, fun b v hr' => h' s.probing b v hr'⟩

/-- A probe without a result says nothing. -/
theorem of_failure {m m' : UnifyM α} (h : Faithful moved m m' s) : Faithful moved m failure s := by
  intro a u hr
  rcases h a u hr with ⟨hidle, -⟩ | ⟨hmoved, -⟩
  · exact Or.inl ⟨hidle, fun b v hr' => (failure_eq_some.1 hr').elim⟩
  · exact Or.inr ⟨hmoved, fun b v hr' => (failure_eq_some.1 hr').elim⟩

/-- What is looked at first is the same for both. -/
theorem observe {m : UnifyM β} {k k' : β → UnifyM α} (hm : Observes m s)
    (hk : ∀ b u, m s = some (b, u) → Idle s u → Faithful moved (k b) (k' b) u) :
    Faithful moved (m >>= k) (m >>= k') s := by
  intro a u h
  obtain ⟨b, s₁, hb, h⟩ := bind_eq_some.1 h
  obtain ⟨hidle, hprobe⟩ := hm b s₁ hb
  have hsame : ∀ c v, (m >>= k') s.probing = some (c, v) → k' b s₁.probing = some (c, v) := by
    intro c v h'
    obtain ⟨b', s₁', hb', h'⟩ := bind_eq_some.1 h'
    rw [hprobe] at hb'
    cases hb'
    exact h'
  rcases hk b s₁ hb hidle a u h with ⟨hidle', hrun⟩ | ⟨hmoved, hrun⟩
  · exact Or.inl ⟨hidle.trans hidle', fun c v h' => hrun c v (hsame c v h')⟩
  · exact Or.inr ⟨hmoved, fun c v h' => hrun c v (hsame c v h')⟩

/-- Faithful computations in turn are faithful, if once something was changed the answer of the
second one shows that. -/
theorem bind {m m' : UnifyM β} {k k' : β → UnifyM α} (hm : Faithful moved' m m' s)
    (hk : ∀ b u, m s = some (b, u) → Idle s u → ¬moved' b → Faithful moved (k b) (k' b) u)
    (hmoved : ∀ b, moved' b → Yields moved (k b)) (hmoved' : ∀ b, moved' b → Yields moved (k' b)) :
    Faithful moved (m >>= k) (m' >>= k') s := by
  intro a u h
  obtain ⟨b, s₁, hb, h⟩ := bind_eq_some.1 h
  rcases hm b s₁ hb with ⟨hidle, hsame⟩ | ⟨hbm, hyes⟩
  · have hcont : ∀ c v, (m' >>= k') s.probing = some (c, v) → k' b s₁.probing = some (c, v) := by
      intro c v h'
      obtain ⟨b', s₁', hb', h'⟩ := bind_eq_some.1 h'
      obtain ⟨rfl, rfl⟩ := hsame b' s₁' hb'
      exact h'
    have hfaithful : Faithful moved (k b) (k' b) s₁ := by
      by_cases hbm : moved' b
      · exact .of_yields (hmoved b hbm) (hmoved' b hbm)
      · exact hk b s₁ hb hidle hbm
    rcases hfaithful a u h with ⟨hidle', hrun⟩ | ⟨hmoved, hrun⟩
    · exact Or.inl ⟨hidle.trans hidle', fun c v h' => hrun c v (hcont c v h')⟩
    · exact Or.inr ⟨hmoved, fun c v h' => hrun c v (hcont c v h')⟩
  · refine Or.inr ⟨hmoved b hbm s₁ a u h, fun c v h' => ?_⟩
    obtain ⟨b', s₁', hb', h'⟩ := bind_eq_some.1 h'
    exact hmoved' b' (hyes b' s₁' hb') s₁' c v h'

/-- Computations one after the other are told of faithfully if each is and the first one's progress is kept.
-/
theorem bind_same {m m' : UnifyM β} {k : β → UnifyM α} (hm : Faithful moved' m m' s)
    (hk : ∀ b u, m s = some (b, u) → Idle s u → ¬moved' b → Faithful moved (k b) (k b) u)
    (hmoved : ∀ b, moved' b → Yields moved (k b)) : Faithful moved (m >>= k) (m' >>= k) s :=
  bind hm hk hmoved hmoved

/-- What a function says of the forest is the same for both. -/
theorem view {read : Forest → β} {k k' : β → UnifyM α}
    (hk : Faithful moved (k (read s.forest)) (k' (read s.forest)) s) :
    Faithful moved (Unifier.view read >>= k) (Unifier.view read >>= k') s := hk

/-- Where a probe ends something is changed. -/
theorem guard {m m' : UnifyM α} {a : α} (hs : s.Ready) (ha : moved a)
    (hm : ∀ b u, m s = some (b, u) → moved b) :
    Faithful moved (isProbe >>= fun probing => if probing then Pure.pure a else m)
      (isProbe >>= fun probing => if probing then Pure.pure a else m') s := by
  intro b u h
  obtain ⟨probing, s₁, hprobe, h⟩ := bind_eq_some.1 h
  obtain ⟨rfl, rfl⟩ := isProbe_eq_some.1 hprobe
  rw [hs.commits, if_neg Bool.false_ne_true] at h
  refine Or.inr ⟨hm b u h, fun c v h' => ?_⟩
  obtain ⟨probing, s₂, hprobe, h'⟩ := bind_eq_some.1 h'
  obtain ⟨rfl, rfl⟩ := isProbe_eq_some.1 hprobe
  rw [if_pos (by rfl)] at h'
  rw [← (pure_eq_some.1 h').1]
  exact ha

/-- Either branch is told of faithfully. -/
theorem ite {c : Prop} [Decidable c] {m₁ m₂ m₁' m₂' : UnifyM α}
    (h : c → Faithful moved m₁ m₁' s) (h' : ¬c → Faithful moved m₂ m₂' s) :
    Faithful moved (if c then m₁ else m₂) (if c then m₁' else m₂') s := by
  split
  · rename_i hc
    exact h hc
  · rename_i hc
    exact h' hc

end Faithful

end Rules

/-! ## Looks -/

/-- A computation that keeps the forest up observes only. -/
theorem onForest_observes {run : ForestM α} (hrun : Keeps Forest.KeptUp run) (hs : s.Ready) :
    Observes (onForest run) s := by
  intro a u h
  refine ⟨.of_looks hs (looks_onForest hrun hs.sound h), ?_⟩
  obtain ⟨f, hf, rfl⟩ := onForest_eq_some.1 h
  exact onForest_eq_some.2 ⟨f, hf, rfl⟩

/-- Looking a class up observes only. -/
theorem find_observes (hs : s.Ready) (x : TermId) : Observes (find x) s :=
  onForest_observes (Forest.keepsUp_find x) hs

/-- So does looking up a child. -/
theorem child_observes (hs : s.Ready) (x : TermId) (slot : Slot) : Observes (child x slot) s :=
  onForest_observes (Forest.keepsUp_child x slot) hs

/-- So does looking up an image. -/
theorem imageOf_observes (hs : s.Ready) (x : TermId) : Observes (imageOf x) s := by
  intro a u h
  obtain ⟨rfl, rfl⟩ := imageOf_eq_some.1 h
  exact ⟨.refl hs, rfl⟩

/-- So does recording one. -/
theorem setImage_observes (hs : s.Ready) {x c : TermId} (hx : x < s.forest.size)
    (hc : c < s.forest.size) : Observes (setImage x c) s := by
  intro a u h
  have hp := (setImage_proceeds hs.sound hc h).1
  obtain rfl := modify_eq_some.1 h
  refine ⟨⟨.refl, ⟨hp.sound, hs.commits⟩, fun hfresh => ⟨hfresh.met, fun p hp => ?_⟩⟩, rfl⟩
  rcases List.mem_cons.1 hp with rfl | hp
  · exact hx
  · exact hfresh.image p hp

/-! ## Unifications -/

/-- What the second computation answers as a probe foretells what the first one does. -/
def Foretold (run run' : TermId → TermId → UnifyM Bool) : Prop :=
  ∀ s a b, s.Ready → s.Fresh → a < s.forest.size → b < s.forest.size →
    Faithful (· = true) (run a b) (run' a b) s

/-- Two terms of one class are looked up, and that is all. -/
theorem unifyWithin_same {depth : Nat} {a b : TermId} {r : Bool} (hs : s.Sound)
    (ha : a < s.forest.size) (hb : b < s.forest.size) (heq : s.forest.rep a = s.forest.rep b)
    (h : unifyWithin depth a b s = some (r, u)) :
    r = false ∧ ∃ ra s₁ rb, find a s = some (ra, s₁) ∧ find b s₁ = some (rb, u) := by
  cases depth with
  | zero => exact (failure_eq_some.1 h).elim
  | succ depth =>
    obtain ⟨ra, s₁, rb, s₂, hfind, hfind', hlayer⟩ := unifyStep_layer h
    obtain ⟨-, -, ⟨rfl, rfl⟩, -⟩ := find_both hs ha hb hfind hfind'
    cases hlayer with
    | same _ hr hu => exact ⟨hr, _, _, _, hfind, hu ▸ hfind'⟩
    | leaves hne | joined hne | wrapped hne | met hne | probed hne | clashed hne | paired hne =>
      exact absurd heq hne

/-- Unifying two terms of a class only looks them up. -/
theorem unify_same {depth : Nat} {a b : TermId} {r : Bool} (hs : s.Sound)
    (ha : a < s.forest.size) (hb : b < s.forest.size) (heq : s.forest.rep a = s.forest.rep b)
    (h : unify depth a b s = some (r, u)) :
    r = false ∧ ∃ ra s₁ rb, find a s = some (ra, s₁) ∧ find b s₁ = some (rb, u) := by
  obtain ⟨ra, s₁, hfind, h⟩ := bind_eq_some.1 h
  obtain ⟨rb, s₂, hfind', h⟩ := bind_eq_some.1 h
  obtain ⟨-, -, ⟨rfl, rfl⟩, -⟩ := find_both hs ha hb hfind hfind'
  rw [if_pos heq] at h
  obtain ⟨hr, rfl⟩ := pure_eq_some.1 h
  exact ⟨hr.symm, _, _, _, hfind, hfind'⟩

/-- Two look-ups in turn do not depend on whether changes may be made. -/
theorem find_both_observes (hs : s.Ready) {a b ra rb : TermId} (h : find a s = some (ra, t))
    (h' : find b t = some (rb, u)) : Idle s u ∧ ∀ ra' t' rb' v, find a s.probing = some (ra', t') →
      find b t' = some (rb', v) → v = u.probing := by
  obtain ⟨hidle, hprobe⟩ := find_observes hs a _ _ h
  obtain ⟨hidle', hprobe'⟩ := find_observes hidle.ready b _ _ h'
  refine ⟨hidle.trans hidle', fun ra' t' rb' v hr hr' => ?_⟩
  rw [hprobe] at hr
  cases hr
  rw [hprobe'] at hr'
  cases hr'
  rfl

/-- The probe of a unification is faithful: it says whether the terms are two classes. -/
theorem unifyWithin_foretold (depth depth' : Nat) :
    Foretold (unifyWithin depth) (unifyWithin depth') := by
  intro s a b hs hfresh ha hb r u h
  have hmet : (s.forest.rep a, s.forest.rep b) ∉ s.met := by
    rw [hfresh.met]
    exact List.not_mem_nil
  rcases unifyWithin_answer hs.sound ha hb h with ⟨hr, hne⟩ | ⟨-, -, heq | hmem⟩
  · refine Or.inr ⟨hr, fun r' v h' => ?_⟩
    rcases unifyWithin_answer hs.sound.probing ha hb h' with ⟨hr', -⟩ | ⟨-, -, heq | hmem⟩
    · exact hr'
    · exact absurd heq hne
    · exact absurd hmem hmet
  · obtain ⟨hr, ra, s₁, rb, hfind, hfind'⟩ := unifyWithin_same hs.sound ha hb heq h
    obtain ⟨hidle, hsame⟩ := find_both_observes hs hfind hfind'
    refine Or.inl ⟨hidle, fun r' v h' => ?_⟩
    obtain ⟨hr', ra', s₁', rb', hfind₁, hfind₂⟩ :=
      unifyWithin_same hs.sound.probing ha hb heq h'
    exact ⟨hr'.trans hr.symm, hsame _ _ _ _ hfind₁ hfind₂⟩
  · exact absurd hmem hmet

/-- A probe of a unification reports progress exactly if a change is made. -/
theorem unify_faithful {depth depth' : Nat} {a b : TermId} (hs : s.Ready) (ha : a < s.forest.size)
    (hb : b < s.forest.size) : Faithful (· = true) (unify depth a b) (unify depth' a b) s := by
  intro r u h
  rcases unify_answer hs.sound ha hb h with ⟨hr, hne⟩ | ⟨-, -, heq⟩
  · refine Or.inr ⟨hr, fun r' v h' => ?_⟩
    rcases unify_answer hs.sound.probing ha hb h' with ⟨hr', -⟩ | ⟨-, -, heq⟩
    · exact hr'
    · exact absurd heq hne
  · obtain ⟨hr, ra, s₁, rb, hfind, hfind'⟩ := unify_same hs.sound ha hb heq h
    obtain ⟨hidle, hsame⟩ := find_both_observes hs hfind hfind'
    refine Or.inl ⟨hidle, fun r' v h' => ?_⟩
    obtain ⟨hr', ra', s₁', rb', hfind₁, hfind₂⟩ := unify_same hs.sound.probing ha hb heq h'
    exact ⟨hr'.trans hr.symm, hsame _ _ _ _ hfind₁ hfind₂⟩

end Unifier

end TypeFlow
