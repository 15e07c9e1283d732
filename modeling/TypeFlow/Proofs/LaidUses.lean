import TypeFlow.Proofs.FreshInstances
import TypeFlow.Proofs.MetPairs
import TypeFlow.Proofs.Zones

/-!
# Uses that are laid out

While a definition is instantiated, its use is laid out in zones: the definition stands, its variables that occur
more than once have free images, and what has a seat has children that may stand where those of the class belong.
Work for some classes of the definition changes their seats and what is free, so whatever is shown in other seats is
shown for good.

Main definitions:

- `Forest.Template`: a definition whose type is a tree.
- `Forest.TakesNil`: a class that has nil among its values, or is an error.
- `Forest.Sealed`: a class that leads to seats of a part of the definition only, and to what is free.
- `Unifier.Laid`: the state of an instantiation, laid out in zones.
- `Unifier.Works`: what was done for some classes of the definition.

Main results:

- `Unifier.Laid.looks`, `Unifier.Laid.setImage`, `Unifier.Laid.add`, `Unifier.Laid.edit`, `Unifier.Laid.enters`,
  `Unifier.Laid.confined`: the steps of an instantiation are work.
- `Unifier.Works.reseat`: what was made or settled by work gets a seat.
-/

namespace TypeFlow

namespace Forest

variable {f g h : Forest} {d a : TermId} {pinned : List TermId} {A B : TermId → Prop} {z : Zone}

/-- A definition whose type is a tree, and pinned types of the same forest. -/
structure Template (f : Forest) (d : TermId) (pinned : List TermId) : Prop where
  sound : f.Sound
  root : f.rep d = d
  lt : d < f.size
  tree : f.Tree d
  inRange : ∀ t ∈ pinned, t < f.size

/-- A template is made of terms of the forest. -/
theorem Template.lt_of_reaches (hf : f.Template d pinned) (ha : f.Reaches d a) : a < f.size :=
  ha.lt_size hf.sound hf.lt

/-- A class of a template is no part of its children. -/
theorem Template.not_reaches (hf : f.Template d pinned) (ha : f.Reaches d a) {slot : Slot} {x : TermId}
    (hx : (f.kind a).child? slot = some x) : ¬f.Reaches (f.rep x) a := (hf.tree.reaches ha).acyclic hx

/-- What is single in a template and part of a child is no part of another child. -/
theorem Template.apart (hf : f.Template d pinned) (ha : f.Reaches d a) {slot slot' : Slot} {x y : TermId}
    (hne : slot ≠ slot') (hx : (f.kind a).child? slot = some x) (hy : (f.kind a).child? slot' = some y) :
    ∀ c, f.Reaches (f.rep y) c → f.Single d c → ¬f.Reaches (f.rep x) c := fun _ hc hsingle hc' =>
  (hf.tree.reaches ha).not_single ha hne hx hy hc' hc hsingle

/-- The class of the term has nil among its values, or is an error. -/
def TakesNil (f : Forest) (t : TermId) : Prop := (f.kind (f.rep t)).mayNil = true ∨ f.Dead t

/-- That is so when more is known of it. -/
theorem TakesNil.accrues {t : TermId} (haccrues : (f.kind (f.rep t)).Accrues (g.kind (g.rep t)))
    (h : f.TakesNil t) : g.TakesNil t := by
  rcases h with hnil | hdead
  · exact (haccrues.mayNil hnil).imp_right Kind.isError_iff.2
  · exact Or.inr (haccrues.isError hdead)

/-- All terms of a class take nil in, or none. -/
theorem TakesNil.of_rep {t t' : TermId} (h : f.TakesNil t) (hrep : f.rep t = f.rep t') : f.TakesNil t' := by
  unfold TakesNil Dead at h ⊢
  rwa [← hrep]

/-- A definition stands when it is left alone. -/
theorem Standing.of_kept (hrooted : g.Rooted) (hg : f.Standing d g)
    (hgrows : ∀ x y, g.rep x = g.rep y → h.rep x = h.rep y)
    (hkept : ∀ a, f.Reaches d a → h.rep a = a ∧ h.kind a = g.kind a) : f.Standing d h where
  later t := hgrows _ _ (hg.later t)
  rep a ha := (hkept a ha).1
  same a ha := by
    rw [(hkept a ha).2]
    exact (hg.same a ha).later fun x => hgrows _ _ (rep_rep hrooted x)

/-- All that a class leads to is free, or has the seat of a class that one of the definition leads to. -/
def Sealed (f : Forest) (zone : TermId → Zone) (a : TermId) (g : Forest) (c : TermId) : Prop :=
  ∀ t, g.Reaches c t → zone t = .free ∨ ∃ x, zone t = .seat x ∧ f.Reaches a x

/-- A seat is sealed if what it has in its slots is. -/
theorem Sealed.of_children {zone : TermId → Zone} {c : TermId} (hseat : zone c = .seat a)
    (h : ∀ slot y, (g.kind c).child? slot = some y →
      ∃ x, (f.kind a).child? slot = some x ∧ f.Sealed zone (f.rep x) g (g.rep y)) : f.Sealed zone a g c := by
  intro t ht
  rcases Relation.ReflTransGen.cases_head ht with rfl | ⟨_, ⟨slot, y, hy, rfl⟩, hreach⟩
  · exact Or.inr ⟨a, hseat, .refl⟩
  obtain ⟨x, hx, hsealed⟩ := h slot y hy
  exact (hsealed t hreach).imp_right fun ⟨w, hw, hxw⟩ => ⟨w, hw, .head ⟨slot, x, hx, rfl⟩ hxw⟩

/-- More is touched for more classes. -/
theorem Touched.mono (hAB : ∀ a, A a → B a) (h : Touched A z) : Touched B z := by
  cases z with
  | seat a => exact hAB a h
  | outside => exact h
  | _ => trivial

end Forest

open Forest (IsClass Steady Enters Standing Template Touched Zone Zoned)

namespace Unifier

variable {f : Forest} {d : TermId} {pinned : List TermId} {A B : TermId → Prop}
  {zone zone' zone'' : TermId → Zone} {s t u : Unifier} {a b c x y : TermId} {r : Bool}

/-! ## The state of an instantiation -/

/-- The definition stands, the use is laid out in zones, and pairs that were met are merged. -/
structure Laid (f : Forest) (d : TermId) (pinned : List TermId) (zone : TermId → Zone) (s : Unifier) :
    Prop where
  sound : s.Sound
  commits : s.work.isNone = false
  size : f.size ≤ s.forest.size
  stands : f.Standing d s.forest
  zoned : f.Zoned d zone s.forest
  unborn : ∀ t, s.forest.size ≤ t → zone t = .free
  definition : ∀ a, f.Reaches d a → zone a = .barred ∨ (f.kind a).isError = true ∧ zone a = .seat a
  pinned : ∀ t ∈ pinned, zone t ≠ .barred
  keys : ∀ p ∈ s.image, p.1 < s.forest.size
  /-- Images of variables that do not occur once are free. -/
  image : ∀ x c, f.Reaches d x → ¬f.Single d x → s.image.lookup x = some c → zone c = .free
  met : ∀ p ∈ s.met, s.forest.rep p.1 = s.forest.rep p.2

/-- Zones are what they were but for terms of the definition that got seats, what is shown in zones that were not
touched is shown still, and images are what they were or, for variables, of the classes that they were of. -/
structure Works (f : Forest) (d : TermId) (pinned : List TermId) (A : TermId → Prop) (zone : TermId → Zone)
    (s : Unifier) (zone' : TermId → Zone) (u : Unifier) : Prop where
  laid : Laid f d pinned zone' u
  size : s.forest.size ≤ u.forest.size
  rep : ∀ x y, s.forest.rep x = s.forest.rep y → u.forest.rep x = u.forest.rep y
  dead : ∀ t, s.forest.Dead t → u.forest.Dead t
  nils : ∀ t, s.forest.TakesNil t → u.forest.TakesNil t
  zones : ∀ t, t < s.forest.size → zone' t = zone t ∨ A t ∧ zone t = .barred
  shows : ∀ C t k, (∀ c, C c → ¬Touched A (zone c)) → s.forest.Shows C t k →
    ∃ k', u.forest.Shows C t k' ∧ k.Same u.forest.rep k'
  image : ∀ x c, f.Reaches d x → f.kind x = .var → s.image.lookup x = some c →
    ∃ c', u.image.lookup x = some c' ∧ u.forest.rep c' = u.forest.rep c
  spares : ∀ x, x < f.size → ¬A x → u.image.lookup x = s.image.lookup x

namespace Laid

variable (hs : Laid f d pinned zone s)

include hs

/-- What is not free is there. -/
theorem lt_of_ne_free (ht : zone x ≠ .free) : x < s.forest.size := by
  by_contra hlt
  exact ht (hs.unborn x (Nat.le_of_not_lt hlt))

/-- What is known of the use is no part of the definition. -/
theorem not_reaches (hb : zone b = .seat a) (herror : (s.forest.kind b).isError = false) : ¬f.Reaches d b := by
  intro hreach
  rcases hs.definition b hreach with h | ⟨h, -⟩
  · rw [hb] at h
    cases h
  · rw [← (hs.stands.same b hreach).isError, herror] at h
    cases h

/-- Free terms are no part of the definition. -/
theorem not_reaches_of_free (hb : zone b = .free) : ¬f.Reaches d b := by
  intro hreach
  rcases hs.definition b hreach with h | ⟨-, h⟩ <;> rw [hb] at h <;> cases h

/-- Pinned types do not lead to what is barred. -/
theorem not_reachedFrom (hb : zone b = .barred) : ¬s.forest.ReachedFrom pinned b := by
  rintro ⟨t, ht, hreach⟩
  have hopen := hs.zoned.unbarred
  exact hopen.reaches (R := (zone · ≠ .barred)) (hopen.rep (R := (zone · ≠ .barred)) (hs.pinned t ht)) hreach hb

/-- Whether what is barred is shared with its use is told by whether it is an error, since it is not pinned. -/
theorem shared_eq {shared : Bool} (hroot : s.forest.rep x = x) (hbarred : zone x = .barred)
    (h : (kindOf x >>= fun k => if k.isError then pure true else occursInAny x pinned) s = some (shared, u)) :
    shared = (s.forest.kind x).isError := by
  replace h := of_bind_view h
  rcases ite_eq_some.1 h with ⟨herror, h⟩ | ⟨hplain, h⟩
  · rw [herror]
    exact (pure_eq_some.1 h).1.symm
  · rw [Bool.eq_false_iff.2 hplain]
    obtain ⟨g, hrun, -⟩ := onForest_eq_some.1 h
    refine Bool.eq_false_iff.2 fun htrue => ?_
    subst htrue
    have hpinned := Forest.occursInAny_finds hs.sound.forest.rooted hrun
    rw [hroot] at hpinned
    exact hs.not_reachedFrom hbarred hpinned

/-- Nothing is touched where a class of another seat is met. -/
theorem zone_of_works (h : Works f d pinned A zone s zone' u) (hc : zone c = .seat x) : zone' c = .seat x := by
  have hlt := hs.lt_of_ne_free (x := c) (by rw [hc]; exact Zone.noConfusion)
  rcases h.zones c hlt with e | ⟨-, e⟩
  · rw [e, hc]
  · rw [hc] at e
    cases e

end Laid

namespace Works

/-- Doing nothing is work. -/
theorem refl (hs : Laid f d pinned zone s) : Works f d pinned A zone s zone s :=
  ⟨hs, le_rfl, fun _ _ => id, fun _ => id, fun _ => id, fun _ _ => Or.inl rfl, fun _ _ k _ h => ⟨k, h, rfl⟩,
    fun _ c _ _ h => ⟨c, h, rfl⟩, fun _ _ _ => rfl⟩

/-- Work is done in turn. -/
theorem trans (hs : Laid f d pinned zone s) (h : Works f d pinned A zone s zone' t)
    (h' : Works f d pinned A zone' t zone'' u) : Works f d pinned A zone s zone'' u where
  laid := h'.laid
  size := h.size.trans h'.size
  rep x y hxy := h'.rep x y (h.rep x y hxy)
  dead x hx := h'.dead x (h.dead x hx)
  nils x hx := h'.nils x (h.nils x hx)
  zones x hx := by
    rcases h.zones x hx with e | ⟨hA, hbarred⟩
    · rw [← e]
      exact h'.zones x (Nat.lt_of_lt_of_le hx h.size)
    · exact Or.inr ⟨hA, hbarred⟩
  shows C x k hC hk := by
    have hC' : ∀ c, C c → ¬Touched A (zone' c) := fun c hc => by
      have hne : zone c ≠ .free := fun e => hC c hc (by rw [e]; trivial)
      rcases h.zones c (hs.lt_of_ne_free hne) with e | ⟨-, e⟩
      · rw [e]
        exact hC c hc
      · exact absurd (by rw [e]; trivial) (hC c hc)
    obtain ⟨k', hk', hsame⟩ := h.shows C x k hC hk
    obtain ⟨k'', hk'', hsame'⟩ := h'.shows C x k' hC' hk'
    exact ⟨k'', hk'', (hsame.later fun y => h'.rep _ _ (Forest.rep_rep h.laid.sound.forest.rooted y)).trans
      hsame'⟩
  image x c hx hvar hc := by
    obtain ⟨c', hc', hrep⟩ := h.image x c hx hvar hc
    obtain ⟨c'', hc'', hrep'⟩ := h'.image x c' hx hvar hc'
    exact ⟨c'', hc'', hrep'.trans (h'.rep _ _ hrep)⟩
  spares x hx hA := (h'.spares x hx hA).trans (h.spares x hx hA)

/-- Work for some classes is work for more. -/
theorem mono (h : Works f d pinned A zone s zone' u) (hAB : ∀ a, A a → B a) :
    Works f d pinned B zone s zone' u :=
  { h with
    zones := fun x hx => (h.zones x hx).imp_right fun ⟨hA, hbarred⟩ => ⟨hAB x hA, hbarred⟩
    shows := fun C x k hC => h.shows C x k fun c hc htouched => hC c hc (htouched.mono hAB)
    spares := fun x hx hB => h.spares x hx fun hA => hB (hAB x hA) }

/-- What is not barred belongs where it did. -/
theorem zone_eq (h : Works f d pinned A zone s zone' u) (hx : x < s.forest.size) (hne : zone x ≠ .barred) :
    zone' x = zone x := (h.zones x hx).resolve_right fun hbarred => hne hbarred.2

/-- A term goes where its class goes. -/
theorem rep_rep (hs : Laid f d pinned zone s) (h : Works f d pinned A zone s zone' u) (x : TermId) :
    u.forest.rep (s.forest.rep x) = u.forest.rep x :=
  h.rep _ _ (Forest.rep_rep hs.sound.forest.rooted x)

/-- What is free stays so, whatever its class is. -/
theorem free (hs : Laid f d pinned zone s) (h : Works f d pinned A zone s zone' u)
    (hlt : s.forest.rep x < s.forest.size) (hfree : zone (s.forest.rep x) = .free) :
    zone' (u.forest.rep x) = .free := by
  rw [← h.rep_rep hs x]
  exact h.laid.zoned.free.rep ((h.zone_eq hlt (by rw [hfree]; exact Zone.noConfusion)).trans hfree)

/-- What was made, or belongs to the definition and is an error, goes where it belongs. -/
theorem reseat {z : Zone} (h : Works f d pinned A zone s zone' u)
    (hc : s.forest.size ≤ c ∨ A c) (hlt : c < u.forest.size) (hbarred : zone' c = .barred)
    (hdefinition : f.Reaches d c → (f.kind c).isError = true ∧ z = .seat c)
    (hadmits : f.Admits d zone' z (u.forest.kind c))
    (hself : ∀ x ∈ (u.forest.kind c).children, x ≠ c) :
    Works f d pinned A zone s (Function.update zone' c z) u := by
  have hother : ∀ {x}, x ≠ c → Function.update zone' c z x = zone' x := fun hx =>
    Function.update_of_ne hx _ _
  have hne : ∀ {x}, zone' x ≠ .barred → x ≠ c := fun hx e => hx (e ▸ hbarred)
  refine { h with laid := { h.laid with zoned := fun x => ?_, unborn := fun x hx => ?_, definition := ?_,
                                        pinned := fun x hx => ?_, image := fun x c' hx hvar hc' => ?_ },
                  zones := fun x hx => ?_ }
  · by_cases hx : x = c
    · subst hx
      rw [Function.update_self]
      exact hadmits.congr fun y hy => hother (hself y hy)
    · rw [hother hx]
      -- Only what is barred leads to the term.
      by_cases hz : zone' x = .barred
      · rw [hz]
        trivial
      · exact (h.laid.zoned x).congr fun y hy => hother (hne ((h.laid.zoned x).ne_barred hz hy))
  · rw [hother fun e : x = c => absurd hlt (Nat.not_lt.2 (e ▸ hx))]
    exact h.laid.unborn x hx
  · intro x hx
    by_cases hxc : x = c
    · subst hxc
      obtain ⟨herror, rfl⟩ := hdefinition hx
      exact Or.inr ⟨herror, Function.update_self _ _ _⟩
    · rw [hother hxc]
      exact h.laid.definition x hx
  · rw [hother (hne (h.laid.pinned x hx))]
    exact h.laid.pinned x hx
  · have hfree := h.laid.image x c' hx hvar hc'
    rw [hother (hne (by rw [hfree]; exact Zone.noConfusion)), hfree]
  · by_cases hxc : x = c
    · subst hxc
      rcases h.zones x hx with e | hA
      · exact Or.inr ⟨hc.resolve_left (Nat.not_le.2 hx), e ▸ hbarred⟩
      · exact Or.inr hA
    · rw [hother hxc]
      exact h.zones x hx

end Works

/-! ## Steps that are work -/

namespace Laid

variable (hf : f.Template d pinned) (hs : Laid f d pinned zone s)

include hs

omit hs in
private theorem works_of_off (hu : Laid f d pinned zone' u) (hsize : s.forest.size ≤ u.forest.size)
    (hrep : ∀ x y, s.forest.rep x = s.forest.rep y → u.forest.rep x = u.forest.rep y)
    (haccrues : ∀ t, (s.forest.kind (s.forest.rep t)).Accrues (u.forest.kind (u.forest.rep t)))
    (himage : u.image = s.image) (hzones : ∀ t, t < s.forest.size → zone' t = zone t)
    (hoff : ∀ x, ¬Touched A (zone (s.forest.rep x)) → u.forest.rep x = s.forest.rep x ∧
      u.forest.kind (s.forest.rep x) = s.forest.kind (s.forest.rep x)) : Works f d pinned A zone s zone' u where
  laid := hu
  size := hsize
  rep := hrep
  dead x hx := (haccrues x).isError hx
  nils x hx := hx.accrues (haccrues x)
  zones x hx := Or.inl (hzones x hx)
  shows C x k hC hk := ⟨k, hk.congr (fun y hy => (hoff y (hC _ hy)).1) fun y hy => (hoff y (hC _ hy)).2, rfl⟩
  image x c _ _ hc := ⟨c, himage ▸ hc, rfl⟩
  spares x _ _ := by rw [himage]

private theorem works_of_proceeds (hu : Laid f d pinned zone' u) (hp : Proceeds s u) (himage : u.image = s.image)
    (hzones : ∀ t, t < s.forest.size → zone' t = zone t)
    (hoff : ∀ x, ¬Touched A (zone (s.forest.rep x)) → u.forest.rep x = s.forest.rep x ∧
      u.forest.kind (s.forest.rep x) = s.forest.kind (s.forest.rep x)) : Works f d pinned A zone s zone' u :=
  works_of_off hu (hp.evolves hs.sound).grows.size (hp.evolves hs.sound).grows.rep
    (hp.leads.accrues hs.sound.forest) himage hzones hoff

private theorem images_of_size (hsize : s.forest.size ≤ u.forest.size) (himage : u.image = s.image) :
    ∀ p ∈ u.image, p.1 < u.forest.size := fun p hmem =>
  Nat.lt_of_lt_of_le (hs.keys p (himage ▸ hmem)) hsize

private theorem met_of_rep (hrep : ∀ x y, s.forest.rep x = s.forest.rep y → u.forest.rep x = u.forest.rep y)
    (hmet : u.met = s.met) : ∀ p ∈ u.met, u.forest.rep p.1 = u.forest.rep p.2 := fun p hmem =>
  hrep _ _ (hs.met p (hmet ▸ hmem))

include hf in
/-- Looking classes up is work. -/
theorem looks (hlooks : Looks s u) : Works f d pinned A zone s zone u := by
  have hrooted := hs.sound.forest.rooted
  have hp := hlooks.proceeds hs.sound
  have hup := hlooks.upkeeps
  have hrep := (hup.steady hrooted).rep
  refine ⟨⟨hp.sound, hlooks.work ▸ hs.commits, ?_, hs.stands.of_upkeeps hrooted hf.tree hup,
    hs.zoned.of_upkeeps hrooted hup, fun x hx => hs.unborn x (hup.size ▸ hx), hs.definition, hs.pinned,
    hs.images_of_size hup.size.ge hlooks.image, fun x c hx hvar hc => hs.image x c hx hvar (hlooks.image ▸ hc),
    hs.met_of_rep (fun x y hxy => by rw [hrep, hrep, hxy]) hlooks.met⟩, hup.size.ge,
    fun x y hxy => by rw [hrep, hrep, hxy], fun x hx => hx.of_upkeeps hrooted hup rfl,
    fun x hx => hx.accrues (hp.leads.accrues hs.sound.forest x), fun _ _ => Or.inl rfl, fun C x k _ hk => ?_,
    fun x c _ _ hc => ⟨c, hlooks.image ▸ hc, rfl⟩, fun x _ _ => by rw [hlooks.image]⟩
  · rw [hup.size]
    exact hs.size
  · obtain ⟨k', hk', hsame⟩ := hk.of_upkeeps hrooted hup
    rw [← funext hrep] at hsame
    exact ⟨k', hk', hsame⟩

/-- Recording an image is work for a class that had none, if the image of a variable is free. -/
theorem setImage (hx : x < s.forest.size) (hc : c < s.forest.size) (hA : x < f.size → A x)
    (hnew : f.Reaches d x → f.kind x = .var → s.image.lookup x = none ∧ (f.Single d x ∨ zone c = .free)) :
    Works f d pinned A zone s zone { s with image := (x, c) :: s.image } := by
  refine ⟨{ hs with sound := ⟨hs.sound.forest, fun p hp => ?_⟩, keys := fun p hp => ?_,
                    image := fun y c' hy hvar hc' => ?_ }, le_rfl, fun _ _ => id, fun _ => id, fun _ => id,
    fun _ _ => Or.inl rfl, fun _ _ k _ hk => ⟨k, hk, rfl⟩, fun y c' hy hvar hc' => ⟨c', ?_, rfl⟩,
    fun y hy hAy => lookup_cons_of_ne ?_⟩
  · rcases List.mem_cons.1 hp with rfl | hp
    · exact hc
    · exact hs.sound.image p hp
  · rcases List.mem_cons.1 hp with rfl | hp
    · exact hx
    · exact hs.keys p hp
  · rcases lookup_cons_eq_some.1 hc' with ⟨rfl, rfl⟩ | ⟨-, hc'⟩
    · exact (hnew hy (Forest.eq_var_of_not_single hvar)).2.resolve_left hvar
    · exact hs.image y c' hy hvar hc'
  · refine lookup_cons_eq_some.2 (Or.inr ⟨?_, hc'⟩)
    rintro rfl
    rw [(hnew hy hvar).1] at hc'
    cases hc'
  · rintro rfl
    exact hAy (hA hy)

include hf

/-- Terms of the definition are there. -/
theorem lt_of_reaches (ha : f.Reaches d a) : a < s.forest.size :=
  Nat.lt_of_lt_of_le (hf.lt_of_reaches ha) hs.size

/-- Making a term is work. -/
theorem add {term : Term} {z : Zone} (hlink : term.kind.isLink = false)
    (hrange : ∀ x ∈ term.kind.children, x < s.forest.size) (hadmits : f.Admits d zone z term.kind) :
    Works f d pinned A zone s (Function.update zone s.forest.size z)
      { s with forest := (s.forest.add term).2 } := by
  obtain ⟨hp, hsteady, hclass, hkind⟩ := add_proceeds hs.sound term hlink hrange
  have hold : ∀ {x}, x < s.forest.size → Function.update zone s.forest.size z x = zone x := fun hx =>
    Function.update_of_ne (Nat.ne_of_lt hx) _ _
  have hkinds : ∀ {x}, x < s.forest.size → (s.forest.add term).2.kind x = s.forest.kind x := fun hx => by
    rw [Forest.kind_add, if_neg (Nat.ne_of_lt hx)]
  refine hs.works_of_proceeds ⟨hp.sound, hs.commits, hs.size.trans hsteady.size,
    hs.stands.of_kept hs.sound.forest.rooted (hp.evolves hs.sound).grows.rep fun x hx => ?_, fun x => ?_,
    fun x hx => ?_, fun x hx => ?_, fun x hx => ?_, hs.images_of_size hsteady.size rfl, fun x c hx hvar hc => ?_,
    hs.met_of_rep (hp.evolves hs.sound).grows.rep rfl⟩ hp rfl (fun x => hold) fun x hx => ⟨hsteady.rep x, hkinds ?_⟩
  · exact ⟨(hsteady.rep x).trans (hs.stands.rep x hx), hkinds (hs.lt_of_reaches hf hx)⟩
  · dsimp only
    by_cases hlt : x < s.forest.size
    · rw [hold hlt, hkinds hlt]
      exact (hs.zoned x).congr fun y hy => hold (hs.sound.forest.inRange x y hy)
    by_cases hnew : x = s.forest.size
    · subst hnew
      rw [Function.update_self, hkind]
      exact hadmits.congr fun y hy => hold (hrange y hy)
    · rw [Forest.kind_add, if_neg hnew, Forest.kind_of_size_le (Nat.le_of_not_lt hlt)]
      exact Forest.admits_var _
  · dsimp only at hx
    rw [Forest.size_add] at hx
    rw [Function.update_of_ne (Nat.ne_of_gt hx)]
    exact hs.unborn x (Nat.le_of_succ_le hx)
  · rw [hold (hs.lt_of_reaches hf hx)]
    exact hs.definition x hx
  · rw [hold (Nat.lt_of_lt_of_le (hf.inRange x hx) hs.size)]
    exact hs.pinned x hx
  · rw [hold (hs.sound.image_lt hc)]
    exact hs.image x c hx hvar hc
  · by_contra hlt
    rw [hs.unborn _ (Nat.le_of_not_lt hlt)] at hx
    exact hx trivial

omit hf in
/-- Changing what is known of a class is work where the class belongs, if it is no part of the definition. -/
theorem edit (hnot : ¬f.Reaches d b) (htouched : Touched A (zone b)) (hu : u.Sound)
    (hwork : u.work.isNone = s.work.isNone) (hsteady : Steady s.forest u.forest)
    (hsize : u.forest.size = s.forest.size) (hkinds : ∀ c, c ≠ b → u.forest.kind c = s.forest.kind c)
    (haccrues : (s.forest.kind b).Accrues (u.forest.kind b))
    (hadmits : f.Admits d zone (zone b) (u.forest.kind b)) (hmet : u.met = s.met) (himage : u.image = s.image) :
    Works f d pinned A zone s zone u := by
  have hne : ∀ {x}, f.Reaches d x → x ≠ b := fun hx e => hnot (e ▸ hx)
  have hrep : ∀ x y, s.forest.rep x = s.forest.rep y → u.forest.rep x = u.forest.rep y := fun x y hxy => by
    rw [hsteady.rep, hsteady.rep, hxy]
  refine works_of_off ⟨hu, hwork.trans hs.commits, hs.size.trans hsteady.size,
    hs.stands.of_kept hs.sound.forest.rooted hrep fun x hx => ?_, fun x => ?_,
    fun x hx => hs.unborn x (hsize ▸ hx), hs.definition, hs.pinned, hs.images_of_size hsteady.size himage,
    fun x c hx hvar hc => hs.image x c hx hvar (himage ▸ hc), hs.met_of_rep hrep hmet⟩ hsteady.size hrep
    (fun x => ?_) himage (fun _ _ => rfl) fun x hx => ⟨hsteady.rep x, hkinds _ ?_⟩
  · exact ⟨(hsteady.rep x).trans (hs.stands.rep x hx), hkinds x (hne hx)⟩
  · by_cases hx : x = b
    · rw [hx]
      exact hadmits
    · rw [hkinds x hx]
      exact hs.zoned x
  · rw [hsteady.rep]
    by_cases hxb : s.forest.rep x = b
    · rw [hxb]
      exact haccrues
    · rw [hkinds _ hxb]
      exact .refl (Forest.not_isLink_rep hs.sound.forest.rooted x)
  · intro e
    rw [e] at hx
    exact hx htouched

omit hf in
/-- Letting more be known of a class is work where the class belongs. -/
theorem takeOver {k : Kind} (hb : s.forest.IsClass b) (hnot : ¬f.Reaches d b) (htouched : Touched A (zone b))
    (hrefines : (s.forest.kind b).Refines k) (hadmits : f.Admits d zone (zone b) k) (work : Option Worklist)
    (hwork : work.isNone = s.work.isNone) :
    Works f d pinned A zone s zone ⟨s.forest.setKind b k, work, s.met, s.image⟩ := by
  have hkind : ∀ c, (s.forest.setKind b k).kind c = if b = c then k else s.forest.kind c := fun c => by
    rw [Forest.kind_setKind]
    exact if_congr (and_iff_left hb.lt) rfl rfl
  have hu := hs.sound.change (.refine hrefines)
  refine hs.edit hnot htouched ⟨hu.forest, hu.image⟩ hwork
    (Forest.refine_steady hs.sound.forest.rooted hrefines) (Forest.size_setKind _ _ _) (fun c hc => ?_) ?_ ?_ rfl rfl
  · exact (hkind c).trans (if_neg (Ne.symm hc))
  · dsimp only
    rw [hkind, if_pos rfl]
    exact hrefines.accrues
  · dsimp only
    rw [hkind, if_pos rfl]
    exact hadmits

omit hf in
/-- Merging a class of a seat into another one of the seat is work for all that the class of the definition leads
to, if the other one leads nowhere else. -/
theorem enters (hb : zone b = .seat a) (hc : zone c = .seat a) (hsealed : f.Sealed zone a s.forest c)
    (herror : (s.forest.kind b).isError = false) (hp : Proceeds s u) (henters : Enters b c s.forest u.forest)
    (hmet : u.met = s.met) (himage : u.image = s.image) : Works f d pinned (f.Reaches a) zone s zone u := by
  have hne : ∀ {x}, f.Reaches d x → x ≠ b := fun hx e => hs.not_reaches hb herror (e ▸ hx)
  have hkinds : ∀ {x}, x ≠ b → zone x = .barred ∨ ¬Touched (f.Reaches a) (zone x) →
      u.forest.kind x = s.forest.kind x := fun hx hz => (henters.kinds _ hx).resolve_right fun hwiden => by
    rcases hsealed _ hwiden.1 with e | ⟨y, e, hy⟩ <;> rw [e] at hz
    · exact hz.elim Zone.noConfusion fun h => h trivial
    · exact hz.elim Zone.noConfusion fun h => h hy
  refine hs.works_of_proceeds ⟨hp.sound, hp.probe.trans hs.commits, henters.size ▸ hs.size,
    hs.stands.of_kept hs.sound.forest.rooted (hp.evolves hs.sound).grows.rep fun x hx => ?_, fun x => ?_,
    fun x hx => hs.unborn x (henters.size ▸ hx), hs.definition, hs.pinned,
    hs.images_of_size (hp.evolves hs.sound).grows.size himage,
    fun x c hx hvar hc => hs.image x c hx hvar (himage ▸ hc),
    hs.met_of_rep (hp.evolves hs.sound).grows.rep hmet⟩ hp himage (fun _ _ => rfl) fun x hx => ?_
  · have hroot := hs.stands.rep x hx
    refine ⟨by rw [henters.rep, hroot, if_neg (hne hx)], ?_⟩
    rcases hs.definition x hx with hbarred | ⟨hxerror, -⟩
    · exact hkinds (hne hx) (Or.inl hbarred)
    · refine (henters.kinds x (hne hx)).resolve_right ?_
      rintro ⟨-, flow, hflow, -⟩
      rw [← (hs.stands.same x hx).isError, hflow] at hxerror
      cases hxerror
  · by_cases hx : x = b
    · rw [hx, hb, henters.link]
      refine ⟨fun y hy => ?_, fun slot y hy => (by cases slot <;> cases hy), fun h => (by cases h)⟩
      cases hy
      exact hc
    · rcases henters.kinds x hx with e | ⟨-, flow, -, hflow⟩
      · rw [e]
        exact hs.zoned x
      · rw [hflow]
        exact Forest.admits_of_children rfl rfl _
  · have hxb : s.forest.rep x ≠ b := fun e => by
      rw [e, hb] at hx
      exact hx .refl
    exact ⟨by rw [henters.rep, if_neg hxb], hkinds hxb (Or.inr hx)⟩

omit hf in
/-- Whatever is done to what is free is work for nothing in particular, if pairs that are met are merged. -/
theorem confined (hacts : ActsIn (zone · = .free) s u) (hp : Proceeds s u)
    (hmet : ∀ p ∈ u.met, u.forest.rep p.1 = u.forest.rep p.2) : Works f d pinned A zone s zone u := by
  have hrooted := hs.sound.forest.rooted
  have hkinds : ∀ {c}, zone c ≠ .free → u.forest.kind c = s.forest.kind c := fun hc =>
    Forest.kind_congr (hacts.off _ hc)
  have hreps : ∀ {c}, zone (s.forest.rep c) ≠ .free → u.forest.rep c = s.forest.rep c := fun {c} hc =>
    Forest.ChangesIn.rep_of_off hrooted hs.zoned.free hp.sound.forest.rooted (fun _ => hkinds) c hc
  have hsize := (hp.evolves hs.sound).grows.size
  refine hs.works_of_proceeds ⟨hp.sound, hp.probe.trans hs.commits, hs.size.trans hsize,
    hs.stands.of_kept hrooted (hp.evolves hs.sound).grows.rep fun c hc => ?_, fun c => ?_,
    fun c hc => hs.unborn c (hsize.trans hc), hs.definition, hs.pinned,
    hs.images_of_size hsize hacts.image, fun c c' hc hvar hc' => hs.image c c' hc hvar (hacts.image ▸ hc'), hmet⟩
    hp hacts.image (fun _ _ => rfl) fun c hc => ?_
  · have hfree : zone c ≠ .free := fun e => hs.not_reaches_of_free e hc
    have hroot := hs.stands.rep c hc
    exact ⟨(hreps (by rwa [hroot])).trans hroot, hkinds hfree⟩
  · by_cases hc : zone c = .free
    · rw [hc]
      exact hacts.realm.region c hc
    · rw [hkinds hc]
      exact hs.zoned c
  · have hfree : zone (s.forest.rep c) ≠ .free := fun e => hc (by rw [e]; trivial)
    exact ⟨hreps hfree, hkinds hfree⟩

omit hf in
/-- So is unifying what is free. -/
theorem unify {depth : Nat} (hx : x < s.forest.size) (hy : y < s.forest.size) (hzx : zone x = .free)
    (hzy : zone y = .free) (h : unifyWithin depth x y s = some (r, u)) :
    Works f d pinned A zone s zone u ∧ u.forest.rep x = u.forest.rep y ∧ u.image = s.image := by
  have hrooted := hs.sound.forest.rooted
  obtain ⟨hacts, -⟩ := acts_unifyWithin depth hzx hzy s r u ⟨hs.zoned.free, hs.unborn⟩ h
  obtain ⟨hp, hrep⟩ := unifyWithin_proceeds hs.sound hx hy h
  have hadvances := unifyWithin_advances depth x y s r u hs.sound hs.commits hx hy h
  refine ⟨hs.confined hacts hp fun p hmem =>
    (hadvances.merged p hmem).elim (fun hmem => hadvances.rep _ _ (hs.met p hmem)) id, ?_, hacts.image⟩
  refine (hrep hs.commits).elim id fun hmem => ?_
  have hmerged := hs.met _ hmem
  rw [Forest.rep_rep hrooted, Forest.rep_rep hrooted] at hmerged
  exact hadvances.rep _ _ hmerged

end Laid

end Unifier

end TypeFlow
