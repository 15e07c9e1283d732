import TypeFlow.Proofs.Walks

/-!
# Instances that are in place

A use that has an instance of a definition's type already is not changed when the definition is
instantiated for it again.  A relation takes each class of the definition to the class that stands for
it in the instance, and each class that the two share to itself.  The instantiation walks along this
relation, with no class met twice, and finds nothing that the instance lacks.

Main definitions:

- `Kind.Echoes`: a kind as an instance has it.
- `Kind.Suffices`: a kind that an instance may have.
- `Forest.InPlace`: a relation of classes to those of instances that are in place.
- `Unifier.Replies`: a computation has an answer, and only looks classes up for it.

Main results:

- `Unifier.instantiate_inPlace`: an instance that is in place is not changed.
-/

namespace TypeFlow

namespace Kind

variable {k k' l l' : Kind} {r : TermId → TermId}

/-! ## Kinds in instances -/

/-- Kinds that are the same up to some children are so up to all. -/
theorem Same.forget (h : Same r k k') : Same (fun _ => 0) k k' := by
  have hzero : ∀ l : Kind, (l.mapChildren r).mapChildren (fun _ => 0) = l.mapChildren fun _ => 0 :=
    fun _ => mapChildren_mapChildren fun _ => rfl
  unfold Same at h ⊢
  rw [← hzero, h, hzero]

private theorem refinedKind?_self (k : Kind) : Unifier.refinedKind? k k = none := by
  cases k <;> simp [Unifier.refinedKind?]

/-- The second kind has what the first one has, as long as one of the two is open, and nothing else if the first
one is closed, apart from children of a sort. -/
structure Echoes (dead : TermId → Prop) (k k' : Kind) : Prop where
  shape : k'.shape = k.shape
  flows : ∀ x y, k.baseFlow? = some x → k'.baseFlow? = some y → x.sameKind y = true ∧ x.meet y = y
  /-- Function ids, sites and marks are those of the first kind as well, unless neither has slots. -/
  known : k.slots = [] ∧ k'.slots = [] ∨ Unifier.refinedKind? k k' = none
  missing : ∀ slot x, k.child? slot = some x → k'.child? slot = none → k.isOpen = false ∧ k'.isOpen = false
  extra : ∀ slot y, k.child? slot = none → k'.child? slot = some y → k.isOpen = true ∨ dead y

namespace Echoes

variable {dead dead' : TermId → Prop}

/-- Kinds with the same slots lack none. -/
theorem of_slots (hshape : k'.shape = k.shape) (hslots : k'.slots = k.slots)
    (hflows : ∀ x y, k.baseFlow? = some x → k'.baseFlow? = some y → x.sameKind y = true ∧ x.meet y = y)
    (hknown : Unifier.refinedKind? k k' = none) : Echoes dead k k' := by
  have hchild : ∀ slot, (k'.child? slot).isSome = (k.child? slot).isSome := fun slot => by
    rw [Bool.eq_iff_iff, ← mem_slots, ← mem_slots, hslots]
  refine ⟨hshape, hflows, Or.inr hknown, fun slot x hx hnone => ?_, fun slot y hnone hy => ?_⟩
  · have hsome := hchild slot
    rw [hx, hnone] at hsome
    cases hsome
  · have hsome := hchild slot
    rw [hy, hnone] at hsome
    cases hsome

/-- What is the same up to its children has what that has. -/
theorem same (h : Same (fun _ => 0) k k') : Echoes dead k k' := by
  refine of_slots h.shape h.slots (fun x y hx hy => ?_) ?_
  · rw [h.baseFlow?, hx] at hy
    cases hy
    exact ⟨x.sameKind_self, x.meet_self⟩
  · have hnone := Same.refinedKind? (r := fun _ => 0) (rfl : Same _ k k) h
    rwa [refinedKind?_self, Option.isNone_none, Option.isNone_iff_eq_none] at hnone

/-- A flow that another covers has what that has. -/
theorem base {x y : Flow} (hkind : x.sameKind y = true) (hcovers : x.covers y = true) :
    Echoes dead (.base x) (.base y) := by
  refine of_slots rfl rfl (fun x' y' hx hy => ?_) rfl
  cases hx
  cases hy
  exact ⟨hkind, Flow.covers_iff.1 hcovers⟩

/-- So does a function of which as much is known. -/
theorem function (hk : k.isFunction = true) (hshape : k'.shape = k.shape)
    (hknown : Unifier.refinedKind? k k' = none) : Echoes dead k k' := by
  refine of_slots hshape (slots_of_shape hk hshape) (fun x y hx _ => ?_) hknown
  cases k <;> cases hk
  cases hx

private theorem isError (h : Echoes dead k k') : k'.isError = k.isError := isError_eq_of_shape h.shape

private theorem isNilable (h : Echoes dead k k') : k'.isNilable = k.isNilable :=
  isNilable_eq_of_shape h.shape

private theorem isVar (h : Echoes dead k k') (hlink : k.isLink = false) (hvar : ¬k.isVar = true) :
    ¬k'.isVar = true := by
  intro hvar'
  obtain rfl := isVar_iff.1 hvar'
  have hshape := h.shape
  cases k <;> first | exact hvar rfl | exact Bool.noConfusion hlink | cases hshape

/-- It does so when children have been looked up in both. -/
theorem of_same (hdead : ∀ y y', r y' = r y → dead y → dead' y') (h : Echoes dead k k') (hk : Same r k l)
    (hk' : Same r k' l') : Echoes dead' l l' where
  shape := hk'.shape.trans (h.shape.trans hk.shape.symm)
  flows x y hx hy := h.flows x y (hk.baseFlow?.symm.trans hx) (hk'.baseFlow?.symm.trans hy)
  known := by
    rw [hk.slots, hk'.slots]
    refine h.known.imp_right fun hnone => ?_
    rw [← Option.isNone_iff_eq_none] at hnone ⊢
    rw [hk.refinedKind? hk', hnone]
  missing slot x hx hnone := by
    obtain ⟨x', hx', -⟩ := hk.exists_child? hx
    rw [hk.isOpen, hk'.isOpen]
    exact h.missing slot x' hx' (hk'.child?_eq_none.1 hnone)
  extra slot y hnone hy := by
    obtain ⟨y', hy', hyy'⟩ := hk'.exists_child? hy
    rw [hk.isOpen]
    exact (h.extra slot y' (hk.child?_eq_none.1 hnone) hy').imp_right (hdead y' y hyy')

end Echoes

/-- An instance of the second kind is enough for a definition of the first. -/
inductive Suffices (dead : TermId → Prop) : Kind → Kind → Prop
  | var (k : Kind) : Suffices dead .var k
  /-- An error is left to itself. -/
  | error (k : Kind) (cause : TypeError) : Suffices dead k (.error cause)
  /-- What is no wrapper stands for one if it has nil among its values. -/
  | nilable {k k' : Kind} (hk : k.isNilable = true) (hk' : k'.mayNil = true) (hplain : k'.isNilable = false) :
    Suffices dead k k'
  | echoes {k k' : Kind} (h : k.Echoes dead k') : Suffices dead k k'

section Suffices

variable {dead dead' : TermId → Prop}

/-- What is not left to itself is an instance of what is known, or stands for a wrapper. -/
theorem Suffices.echoes_or (h : Suffices dead k k') (hvar : ¬k.isVar = true) (herror : k'.isError = false) :
    k.Echoes dead k' ∨ k.isNilable = true ∧ k'.mayNil = true ∧ k'.isNilable = false := by
  cases h with
  | var => exact absurd rfl hvar
  | error => cases herror
  | nilable hk hk' hplain => exact Or.inr ⟨hk, hk', hplain⟩
  | echoes h => exact Or.inl h

/-- What takes nil in, or is an error, is enough for a wrapper. -/
theorem Suffices.of_takesNil (hk : k.isNilable = true) (hk' : k'.mayNil = true ∨ k'.isError = true) :
    k.Suffices dead k' := by
  rcases hk' with hnil | herror
  · cases hwrapper : k'.isNilable with
    | false => exact .nilable hk hnil hwrapper
    | true =>
      obtain ⟨x, rfl⟩ := isNilable_eq_true.1 hk
      obtain ⟨y, rfl⟩ := isNilable_eq_true.1 hwrapper
      exact .echoes (.same rfl)
  · obtain ⟨cause, rfl⟩ := isError_iff.1 herror
    exact .error k cause

private theorem Suffices.not_isError (h : Suffices dead k k') (herror : ¬k'.isError = true) :
    ¬k.isError = true := by
  cases h with
  | var => exact Bool.false_ne_true
  | error => exact absurd rfl herror
  | nilable hk =>
    obtain ⟨x, rfl⟩ := isNilable_eq_true.1 hk
    exact Bool.false_ne_true
  | echoes h => rwa [← h.isError]

/-- So it is when children have been looked up in both. -/
theorem Suffices.of_same (hdead : ∀ y y', r y' = r y → dead y → dead' y') (h : Suffices dead k k')
    (hk : Same r k l) (hk' : Same r k' l') : Suffices dead' l l' := by
  cases h with
  | var =>
    obtain rfl : l = .var := isVar_iff.1 hk.isVar
    exact .var l'
  | error k cause =>
    obtain ⟨cause', rfl⟩ := isError_iff.1 hk'.isError
    exact .error l cause'
  | nilable hnilable hnil hplain =>
    exact .nilable (hk.isNilable.trans hnilable) (hk'.mayNil.trans hnil) (hk'.isNilable.trans hplain)
  | echoes h => exact .echoes (h.of_same hdead hk hk')

end Suffices

/-- There is a field for each label. -/
theorem exists_child?_of_mem_labels {label : String} (h : label ∈ k.labels) :
    ∃ x, k.child? (.field label) = some x := by
  cases k with
  | record fields => exact Option.isSome_iff_exists.1 (Fields.mem_labels.1 h)
  | _ => exact absurd h List.not_mem_nil

end Kind

namespace Forest

variable {f g : Forest} {R : TermId → TermId → Prop} {pinned : List TermId} {a b : TermId}

/-! ## Instances in a forest -/

/-- The class of the term is an error. -/
def Dead (f : Forest) (t : TermId) : Prop := (f.kind (f.rep t)).isError = true

/-- Whatever is tidied up, the classes are found to be alike. -/
def AlikeFor (f : Forest) (a b : TermId) : Prop :=
  ∀ g, f.Upkeeps g → Returns (alike a b) g fun same h => same = true ∧ g.Upkeeps h

/-- The relation takes classes of definitions to those that stand for them in an instance around the
pinned types, or to themselves. -/
structure InPlace (f : Forest) (pinned : List TermId) (R : TermId → TermId → Prop) : Prop
    extends f.Paired R where
  unique : ∀ a b b', R a b → R a b' → b' = b
  outside : ∀ a b k, R a b → a ≠ b → f.Shows (fun _ => True) b k → k.isError = false →
    f.Opens pinned ∧ ¬f.ReachedFrom pinned a
  enough : ∀ a b k, R a b → a ≠ b → f.Shows (fun _ => True) b k →
    f.AlikeFor a b ∨ (f.kind a).Suffices f.Dead k

/-- Instances are in place if it is so for what is known of their classes and these wrap variables at most. -/
theorem InPlace.of_calm (hlt : ∀ a b, R a b → a < f.size ∧ b < f.size)
    (hcalm : ∀ a b, R a b → f.Calm a ∧ f.Calm b)
    (hchildren : ∀ a b, R a b → a ≠ b → ∀ slot x, (f.kind a).child? slot = some x → f.Calm (f.rep x))
    (hrelated : ∀ a b, R a b → a ≠ b → ∀ slot x y, (f.kind a).child? slot = some x →
      (f.kind b).child? slot = some y → R (f.rep x) (f.rep y))
    (hunique : ∀ a b b', R a b → R a b' → b' = b)
    (houtside : ∀ a b, R a b → a ≠ b → f.Opens pinned ∧ ¬f.ReachedFrom pinned a)
    (henough : ∀ a b, R a b → a ≠ b → (f.kind a).Suffices f.Dead (f.kind b)) : f.InPlace pinned R where
  lt := hlt
  calm a b hab := (hcalm a b hab).1
  root a b hab := (hcalm a b hab).2.root
  ends a b hab := Calm.ends (by
    rw [rep_of_not_link (hcalm a b hab).2.root]
    exact (hcalm a b hab).2)
  children a b hab hne slot x hx := (hchildren a b hab hne slot x hx).ends
  related a b hab hne k hk slot x y hx hy := by
    rw [(hcalm a b hab).2.eq_of_shows hk] at hy
    exact hrelated a b hab hne slot x y hx hy
  unique := hunique
  outside a b k hab hne _ _ := houtside a b hab hne
  enough a b k hab hne hk := Or.inr (by
    rw [(hcalm a b hab).2.eq_of_shows hk]
    exact henough a b hab hne)

/-- An error wraps nothing. -/
theorem Dead.calm (hf : f.Rooted) (h : f.Dead a) : f.Calm (f.rep a) := by
  refine calm_of_not_nilable (not_isLink_rep hf a) ?_
  obtain ⟨cause, hcause⟩ := Kind.isError_iff.1 h
  rw [hcause]
  rfl

/-- Errors stay errors when forests are tidied up. -/
theorem Dead.of_upkeeps (hf : f.Rooted) (hup : f.Upkeeps g) (hab : f.rep b = f.rep a) (h : f.Dead a) :
    g.Dead b := by
  rw [Dead, (hup.steady hf).rep, hab, (hup.same hf (h.calm hf)).isError]
  exact h

private theorem InPlace.of_upkeeps (hf : f.Rooted) (hup : f.Upkeeps g) (h : f.InPlace pinned R) :
    g.InPlace pinned R := by
  have hbefore : ∀ {a b k}, R a b → g.Shows (fun _ => True) b k →
      ∃ k', f.Shows (fun _ => True) b k' ∧ k'.Same f.rep k :=
    fun {a b k} hab hk => hk.before_upkeeps hf hup (h.ends a b hab)
  refine ⟨h.toPaired.of_upkeeps hf hup, h.unique, fun a b k hab hne hk herror => ?_,
    fun a b k hab hne hk => ?_⟩
  · obtain ⟨k', hk', hsame⟩ := hbefore hab hk
    obtain ⟨hopens, hout⟩ := h.outside a b k' hab hne hk' (hsame.isError.symm.trans herror)
    exact ⟨hopens.of_upkeeps hf hup, fun hin => hout (hup.reachedFrom hf hin)⟩
  · obtain ⟨k', hk', hsame⟩ := hbefore hab hk
    refine (h.enough a b k' hab hne hk').imp (fun halike g' hg' => halike g' (hup.trans hg')) fun henough => ?_
    exact henough.of_same (fun y y' hyy hy => hy.of_upkeeps hf hup hyy) (hup.same hf (h.calm a b hab)) hsame

private theorem alike_of_rep_eq (hf : f.Rooted) {same : Bool} (hab : f.rep a = f.rep b)
    (h : alike a b f = some (same, g)) : same = true := by
  obtain ⟨f₀, f₁, hget, h⟩ := bind_eq_some.1 h
  obtain ⟨rfl, rfl⟩ := get_eq_some.1 hget
  obtain ⟨r, f₂, halike, h⟩ := bind_eq_some.1 h
  obtain ⟨x, f₃, hfind, halike⟩ := bind_eq_some.1 halike
  obtain ⟨y, f₄, hfind', halike⟩ := bind_eq_some.1 halike
  obtain ⟨rfl, hup⟩ := find_upkeeps hf hfind
  obtain ⟨rfl, -⟩ := find_upkeeps (hup.steady hf).rooted hfind'
  rw [(hup.steady hf).rep, if_pos hab] at halike
  rw [← (pure_eq_some.1 h).1, ← (pure_eq_some.1 halike).1]

end Forest

namespace Unifier

variable {α β : Type} {s t u : Unifier} {R : TermId → TermId → Prop} {pinned : List TermId}

/-! ## Computations that only look classes up -/

/-- An instantiation follows instances that are in place, and images recorded so far are as related. -/
structure Following (pinned : List TermId) (R : TermId → TermId → Prop) (s : Unifier) : Prop where
  sound : s.forest.Sound
  inPlace : s.forest.InPlace pinned R
  image : ∀ p ∈ s.image, R p.1 p.2

private theorem Following.unifier_sound (hs : Following pinned R s) : s.Sound :=
  ⟨hs.sound, fun p hp => (hs.inPlace.lt _ _ (hs.image p hp)).2⟩

private theorem Following.related (hs : Following pinned R s) {x c : TermId}
    (h : s.image.lookup x = some c) : R x c := by
  obtain ⟨l₁, l₂, hlist, -⟩ := List.lookup_eq_some_iff.1 h
  refine hs.image (x, c) ?_
  rw [hlist]
  exact List.mem_append_right _ List.mem_cons_self

/-- Classes were looked up, and images recorded. -/
structure Passes (s t : Unifier) : Prop where
  upkeeps : s.forest.Upkeeps t.forest
  image : s.image ⊆ t.image

private theorem Passes.refl (s : Unifier) : Passes s s := ⟨.refl, fun _ hp => hp⟩

private theorem Passes.trans (h : Passes s t) (h' : Passes t u) : Passes s u :=
  ⟨h.upkeeps.trans h'.upkeeps, fun _ hp => h'.image (h.image hp)⟩

/-- The number of classes that have no image. -/
def imageless (s : Unifier) : Nat := (s.forest.unseen (s.image.map Prod.fst)).card

private theorem Passes.imageless_le (h : Passes s t) : t.imageless ≤ s.imageless :=
  Nat.le_of_lt_succ (Forest.card_unseen_of_upkeeps h.upkeeps (List.map_subset _ h.image)
    (Nat.lt_succ_self _))

/-- The computation has this answer, and only looks classes up and records images for it. -/
def Replies (pinned : List TermId) (R : TermId → TermId → Prop) (m : UnifyM α) (a : α)
    (s : Unifier) : Prop :=
  Returns m s fun b t => b = a ∧ Following pinned R t ∧ Passes s t

namespace Replies

variable {a : α} {b : β}

private theorem pure (hs : Following pinned R s) (a : α) : Replies pinned R (Pure.pure a) a s :=
  returns_pure ⟨rfl, hs, .refl s⟩

private theorem bind {m : UnifyM β} {k : β → UnifyM α} (hm : Replies pinned R m b s)
    (hk : ∀ t, m s = some (b, t) → Following pinned R t → Passes s t →
      Replies pinned R (k b) a t) : Replies pinned R (m >>= k) a s := by
  refine returns_bind hm fun b' t hrun ⟨hb, ht, hpass⟩ => ?_
  rw [hb] at hrun ⊢
  exact (hk t hrun ht hpass).imp fun a' u _ ⟨ha, hu, hpass'⟩ => ⟨ha, hu, hpass.trans hpass'⟩

private theorem onForest (hs : Following pinned R s) {run : ForestM α}
    (h : Returns run s.forest fun b g => b = a ∧ s.forest.Upkeeps g) :
    Replies pinned R (Unifier.onForest run) a s := by
  obtain ⟨b, g, hrun, hb, hup⟩ := h
  refine ⟨b, { s with forest := g }, onForest_eq_some.2 ⟨g, hrun, rfl⟩, hb, ⟨hup.sound hs.sound,
    hs.inPlace.of_upkeeps hs.sound.rooted hup, hs.image⟩, hup, fun _ hp => hp⟩

/-- What a function says of the forest is known at once. -/
theorem view {read : Forest → β} {k : β → UnifyM α} (h : Replies pinned R (k (read s.forest)) a s) :
    Replies pinned R (Unifier.view read >>= k) a s := h

/-- Nothing depends on whether there is a worklist. -/
theorem probe {k : Bool → UnifyM α} (h : ∀ probing, Replies pinned R (k probing) a s) :
    Replies pinned R (isProbe >>= k) a s := h _

private theorem find (hs : Following pinned R s) {x : TermId} (hx : s.forest.Ends x) :
    Replies pinned R (Unifier.find x) (s.forest.rep x) s :=
  .onForest hs ((Forest.find_returns hs.sound.rooted hx).imp fun _ _ _ h => ⟨h.1, h.2.1⟩)

/-- A class that wraps a variable at most is looked up and found to be itself. -/
theorem findCalm (hs : Following pinned R s) {c : TermId} (hc : s.forest.Calm c) :
    Replies pinned R (Unifier.find c) c s := by
  have hrep := Forest.rep_of_not_link hc.root
  have hfind := find hs (Forest.Calm.ends (by rwa [hrep]))
  rwa [hrep] at hfind

private theorem child (hs : Following pinned R s) {x y : TermId} {slot : Slot}
    (hy : (s.forest.kind x).child? slot = some y) (hends : s.forest.Ends y) :
    Replies pinned R (Unifier.child x slot) (some (s.forest.rep y)) s :=
  .onForest hs (Forest.child_answers hs.sound.rooted hy hends)

private theorem childNone (hs : Following pinned R s) {x : TermId} {slot : Slot}
    (hnone : (s.forest.kind x).child? slot = none) : Replies pinned R (Unifier.child x slot) none s :=
  .onForest hs ⟨none, s.forest, Forest.child_of_none hnone, rfl, .refl⟩

private theorem imageOf (hs : Following pinned R s) (x : TermId) :
    Replies pinned R (Unifier.imageOf x) (s.image.lookup x) s :=
  ⟨_, s, imageOf_eq_some.2 ⟨rfl, rfl⟩, rfl, hs, .refl s⟩

private theorem setImage (hs : Following pinned R s) {x c : TermId} (hR : R x c) {k : Unit → UnifyM α}
    (hk : Following pinned R { s with image := (x, c) :: s.image } →
      Replies pinned R (k ()) a { s with image := (x, c) :: s.image }) :
    Replies pinned R (Unifier.setImage x c >>= k) a s := by
  have hfollowing : Following pinned R { s with image := (x, c) :: s.image } := by
    refine ⟨hs.sound, hs.inPlace, fun p hp => ?_⟩
    rcases List.mem_cons.1 hp with rfl | hp
    · exact hR
    · exact hs.image p hp
  obtain ⟨b, t, hrun, hb, ht, hpass⟩ := hk hfollowing
  exact ⟨b, t, bind_eq_some.2 ⟨(), _, modify_eq_some.2 rfl, hrun⟩, hb, ht, hpass.upkeeps,
    fun p hp => hpass.image (List.mem_cons_of_mem _ hp)⟩

private theorem setImage_pure (hs : Following pinned R s) {x c : TermId} (hR : R x c) (a : α) :
    Replies pinned R (Unifier.setImage x c >>= fun _ => Pure.pure a) a s :=
  .setImage hs hR fun ht => .pure ht a

end Replies

/-! ## Instantiations along instances in place -/

/-- A unification of a class with itself only looks it up. -/
theorem unifyStep_replies {rec : TermId → TermId → UnifyM Bool} {c : TermId}
    (hs : Following pinned R s) (hc : s.forest.Calm c) :
    Replies pinned R (unifyStep rec c c) false s := by
  refine .bind (.findCalm hs hc) fun t _ ht hpass =>
    .bind (.findCalm ht (hpass.upkeeps.calm hs.sound.rooted hc).2) fun u _ hu _ => ?_
  rw [if_pos rfl]
  exact .pure hu false

section Use

variable {inst rec : TermId → TermId → UnifyM Bool} {this that : TermId} {depth : Nat}

/-- The computation finds nothing to do for classes that are related, if few enough have no image. -/
def Follows (pinned : List TermId) (R : TermId → TermId → Prop) (depth : Nat)
    (inst : TermId → TermId → UnifyM Bool) : Prop :=
  ∀ s a b, Following pinned R s → R (s.forest.rep a) (s.forest.rep b) → s.imageless + 1 < depth →
    Replies pinned R (inst a b) false s

/-- A field that the instance lacks is left alone if neither of the two is open. -/
private theorem instantiateMissing_replies (hs : Following pinned R s) (hthis : (s.forest.kind this).isOpen = false)
    (hthat : (s.forest.kind that).isOpen = false) (lhs : TermId) (label : String) :
    Replies pinned R (instantiateMissing inst pinned this that lhs label) (some false) s := by
  refine .view ?_
  rw [hthat, if_neg Bool.false_ne_true]
  refine .view ?_
  rw [hthis, if_neg Bool.false_ne_true]
  exact .pure hs _

/-- What is known of two classes that were looked up is still known after more look-ups. -/
private theorem Following.echoes (hs : Following pinned R s) (hpass : Passes s t)
    (hthis : s.forest.Calm this) (hthat : s.forest.Calm that)
    (h : (s.forest.kind this).Echoes s.forest.Dead (s.forest.kind that)) :
    (t.forest.kind this).Echoes t.forest.Dead (t.forest.kind that) :=
  h.of_same (fun _ _ hyy hy => hy.of_upkeeps hs.sound.rooted hpass.upkeeps hyy)
    (hpass.upkeeps.same hs.sound.rooted hthis) (hpass.upkeeps.same hs.sound.rooted hthat)

/-- Nothing is found to do for the slots of the definition, of which some may be missing. -/
theorem instantiateSlots_replies (hinst : Follows pinned R depth inst) (hs : Following pinned R s)
    (hR : R this that) (hne : this ≠ that) (hthat : s.forest.Calm that)
    (hechoes : (s.forest.kind this).Echoes s.forest.Dead (s.forest.kind that)) {slots : List Slot}
    (hslots : slots ⊆ (s.forest.kind this).slots) (missing : Bool) (hdepth : s.imageless + 1 < depth) :
    Replies pinned R (instantiateSlots inst pinned this slots that false missing)
      (.ongoing that false (missing || slots.any fun slot => ((s.forest.kind that).child? slot).isNone)) s := by
  induction slots generalizing s missing with
  | nil =>
    rw [List.any_nil, Bool.or_false]
    exact .pure hs _
  | cons slot rest ih =>
    have hrooted := hs.sound.rooted
    have hthis := hs.inPlace.calm _ _ hR
    obtain ⟨x, hx⟩ := Option.isSome_iff_exists.1 (Kind.mem_slots.1 (hslots List.mem_cons_self))
    -- A class that has a slot is no error, so the slots that are left are gone through.
    have hrest : ∀ t, Following pinned R t → Passes s t → Replies pinned R
        (instantiateRest inst pinned this that rest false
          (missing || ((s.forest.kind that).child? slot).isNone))
        (.ongoing that false
          (missing || (slot :: rest).any fun slot => ((s.forest.kind that).child? slot).isNone)) t := by
      intro t ht hpass
      refine .bind (.findCalm ht (hpass.upkeeps.calm hrooted hthat).2) fun u _ hu hpass' => .view ?_
      replace hpass' := hpass.trans hpass'
      have hsame := hpass'.upkeeps.same hrooted hthis
      have hsame' := hpass'.upkeeps.same hrooted hthat
      have hechoes' := hs.echoes hpass' hthis hthat hechoes
      have herror : (u.forest.kind that).isError = false := by
        rw [hechoes'.isError, hsame.isError]
        cases hk : s.forest.kind this with
        | error cause =>
          rw [hk] at hx
          cases slot <;> cases hx
        | _ => rfl
      rw [herror, if_neg Bool.false_ne_true]
      refine .probe fun probing => ?_
      rw [Bool.false_and, if_neg Bool.false_ne_true]
      have hnone : ∀ slot, ((u.forest.kind that).child? slot).isNone =
          ((s.forest.kind that).child? slot).isNone := fun slot => by
        rw [Bool.eq_iff_iff, Option.isNone_iff_eq_none, Option.isNone_iff_eq_none, hsame'.child?_eq_none]
      have hdepth' : u.imageless + 1 < depth :=
        Nat.lt_of_le_of_lt (Nat.succ_le_succ hpass'.imageless_le) hdepth
      have h := ih hu (hpass'.upkeeps.calm hrooted hthat).2 hechoes' (fun slot hslot => ?_)
        (missing || ((s.forest.kind that).child? slot).isNone) hdepth'
      · simp only [hnone, Bool.or_assoc] at h
        rwa [List.any_cons]
      · rw [hsame.slots]
        exact hslots (List.mem_cons_of_mem _ hslot)
    refine .bind (.child hs hx (hs.inPlace.children _ _ hR hne slot x hx)) fun s₁ _ hs₁ hpass₁ => ?_
    have hthat₁ := (hpass₁.upkeeps.calm hrooted hthat).2
    cases hy : (s₁.forest.kind that).child? slot with
    | none =>
      have hnone := (hpass₁.upkeeps.same hrooted hthat).child?_eq_none.1 hy
      refine .bind (.childNone hs₁ hy) fun s₂ _ hs₂ hpass₂ => ?_
      have hpass₂ := hpass₁.trans hpass₂
      rw [hnone] at hrest
      have hechoes₂ := hs.echoes hpass₂ hthis hthat hechoes
      obtain ⟨x', hx', -⟩ := Kind.Same.exists_child? (Eq.symm (hpass₂.upkeeps.same hrooted hthis)) hx
      obtain ⟨hopen, hopen'⟩ := hechoes₂.missing slot x' hx'
        ((hpass₂.upkeeps.same hrooted hthat).child?_eq_none.2 hnone)
      cases slot with
      | field label =>
        exact .bind (instantiateMissing_replies hs₂ hopen hopen' _ label)
          fun s₃ _ hs₃ hpass₃ => hrest s₃ hs₃ (hpass₂.trans hpass₃)
      | _ => exact hrest s₂ hs₂ hpass₂
    | some y =>
      obtain ⟨y', hy', hyy'⟩ := hpass₁.upkeeps.child? hrooted hthat hy
      have hRx := hs.inPlace.related_calm hR hne hthat hx hy'
      rw [← hyy'] at hRx
      have hends := (hs₁.inPlace.ends _ _ hRx).of_rep (Forest.rep_rep hs₁.sound.rooted y)
      refine .bind (.child hs₁ hy hends) fun s₂ _ hs₂ hpass₂ => ?_
      have hpass₂ := hpass₁.trans hpass₂
      rw [hy'] at hrest
      have hdepth₂ : s₂.imageless + 1 < depth :=
        Nat.lt_of_le_of_lt (Nat.succ_le_succ hpass₂.imageless_le) hdepth
      refine .bind (hinst s₂ _ _ hs₂ ?_ hdepth₂) fun s₃ _ hs₃ hpass₃ => hrest s₃ hs₃ (hpass₂.trans hpass₃)
      rwa [Forest.rep_of_not_link (hs₂.inPlace.calm _ _ hRx).root,
        Forest.rep_of_not_link (hs₂.inPlace.root _ _ hRx)]

private theorem imageless_setImage {x c : TermId} (hx : x < s.forest.size)
    (hnew : s.image.lookup x = none) :
    imageless { s with image := (x, c) :: s.image } < s.imageless :=
  Forest.card_unseen_cons hx (Forest.not_mem_of_lookup_eq_none hnew)

/-- Errors among the fields of an instance are left there. -/
private theorem dropExtra_replies (hs : Following pinned R s) (hthis : s.forest.Calm this)
    (hthat : s.forest.Calm that) (hextra : ∀ slot y, (s.forest.kind this).child? slot = none →
      (s.forest.kind that).child? slot = some y → s.forest.Dead y) {labels : List String}
    (hlabels : ∀ label ∈ labels, ∃ y, (s.forest.kind that).child? (.field label) = some y) :
    Replies pinned R (dropExtra this that labels false) (some false) s := by
  induction labels generalizing s with
  | nil => exact .pure hs _
  | cons label rest ih =>
    have hrest := fun l hl => hlabels l (List.mem_cons_of_mem _ hl)
    refine .view ?_
    split
    · exact ih hs hthis hthat hextra hrest
    rename_i hnone
    rw [Option.not_isSome_iff_eq_none] at hnone
    obtain ⟨y, hy⟩ := hlabels label List.mem_cons_self
    have hdead := hextra _ y hnone hy
    have hrooted := hs.sound.rooted
    refine .bind (.child hs hy (hdead.calm hrooted).ends) fun s₁ _ hs₁ hpass₁ => .view ?_
    have hdead₁ := hdead.of_upkeeps hrooted hpass₁.upkeeps rfl
    rw [Forest.Dead, (hpass₁.upkeeps.steady hrooted).rep] at hdead₁
    refine .bind (.pure hs₁ _) fun s₂ _ hs₂ hpass₂ => ?_
    dsimp only
    rw [if_pos hdead₁]
    have hpass := hpass₁.trans hpass₂
    have hsame := hpass.upkeeps.same hrooted hthis
    have hsame' := hpass.upkeeps.same hrooted hthat
    refine ih hs₂ (hpass.upkeeps.calm hrooted hthis).2 (hpass.upkeeps.calm hrooted hthat).2
      (fun slot z hz hz' => ?_) fun l hl => ?_
    · obtain ⟨z', hz'', hzz⟩ := hsame'.exists_child? hz'
      exact (hextra slot z' (hsame.child?_eq_none.1 hz) hz'').of_upkeeps hrooted hpass.upkeeps hzz
    · obtain ⟨z, hz⟩ := hrest l hl
      obtain ⟨z', hz', -⟩ := Kind.Same.exists_child? (Eq.symm hsame') hz
      exact ⟨z', hz'⟩

private theorem instantiateChildren_replies (hinst : Follows pinned R depth inst)
    (hs : Following pinned R s) (hR : R this that) (hne : this ≠ that) (hthat : s.forest.Calm that)
    (hechoes : (s.forest.kind this).Echoes s.forest.Dead (s.forest.kind that))
    (hnew : s.image.lookup this = none) (hdepth : s.imageless < depth) :
    Replies pinned R (instantiateChildren inst pinned this that) false s := by
  have hthis := hs.inPlace.calm _ _ hR
  refine .view (.view ?_)
  split
  · exact .setImage_pure hs hR false
  rename_i hslots
  refine .setImage hs hR fun hs₁ => ?_
  have hdepth₁ := Nat.lt_of_le_of_lt
    (Nat.succ_le_of_lt (imageless_setImage (c := that) (hs.inPlace.lt _ _ hR).1 hnew)) hdepth
  refine .bind (instantiateSlots_replies hinst hs₁ hR hne hthat hechoes (fun _ hslot => hslot) _ hdepth₁)
    fun s₂ _ hs₂ hpass₂ => ?_
  dsimp only
  have hrooted := hs.sound.rooted
  have hcalm₂ := (hpass₂.upkeeps.calm hrooted hthis).2
  have hcalm₂' := (hpass₂.upkeeps.calm hrooted hthat).2
  have hechoes₂ := hs₁.echoes hpass₂ hthis hthat hechoes
  have hrefine : ∀ t, Following pinned R t → Passes s₂ t →
      Replies pinned R (refine this that >>= fun refined => Pure.pure (false || refined)) false t := by
    intro t ht hpass
    refine .bind (.view (.view ?_)) fun s₄ _ hs₄ _ => .pure hs₄ _
    have hechoes₃ := hs₂.echoes hpass hcalm₂ hcalm₂' hechoes₂
    rw [hechoes₃.known.resolve_left fun hnone => ?_]
    · exact .pure ht false
    · have hpass := hpass₂.trans hpass
      rw [(hpass.upkeeps.same hrooted hthis).slots, (hpass.upkeeps.same hrooted hthat).slots] at hnone
      exact hslots (by rw [hnone.1, hnone.2]; rfl)
  refine .view (.view ?_)
  split
  · rename_i hcase
    simp only [Bool.and_eq_true, Bool.not_eq_true'] at hcase
    obtain ⟨⟨-, hclosed⟩, -⟩ := hcase
    refine .view (.bind (dropExtra_replies hs₂ hcalm₂ hcalm₂' (fun slot y hnone hy => ?_) fun label hlabel => ?_)
      fun s₃ _ hs₃ hpass₃ => hrefine s₃ hs₃ hpass₃)
    · exact (hechoes₂.extra slot y hnone hy).resolve_left (by rw [hclosed]; exact Bool.false_ne_true)
    · exact Kind.exists_child?_of_mem_labels hlabel
  · exact hrefine s₂ hs₂ (.refl s₂)

/-- Bases of the definition are matched by those of the instance. -/
theorem instantiateBase_replies (hs : Following pinned R s) (hR : R this that) {x y : Flow}
    (hkind : x.sameKind y = true) (hmeet : x.meet y = y) :
    Replies pinned R (instantiateBase rec this that x y) false s := by
  unfold instantiateBase
  rw [hkind, Bool.not_true, if_neg Bool.false_ne_true, if_pos hmeet]
  exact .setImage_pure hs hR false

/-- Whether classes are alike is found out, and that a class is alike to itself. -/
private theorem alike_replies (hs : Following pinned R s) (hR : R this that) :
    ∃ same, (this = that ∨ s.forest.AlikeFor this that → same = true) ∧
      Replies pinned R (Unifier.onForest (Forest.alike this that)) same s := by
  have hrooted := hs.sound.rooted
  have hreps : R (s.forest.rep this) (s.forest.rep that) := by
    rwa [Forest.rep_of_not_link (hs.inPlace.calm _ _ hR).root,
      Forest.rep_of_not_link (hs.inPlace.root _ _ hR)]
  obtain ⟨same, g, hrun, hup⟩ := Forest.alike_returns hs.sound hs.inPlace.toPaired hreps
  refine ⟨same, ?_, .onForest hs ⟨same, g, hrun, rfl, hup⟩⟩
  rintro (heq | halike)
  · exact Forest.alike_of_rep_eq hrooted (congrArg _ heq) hrun
  · obtain ⟨same', g', hrun', rfl, -⟩ := halike _ .refl
    rw [hrun] at hrun'
    cases hrun'
    rfl

/-- A class with another one for it in the instance is neither an error nor pinned. -/
private theorem shared_replies (hs : Following pinned R s) (hR : R this that) (hne : this ≠ that)
    (hthat : s.forest.Calm that) (hknown : (s.forest.kind that).isError = false)
    (herror : ¬(s.forest.kind this).isError = true) :
    Replies pinned R (kindOf this >>= fun k =>
      if k.isError then Pure.pure true else occursInAny this pinned) false s := by
  refine .view ?_
  rw [if_neg herror]
  obtain ⟨hopens, hout⟩ :=
    hs.inPlace.outside _ _ _ hR hne (hthat.shows trivial fun _ _ => trivial) hknown
  have hthis := hs.inPlace.calm _ _ hR
  rw [← Forest.rep_of_not_link hthis.root] at hout hthis
  exact .onForest hs (Forest.occursInAny_returns hs.sound hthis.ends hopens hout)

/-- What the definition is known to be the instance is. -/
private theorem instantiateKinds_replies (hinst : Follows pinned R depth inst) (hs : Following pinned R s)
    (hR : R this that) (hne : this ≠ that) (hthat : s.forest.Calm that)
    (henough : (s.forest.kind this).Suffices s.forest.Dead (s.forest.kind that))
    (herror : (s.forest.kind that).isError = false)
    (hnew : s.image.lookup this = none) (hdepth : s.imageless < depth) : Replies pinned R (do
      let kthis ← kindOf this
      let kthat ← kindOf that
      if kthis.isVar then
        setImage this that
        return false
      if kthat.isVar then
        if ← isProbe then return true
        let c ← freshCopy pinned this
        let progress ← merge that c
        setImage this that
        return progress
      match kthis.baseFlow?, kthat.baseFlow? with
      | some a, some b => instantiateBase rec this that a b
      | _, _ =>
        if kthis.isNilable && !kthat.isNilable then instantiateNilable that
        else if kthat.isNilable && !kthis.isNilable then instantiateInner inst this that
        else if kthis.shape ≠ kthat.shape then reject rec this that
        else instantiateChildren inst pinned this that) false s := by
  refine .view (.view ?_)
  split
  · exact .setImage_pure hs hR false
  rename_i hvar
  rcases henough.echoes_or hvar herror with hechoes | ⟨hnilable, hnil, hplain⟩
  swap
  · -- What is no wrapper is left alone, since it has nil already.
    obtain ⟨x, hx⟩ := Kind.isNilable_eq_true.1 hnilable
    have hknown : ¬(s.forest.kind that).isVar = true := fun hvar => by
      rw [Kind.isVar_iff.1 hvar] at hnil
      cases hnil
    rw [if_neg hknown, hx]
    dsimp only [Kind.baseFlow?]
    rw [hplain, if_pos (by rfl)]
    refine .view ?_
    rw [hnil, if_pos rfl]
    exact .pure hs false
  rw [if_neg (hechoes.isVar (hs.inPlace.calm _ _ hR).root hvar)]
  split
  · rename_i x y hx hy
    obtain ⟨hkind, hmeet⟩ := hechoes.flows x y hx hy
    exact instantiateBase_replies hs hR hkind hmeet
  rw [hechoes.isNilable, hechoes.shape, Bool.and_not_self, if_neg Bool.false_ne_true,
    if_neg Bool.false_ne_true, if_neg (not_not.2 rfl)]
  exact instantiateChildren_replies hinst hs hR hne hthat hechoes hnew hdepth

/-- One layer of an instantiation finds nothing to do for classes that are related. -/
private theorem instantiateStep_replies (hinst : Follows pinned R depth inst)
    (hrec : ∀ s c, Following pinned R s → s.forest.Calm c → Replies pinned R (rec c c) false s)
    (hs : Following pinned R s) {x y : TermId} (hR : R (s.forest.rep x) (s.forest.rep y))
    (hdepth : s.imageless < depth) :
    Replies pinned R (instantiateStep inst rec pinned x y) false s := by
  have hrooted := hs.sound.rooted
  refine .bind (.find hs (hs.inPlace.calm _ _ hR).ends) fun s₁ _ hs₁ hpass₁ => ?_
  have hends := hpass₁.upkeeps.ends hrooted
    ((hs.inPlace.ends _ _ hR).of_rep (Forest.rep_rep hrooted y))
  refine .bind (.find hs₁ hends) fun s₂ hfind hs₂ hpass₂ => ?_
  have hthat := calm_of_find hs₁.unifier_sound hfind
  rw [(hpass₁.upkeeps.steady hrooted).rep y] at hthat ⊢
  have hdepth₂ := Nat.lt_of_le_of_lt (hpass₁.trans hpass₂).imageless_le hdepth
  clear hdepth hends hfind
  generalize s.forest.rep x = this at hR ⊢
  generalize s.forest.rep y = that at hR hthat ⊢
  refine .bind (.imageOf hs₂ this) fun s₃ himage hs₃ _ => ?_
  obtain ⟨-, rfl⟩ := imageOf_eq_some.1 himage
  cases hprior : s₂.image.lookup this with
  | some prior =>
    -- The instance has one class for each of the definition.
    obtain rfl := hs₂.inPlace.unique _ _ _ hR (hs₂.related hprior)
    exact .bind (.findCalm hs₂ hthat) fun s₄ _ hs₄ hpass₄ =>
      hrec s₄ _ hs₄ (hpass₄.upkeeps.calm hs₂.sound.rooted hthat).2
  | none =>
    obtain ⟨same, hsame, halike⟩ := alike_replies hs₂ hR
    refine .bind halike fun s₄ hrun hs₄ hpass₄ => ?_
    have himage₄ := (looks_onForest (Forest.keepsUp_alike _ _) hs₂.unifier_sound hrun).image
    cases same with
    | true => exact .setImage_pure hs₄ hR false
    | false =>
      have hnot : ¬(this = that ∨ s₂.forest.AlikeFor this that) := fun h => Bool.false_ne_true (hsame h)
      have hne : this ≠ that := fun heq => hnot (Or.inl heq)
      have hthis := hs₂.inPlace.calm _ _ hR
      have henough := (hs₂.inPlace.enough _ _ _ hR hne (hthat.shows trivial fun _ _ => trivial)).resolve_left
        fun h => hnot (Or.inr h)
      have hlater : ∀ t, Passes s₂ t →
          (t.forest.kind this).Suffices t.forest.Dead (t.forest.kind that) := fun t hpass =>
        henough.of_same (fun _ _ hyy hy => hy.of_upkeeps hs₂.sound.rooted hpass.upkeeps hyy)
          (hpass.upkeeps.same hs₂.sound.rooted hthis) (hpass.upkeeps.same hs₂.sound.rooted hthat)
      have hthat₄ := (hpass₄.upkeeps.calm hs₂.sound.rooted hthat).2
      rw [if_neg Bool.false_ne_true]
      refine .view ?_
      split
      · exact .setImage_pure hs₄ hR false
      rename_i herror
      have hknown : (s₄.forest.kind that).isError = false := (Bool.not_eq_true _).mp herror
      refine .bind (shared_replies hs₄ hR hne hthat₄ hknown ((hlater s₄ hpass₄).not_isError herror))
        fun s₅ hshared hs₅ hpass₅ => ?_
      rw [if_neg Bool.false_ne_true]
      have hpass₅' := hpass₄.trans hpass₅
      refine instantiateKinds_replies hinst hs₅ hR hne (hpass₅.upkeeps.calm hs₄.sound.rooted hthat₄).2
        (hlater s₅ hpass₅') ?_ ?_ (Nat.lt_of_le_of_lt hpass₅'.imageless_le hdepth₂)
      · rw [(hpass₅.upkeeps.same hs₄.sound.rooted hthat₄).isError, hknown]
      · rw [(shared_looks hs₄.unifier_sound hshared).image, himage₄, hprior]

end Use

private theorem instantiateWithin_replies (depth : Nat) :
    Follows pinned R depth (instantiateWithin pinned depth) := by
  induction depth with
  | zero => exact fun _ _ _ _ _ hdepth => absurd hdepth (Nat.not_lt_zero _)
  | succ depth ih =>
    intro s a b hs hR hdepth
    have hlt : s.imageless < depth := Nat.lt_of_succ_lt_succ hdepth
    obtain ⟨fuel, rfl⟩ := Nat.exists_eq_add_of_le' (Nat.one_le_of_lt hlt)
    exact instantiateStep_replies ih (fun t c ht hc => unifyStep_replies ht hc) hs hR hlt

/-- An instance that is in place is not changed, whether that is a probe or not. -/
theorem instantiate_inPlace {f : Forest} {depth : Nat} {definition use : TermId} (hf : f.Sound)
    (h : f.InPlace pinned R) (hR : R (f.rep definition) (f.rep use)) (hdepth : f.size + 1 < depth)
    (work : Option Worklist) :
    ∃ u, instantiate depth definition use pinned (Call.start f work) = some (false, u) := by
  have hstart : Following pinned R (Call.start f work) := ⟨hf, h, fun p hp => absurd hp List.not_mem_nil⟩
  obtain ⟨b, u, hrun, rfl, -⟩ := instantiateWithin_replies depth _ _ _ hstart hR
    (Nat.lt_of_le_of_lt (Nat.succ_le_of_lt (Forest.card_unseen_nil f)) hdepth)
  exact ⟨u, bind_eq_some.2 ⟨(), _, modify_eq_some.2 rfl, hrun⟩⟩

end Unifier

end TypeFlow
