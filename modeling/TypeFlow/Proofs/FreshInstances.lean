import TypeFlow.Proofs.FaithfulCopies

/-!
# Fresh instances are in place

A use of which nothing is known yet takes over a whole instance of the definition's type, or becomes a
term of the definition's class if that is pinned or an error.  Inputs of the instance may be widened
then, which the definition covers, and pinned types may lead to the instance, but neither leads to what
was duplicated.  So the instance is in place.

Main definitions:

- `Forest.Enters`: a variable becomes a term of another class.

Main results:

- `Unifier.Imaging.inPlace`: the copy that a variable has entered is an instance in place.
- `Unifier.instantiateStep_inPlace`: a use that was a variable has an instance in place when it is said to
  have changed, unless the definition leads to it.
-/

namespace TypeFlow

namespace Forest

variable {f g : Forest} {v c : TermId}

/-- A class is an instance of itself. -/
theorem inPlace_class {pinned : List TermId} (hc : f.Calm c) (hlt : c < f.size) :
    f.InPlace pinned fun a b => a = c ∧ b = c := by
  have heq : ∀ {a b}, a = c ∧ b = c → a = b := fun h => h.1.trans h.2.symm
  refine .of_calm ?_ ?_ (fun a b hab hne => absurd (heq hab) hne) (fun a b hab hne => absurd (heq hab) hne)
    (fun a b b' hab hab' => hab'.2.trans hab.2.symm) (fun a b hab hne => absurd (heq hab) hne)
    fun a b hab hne => absurd (heq hab) hne
  · rintro a b ⟨rfl, rfl⟩
    exact ⟨hlt, hlt⟩
  · rintro a b ⟨rfl, rfl⟩
    exact ⟨hc, hc⟩

/-! ## Variables that become terms of other classes -/

/-- The variable has become a term of the class, and bases that the class leads to may have been
widened. -/
structure Enters (v c : TermId) (f g : Forest) : Prop where
  size : g.size = f.size
  link : g.kind v = .link c
  rep : ∀ t, g.rep t = if f.rep t = v then c else f.rep t
  kinds : ∀ a, a ≠ v → g.kind a = f.kind a ∨
    f.Reaches c a ∧ ∃ flow, f.kind a = .base flow ∧ g.kind a = .base flow.widen

private theorem widenInputs_widens (hf : f.Rooted) (t a : TermId) :
    (f.widenInputs t).kind a = f.kind a ∨ f.Reaches (f.rep t) a ∧
      ∃ flow, f.kind a = .base flow ∧ (f.widenInputs t).kind a = .base flow.widen := by
  rcases kind_widenInputs f t a with h | ⟨hmem, flow, -, hflow, -⟩
  · exact Or.inl h
  refine (kind_widenInputs_or f t a).imp_right fun h => ?_
  rw [hflow] at h
  exact ⟨reaches_of_mem_reachBy hf Kind.inputs_subset hmem, flow, hflow, h⟩

namespace Enters

variable (h : Enters v c f g)

include h

/-- Other classes have the children they had. -/
theorem child? {a : TermId} (ha : a ≠ v) (slot : Slot) :
    (g.kind a).child? slot = (f.kind a).child? slot := by
  rcases h.kinds a ha with e | ⟨-, flow, hflow, hflow'⟩
  · rw [e]
  · rw [hflow, hflow']
    cases slot <;> rfl

private theorem rep_of_ne {t : TermId} (ht : f.rep t ≠ v) : g.rep t = f.rep t := by
  rw [h.rep, if_neg ht]

private theorem rep_self (hv : (f.kind v).isLink = false) : g.rep v = c := by
  rw [h.rep, rep_of_not_link hv, if_pos rfl]

/-- A class that wraps another variable at most, or none, does so afterwards. -/
theorem calm {a : TermId} (ha : a ≠ v) (hcalm : f.Calm a)
    (hinner : ∀ inner, f.kind a = .nilable inner → f.rep inner ≠ v) : g.Calm a := by
  have hvar : ∀ x, x ≠ v → f.kind x = .var → g.kind x = .var := by
    intro x hx hvar
    rcases h.kinds x hx with e | ⟨-, flow, hflow, -⟩
    · rw [e, hvar]
    · rw [hvar] at hflow
      cases hflow
  rcases h.kinds a ha with e | ⟨-, flow, -, hflow⟩
  · refine ⟨by rw [e, hcalm.root], fun inner hin => ?_⟩
    rw [e] at hin
    rw [h.rep_of_ne (hinner inner hin)]
    exact hvar _ (hinner inner hin) (hcalm.wraps inner hin)
  · exact calm_of_not_nilable (by rw [hflow]; rfl) (by rw [hflow]; rfl)

/-- Wrappers of the variable end if the class it has become a term of does. -/
theorem ends (hc : g.Calm c) {t : TermId} (ht : f.Calm (f.rep t)) : g.Ends t := by
  have hrepc : g.rep c = c := rep_of_not_link hc.root
  have hends : ∀ {x}, g.rep x = c → g.Ends x := fun hx => Calm.ends (by rwa [hx])
  by_cases htv : f.rep t = v
  · exact hends (by rw [h.rep, if_pos htv])
  refine .intro fun inner hinner => ?_
  have hslot : (g.kind (f.rep t)).child? .inner = some inner := by
    rw [← h.rep_of_ne htv, hinner]
    rfl
  rw [h.child? htv] at hslot
  have hvar := ht.child?_inner hslot
  by_cases hiv : f.rep inner = v
  · exact hends (by rw [h.rep, if_pos hiv])
  · refine Calm.ends ?_
    rw [h.rep_of_ne hiv]
    refine h.calm hiv (calm_of_not_nilable (by rw [hvar]; rfl) (by rw [hvar]; rfl)) fun x hx => ?_
    rw [hvar] at hx
    cases hx

end Enters

end Forest

namespace Unifier

open Forest (IsClass Steady Enters)

variable {s t u : Unifier} {f g : Forest} {pinned : List TermId} {d v c x a : TermId} {r : Bool}

private theorem settle_enters (hs : s.Sound) (hwork : s.work.isNone = false) (hv : s.forest.IsClass v)
    (hc : s.forest.IsClass c) (hne : v ≠ c) (hsettle : settle v c s = some (r, u)) :
    Enters v c s.forest u.forest := by
  unfold settle at hsettle
  rw [if_neg hne] at hsettle
  -- The inputs are widened or not, some nodes are woken, and the class is redirected.
  obtain ⟨g, hg, hforest⟩ : ∃ g, (g = s.forest ∨ g = s.forest.widenInputs c) ∧
      u.forest = g.link v c := by
    have hrest : ∀ s₁ : Unifier, (wake c >>= fun _ => wake v >>= fun _ => redirect v c) s₁ =
        some (r, u) → u.forest = s₁.forest.link v c := by
      intro s₁ h
      obtain ⟨v₁, s₂, hwake, h⟩ := bind_eq_some.1 h
      obtain ⟨v₂, s₃, hwake', h⟩ := bind_eq_some.1 h
      obtain rfl := wake_eq_some.1 hwake
      obtain rfl := wake_eq_some.1 hwake'
      unfold redirect at h
      rw [if_neg hne] at h
      obtain ⟨v₃, s₄, hlink, h⟩ := bind_eq_some.1 h
      obtain ⟨-, rfl⟩ := pure_eq_some.1 h
      rw [change_eq_some.1 hlink]
    obtain ⟨probing, s₁, hprobe, hsettle⟩ := bind_eq_some.1 hsettle
    obtain ⟨rfl, rfl⟩ := isProbe_eq_some.1 hprobe
    rw [hwork, if_neg Bool.false_ne_true] at hsettle
    replace hsettle := of_bind_view hsettle
    rcases ite_eq_some.1 hsettle with ⟨-, h⟩ | ⟨-, h⟩
    · obtain ⟨v₁, s₁, hwiden, h⟩ := bind_eq_some.1 h
      obtain rfl := change_eq_some.1 hwiden
      have hforest := hrest _ h
      exact ⟨_, Or.inr rfl, hforest⟩
    · have hforest := hrest _ h
      exact ⟨_, Or.inl rfl, hforest⟩
  have hrooted := hs.forest.rooted
  have hsteady : Steady s.forest g ∧ g.size = s.forest.size := by
    rcases hg with rfl | rfl
    · exact ⟨.refl hrooted, rfl⟩
    · exact ⟨Forest.widenInputs_steady hrooted c, Forest.size_widenInputs _ _⟩
  have hv' := hv.of_steady hsteady.1
  have hc' := hc.of_steady hsteady.1
  rw [hforest]
  refine ⟨?_, ?_, fun t => ?_, fun a ha => ?_⟩
  · rw [Forest.size_link, hsteady.2]
  · rw [Forest.kind_link hv'.lt, if_pos rfl]
  · rw [Forest.rep_link_eq hsteady.1.rooted hv'.root hc'.root hne hv'.lt hc'.lt, hsteady.1.rep]
  · rw [Forest.kind_link hv'.lt, if_neg (Ne.symm ha)]
    rcases hg with rfl | rfl
    · exact Or.inl rfl
    · have hwidens := Forest.widenInputs_widens hrooted c a
      rwa [hc.rep_eq] at hwidens

/-- A variable that is merged into another class becomes a term of it. -/
theorem merge_enters (hs : s.Sound) (hwork : s.work.isNone = false) (hv : s.forest.IsClass v)
    (hc : s.forest.IsClass c) (hvar : s.forest.kind v = .var) (hne : v ≠ c)
    (h : merge v c s = some (r, u)) : Enters v c s.forest u.forest :=
  settle_enters hs hwork hv hc hne (settle_of_merge hwork hvar h)

/-- A class that is merged into an error becomes a term of it. -/
theorem merge_error_enters (hs : s.Sound) (hwork : s.work.isNone = false) (hv : s.forest.IsClass v)
    (hc : s.forest.IsClass c) (herror : (s.forest.kind c).isError = true) (hne : v ≠ c)
    (h : merge v c s = some (r, u)) : Enters v c s.forest u.forest := by
  unfold merge at h
  rw [if_neg hne] at h
  obtain ⟨probing, s₁, hprobe, h⟩ := bind_eq_some.1 h
  obtain ⟨rfl, rfl⟩ := isProbe_eq_some.1 hprobe
  rw [hwork, if_neg Bool.false_ne_true] at h
  replace h := of_bind_view h
  rw [if_pos herror] at h
  exact settle_enters hs hwork hv hc hne h

private theorem mergedKind_var_right (k : Kind) : mergedKind k .var = some k := by
  cases k <;> rfl

/-- A variable takes over the kind of a class without children that is merged into it. -/
theorem merge_var_calm (hs : s.Sound) (hwork : s.work.isNone = false) (ha : s.forest.IsClass a)
    (hv : s.forest.IsClass v) (hvar : s.forest.kind v = .var) (hne : a ≠ v)
    (hslots : (s.forest.kind a).slots.isEmpty = true) (h : merge a v s = some (r, u)) :
    u.forest.rep a = u.forest.rep v ∧ u.forest.Calm (u.forest.rep v) := by
  have hmerged : mergedKind (s.forest.kind a) (s.forest.kind v) = some (s.forest.kind a) := by
    rw [hvar, mergedKind_var_right]
  obtain ⟨hrefines, haccrues⟩ := mergedKind_refines ha.root hv.root
    (fun _ => Kind.children_of_slots ha.root hslots)
    (fun n m _ hm => by rw [hvar] at hm; cases hm) hmerged
  unfold merge at h
  rw [if_neg hne] at h
  obtain ⟨probing, s₁, hprobe, h⟩ := bind_eq_some.1 h
  obtain ⟨rfl, rfl⟩ := isProbe_eq_some.1 hprobe
  rw [hwork, if_neg Bool.false_ne_true] at h
  replace h := of_bind_view h
  rw [hvar] at h
  replace h := of_bind_view h
  rw [mergedKind_var_right] at h
  obtain ⟨v₁, s₁, hset, h⟩ := bind_eq_some.1 h
  obtain rfl := change_eq_some.1 hset
  obtain ⟨-, hjoins⟩ := settle_refined hs hwork ha hv hne hrefines haccrues h
  have hlink : (u.forest.kind v).isLink = false := by rw [hjoins.isLink v (Ne.symm hne), hv.root]
  have hroot : u.forest.rep v = v := Forest.rep_of_not_link hlink
  refine ⟨hjoins.rep, ?_⟩
  rw [hroot]
  have hkind : (s.forest.setKind v (s.forest.kind a)).kind v = s.forest.kind a := by
    rw [Forest.kind_setKind, if_pos ⟨rfl, hv.lt⟩]
  refine Forest.calm_of_not_nilable hlink ?_
  have hplain : (s.forest.kind a).isNilable = false := by
    cases hk : s.forest.kind a <;> rw [hk] at hslots <;> first | rfl | cases hslots
  rcases settle_kinds (by rw [Forest.size_setKind]; exact ha.lt) h (Ne.symm hne) with e | e
  · rw [e, hkind, hplain]
  · rcases Forest.kind_widenInputs_or (s.forest.setKind v (s.forest.kind a)) v v with e' | e' <;>
      rw [e, e', hkind]
    · exact hplain
    · rw [Kind.isNilable_widenedKind, hplain]

/-- The class of a variable that is unified with another class wraps a variable at most if that class
does, and the variable is not the one it wraps. -/
theorem Layer.calm_of_var {rec : TermId → TermId → UnifyM Bool} (hs : s.Sound)
    (hwork : s.work.isNone = false) (hmet : s.met = []) (ha : s.forest.IsClass a)
    (hv : s.forest.IsClass v) (hcalm : s.forest.Calm a) (hvar : s.forest.kind v = .var)
    (hne : a ≠ v) (hinner : ∀ inner, s.forest.kind a = .nilable inner → s.forest.rep inner ≠ v)
    (h : Layer rec a v r s u) :
    u.forest.rep a = u.forest.rep v ∧ u.forest.Calm (u.forest.rep v) := by
  -- Whichever of the two is merged into the other, it is a variable or the other one takes its kind.
  have hloses : merge v a s = some (r, u) →
      u.forest.rep a = u.forest.rep v ∧ u.forest.Calm (u.forest.rep v) := by
    intro h
    have hg := merge_enters hs hwork hv ha hvar (Ne.symm hne) h
    have hcalm' := hg.calm hne hcalm hinner
    rw [hg.rep_self hv.root, Forest.rep_of_not_link hcalm'.root]
    exact ⟨rfl, hcalm'⟩
  have hwins : (s.forest.kind a).slots.isEmpty = true → merge a v s = some (r, u) →
      u.forest.rep a = u.forest.rep v ∧ u.forest.Calm (u.forest.rep v) :=
    merge_var_calm hs hwork ha hv hvar hne
  cases h with
  | same heq => exact absurd heq hne
  | leaves _ hslots _ h =>
    rcases ranked_cases a v (s.forest.kind a) (s.forest.kind v) with hr | hr <;> rw [hr] at h
    · exact hwins hslots h
    · exact hloses h
  | joined _ hpair hcase h =>
    rcases hpair with ⟨rfl, rfl⟩ | ⟨rfl, rfl⟩
    · refine hwins ?_ h
      rcases hcase with hcase | hcase
      · rw [hcase]
        rfl
      · rw [hvar] at hcase
        cases hcase
    · exact hloses h
  | wrapped _ hpair hnilable _ hknown =>
    rcases hpair with ⟨rfl, rfl⟩ | ⟨rfl, rfl⟩
    · exact absurd hvar hknown
    · rw [hvar] at hnilable
      cases hnilable
  | met _ hmem =>
    rw [hmet] at hmem
    exact absurd hmem List.not_mem_nil
  | probed _ hprobe => exact absurd (hwork.symm.trans hprobe) Bool.false_ne_true
  | clashed _ _ _ hknown => exact absurd hvar hknown
  | paired _ _ _ _ hknown => exact absurd hvar hknown

/-! ## Copies that a variable enters -/

namespace Imaging

section Complete

variable (hs : Imaging f pinned d (fun _ _ => False) s)

include hs

/-- The class of a duplicate is there, and none of its children is missing. -/
theorem child?_duplicate (hx : s.image.lookup x = some a) (ha : f.size ≤ a) {slot : Slot} {z : TermId}
    (hz : (s.forest.kind a).child? slot = some z) :
    ∃ y, (s.forest.kind x).child? slot = some y ∧
      s.image.lookup (s.forest.rep y) = some (s.forest.rep z) := by
  obtain ⟨hreached, -, hform⟩ := hs.stands x a hx
  have hdup := hform.resolve_left fun h =>
    absurd (hs.lt_of_reaches hreached) (Nat.not_lt.2 (h.1 ▸ ha))
  have hslot := hdup.same.child? slot
  rw [hz, Option.map_some, eq_comm, Option.map_eq_some_iff] at hslot
  obtain ⟨y, hy, -⟩ := hslot
  exact ⟨y, hy, hdup.children slot y z id hy hz⟩

/-- A class of the copy, or one that a pinned type leads to. -/
def Inside (f : Forest) (pinned : List TermId) (s : Unifier) (a : TermId) : Prop :=
  f.ReachedFrom pinned a ∨ f.size ≤ a ∧ ∃ x, s.image.lookup x = some a

omit hs in
private theorem inside_of_image (hs : Imaging f pinned d (fun _ _ => False) s)
    (hx : s.image.lookup x = some a) : Inside f pinned s a := by
  rcases (hs.stands x a hx).form with ⟨rfl, hin⟩ | hdup
  · exact Or.inl hin
  · exact Or.inr ⟨hdup.new, x, hx⟩

/-- Neither the copy nor pinned types lead to anything else. -/
theorem inside_child {b : TermId} (ha : Inside f pinned s a) {slot : Slot} {z : TermId}
    (hz : (s.forest.kind a).child? slot = some z) (hb : s.forest.rep z = b) :
    Inside f pinned s b := by
  rcases ha with hin | ⟨hnew, x, hx⟩
  · obtain ⟨t, ht, hreach⟩ := (hs.surveyed.reachedFrom_iff hs.sprouts).2 hin
    exact Or.inl ((hs.surveyed.reachedFrom_iff hs.sprouts).1
      ⟨t, ht, hreach.tail ⟨slot, z, hz, hb⟩⟩)
  · obtain ⟨y, -, himage⟩ := hs.child?_duplicate hx hnew hz
    rw [← hb]
    exact hs.inside_of_image himage

private theorem inside_reaches {b : TermId} (ha : Inside f pinned s a) (h : s.forest.Reaches a b) :
    Inside f pinned s b := by
  induction h with
  | refl => exact ha
  | tail _ hedge ih =>
    obtain ⟨slot, z, hz, hb⟩ := hedge
    exact hs.inside_child ih hz hb

/-- What has been duplicated is not inside. -/
theorem not_inside (hx : s.image.lookup x = some a) (hne : x ≠ a) : ¬Inside f pinned s x := by
  obtain ⟨hreached, -, hform⟩ := hs.stands x a hx
  have hdup := hform.resolve_left fun h => hne h.1.symm
  rintro (hin | ⟨hnew, -⟩)
  · exact hdup.unreached hin
  · exact absurd (hs.lt_of_reaches hreached) (Nat.not_lt.2 hnew)

/-- What the copied type does not lead to is neither copied nor part of the copy. -/
theorem ne_of_image (hx : s.image.lookup x = some a) (hv : v < f.size) (hout : ¬f.Reaches d v) :
    x ≠ v ∧ a ≠ v := by
  obtain ⟨hreached, -, hform⟩ := hs.stands x a hx
  have hne : x ≠ v := fun e => hout (e ▸ hreached)
  refine ⟨hne, ?_⟩
  rcases hform with ⟨rfl, -⟩ | hdup
  · exact hne
  · exact fun e => absurd hv (Nat.not_lt.2 (e ▸ hdup.new))

end Complete

section Entered

variable (hs : Imaging f pinned d (fun _ _ => False) s) (hc : s.image.lookup d = some c)
  (hv : v < f.size) (hout : ¬f.Reaches d v)
  (hg : Enters v c s.forest g)

include hs hv hout hg in
/-- Classes that are copied and classes of the copy wrap variables at most. -/
theorem calm_entered (hx : s.image.lookup x = some a) : g.Calm x ∧ g.Calm a := by
  obtain ⟨hreached, ⟨hcalm, hcalm'⟩, hform⟩ := hs.stands x a hx
  obtain ⟨hxv, hav⟩ := hs.ne_of_image hx hv hout
  have hcalmx : g.Calm x := by
    refine hg.calm hxv hcalm fun inner hinner e => hout (hreached.trans ?_)
    exact hs.sprouts.edge hs.surveyed.sound (hs.lt_of_reaches hreached)
      ⟨.inner, inner, by rw [hinner]; rfl, e⟩
  refine ⟨hcalmx, ?_⟩
  rcases hform with ⟨rfl, -⟩ | hdup
  · exact hcalmx
  refine hg.calm hav hcalm' fun inner hinner => ?_
  have hslot : (s.forest.kind a).child? .inner = some inner := by rw [hinner]; rfl
  obtain ⟨y, -, himage⟩ := hs.child?_duplicate hx hdup.new hslot
  exact (hs.ne_of_image himage hv hout).2

include hs hc hg in
/-- Pinned types may lead to the copy now, but to nothing else. -/
theorem reachedFrom_entered (h : g.ReachedFrom pinned a) : Inside f pinned s a := by
  have hcopy : Inside f pinned s c := hs.inside_of_image hc
  have hrep : ∀ t, Inside f pinned s (s.forest.rep t) → Inside f pinned s (g.rep t) := by
    intro t ht
    rw [hg.rep]
    split
    · exact hcopy
    · exact ht
  obtain ⟨t, ht, hreach⟩ := h
  induction hreach with
  | refl =>
    refine hrep t (Or.inl ⟨t, ht, ?_⟩)
    rw [hs.steady.rep]
    exact .refl
  | @tail b b' _ hedge ih =>
    obtain ⟨slot, z, hz, rfl⟩ := hedge
    by_cases hbv : b = v
    · rw [hbv, hg.link] at hz
      cases slot <;> cases hz
    · rw [hg.child? hbv] at hz
      exact hrep z (hs.inside_child ih hz rfl)

include hs hc hv hout hg in
/-- The copy that a variable has entered is an instance in place. -/
theorem inPlace : g.InPlace pinned fun x a => s.image.lookup x = some a := by
  have hcalm : ∀ {x a}, s.image.lookup x = some a → g.Calm x ∧ g.Calm a :=
    hs.calm_entered hv hout hg
  have hdup : ∀ {x a}, s.image.lookup x = some a → x ≠ a →
      Duplicate f pinned (fun _ _ => False) s x a :=
    fun hx hne => (hs.stands _ _ hx).form.resolve_left fun h => hne h.1.symm
  have hechoes : ∀ x a, s.image.lookup x = some a → x ≠ a → (g.kind x).Echoes g.Dead (g.kind a) := by
    intro x a hx hne
    obtain ⟨hxv, hav⟩ := hs.ne_of_image hx hv hout
    have hsame := (hdup hx hne).same
    -- The copy does not lead to what was duplicated, so that is not widened.
    have hkx : g.kind x = s.forest.kind x := (hg.kinds x hxv).resolve_right fun h =>
      hs.not_inside hx hne (hs.inside_reaches (hs.inside_of_image hc) h.1)
    rw [hkx]
    rcases hg.kinds a hav with e | ⟨-, flow, hflow, hflow'⟩
    · rw [e]
      exact .same hsame
    · have hbase : s.forest.kind x = .base flow := by
        rw [hflow] at hsame
        cases hk : s.forest.kind x <;> rw [hk] at hsame <;> cases hsame
        rfl
      rw [hbase, hflow']
      exact .base flow.sameKind_widen flow.covers_widen
  -- The children of what was duplicated have been duplicated too.
  have himage : ∀ x a, s.image.lookup x = some a → x ≠ a → ∀ slot y z, (g.kind x).child? slot = some y →
      (g.kind a).child? slot = some z → s.image.lookup (g.rep y) = some (g.rep z) := by
    intro x a hx hne slot y z hy hz
    obtain ⟨hxv, hav⟩ := hs.ne_of_image hx hv hout
    rw [hg.child? hxv] at hy
    rw [hg.child? hav] at hz
    have himage := (hdup hx hne).children slot y z id hy hz
    obtain ⟨hyv, hzv⟩ := hs.ne_of_image himage hv hout
    rwa [hg.rep_of_ne hyv, hg.rep_of_ne hzv]
  refine .of_calm (fun x a hx => ⟨?_, ?_⟩) (fun x a hx => hcalm hx) (fun x a hx hne slot y hy => ?_) himage
    (fun x a a' hx hx' => ?_) (fun x a hx hne => ⟨⟨?_, ?_⟩, ?_⟩)
    fun x a hx hne => .echoes (hechoes x a hx hne)
  · rw [hg.size]
    exact Nat.lt_of_lt_of_le (hs.lt_of_reaches (hs.stands x a hx).reached) hs.steady.size
  · rw [hg.size]
    exact hs.sound.image_lt hx
  · obtain ⟨hxv, hav⟩ := hs.ne_of_image hx hv hout
    have hslot := (hdup hx hne).same.child? slot
    rw [hg.child? hxv] at hy
    rw [hy, Option.map_some, Option.map_eq_some_iff] at hslot
    obtain ⟨z, hz, -⟩ := hslot
    exact (hcalm (himage x a hx hne slot y z (by rwa [hg.child? hxv]) (by rwa [hg.child? hav]))).1
  · rw [hx] at hx'
    exact (Option.some.inj hx').symm
  · intro t ht
    rw [hg.size]
    exact Nat.lt_of_lt_of_le (hs.surveyed.inRange t ht) hs.steady.size
  · intro b hb
    have hcalmc := (hcalm hc).2
    rcases hs.reachedFrom_entered hc hg hb with hin | ⟨-, y, hy⟩
    · have hlt := hs.surveyed.lt_of_reachedFrom hin
      have hcalmb := hs.sprouts.calm hs.surveyed.sound hlt (hs.surveyed.calm b hin)
      exact hg.ends hcalmc (by rwa [Forest.rep_of_not_link hcalmb.root])
    · have hcalmb := (hcalm hy).2
      exact Forest.Calm.ends (by rwa [Forest.rep_of_not_link hcalmb.root])
  · exact fun hin => hs.not_inside hx hne (hs.reachedFrom_entered hc hg hin)

end Entered

end Imaging

/-! ## Instantiations for variables -/

/-- Nothing is asked where changes are made. -/
theorem of_commits {α : Type} {v : α} {rest : UnifyM α} {w : α} (hs : s.work.isNone = false)
    (h : (isProbe >>= fun probing => if probing then pure v else rest) s = some (w, u)) :
    rest s = some (w, u) := by
  obtain ⟨probing, s₁, hprobe, h⟩ := bind_eq_some.1 h
  obtain ⟨rfl, rfl⟩ := isProbe_eq_some.1 hprobe
  rwa [hs, if_neg Bool.false_ne_true] at h

private theorem setImage_pure_answer {b r : Bool}
    (h : (setImage x a >>= fun _ => pure b) s = some (r, u)) : r = b ∧ u.forest = s.forest := by
  obtain ⟨v, s₁, hset, h⟩ := bind_eq_some.1 h
  obtain ⟨rfl, rfl⟩ := pure_eq_some.1 h
  obtain rfl := modify_eq_some.1 hset
  exact ⟨rfl, rfl⟩

section Use

variable {definition use : TermId} {depth : Nat}

/-- A use whose variable is unified with a pinned type or an error is in place. -/
theorem unifyWithin_inPlace (hs : s.Sound) (hwork : s.work.isNone = false) (hmet : s.met = [])
    (ha : s.forest.IsClass a) (hv : s.forest.IsClass v) (hvar : s.forest.kind v = .var)
    (hout : ¬s.forest.Reaches a v) (h : unifyWithin depth a v s = some (r, u)) :
    ∃ R, u.forest.InPlace pinned R ∧ R (u.forest.rep a) (u.forest.rep v) := by
  cases depth with
  | zero => exact (failure_eq_some.1 h).elim
  | succ depth =>
    obtain ⟨ra, s₁, rv, s₂, hfind, hfind', hlayer⟩ := unifyStep_layer h
    obtain ⟨hlooks, hcalm, ⟨rfl, rfl⟩, ha₂, hv₂⟩ := find_both hs ha.lt hv.lt hfind hfind'
    have hp := (unifyWithin_proceeds hs ha.lt hv.lt h).1
    rw [ha.rep_eq, hv.rep_eq] at hlayer
    rw [ha.rep_eq] at hcalm ha₂
    rw [hv.rep_eq] at hv₂
    have hvar₂ := hlooks.var hs hvar
    have hreach : ∀ {b}, s₂.forest.Reaches a b → s.forest.Reaches a b :=
      fun hab => hlooks.upkeeps.reaches hs.forest.rooted hab
    obtain ⟨hrep, hcalmv⟩ := hlayer.calm_of_var (hlooks.proceeds hs).sound (by rw [hlooks.work, hwork])
      (by rw [hlooks.met, hmet]) ha₂ hv₂ hcalm.1 hvar₂ (fun e => hout (by rw [e]; exact .refl))
      fun inner hinner e => hout (hreach (.single ⟨.inner, inner, by rw [hinner]; rfl, e⟩))
    refine ⟨fun x y => x = u.forest.rep v ∧ y = u.forest.rep v, ?_, hrep, rfl⟩
    exact Forest.inPlace_class hcalmv (Forest.rep_lt_size hp.sound.forest.rooted (hp.lt hs hv.lt))

/-- When a definition is seen not to be pinned, whatever pinned types lead to has been looked up. -/
theorem calm_of_shared (hs : s.Sound) (h : (kindOf d >>= fun k =>
    if k.isError then pure true else occursInAny d pinned) s = some (false, u)) :
    ∀ c, u.forest.ReachedFrom pinned c → u.forest.Calm c := by
  replace h := of_bind_view h
  rcases ite_eq_some.1 h with ⟨-, h⟩ | ⟨-, h⟩
  · cases (pure_eq_some.1 h).1
  obtain ⟨f, hrun, rfl⟩ := onForest_eq_some.1 h
  exact fun c hc => (Forest.occursInAny_explored hs.forest.rooted hrun hc).1

/-- A use that was a variable has an instance of the definition in place when it is said to have
changed, unless it was part of the definition. -/
theorem instantiateStep_inPlace {inst : TermId → TermId → UnifyM Bool} (hs : s.Ready)
    (hmet : s.met = []) (himage : s.image = []) (hpinned : ∀ t ∈ pinned, t < s.forest.size)
    (hdefinition : definition < s.forest.size) (huse : use < s.forest.size)
    (hvar : s.forest.kind (s.forest.rep use) = .var)
    (hout : ¬s.forest.Reaches (s.forest.rep definition) (s.forest.rep use))
    (h : instantiateStep inst (unifyWithin depth) pinned definition use s = some (true, u)) :
    ∃ R, u.forest.InPlace pinned R ∧ R (u.forest.rep definition) (u.forest.rep use) := by
  have hdone : ∀ {s' x a}, (setImage x a >>= fun _ => pure false) s' ≠ some (true, u) :=
    fun h => Bool.false_ne_true (setImage_pure_answer h).1.symm
  obtain ⟨this, s₁, hfind, h⟩ := bind_eq_some.1 h
  obtain ⟨that, s₂, hfind', h⟩ := bind_eq_some.1 h
  obtain ⟨hlooks₂, hcalm, ⟨hthis, hthat⟩, hthisc, hthatc⟩ :=
    find_both hs.sound hdefinition huse hfind hfind'
  rw [← hthis, ← hthat] at hout
  obtain ⟨image, s₃, himage₃, h⟩ := bind_eq_some.1 h
  obtain ⟨rfl, rfl⟩ := imageOf_eq_some.1 himage₃
  have hnone : s₂.image.lookup this = none := by
    rw [hlooks₂.image, himage]
    rfl
  rw [hnone] at h
  obtain ⟨alike, s₃, halike, h⟩ := bind_eq_some.1 h
  have hlooks₃ := looks_onForest (Forest.keepsUp_alike _ _) (hlooks₂.proceeds hs.sound).sound halike
  have hlooks₃ := hlooks₂.trans hlooks₃
  rcases ite_eq_some.1 h with ⟨-, h⟩ | ⟨-, h⟩
  · exact absurd h hdone
  replace h := of_bind_view h
  rcases ite_eq_some.1 h with ⟨-, h⟩ | ⟨-, h⟩
  · exact absurd h hdone
  obtain ⟨shared, s₄, hshared, h⟩ := bind_eq_some.1 h
  have hs₃ := (hlooks₃.proceeds hs.sound).sound
  have hlooks₄ := hlooks₃.trans (shared_looks hs₃ hshared)
  have hp₄ := hlooks₄.proceeds hs.sound
  have hsteady₄ := hlooks₄.steady hs.sound
  have hwork₄ : s₄.work.isNone = false := by rw [hlooks₄.work, hs.commits]
  have hvar₄ : s₄.forest.kind that = .var := by
    rw [hthat]
    exact hlooks₄.var hs.sound hvar
  have hclass : ∀ {t}, t < s.forest.size → s₄.forest.IsClass (s.forest.rep t) := fun ht =>
    (Forest.isClass_rep hs.sound.forest ht).of_steady hsteady₄
  have hthis₄ : s₄.forest.IsClass this := hthis ▸ hclass hdefinition
  have hthat₄ : s₄.forest.IsClass that := hthat ▸ hclass huse
  have hout₄ : ¬s₄.forest.Reaches this that := fun hreach =>
    hout (hlooks₄.upkeeps.reaches hs.sound.forest.rooted hreach)
  rcases ite_eq_some.1 h with ⟨-, h⟩ | ⟨hshares, h⟩
  · -- The definition is an error or pinned.
    obtain ⟨progress, s₅, hunify, h⟩ := bind_eq_some.1 h
    obtain ⟨R, hplace, hR⟩ :
        ∃ R, s₅.forest.InPlace pinned R ∧ R (s₅.forest.rep this) (s₅.forest.rep that) :=
      unifyWithin_inPlace hp₄.sound hwork₄ (by rw [hlooks₄.met, hmet]) hthis₄ hthat₄ hvar₄ hout₄ hunify
    have hp₅ := hp₄.trans (unifyWithin_proceeds hp₄.sound hthis₄.lt hthat₄.lt hunify).1
    have hrep := (hp₅.evolves hs.sound).rep_rep hs.sound.forest.rooted
    rw [hthis, hthat, hrep, hrep] at hR
    rw [(setImage_pure_answer h).2]
    exact ⟨R, hplace, hR⟩
  replace h := of_bind_view h
  replace h := of_bind_view h
  rcases ite_eq_some.1 h with ⟨-, h⟩ | ⟨-, h⟩
  · exact absurd h hdone
  rw [if_pos (Kind.isVar_iff.2 hvar₄)] at h
  obtain ⟨probing, s₅, hprobe, h⟩ := bind_eq_some.1 h
  obtain ⟨rfl, rfl⟩ := isProbe_eq_some.1 hprobe
  rw [hwork₄, if_neg Bool.false_ne_true] at h
  obtain ⟨c, s₅, hcopy, h⟩ := bind_eq_some.1 h
  obtain ⟨progress, s₆, hmerge, h⟩ := bind_eq_some.1 h
  have hsurveyed : s₄.forest.Surveyed pinned this :=
    ⟨hp₄.sound.forest, hthis₄.lt, fun t ht => Nat.lt_of_lt_of_le (hpinned t ht) hsteady₄.size,
      calm_of_shared hs₃ ((Bool.not_eq_true _).mp hshares ▸ hshared)⟩
  have himage₄ : s₄.image = [] := by rw [hlooks₄.image, himage]
  obtain ⟨hs₅, hc⟩ := freshCopy_images hsurveyed hp₄.sound himage₄ hthis₄.root hcopy
  obtain ⟨hp₅, hsteady₅, -, hcc, hrefreshed⟩ := freshCopy_proceeds hp₄.sound hthis₄.lt hcopy
  have hvar₅ := (hrefreshed that hthat₄.lt (Forest.calm_of_not_nilable hthat₄.root
    (by rw [hvar₄]; rfl))).eq_var.2 hvar₄
  obtain ⟨hthisv, hcv⟩ := hs₅.ne_of_image hc hthat₄.lt hout₄
  have hg := merge_enters hp₅.sound (by rw [hp₅.probe, hwork₄]) (hthat₄.of_steady hsteady₅)
    (hcc (by rw [himage₄]; rfl)) hvar₅ (Ne.symm hcv) hmerge
  rw [(setImage_pure_answer h).2]
  refine ⟨_, hs₅.inPlace hc hthat₄.lt hout₄ hg, ?_⟩
  have hrep : ∀ t, s₅.forest.rep t = s.forest.rep t := fun t => by rw [hsteady₅.rep, hsteady₄.rep]
  rw [hg.rep, hg.rep, hrep, hrep, ← hthis, ← hthat, if_neg hthisv, if_pos rfl]
  exact hc

end Use

end Unifier

end TypeFlow
