import TypeFlow.Proofs.Walks

/-!
# Types found to be alike

Two types are compared class by class, with a memo of the pairs met so far.  A pair in the memo is
taken to be alike while the comparison of its children still runs, so types may be cyclic and share
children.  If the answer is that the types are alike, then every pair that came into the memo was
compared to the end, and the memo as a whole is a bisimulation: it relates classes that look the same
and whose children are related again.

Classes in the memo have been looked up.  They wrap nothing but variables from then on, and later
look-ups replace their children by representatives at most.

Main definitions:

- `Kind.Resembles`: kinds that look the same apart from openness, with related children.
- `Forest.IsLikeness`: a relation of classes that are one or look the same.
- `Forest.Likened`, `Forest.Compared`: what a memo relates, and what a comparison does to it.

Main results:

- `Kind.resembles_of_slots`: a node check and related children are all there is to compare.
- `Forest.alikeFrom_compares`: a comparison with a memo returns, and closes the pairs that it adds.
- `Forest.alike_sound`: types found to be alike are related by a bisimulation.
-/

namespace TypeFlow

/-- The labels of fields stand once each. -/
theorem Fields.nodup_labels {α : Type} {bound : Option String} (fields : Fields α bound) :
    fields.labels.Nodup := by
  induction fields with
  | nil => exact List.nodup_nil
  | cons l h v rest ih =>
    refine List.nodup_cons.2 ⟨fun hmem => ?_, ih⟩
    obtain ⟨w, hw⟩ := Option.isSome_iff_exists.1 (Fields.mem_labels.1 hmem)
    exact String.lt_irrefl l (Fields.after_of_find? hw)

namespace Kind

variable {R R' : TermId → TermId → Prop} {k k' l l' : Kind}

/-- Slots are listed once. -/
theorem nodup_slots (k : Kind) : k.slots.Nodup := by
  cases k with
  | function args ret fids nil =>
    refine List.Nodup.append (List.nodup_range.map fun i j h => Slot.arg.inj h) (List.nodup_singleton _) ?_
    simp [List.disjoint_singleton]
  | record fields => exact fields.nodup_labels.map fun l l' h => Slot.field.inj h
  | nilable => exact List.nodup_singleton _
  | _ => exact List.nodup_nil

/-! ## Children that may be missing -/

private theorem rel_imp (hR : ∀ x y, R x y → R' x y) {x? y? : Option TermId} (h : Option.Rel R x? y?) :
    Option.Rel R' x? y? := by
  cases h with
  | none => exact .none
  | some hxy => exact .some (hR _ _ hxy)

private theorem rel_map_iff {r : TermId → TermId} {x? y? : Option TermId} :
    Option.Rel R (x?.map r) (y?.map r) ↔ Option.Rel (fun x y => R (r x) (r y)) x? y? := by
  cases x? <;> cases y? <;> simp

/-! ## Kinds that look the same -/

/-- The kinds look the same, be records open or not, and their children are related slot by slot.  No
two variables look the same. -/
inductive Resembles (R : TermId → TermId → Prop) : Kind → Kind → Prop
  | base {flow : Flow} : Resembles R (.base flow) (.base flow)
  | error {cause cause' : TypeError} (hmessage : cause.message = cause'.message) :
    Resembles R (.error cause) (.error cause')
  | nilable {x y : TermId} (hinner : R x y) : Resembles R (.nilable x) (.nilable y)
  | function {args args' : List TermId} {ret ret' : TermId} {fids : IdSet} {nil : Bool}
    (hargs : List.Forall₂ R args args') (hret : R ret ret') :
    Resembles R (.function args ret fids nil) (.function args' ret' fids nil)
  | record {fields fields' : Fields TermId none} {sites : IdSet} {isOpen isOpen' nil : Bool}
    (hfields : ∀ label, Option.Rel R (fields.find? label) (fields'.find? label)) :
    Resembles R (.record fields sites isOpen nil) (.record fields' sites isOpen' nil)

namespace Resembles

private theorem mono (hR : ∀ x y, R x y → R' x y) (h : Resembles R k l) : Resembles R' k l := by
  cases h with
  | base => exact .base
  | error hmessage => exact .error hmessage
  | nilable hinner => exact .nilable (hR _ _ hinner)
  | function hargs hret => exact .function (hargs.imp hR) (hR _ _ hret)
  | record hfields => exact .record fun label => rel_imp hR (hfields label)

/-- Of children only what they are taken to is compared. -/
theorem mapChildren_iff (r : TermId → TermId) :
    Resembles R (k.mapChildren r) (l.mapChildren r) ↔
      Resembles (fun x y => R (r x) (r y)) k l := by
  constructor
  · intro h
    cases k <;> cases l <;> cases h
    case base => exact .base
    case error hmessage => exact .error hmessage
    case nilable hinner => exact .nilable hinner
    case function hargs hret =>
      rw [List.forall₂_map_left_iff, List.forall₂_map_right_iff] at hargs
      exact .function hargs hret
    case record hfields =>
      refine .record fun label => rel_map_iff.1 ?_
      rw [← Fields.find?_map fun _ => r, ← Fields.find?_map fun _ => r]
      exact hfields label
  · intro h
    cases h with
    | base => exact .base
    | error hmessage => exact .error hmessage
    | nilable hinner => exact .nilable hinner
    | function hargs hret =>
      refine .function ?_ hret
      rwa [List.forall₂_map_left_iff, List.forall₂_map_right_iff]
    | record hfields =>
      refine .record fun label => ?_
      rw [Fields.find?_map, Fields.find?_map]
      exact rel_map_iff.2 (hfields label)

/-- Kinds look the same still when their children are given by other terms of the same classes. -/
theorem of_same {r : TermId → TermId} (hk : Same r k k') (hl : Same r l l')
    (h : Resembles (fun x y => R (r x) (r y)) k l) :
    Resembles (fun x y => R (r x) (r y)) k' l' := by
  rw [← mapChildren_iff] at h ⊢
  rwa [hk, hl]

end Resembles

/-- Records have the same labels if one has all labels of the other, and no more of them. -/
theorem rel_find?_of_labels {fields fields' : Fields TermId none}
    (hlength : fields.labels.length = fields'.labels.length)
    (h : ∀ label ∈ fields.labels, ∃ x y, fields.find? label = some x ∧
      fields'.find? label = some y ∧ R x y) (label : String) :
    Option.Rel R (fields.find? label) (fields'.find? label) := by
  have hsub : fields.labels ⊆ fields'.labels := fun label hmem => by
    obtain ⟨x, y, -, hy, -⟩ := h label hmem
    exact Fields.mem_labels.2 (Option.isSome_of_eq_some hy)
  have hperm := (fields.nodup_labels.subperm hsub).perm_of_length_le hlength.ge
  cases hx : fields.find? label with
  | some x =>
    obtain ⟨x', y, hx', hy, hxy⟩ :=
      h label (Fields.mem_labels.2 (Option.isSome_of_eq_some hx))
    rw [hx] at hx'
    cases hx'
    rw [hy]
    exact .some hxy
  | none =>
    cases hy : fields'.find? label with
    | none => exact .none
    | some y =>
      have hmem := Fields.mem_labels.1
        (hperm.mem_iff.2 (Fields.mem_labels.2 (Option.isSome_of_eq_some hy)))
      rw [hx] at hmem
      cases hmem

/-- Kinds that agree apart from their children, in the number of slots, and on the children in all
slots of one of them, look the same. -/
theorem resembles_of_slots (hnode : Forest.sameNode k l = true)
    (hlength : k.slots.length = l.slots.length)
    (h : ∀ slot ∈ k.slots, ∃ x y, k.child? slot = some x ∧ l.child? slot = some y ∧ R x y) :
    Resembles R k l := by
  cases k <;> cases l <;> simp only [Forest.sameNode, Bool.false_eq_true] at hnode
  case base flow flow' =>
    obtain rfl := beq_iff_eq.1 hnode
    exact .base
  case error cause cause' => exact .error (beq_iff_eq.1 hnode)
  case nilable x y =>
    obtain ⟨x', y', hx, hy, hxy⟩ := h .inner List.mem_cons_self
    cases hx
    cases hy
    exact .nilable hxy
  case function args ret fids nil args' ret' fids' nil' =>
    simp only [Bool.and_eq_true, beq_iff_eq] at hnode
    obtain ⟨⟨rfl, rfl⟩, hargs⟩ := hnode
    obtain ⟨x', y', hx, hy, hret⟩ := h .ret (by simp [slots])
    cases hx
    cases hy
    refine .function (List.forall₂_iff_get.2 ⟨hargs, fun i hi hi' => ?_⟩) hret
    obtain ⟨x', y', hx, hy, harg⟩ := h (.arg i) (by simpa [slots] using hi)
    obtain ⟨_, rfl⟩ := List.getElem?_eq_some_iff.1 hx
    obtain ⟨_, rfl⟩ := List.getElem?_eq_some_iff.1 hy
    exact harg
  case record fields sites isOpen nil fields' sites' isOpen' nil' =>
    simp only [Bool.and_eq_true, beq_iff_eq] at hnode
    obtain ⟨rfl, rfl⟩ := hnode
    simp only [slots, List.length_map] at hlength
    exact .record (rel_find?_of_labels hlength fun label hmem =>
      h (.field label) (List.mem_map_of_mem hmem))

end Kind

namespace Forest

variable {f g h : Forest} {R : TermId → TermId → Prop} {seen : List (TermId × TermId)}
  {a b : TermId}

/-! ## Bisimulations -/

/-- Related classes are one class, or look the same apart from openness and have related children. -/
def IsLikeness (f : Forest) (R : TermId → TermId → Prop) : Prop :=
  ∀ a b, R a b → a = b ∨ (f.kind a).Resembles (fun x y => R (f.rep x) (f.rep y)) (f.kind b)

/-- Look-ups keep likenesses of classes that wrap nothing but variables. -/
theorem IsLikeness.of_upkeeps (hf : f.Rooted) (hup : f.Upkeeps g)
    (hcalm : ∀ a b, R a b → a ≠ b → f.Calm a ∧ f.Calm b) (hR : f.IsLikeness R) : g.IsLikeness R := by
  intro a b hab
  by_cases heq : a = b
  · exact Or.inl heq
  · obtain ⟨ha, hb⟩ := hcalm a b hab heq
    have hrep : g.rep = f.rep := funext (hup.steady hf).rep
    rw [hrep]
    exact Or.inr (((hR a b hab).resolve_left heq).of_same (hup.same hf ha) (hup.same hf hb))

/-- The memo relates the classes: they are one, or were met together, or look the same and have no
children. -/
def Likened (f : Forest) (seen : List (TermId × TermId)) (a b : TermId) : Prop :=
  a = b ∨ (a, b) ∈ seen ∨ (f.kind a).Resembles (fun _ _ => False) (f.kind b)

/-- What looks the same and has no children wraps nothing. -/
theorem calm_of_childless (h : (f.kind a).Resembles (fun _ _ => False) (f.kind b)) :
    f.Calm a ∧ f.Calm b := by
  generalize hk : f.kind a = k, hl : f.kind b = l at h
  cases h with
  | nilable hinner => exact hinner.elim
  | _ =>
    constructor
    · exact calm_of_not_nilable (by rw [hk]; rfl) (by rw [hk]; rfl)
    · exact calm_of_not_nilable (by rw [hl]; rfl) (by rw [hl]; rfl)

private theorem Likened.mono (hf : f.Rooted) (hup : f.Upkeeps g) {seen' : List (TermId × TermId)}
    (hsub : seen ⊆ seen') (h : f.Likened seen a b) : g.Likened seen' a b := by
  rcases h with heq | hmem | hchildless
  · exact Or.inl heq
  · exact Or.inr (Or.inl (hsub hmem))
  · obtain ⟨ha, hb⟩ := calm_of_childless hchildless
    exact Or.inr (Or.inr
      (Kind.Resembles.of_same (R := fun _ _ => False) (hup.same hf ha) (hup.same hf hb) hchildless))

/-- The classes have been looked up, they look the same, and the memo relates their children. -/
structure Closed (f : Forest) (seen : List (TermId × TermId)) (a b : TermId) : Prop where
  left : f.Calm a
  right : f.Calm b
  resembles : (f.kind a).Resembles (fun x y => f.Likened seen (f.rep x) (f.rep y)) (f.kind b)

private theorem Closed.mono (hf : f.Rooted) (hup : f.Upkeeps g) {seen' : List (TermId × TermId)}
    (hsub : seen ⊆ seen') (h : f.Closed seen a b) : g.Closed seen' a b := by
  refine ⟨(hup.calm hf h.left).2, (hup.calm hf h.right).2, ?_⟩
  have hrep : g.rep = f.rep := funext (hup.steady hf).rep
  rw [hrep]
  exact (h.resembles.of_same (hup.same hf h.left) (hup.same hf h.right)).mono
    fun x y hxy => hxy.mono hf hup hsub

/-- A memo all of whose pairs are closed is a bisimulation, in every tidier forest. -/
theorem isLikeness_of_closed (hg : g.Rooted) (hclosed : ∀ p ∈ seen, g.Closed seen p.1 p.2)
    (hup : g.Upkeeps h) : h.IsLikeness (g.Likened seen) := by
  refine IsLikeness.of_upkeeps hg hup (fun a b hab hne => ?_) fun a b hab => ?_
  · rcases hab with heq | hmem | hchildless
    · exact absurd heq hne
    · exact ⟨(hclosed _ hmem).left, (hclosed _ hmem).right⟩
    · exact calm_of_childless hchildless
  · rcases hab with heq | hmem | hchildless
    · exact Or.inl heq
    · exact Or.inr (hclosed _ hmem).resembles
    · exact Or.inr (hchildless.mono fun _ _ => False.elim)

/-! ## Comparisons -/

/-- A comparison has looked classes up and added to the memo.  If the answer is that all it met is alike
then what it added is closed. -/
structure Compared (f : Forest) (seen : List (TermId × TermId))
    (r : Bool × List (TermId × TermId)) (g : Forest) : Prop where
  upkeeps : f.Upkeeps g
  subset : seen ⊆ r.2
  closed : r.1 = true → ∀ p ∈ r.2, p ∈ seen ∨ g.Closed r.2 p.1 p.2

private theorem Compared.of_upkeeps (hup : f.Upkeeps g) (same : Bool) : f.Compared seen (same, seen) g :=
  ⟨hup, fun _ hp => hp, fun _ _ hp => Or.inl hp⟩

private theorem Compared.trans (hf : f.Rooted) {seen' : List (TermId × TermId)}
    {r : Bool × List (TermId × TermId)} (h₁ : f.Compared seen (true, seen') g)
    (h₂ : g.Compared seen' r h) : f.Compared seen r h := by
  refine ⟨h₁.upkeeps.trans h₂.upkeeps, fun p hp => h₂.subset (h₁.subset hp), fun hsame p hp => ?_⟩
  rcases h₂.closed hsame p hp with hp' | hclosed
  · refine (h₁.closed rfl p hp').imp_right fun hclosed => ?_
    exact hclosed.mono (h₁.upkeeps.steady hf).rooted h₂.upkeeps h₂.subset
  · exact Or.inr hclosed

/-- What it means that a computation compares two terms: it has an answer, which relates their classes
if it is that they are alike. -/
def Compares (compare : ForestM (Bool × List (TermId × TermId))) (f : Forest)
    (seen : List (TermId × TermId)) (a b : TermId) : Prop :=
  Returns compare f fun r g =>
    f.Compared seen r g ∧ (r.1 = true → g.Likened r.2 (f.rep a) (f.rep b))

/-- The classes of the children in some slots are related by the memo. -/
def LikenedSlots (f g : Forest) (seen : List (TermId × TermId)) (a b : TermId)
    (slots : List Slot) : Prop :=
  ∀ slot ∈ slots, ∃ x y, (f.kind a).child? slot = some x ∧ (f.kind b).child? slot = some y ∧
    g.Likened seen (f.rep x) (f.rep y)

/-- Wrappers come to an end in a region. -/
structure EndsIn (f : Forest) (P : TermId → Prop) : Prop where
  region : f.Region P
  ends : ∀ t, P t → f.Ends t

private theorem EndsIn.of_upkeeps {P : TermId → Prop} (hf : f.Rooted) (hup : f.Upkeeps g) (h : f.EndsIn P) :
    g.EndsIn P :=
  ⟨hup.region hf h.region, fun t ht => hup.ends hf (h.ends t ht)⟩

/-- Children are looked up where wrappers come to an end. -/
theorem child_tells {P : TermId → Prop} (hf : f.Rooted) (hends : f.EndsIn P) {t : TermId} (ht : P t)
    (slot : Slot) :
    Returns (child t slot) f fun r g => r = ((f.kind t).child? slot).map f.rep ∧ f.Upkeeps g := by
  obtain ⟨r, g, hchild⟩ := child_returns hf fun raw hraw => hends.ends raw (hends.region.child ht hraw)
  exact ⟨r, g, hchild, child_upkeeps hf hchild⟩

section Slots

variable {fuel : Nat} {P : TermId → Prop}
  {compare : TermId → TermId → List (TermId × TermId) → ForestM (Bool × List (TermId × TermId))}
  (hcompare : ∀ (f : Forest) a b seen, f.Rooted → f.EndsIn P → P a → P b →
    (f.unseen (seen.map Prod.fst)).card < fuel → Compares (compare a b seen) f seen a b)

include hcompare

/-- The children of two classes are compared slot by slot. -/
theorem alikeSlots_compares (hf : f.Rooted) (hends : f.EndsIn P) (hpa : P a) (hpb : P b)
    (ha : f.Calm a) (hb : f.Calm b) (slots : List Slot) (hseen : (f.unseen (seen.map Prod.fst)).card < fuel) :
    Returns (alikeSlots compare a b slots seen) f fun r g =>
      f.Compared seen r g ∧ (r.1 = true → f.LikenedSlots g r.2 a b slots) := by
  induction slots generalizing f seen with
  | nil => exact returns_pure ⟨.of_upkeeps .refl true, fun _ slot hslot => absurd hslot (by simp)⟩
  | cons slot rest ih =>
    refine returns_bind (child_tells hf hends hpa slot) fun x? f₁ _ ⟨hx?, hup₁⟩ => ?_
    have hs₁ := hup₁.steady hf
    refine returns_bind (child_tells hs₁.rooted (hends.of_upkeeps hf hup₁) hpb slot)
      fun y? f₂ _ ⟨hy?, hup₂⟩ => ?_
    have hup : f.Upkeeps f₂ := hup₁.trans hup₂
    have hs := hup.steady hf
    rw [funext hs₁.rep, (hup₁.same hf hb).child? slot] at hy?
    cases hxa : (f.kind a).child? slot with
    | none =>
      rw [hxa] at hx?
      subst hx?
      exact returns_pure ⟨.of_upkeeps hup false, fun hno => absurd hno Bool.false_ne_true⟩
    | some x =>
    cases hyb : (f.kind b).child? slot with
    | none =>
      rw [hyb] at hy?
      rw [hxa] at hx?
      subst hx? hy?
      exact returns_pure ⟨.of_upkeeps hup false, fun hno => absurd hno Bool.false_ne_true⟩
    | some y =>
    rw [hxa] at hx?
    rw [hyb] at hy?
    subst hx? hy?
    refine returns_bind (hcompare f₂ (f.rep x) (f.rep y) seen hs.rooted (hends.of_upkeeps hf hup)
      (hends.region.rep (hends.region.child hpa hxa)) (hends.region.rep (hends.region.child hpb hyb))
      (card_unseen_of_upkeeps hup (fun _ hp => hp) hseen)) fun r f₃ _ ⟨hcompared, hlikened⟩ => ?_
    rw [hs.rep, hs.rep, rep_rep hf, rep_rep hf] at hlikened
    have hall : f.Compared seen r f₃ := (Compared.of_upkeeps hup true).trans hf hcompared
    obtain ⟨same, seen₃⟩ := r
    cases same with
    | false => exact returns_pure ⟨hall, fun hno => absurd hno Bool.false_ne_true⟩
    | true =>
      have hs₃ := hall.upkeeps.steady hf
      refine (ih hs₃.rooted (hends.of_upkeeps hf hall.upkeeps) (hall.upkeeps.calm hf ha).2
        (hall.upkeeps.calm hf hb).2
        (card_unseen_of_upkeeps hall.upkeeps (List.map_subset _ hall.subset) hseen)).imp
        fun r g _ ⟨hrest, hslots⟩ => ⟨hall.trans hf hrest, fun hyes slot' hslot' => ?_⟩
      rcases List.mem_cons.1 hslot' with rfl | hslot'
      · exact ⟨x, y, hxa, hyb, (hlikened rfl).mono hs₃.rooted hrest.upkeeps hrest.subset⟩
      · obtain ⟨x', y', hx', hy', hxy⟩ := hslots hyes slot' hslot'
        obtain ⟨x'', hx'', hrx⟩ := hall.upkeeps.child? hf ha hx'
        obtain ⟨y'', hy'', hry⟩ := hall.upkeeps.child? hf hb hy'
        rw [hrx, hry] at hxy
        exact ⟨x'', y'', hx'', hy'', hxy⟩

end Slots

/-- Related children in all slots make two classes that agree otherwise look the same. -/
theorem LikenedSlots.resembles (hf : f.Rooted) (hup : f.Upkeeps g) (ha : f.Calm a) (hb : f.Calm b)
    (hnode : sameNode (f.kind a) (f.kind b) = true)
    (hlength : (f.kind a).slots.length = (f.kind b).slots.length)
    (h : f.LikenedSlots g seen a b (f.kind a).slots) :
    (g.kind a).Resembles (fun x y => g.Likened seen (g.rep x) (g.rep y)) (g.kind b) := by
  have hrep : g.rep = f.rep := funext (hup.steady hf).rep
  rw [hrep]
  exact (Kind.resembles_of_slots hnode hlength h).of_same (hup.same hf ha) (hup.same hf hb)

/-- A comparison returns in a region where wrappers come to an end.  If it finds the terms to be alike
then it has compared all that it added to the memo. -/
theorem alikeFrom_compares_in {P : TermId → Prop} (fuel : Nat) (hf : f.Rooted) (hends : f.EndsIn P)
    (hpa : P a) (hpb : P b) (hseen : (f.unseen (seen.map Prod.fst)).card < fuel) :
    Compares (alikeFrom fuel a b seen) f seen a b := by
  induction fuel generalizing f a b seen with
  | zero => exact absurd hseen (Nat.not_lt_zero _)
  | succ fuel ih =>
    refine returns_bind (find_returns hf (hends.ends a hpa)) fun x f₁ _ ⟨hx, hup₁, hx₁⟩ => ?_
    have hs₁ := hup₁.steady hf
    refine returns_bind (find_returns hs₁.rooted (hup₁.ends hf (hends.ends b hpb)))
      fun y f₂ _ ⟨hy, hup₂, hcb⟩ => ?_
    rw [hs₁.rep] at hy
    subst hx hy
    have hca := (hup₂.calm hs₁.rooted hx₁).2
    have hup : f.Upkeeps f₂ := hup₁.trans hup₂
    have hs := hup.steady hf
    have hdone : ∀ same : Bool, f.Compared seen (same, seen) f₂ := Compared.of_upkeeps hup
    split
    · rename_i heq
      exact returns_pure ⟨hdone true, fun _ => Or.inl heq⟩
    refine returns_get_bind (returns_get_bind ?_)
    dsimp only
    split
    · exact returns_pure ⟨hdone false, fun hno => absurd hno Bool.false_ne_true⟩
    rename_i hagree
    rw [Bool.or_eq_true, not_or, decide_eq_true_eq, not_not, Bool.not_eq_true',
      Bool.not_eq_false] at hagree
    obtain ⟨hnode, hlength⟩ := hagree
    split
    · rename_i hempty
      rw [List.isEmpty_iff] at hempty
      refine returns_pure ⟨hdone true, fun _ => Or.inr (Or.inr ?_)⟩
      exact Kind.resembles_of_slots hnode hlength fun slot hslot => absurd hslot (by simp [hempty])
    rename_i hslots
    split
    · rename_i prior hprior
      refine returns_pure ⟨hdone _, fun heq => Or.inr (Or.inl ?_)⟩
      rw [← beq_iff_eq.1 heq]
      obtain ⟨before, after, hsplit, -⟩ := List.lookup_eq_some_iff.1 hprior
      rw [hsplit]
      exact List.mem_append_right _ List.mem_cons_self
    rename_i hnew
    have hlt : f.rep a < f.size := by
      rw [← hup.size]
      refine lt_size_of_kind fun hvar => hslots ?_
      rw [hvar]
      rfl
    have hnew' : f.rep a ∉ seen.map Prod.fst := by
      intro hmem
      obtain ⟨p, hp, hpa⟩ := List.mem_map.1 hmem
      have hne := List.lookup_eq_none_iff.1 hnew p hp
      rw [hpa] at hne
      simp at hne
    have hfuel : (f₂.unseen (((f.rep a, f.rep b) :: seen).map Prod.fst)).card < fuel :=
      card_unseen_of_upkeeps hup (fun _ hp => hp)
        (Nat.lt_of_lt_of_le (card_unseen_cons hlt hnew') (Nat.le_of_lt_succ hseen))
    refine (alikeSlots_compares (fun f a b seen hf hends hpa hpb hseen => ih hf hends hpa hpb hseen)
      hs.rooted (hends.of_upkeeps hf hup) (hends.region.rep hpa) (hends.region.rep hpb) hca hcb _
      hfuel).imp fun r g _ ⟨hcompared, hchildren⟩ => ?_
    refine ⟨⟨hup.trans hcompared.upkeeps, fun p hp => hcompared.subset (List.mem_cons_of_mem _ hp),
      fun hyes p hp => ?_⟩, fun _ => Or.inr (Or.inl (hcompared.subset List.mem_cons_self))⟩
    rcases hcompared.closed hyes p hp with hp' | hclosed
    · rcases List.mem_cons.1 hp' with rfl | hp'
      · have hup₃ := hcompared.upkeeps
        exact Or.inr ⟨(hup₃.calm hs.rooted hca).2, (hup₃.calm hs.rooted hcb).2,
          (hchildren hyes).resembles hs.rooted hup₃ hca hcb hnode hlength⟩
      · exact Or.inl hp'
    · exact Or.inr hclosed

private theorem alikeFrom_compares (fuel : Nat) (hf : f.Rooted) (hends : ∀ t, f.Ends t)
    (hseen : (f.unseen (seen.map Prod.fst)).card < fuel) :
    Compares (alikeFrom fuel a b seen) f seen a b :=
  alikeFrom_compares_in (P := fun _ => True) fuel hf ⟨fun _ _ _ _ => trivial, fun t _ => hends t⟩ trivial
    trivial hseen

/-- Types of a region that are found to be alike are related by a bisimulation. -/
theorem isLikeness_of_alike {P : TermId → Prop} (hf : f.Rooted) (hends : f.EndsIn P) (hpa : P a)
    (hpb : P b) (h : alike a b f = some (true, g)) :
    ∃ R, R (f.rep a) (f.rep b) ∧ g.IsLikeness R := by
  obtain ⟨f₀, f₁, hget, h⟩ := bind_eq_some.1 h
  obtain ⟨rfl, rfl⟩ := get_eq_some.1 hget
  obtain ⟨⟨same, seen⟩, f₂, hrun, h⟩ := bind_eq_some.1 h
  obtain ⟨rfl, rfl⟩ := pure_eq_some.1 h
  obtain ⟨hcompared, hlikened⟩ :=
    (alikeFrom_compares_in _ hf hends hpa hpb (card_unseen_nil f)).of_run hrun
  refine ⟨f₂.Likened seen, hlikened rfl, isLikeness_of_closed (hcompared.upkeeps.steady hf).rooted
    (fun p hp => ?_) .refl⟩
  exact (hcompared.closed rfl p hp).resolve_left List.not_mem_nil

/-- Whether two types are alike is found out where wrappers come to an end.  If the answer is that they
are, a bisimulation relates their classes: related classes are one, or have the same kind with the
same flow, error, function ids or sites, mark of nil and slots, and related children.  It is one in
the forest that the comparison leaves and in every tidier one. -/
theorem alike_sound (hf : f.Rooted) (hends : ∀ t, f.Ends t) (a b : TermId) :
    ∃ same g, alike a b f = some (same, g) ∧ f.Upkeeps g ∧ (same = true →
      ∃ R, R (f.rep a) (f.rep b) ∧ ∀ h, g.Upkeeps h → h.IsLikeness R) := by
  have hreturns : Returns (alike a b) f fun same g => f.Upkeeps g ∧ (same = true →
      ∃ R, R (f.rep a) (f.rep b) ∧ ∀ h, g.Upkeeps h → h.IsLikeness R) := by
    refine returns_get_bind ?_
    refine returns_bind (alikeFrom_compares _ hf hends (card_unseen_nil f))
      fun r g _ ⟨hcompared, hlikened⟩ => returns_pure ⟨hcompared.upkeeps, fun hyes => ?_⟩
    have hg := (hcompared.upkeeps.steady hf).rooted
    refine ⟨g.Likened r.2, hlikened hyes, fun h hup => isLikeness_of_closed hg (fun p hp => ?_) hup⟩
    exact (hcompared.closed hyes p hp).resolve_left List.not_mem_nil
  obtain ⟨same, g, hrun, hup, hsame⟩ := hreturns
  exact ⟨same, g, hrun, hup, hsame⟩

/-- A list whose one node is its own rest, with values that are wrapped, and an open one whose two nodes
are each the rest of the other. -/
def listCycles : Forest :=
  ⟨#[⟨.base .int64, .empty, false⟩, ⟨.nilable 0, .empty, false⟩,
    ⟨.record (.ofList [("n", 2), ("v", 1)]) (.singleton 5) false false, .empty, false⟩,
    ⟨.base Flow.int64.orNil, .empty, false⟩,
    ⟨.record (.ofList [("n", 5), ("v", 3)]) (.singleton 5) true false, .empty, false⟩,
    ⟨.record (.ofList [("n", 4), ("v", 3)]) (.singleton 5) true false, .empty, false⟩], 0⟩

/-- The two lists are alike: the values of the first are looked up on the way. -/
theorem alike_sound_lists : ∃ (g : Forest) (R : TermId → TermId → Prop),
    alike 4 2 listCycles = some (true, g) ∧ R 4 2 ∧ g.IsLikeness R := by
  have hlinks : ∀ t < listCycles.size, (listCycles.kind t).isLink = false := by decide
  have hrooted : listCycles.Rooted := ⟨fun _ => 0, fun t u hlink => by
    have hnot := hlinks t (lt_size_of_kind (by rw [hlink]; exact Kind.noConfusion))
    rw [hlink] at hnot
    cases hnot⟩
  obtain ⟨same, g, hrun, -, hsame⟩ := alike_sound hrooted (ends_of_earlier (by decide)) 4 2
  have hanswer : (alike 4 2 listCycles).map Prod.fst = some true := by decide +kernel
  rw [hrun] at hanswer
  obtain rfl : same = true := Option.some.inj hanswer
  obtain ⟨R, hR, hlikeness⟩ := hsame rfl
  exact ⟨g, R, hrun, hR, hlikeness g .refl⟩

end Forest

end TypeFlow
