import TypeFlow.Proofs.TypeSchemes

/-!
# Types that are trees

A type is a tree if nothing in it is shared but variables that are wrapped nowhere, and if its wrappers wrap
variables.  A type without variables that looks the same part by part, be its records open or not, is its twin.
Comparing the two finds them alike, since no part is met twice.

Main definitions:

- `Forest.NeverWrapped`: a variable that is wrapped nowhere in a type.
- `Forest.Single`: a class that is known, or a variable that occurs once.
- `Forest.Tree`: a class that leads to a tree.
- `Forest.Standing`: a type is what it was, up to the terms that stand for children.
- `Forest.Twin`: a type that looks the same as a tree.

Main results:

- `Forest.Tree.acyclic`, `Forest.Tree.apart`: a tree does not lead to itself, and shares variables only.
- `Forest.Tree.not_single`: what it shares is not single.
- `Forest.Twin.alikeFor`: twins are found to be alike.
-/

namespace TypeFlow

namespace Kind

variable {k : Kind} {slot : Slot} {x : TermId}

/-- Only wrappers wrap something. -/
theorem eq_nilable_of_child? (hx : k.child? .inner = some x) : k = .nilable x := by
  cases k <;> first | cases hx; rfl | cases hx

/-- What is no wrapper has children in other slots only. -/
theorem ne_inner (hnilable : k.isNilable = false) (hx : k.child? slot = some x) : slot ≠ .inner := by
  rintro rfl
  rw [eq_nilable_of_child? hx] at hnilable
  cases hnilable

end Kind

namespace Forest

variable {f g h : Forest} {a b c d : TermId} {slot slot' : Slot} {x y : TermId}

/-! ## Trees -/

/-- The class is a variable that no wrapper in a type wraps. -/
def NeverWrapped (f : Forest) (a c : TermId) : Prop :=
  f.kind c = .var ∧ ∀ w x, f.Reaches a w → f.kind w = .nilable x → f.rep x ≠ c

/-- So it is in what the type leads to. -/
theorem NeverWrapped.of_reaches (h : f.NeverWrapped a c) (hb : f.Reaches a b) : f.NeverWrapped b c :=
  ⟨h.1, fun w x hw => h.2 w x (hb.trans hw)⟩

/-- The class is known, or a variable that one class of a type leads to in one slot, and does not wrap. -/
def Single (f : Forest) (d a : TermId) : Prop :=
  f.kind a = .var → ∀ b b' slot slot' x x', f.Reaches d b → f.Reaches d b' → (f.kind b).child? slot = some x →
    (f.kind b').child? slot' = some x' → f.rep x = a → f.rep x' = a → b = b' ∧ slot = slot' ∧ slot ≠ .inner

/-- What is known is single. -/
theorem Single.of_known (h : f.kind a ≠ .var) : f.Single d a := fun hvar => absurd hvar h

/-- Only variables are not. -/
theorem eq_var_of_not_single (h : ¬f.Single d a) : f.kind a = .var := by
  by_contra hvar
  exact h (.of_known hvar)

/-- What is wrapped is not single. -/
theorem not_single_of_wrapped (ha : f.Reaches d a) (hx : (f.kind a).child? .inner = some x)
    (hvar : f.kind (f.rep x) = .var) : ¬f.Single d (f.rep x) := fun h =>
  (h hvar a a .inner .inner x x ha ha hx hx rfl rfl).2.2 rfl

/-- The class is a variable, the wrapper of one, or one whose children are trees that have only variables in common
that are wrapped nowhere. -/
inductive Tree (f : Forest) : TermId → Prop
  | var {a : TermId} (h : f.kind a = .var) : Tree f a
  | wrapper {a x : TermId} (h : f.kind a = .nilable x) (hvar : f.kind (f.rep x) = .var) : Tree f a
  | known {a : TermId} (hlink : (f.kind a).isLink = false) (hvar : f.kind a ≠ .var)
    (hnilable : (f.kind a).isNilable = false)
    (hchildren : ∀ slot x, (f.kind a).child? slot = some x → Tree f (f.rep x))
    (hapart : ∀ slot slot' x y c, slot ≠ slot' → (f.kind a).child? slot = some x →
      (f.kind a).child? slot' = some y → f.Reaches (f.rep x) c → f.Reaches (f.rep y) c →
      f.NeverWrapped a c) : Tree f a

namespace Tree

/-- What is no wrapper and has variables for children is a tree, whether or not they are distinct. -/
theorem of_variables (hlink : (f.kind a).isLink = false) (hvar : f.kind a ≠ .var)
    (hnilable : (f.kind a).isNilable = false) (h : ∀ x ∈ (f.kind a).children, f.kind (f.rep x) = .var) :
    f.Tree a := by
  have hchild : ∀ {slot x}, (f.kind a).child? slot = some x → f.kind (f.rep x) = .var := fun hx =>
    h _ (Kind.mem_children_of_child? hx)
  refine .known hlink hvar hnilable (fun slot x hx => .var (hchild hx)) fun slot slot' x y c _ hx _ hc _ => ?_
  refine ⟨by rw [hc.eq_of_var (hchild hx), hchild hx], fun w x' hw hx' => ?_⟩
  -- Neither the class nor a variable is a wrapper.
  rcases Relation.ReflTransGen.cases_head hw with rfl | ⟨_, ⟨slot, y, hy, rfl⟩, hreach⟩
  · rw [hx'] at hnilable
    cases hnilable
  · rw [Reaches.eq_of_var hreach (hchild hy), hchild hy] at hx'
    cases hx'

/-- A class of a tree wraps a variable at most. -/
theorem calm (h : f.Tree a) : f.Calm a := by
  cases h with
  | var h => exact calm_of_not_nilable (by rw [h]; rfl) (by rw [h]; rfl)
  | wrapper h hvar =>
    refine ⟨by rw [h]; rfl, fun x' hx' => ?_⟩
    cases h.symm.trans hx'
    exact hvar
  | known hlink _ hnilable => exact calm_of_not_nilable hlink hnilable

/-- Children of a tree are trees. -/
theorem child (h : f.Tree a) (hx : (f.kind a).child? slot = some x) : f.Tree (f.rep x) := by
  cases h with
  | var h => rw [h] at hx; cases slot <;> cases hx
  | wrapper h hvar =>
    rw [h] at hx
    cases slot <;> cases hx
    exact .var hvar
  | known _ _ _ hchildren => exact hchildren slot x hx

/-- A tree leads to trees only. -/
theorem reaches (h : f.Tree a) (hb : f.Reaches a b) : f.Tree b := by
  induction hb with
  | refl => exact h
  | tail _ hedge ih =>
    obtain ⟨slot, x, hx, rfl⟩ := hedge
    exact ih.child hx

/-- A wrapper of a tree wraps a variable. -/
theorem wraps (h : f.Tree a) (hx : (f.kind a).child? .inner = some x) : f.kind (f.rep x) = .var :=
  h.calm.wraps x (Kind.eq_nilable_of_child? hx)

/-- Two children of a tree have only variables in common that are wrapped nowhere. -/
theorem neverWrapped (h : f.Tree a) (hne : slot ≠ slot') (hx : (f.kind a).child? slot = some x)
    (hy : (f.kind a).child? slot' = some y) (hc : f.Reaches (f.rep x) c) (hc' : f.Reaches (f.rep y) c) :
    f.NeverWrapped a c := by
  cases h with
  | var h => rw [h] at hx; cases slot <;> cases hx
  | wrapper h =>
    rw [h] at hx hy
    cases slot <;> cases hx
    cases slot' <;> cases hy
    exact absurd rfl hne
  | known _ _ _ _ hapart => exact hapart slot slot' x y c hne hx hy hc hc'

/-- Two children of a tree have variables in common only. -/
theorem apart (h : f.Tree a) (hne : slot ≠ slot') (hx : (f.kind a).child? slot = some x)
    (hy : (f.kind a).child? slot' = some y) (hc : f.Reaches (f.rep x) c) (hc' : f.Reaches (f.rep y) c) :
    f.kind c = .var := (h.neverWrapped hne hx hy hc hc').1

/-- What is wrapped nowhere in a child is wrapped nowhere in a tree, if it is not the child itself. -/
theorem neverWrapped_of_child (h : f.Tree a) (hx : (f.kind a).child? slot = some x) (hc : f.Reaches (f.rep x) c)
    (hne : f.rep x ≠ c) (hnever : f.NeverWrapped (f.rep x) c) : f.NeverWrapped a c := by
  refine ⟨hnever.1, fun w y hw hy hyc => ?_⟩
  rcases Relation.ReflTransGen.cases_head hw with rfl | ⟨_, ⟨slot', z, hz, rfl⟩, hreach⟩
  · rw [hy] at hx
    cases slot <;> cases hx
    exact hne hyc
  by_cases hslot : slot = slot'
  · subst hslot
    cases hx.symm.trans hz
    exact hnever.2 w y hreach hy hyc
  · have hc' := hreach.tail ⟨.inner, y, by rw [hy]; rfl, hyc⟩
    exact (h.neverWrapped hslot hx hz hc hc').2 w y hw hy hyc

/-- No class of a tree leads to itself. -/
theorem acyclic (h : f.Tree a) (hx : (f.kind a).child? slot = some x) : ¬f.Reaches (f.rep x) a := by
  induction h generalizing slot x with
  | var h => rw [h] at hx; cases slot <;> cases hx
  | wrapper h hvar =>
    intro hcycle
    rw [h] at hx
    cases slot <;> cases hx
    rw [hcycle.eq_of_var hvar, hvar] at h
    cases h
  | known _ _ _ _ _ ih =>
    intro hcycle
    -- The child would lead to itself as well.
    rcases Relation.ReflTransGen.cases_head hcycle with heq | ⟨c, ⟨slot', y, hy, rfl⟩, hreach⟩
    · exact ih slot x hx (heq ▸ hx) .refl
    · exact ih slot x hx hy (hreach.tail ⟨slot, x, hx, rfl⟩)

/-- What two children of a class of a type have in common is not single there. -/
theorem not_single (h : f.Tree a) (ha : f.Reaches d a) (hne : slot ≠ slot') (hx : (f.kind a).child? slot = some x)
    (hy : (f.kind a).child? slot' = some y) (hc : f.Reaches (f.rep x) c) (hc' : f.Reaches (f.rep y) c) :
    ¬f.Single d c := by
  intro hsingle
  have hvar := h.apart hne hx hy hc hc'
  have hbelow : ∀ {b slot z}, (f.kind a).child? slot = some z → f.Reaches (f.rep z) b → f.Reaches d b :=
    fun hz hb => ha.trans (.head ⟨_, _, hz, rfl⟩ hb)
  -- Each child is the variable, or leads to a class with it.
  rcases Relation.ReflTransGen.cases_tail hc with rfl | ⟨b, hb, s, z, hz, rfl⟩
  · rcases Relation.ReflTransGen.cases_tail hc' with e | ⟨b', hb', s', z', hz', e⟩
    · exact hne (hsingle hvar a a slot slot' x y ha ha hx hy rfl e.symm).2.1
    · obtain ⟨rfl, -⟩ := hsingle hvar a b' slot s' x z' ha (hbelow hy hb') hx hz' rfl e
      exact h.acyclic hy hb'
  · rcases Relation.ReflTransGen.cases_tail hc' with e | ⟨b', hb', s', z', hz', e⟩
    · obtain ⟨rfl, -⟩ := hsingle hvar b a s slot' z y (hbelow hx hb) ha hz hy rfl e.symm
      exact h.acyclic hx hb
    · obtain ⟨rfl, -⟩ := hsingle hvar b b' s s' z z' (hbelow hx hb) (hbelow hy hb') hz hz' rfl e
      rw [h.apart hne hx hy hb hb'] at hz
      cases s <;> cases hz

end Tree

/-! ## Types that stand -/

/-- The classes that one leads to are classes still, of the same kinds up to the terms that stand for their
children. -/
structure Standing (f : Forest) (d : TermId) (g : Forest) : Prop where
  later : ∀ t, g.rep (f.rep t) = g.rep t
  rep : ∀ a, f.Reaches d a → g.rep a = a
  same : ∀ a, f.Reaches d a → (f.kind a).Same g.rep (g.kind a)

namespace Standing

/-- A type stands at first. -/
theorem refl (hf : f.Rooted) (hd : f.rep d = d) : f.Standing d f :=
  ⟨rep_rep hf, fun _ ha => ha.rep_eq hf hd, fun _ _ => rfl⟩

variable (hg : f.Standing d g) (ha : f.Reaches d a)

include hg ha

/-- Children are of the classes that they were. -/
theorem rep_child (hx : (f.kind a).child? slot = some x) : g.rep x = f.rep x := by
  rw [← hg.later, hg.rep _ (ha.tail ⟨slot, x, hx, rfl⟩)]

/-- A class has children of the classes of former ones. -/
theorem child_of (hx : (g.kind a).child? slot = some x) :
    ∃ y, (f.kind a).child? slot = some y ∧ g.rep x = f.rep y := by
  obtain ⟨y, hy, hxy⟩ := (hg.same a ha).exists_child? hx
  exact ⟨y, hy, hxy.trans (hg.rep_child ha hy)⟩

/-- Its former children are of the classes of present ones. -/
theorem child_to (hy : (f.kind a).child? slot = some y) :
    ∃ x, (g.kind a).child? slot = some x ∧ g.rep x = f.rep y := by
  obtain ⟨x, hx, hxy⟩ := Kind.Same.exists_child? (Eq.symm (hg.same a ha)) hy
  exact ⟨x, hx, hxy.symm.trans (hg.rep_child ha hy)⟩

/-- It wraps a variable at most if it is part of a tree. -/
theorem calm (htree : f.Tree a) : g.Calm a := by
  refine ⟨(hg.same a ha).isLink.trans htree.calm.root, fun x hx => ?_⟩
  obtain ⟨y, hy, hxy⟩ := hg.child_of ha (by rw [hx]; rfl : (g.kind a).child? .inner = some x)
  have hvar := htree.wraps hy
  have hsame := hg.same _ (ha.tail ⟨_, y, hy, rfl⟩)
  rw [hvar] at hsame
  rw [hxy]
  exact Kind.isVar_iff.1 hsame.isVar

omit ha in
/-- A tree stands when classes have been looked up. -/
theorem of_upkeeps (hrooted : g.Rooted) (htree : f.Tree d) (hup : g.Upkeeps h) : f.Standing d h := by
  have hrep := (hup.steady hrooted).rep
  refine ⟨fun t => by rw [hrep, hrep, hg.later], fun a ha => (hrep a).trans (hg.rep a ha), fun a ha => ?_⟩
  rw [funext hrep]
  exact (hg.same a ha).trans (hup.same hrooted (hg.calm ha (htree.reaches ha)))

end Standing

/-! ## Twins -/

/-- The type of the second term looks the same as that of a class, and the classes that show it are of the sort
that belongs to the class. -/
inductive Twin (f : Forest) (C : TermId → TermId → Prop) (g : Forest) : TermId → TermId → Prop
  | intro {a b : TermId} {k : Kind} (hk : g.Shows (C a) b k) (hnode : sameNode (f.kind a) k = true)
    (hlength : (f.kind a).slots.length = k.slots.length)
    (hslots : ∀ slot x, (f.kind a).child? slot = some x → (k.child? slot).isSome = true)
    (hchildren : ∀ slot x y, (f.kind a).child? slot = some x → k.child? slot = some y →
      Twin f C g (f.rep x) y) : Twin f C g a b

namespace Twin

variable {C C' : TermId → TermId → Prop}

/-- All terms of a class are twins, or none. -/
theorem of_rep (h : Twin f C g a b) (hrep : g.rep b = g.rep c) : Twin f C g a c := by
  cases h with
  | intro hk hnode hlength hslots hchildren => exact .intro (hk.of_rep hrep) hnode hlength hslots hchildren

/-- A twin stays one if it shows the same. -/
theorem of_shows (hC : ∀ c, f.Reaches a c → ∀ b k, g.Shows (C c) b k → ∃ k', h.Shows (C' c) b k' ∧ k.Same h.rep k')
    (htwin : Twin f C g a b) : Twin f C' h a b := by
  induction htwin with
  | @intro a b k hk hnode hlength hslots _ ih =>
    obtain ⟨k', hk', hsame⟩ := hC a .refl b k hk
    refine .intro hk' ?_ (by rw [hsame.slots, hlength]) (fun slot x hx => ?_) fun slot x y hx hy => ?_
    · rwa [Kind.Same.sameNode (rfl : Kind.Same h.rep (f.kind a) (f.kind a)) hsame]
    · obtain ⟨y, hy⟩ := Option.isSome_iff_exists.1 (hslots slot x hx)
      obtain ⟨y', hy', -⟩ := Kind.Same.exists_child? (Eq.symm hsame) hy
      exact Option.isSome_of_eq_some hy'
    · obtain ⟨y', hy', hyy'⟩ := hsame.exists_child? hy
      exact (ih slot x y' hx hy' fun c hc => hC c (.head ⟨slot, x, hx, rfl⟩ hc)).of_rep hyy'.symm

/-- Tidying up leaves twins. -/
theorem of_upkeeps (hg : g.Rooted) (hup : g.Upkeeps h) (htwin : Twin f C g a b) : Twin f C h a b := by
  refine htwin.of_shows fun _ _ b k hk => ?_
  obtain ⟨k', hk', hsame⟩ := hk.of_upkeeps hg hup
  rw [← funext (hup.steady hg).rep] at hsame
  exact ⟨k', hk', hsame⟩

/-- Wrappers of a twin come to an end. -/
theorem ends (htwin : Twin f C g a b) : g.Ends b := by
  cases htwin with
  | intro hk => exact hk.ends

/-- What has a twin leads to no variable. -/
theorem ne_var (htwin : Twin f C g a b) (hc : f.Reaches a c) : f.kind c ≠ .var := by
  induction htwin with
  | @intro a b k _ hnode _ hslots _ ih =>
    rcases Relation.ReflTransGen.cases_head hc with rfl | ⟨_, ⟨slot, x, hx, rfl⟩, hreach⟩
    · intro hvar
      rw [hvar] at hnode
      cases hnode
    · obtain ⟨y, hy⟩ := Option.isSome_iff_exists.1 (hslots slot x hx)
      exact ih slot x y hx hy hreach

end Twin

/-- The comparison finds what it compares to be alike, and has met parts of a class only. -/
def FindsAlike (f : Forest) (a : TermId) (seen : List (TermId × TermId))
    (compare : ForestM (Bool × List (TermId × TermId))) (g : Forest) : Prop :=
  Returns compare g fun r h => r.1 = true ∧ g.Upkeeps h ∧ seen ⊆ r.2 ∧ ∀ p ∈ r.2, p ∈ seen ∨ f.Reaches a p.1

section Alike

variable {C : TermId → TermId → Prop} {fuel : Nat} {seen : List (TermId × TermId)}

private theorem alikeSlots_findsAlike (htree : f.Tree d) (ha : f.Reaches d a)
    (ih : ∀ slot x, (f.kind a).child? slot = some x → ∀ {fuel x' y seen g}, g.Rooted → f.Standing d g →
      g.rep x' = f.rep x → Twin f C g (f.rep x) y → (∀ c, f.Reaches (f.rep x) c → c ∉ seen.map Prod.fst) →
      (g.unseen (seen.map Prod.fst)).card < fuel → FindsAlike f (f.rep x) seen (alikeFrom fuel x' y seen) g)
    {slots : List Slot} (hnodup : slots.Nodup) (hslots : slots ⊆ (f.kind a).slots) (hg : g.Rooted)
    (hstands : f.Standing d g) (hb : g.Calm b)
    (htwins : ∀ slot ∈ slots, ∀ x, (f.kind a).child? slot = some x →
      ∃ y, (g.kind b).child? slot = some y ∧ Twin f C g (f.rep x) y)
    (hnew : ∀ slot ∈ slots, ∀ x, (f.kind a).child? slot = some x → ∀ c, f.Reaches (f.rep x) c →
      c ∉ seen.map Prod.fst) (hfuel : (g.unseen (seen.map Prod.fst)).card < fuel) :
    FindsAlike f a seen (alikeSlots (alikeFrom fuel) a b slots seen) g := by
  induction slots generalizing g seen with
  | nil => exact returns_pure ⟨rfl, .refl, fun _ hp => hp, fun _ hp => Or.inl hp⟩
  | cons slot rest ihs =>
    obtain ⟨hslot, hnodup⟩ := List.nodup_cons.1 hnodup
    obtain ⟨x, hx⟩ := Option.isSome_iff_exists.1 (Kind.mem_slots.1 (hslots List.mem_cons_self))
    obtain ⟨y, hy, htwin⟩ := htwins slot List.mem_cons_self x hx
    obtain ⟨x', hx', hxx'⟩ := hstands.child_to ha hx
    have hxends : g.Ends x' := Calm.ends (by
      rw [hxx']
      exact hstands.calm (ha.tail ⟨slot, x, hx, rfl⟩) (htree.reaches (ha.tail ⟨slot, x, hx, rfl⟩)))
    refine returns_bind (child_answers hg hx' hxends) fun x? g₁ _ ⟨hx?, hup₁⟩ => ?_
    have hs₁ := hup₁.steady hg
    obtain ⟨y', hy', hyy'⟩ := Kind.Same.exists_child? (Eq.symm (hup₁.same hg hb)) hy
    have hyends := hup₁.ends hg (htwin.ends.of_rep hyy')
    refine returns_bind (child_answers hs₁.rooted hy' hyends) fun y? g₂ _ ⟨hy?, hup₂⟩ => ?_
    have hup₂' : g.Upkeeps g₂ := hup₁.trans hup₂
    rw [hx?, hy?, hs₁.rep, ← hyy', hxx']
    have hs₂ := hup₂'.steady hg
    have hreach : f.Reaches d (f.rep x) := ha.tail ⟨slot, x, hx, rfl⟩
    refine returns_bind (ih slot x hx hs₂.rooted (hstands.of_upkeeps hg htree hup₂') ?_
      ((htwin.of_upkeeps hg hup₂').of_rep (by rw [hs₂.rep, hs₂.rep, rep_rep hg]))
      (hnew slot List.mem_cons_self x hx) (card_unseen_of_upkeeps hup₂' (fun _ hp => hp) hfuel))
      fun r g₃ _ ⟨hsame, hup₃, hsub₃, hmet⟩ => ?_
    · rw [hs₂.rep, hstands.rep _ hreach]
    obtain ⟨same, seen₃⟩ := r
    cases hsame
    have hup₃' : g.Upkeeps g₃ := hup₂'.trans hup₃
    refine (ihs hnodup (fun s hs => hslots (List.mem_cons_of_mem _ hs)) (hup₃'.steady hg).rooted
      (hstands.of_upkeeps hg htree hup₃') (hup₃'.calm hg hb).2 (fun s hs z hz => ?_)
      (fun s hs z hz c hc hmem => ?_) (card_unseen_of_upkeeps hup₃' (List.map_subset _ hsub₃) hfuel)).imp
        fun r h _ ⟨hsame, hup₄, hsub₄, hmet'⟩ => ⟨hsame, hup₃'.trans hup₄, fun p hp => hsub₄ (hsub₃ hp),
          fun p hp => ?_⟩
    · obtain ⟨w, hw, htwin'⟩ := htwins s (List.mem_cons_of_mem _ hs) z hz
      obtain ⟨w', hw', hww'⟩ := Kind.Same.exists_child? (Eq.symm (hup₃'.same hg hb)) hw
      refine ⟨w', hw', (htwin'.of_upkeeps hg hup₃').of_rep ?_⟩
      rw [(hup₃'.steady hg).rep, (hup₃'.steady hg).rep, hww']
    · -- What was met for this slot is no part of another child, since there are no variables.
      obtain ⟨p, hp, rfl⟩ := List.mem_map.1 hmem
      rcases hmet p hp with hp | hreach'
      · exact hnew s (List.mem_cons_of_mem _ hs) z hz p.1 hc (List.mem_map_of_mem hp)
      · exact htwin.ne_var hreach' ((htree.reaches ha).apart (fun e : slot = s => hslot (e ▸ hs)) hx hz hreach' hc)
    · rcases hmet' p hp with hp | hreach'
      · exact (hmet p hp).imp_right fun hreach' => .head ⟨slot, x, hx, rfl⟩ hreach'
      · exact Or.inr hreach'

private theorem Twin.findsAlike (htree : f.Tree d) (ha : f.Reaches d a) {x y : TermId} (hg : g.Rooted)
    (hstands : f.Standing d g) (hx : g.rep x = a) (htwin : Twin f C g a y)
    (hnew : ∀ c, f.Reaches a c → c ∉ seen.map Prod.fst)
    (hfuel : (g.unseen (seen.map Prod.fst)).card < fuel) :
    FindsAlike f a seen (alikeFrom fuel x y seen) g := by
  induction htree.reaches ha generalizing fuel x y seen g with
  | var hvar => exact absurd hvar (htwin.ne_var .refl)
  | wrapper h hvar => exact absurd hvar (htwin.ne_var (.single ⟨.inner, _, by rw [h]; rfl, rfl⟩))
  | @known a _ hvar _ _ _ ih =>
    cases fuel with
    | zero => exact absurd hfuel (Nat.not_lt_zero _)
    | succ fuel =>
      have hcalm := hstands.calm ha (htree.reaches ha)
      refine returns_bind (find_returns hg (Calm.ends (by rwa [hx]))) fun r g₁ _ ⟨hr, hup₁, _⟩ => ?_
      have hs₁ := hup₁.steady hg
      refine returns_bind (find_returns hs₁.rooted (hup₁.ends hg htwin.ends)) fun r' g₂ _ ⟨hr', hup₂, hb⟩ => ?_
      rw [hx] at hr
      rw [hs₁.rep] at hr'
      obtain rfl := hr.symm
      subst hr'
      have hup : g.Upkeeps g₂ := hup₁.trans hup₂
      have hs₂ := hup.steady hg
      have hstands₂ := hstands.of_upkeeps hg htree hup
      have htwin₂ := (htwin.of_upkeeps hg hup).of_rep (c := g.rep y) (by rw [hs₂.rep, hs₂.rep, rep_rep hg])
      have hpure : ∀ {r}, r = (true, seen) → Returns (pure r : ForestM _) g₂ fun r h =>
          r.1 = true ∧ g.Upkeeps h ∧ seen ⊆ r.2 ∧ ∀ p ∈ r.2, p ∈ seen ∨ f.Reaches a p.1 := fun hr => by
        subst hr
        exact returns_pure ⟨rfl, hup, fun _ hp => hp, fun _ hp => Or.inl hp⟩
      split
      · exact hpure rfl
      cases htwin₂ with
      | @intro _ _ k hk hnode hlength hslots hchildren =>
        obtain rfl := hb.eq_of_shows hk
        have hsame := hstands₂.same a ha
        have hnode₂ : sameNode (g₂.kind a) (g₂.kind (g.rep y)) = true := by
          rw [← hnode]
          exact hsame.sameNode (rfl : Kind.Same g₂.rep (g₂.kind (g.rep y)) _)
        refine returns_get_bind (returns_get_bind ?_)
        dsimp only
        rw [hnode₂, hsame.slots, if_neg (by simp [hlength])]
        split
        · exact hpure rfl
        rw [lookup_eq_none_of_not_mem (hnew a .refl)]
        have hlt : a < g.size := lt_size_of_kind fun hvar' => hvar <| Kind.isVar_iff.1 <| by
          rw [← (hstands.same a ha).isVar, hvar']
          rfl
        -- The class itself is met now, but it is no part of its children.
        refine (alikeSlots_findsAlike htree ha (fun slot z hz => ih slot z hz (ha.tail ⟨slot, z, hz, rfl⟩))
          (Kind.nodup_slots _) (fun _ hs => hs) hs₂.rooted hstands₂ hb (fun slot _ z hz => ?_)
          (fun slot _ z hz c hc => ?_) (card_unseen_of_upkeeps hup (fun _ hp => hp) ?_)).imp
            fun r h _ ⟨hsame, hup', hsub, hmet⟩ => ⟨hsame, hup.trans hup',
              fun p hp => hsub (List.mem_cons_of_mem _ hp), fun p hp => ?_⟩
        · obtain ⟨w, hw⟩ := Option.isSome_iff_exists.1 (hslots slot z hz)
          exact ⟨w, hw, hchildren slot z w hz hw⟩
        · rw [List.map_cons, List.mem_cons]
          rintro (rfl | hmem)
          · exact (htree.reaches ha).acyclic hz hc
          · exact hnew c (.head ⟨slot, z, hz, rfl⟩ hc) hmem
        · exact Nat.lt_of_lt_of_le (card_unseen_cons hlt (hnew a .refl)) (Nat.le_of_lt_succ hfuel)
        · rcases hmet p hp with hp | hreach
          · rcases List.mem_cons.1 hp with rfl | hp
            · exact Or.inr .refl
            · exact Or.inl hp
          · exact Or.inr hreach

/-- Twins are found to be alike, whatever is tidied up. -/
theorem Twin.alikeFor (htree : f.Tree d) (ha : f.Reaches d a) (hg : g.Rooted) (hstands : f.Standing d g)
    (htwin : Twin f C g a b) : g.AlikeFor a b := by
  intro g' hup
  have hs := hup.steady hg
  have hstands' := hstands.of_upkeeps hg htree hup
  have hfinds : FindsAlike f a [] (alikeFrom (g'.size + 1) a b []) g' :=
    (htwin.of_upkeeps hg hup).findsAlike htree ha hs.rooted hstands' (hstands'.rep a ha)
      (fun _ _ => List.not_mem_nil) (card_unseen_nil g')
  obtain ⟨⟨same, seen⟩, h, hrun, hsame, hup', -⟩ := hfinds
  exact ⟨same, h, bind_eq_some.2 ⟨g', g', get_eq_some.2 ⟨rfl, rfl⟩, bind_eq_some.2 ⟨_, h, hrun, rfl⟩⟩,
    hsame, hup'⟩

end Alike

end Forest

end TypeFlow
