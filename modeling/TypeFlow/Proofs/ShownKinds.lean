import TypeFlow.Proofs.Repetitions

/-!
# What look-ups show

Looking a term up opens the wrappers that are nested in it, and shows what its class is then: the kind of what
is wrapped, with nil, or the innermost wrapper if that wraps a variable.  This is told by the forest before the
look-up, and tidying up changes nothing about it.  It depends on the classes that the look-up meets only.

Main definitions:

- `Forest.Shows`: what a look-up of a term shows, by way of classes of some sort.

Main results:

- `Forest.Shows.unique`, `Forest.Ends.shows`: one kind is shown where wrappers come to an end.
- `Forest.Shows.of_upkeeps`: tidying up changes nothing about it.
-/

namespace TypeFlow

namespace Kind

variable {r : TermId → TermId} {k k' : Kind}

/-- Kinds that are the same are so with nil. -/
theorem Same.orNil (h : Same r k k') : Same r k.orNil k'.orNil := by
  have hmap : ∀ l : Kind, l.orNil.mapChildren r = (l.mapChildren r).orNil := fun l => by cases l <;> rfl
  unfold Same at h ⊢
  rw [hmap, hmap, h]

/-- Nil is added once. -/
theorem orNil_orNil (k : Kind) : k.orNil.orNil = k.orNil := by
  cases k with
  | base flow => exact congrArg Kind.base flow.orNil_orNil
  | _ => rfl

/-- What has nil among its values is a wrapper if it was one. -/
theorem isNilable_orNil (k : Kind) : k.orNil.isNilable = k.isNilable := by cases k <;> rfl

end Kind

namespace Forest

variable {f g : Forest} {C C' : TermId → Prop} {t u : TermId} {k k' : Kind}

/-- A look-up of the term shows the kind, and all classes that it meets are of a sort. -/
inductive Shows (f : Forest) (C : TermId → Prop) : TermId → Kind → Prop
  | known {t : TermId} {k : Kind} (hC : C (f.rep t)) (hk : f.kind (f.rep t) = k)
    (hnilable : k.isNilable = false) : Shows f C t k
  | wrapper {t v : TermId} (hC : C (f.rep t)) (hk : f.kind (f.rep t) = .nilable v) (hC' : C (f.rep v))
    (hvar : f.kind (f.rep v) = .var) : Shows f C t (.nilable v)
  | wrapped {t v : TermId} {k : Kind} (hC : C (f.rep t)) (hk : f.kind (f.rep t) = .nilable v)
    (h : Shows f C v k) (hvar : k ≠ .var) : Shows f C t k.orNil

namespace Shows

/-- A look-up that meets classes of a sort meets classes of a wider one. -/
theorem mono (h : f.Shows C t k) (hC : ∀ c, C c → C' c) : f.Shows C' t k := by
  induction h with
  | known h hk hnilable => exact .known (hC _ h) hk hnilable
  | wrapper h hk h' hvar => exact .wrapper (hC _ h) hk (hC _ h') hvar
  | wrapped h hk _ hvar ih => exact .wrapped (hC _ h) hk ih hvar

/-- The class of the term is met. -/
theorem rep_mem (h : f.Shows C t k) : C (f.rep t) := by
  cases h <;> assumption

/-- All terms of a class show the same. -/
theorem of_rep (h : f.Shows C t k) (hrep : f.rep t = f.rep u) : f.Shows C u k := by
  cases h with
  | known hC hk hnilable => exact .known (hrep ▸ hC) (hrep ▸ hk) hnilable
  | wrapper hC hk hC' hvar => exact .wrapper (hrep ▸ hC) (hrep ▸ hk) hC' hvar
  | wrapped hC hk h hvar => exact .wrapped (hrep ▸ hC) (hrep ▸ hk) h hvar

/-- One kind is shown. -/
theorem unique (h : f.Shows C t k) (h' : f.Shows C' t k') : k = k' := by
  induction h generalizing k' with
  | known _ hk hnilable =>
    cases h' with
    | known _ hk' => exact hk.symm.trans hk'
    | wrapper _ hk' | wrapped _ hk' =>
      rw [← hk, hk'] at hnilable
      cases hnilable
  | wrapper _ hk _ hvar =>
    cases h' with
    | known _ hk' hnilable =>
      rw [← hk', hk] at hnilable
      cases hnilable
    | wrapper _ hk' => exact hk.symm.trans hk'
    | wrapped _ hk' h' hne =>
      cases hk.symm.trans hk'
      cases h' with
      | known _ hk' => exact absurd (hk'.symm.trans hvar) hne
      | wrapper _ hk' | wrapped _ hk' => cases hvar.symm.trans hk'
  | wrapped _ hk h hne ih =>
    cases h' with
    | known _ hk' hnilable =>
      rw [← hk', hk] at hnilable
      cases hnilable
    | wrapper _ hk' _ hvar =>
      cases hk.symm.trans hk'
      cases h with
      | known _ hk' => exact absurd (hk'.symm.trans hvar) hne
      | wrapper _ hk' | wrapped _ hk' => cases hvar.symm.trans hk'
    | wrapped _ hk' h' =>
      cases hk.symm.trans hk'
      rw [ih h']

/-- A look-up that meets one class shows the kind of that. -/
theorem eq_of_one {c : TermId} (h : f.Shows (· = c) t k) : f.kind c = k ∧ k.isNilable = false := by
  induction h with
  | known hC hk hnilable => exact ⟨hC ▸ hk, hnilable⟩
  | wrapper hC hk hC' hvar =>
    rw [hC] at hk
    rw [hC', hk] at hvar
    cases hvar
  | wrapped hC hk _ _ ih =>
    rw [hC, ih.1] at hk
    have hnilable := ih.2
    rw [hk] at hnilable
    cases hnilable

/-- Children that are shown are led to. -/
theorem reaches {slot : Slot} {y : TermId} (h : f.Shows C t k) (hy : k.child? slot = some y) :
    f.Reaches (f.rep t) (f.rep y) := by
  induction h with
  | known _ hk => exact .single ⟨slot, y, by rwa [hk], rfl⟩
  | wrapper _ hk => exact .single ⟨slot, y, by rwa [hk], rfl⟩
  | wrapped _ hk _ _ ih =>
    rw [Kind.child?_orNil] at hy
    exact .head ⟨.inner, _, by rw [hk]; rfl, rfl⟩ (ih hy)

/-- The wrappers come to an end where something is shown. -/
theorem ends (h : f.Shows C t k) : f.Ends t := by
  induction h with
  | known _ hk hnilable =>
    refine .intro fun inner hinner => ?_
    rw [← hk, hinner] at hnilable
    cases hnilable
  | wrapper _ hk _ hvar =>
    refine .intro fun inner hinner => .intro fun x hx => ?_
    cases hk.symm.trans hinner
    cases hvar.symm.trans hx
  | wrapped _ hk _ _ ih =>
    refine .intro fun inner hinner => ?_
    cases hk.symm.trans hinner
    exact ih

/-- No link is shown. -/
theorem isLink (hf : f.Rooted) (h : f.Shows C t k) : k.isLink = false := by
  induction h with
  | known _ hk => rw [← hk, not_isLink_rep hf]
  | wrapper => rfl
  | wrapped _ _ _ _ ih => rw [Kind.isLink_orNil, ih]

/-- A variable that is shown is the class of the term. -/
theorem eq_var (h : f.Shows C t .var) : f.kind (f.rep t) = .var := by
  generalize hvar : Kind.var = k at h
  induction h with
  | known _ hk => exact hk
  | wrapper => cases hvar
  | wrapped _ _ _ hne => exact absurd (Kind.orNil_eq_var.1 hvar.symm) hne

end Shows

/-- Something is shown where wrappers come to an end. -/
theorem Ends.shows (h : f.Ends t) : ∃ k, f.Shows (fun _ => True) t k := by
  induction h with
  | @intro t _ ih =>
    cases hk : (f.kind (f.rep t)).isNilable with
    | false => exact ⟨_, .known trivial rfl hk⟩
    | true =>
      obtain ⟨inner, hinner⟩ := Kind.isNilable_eq_true.1 hk
      obtain ⟨k, h⟩ := ih inner hinner
      by_cases hvar : k = .var
      · subst hvar
        exact ⟨_, .wrapper trivial hinner trivial h.eq_var⟩
      · exact ⟨_, .wrapped trivial hinner h hvar⟩

/-- A class that wraps a variable at most shows its kind. -/
theorem Calm.shows (h : f.Calm t) (hC : C t)
    (hwraps : ∀ inner, f.kind t = .nilable inner → C (f.rep inner)) : f.Shows C t (f.kind t) := by
  have hrep := rep_of_not_link h.root
  cases hk : (f.kind t).isNilable with
  | false => exact .known (by rwa [hrep]) (by rw [hrep]) hk
  | true =>
    obtain ⟨inner, hinner⟩ := Kind.isNilable_eq_true.1 hk
    rw [hinner]
    exact .wrapper (by rwa [hrep]) (by rwa [hrep]) (hwraps inner hinner) (h.wraps inner hinner)

/-- It shows nothing else. -/
theorem Calm.eq_of_shows (h : f.Calm t) (hk : f.Shows C t k) : k = f.kind t :=
  hk.unique (h.shows (C := fun _ => True) trivial fun _ _ => trivial)

/-! ## Changes elsewhere, and tidying up -/

/-- What is shown depends on the classes that are met only. -/
theorem Shows.congr (hrep : ∀ x, C (f.rep x) → g.rep x = f.rep x)
    (hkind : ∀ x, C (f.rep x) → g.kind (f.rep x) = f.kind (f.rep x)) (h : f.Shows C t k) : g.Shows C t k := by
  have hroot : ∀ x, C (f.rep x) → C (g.rep x) ∧ g.kind (g.rep x) = f.kind (f.rep x) := fun x hx => by
    rw [hrep x hx]
    exact ⟨hx, hkind x hx⟩
  induction h with
  | known hC hk hnilable => exact .known (hroot _ hC).1 ((hroot _ hC).2.trans hk) hnilable
  | wrapper hC hk hC' hvar =>
    exact .wrapper (hroot _ hC).1 ((hroot _ hC).2.trans hk) (hroot _ hC').1 ((hroot _ hC').2.trans hvar)
  | wrapped hC hk _ hvar ih => exact .wrapped (hroot _ hC).1 ((hroot _ hC).2.trans hk) ih hvar

private theorem Shows.of_remember {x raw : TermId} {slot : Slot} (hf : f.Rooted)
    (hraw : (f.kind x).child? slot = some raw) (h : f.Shows C t k) :
    ∃ k', (f.setChild x slot (f.rep raw)).Shows C t k' ∧ k.Same f.rep k' := by
  have hrep := (setChild_steady hf x slot (f.rep raw)).rep
  have hchild : ∀ c, ((f.setChild x slot (f.rep raw)).kind c) = f.kind c ∨
      c = x ∧ (f.setChild x slot (f.rep raw)).kind c = (f.kind c).setChild slot (f.rep raw) := fun c => by
    rw [kind_setChild]
    split
    · rename_i e
      subst e
      exact Or.inr ⟨rfl, rfl⟩
    · exact Or.inl rfl
  -- A wrapper is one of the same class.
  have hnilable : ∀ {c v}, f.kind c = .nilable v → ∃ v', (f.setChild x slot (f.rep raw)).kind c = .nilable v' ∧
      f.rep v' = f.rep v := by
    intro c v hv
    rcases hchild c with e | ⟨rfl, e⟩
    · exact ⟨v, e.trans hv, rfl⟩
    · rw [hv] at hraw e
      cases slot with
      | inner =>
        cases hraw
        exact ⟨_, e, rep_rep hf raw⟩
      | _ => cases hraw
  induction h with
  | @known t k hC hk hn =>
    rcases hchild (f.rep t) with e | ⟨rfl, e⟩
    · exact ⟨k, .known (by rwa [hrep]) (by rw [hrep, e, hk]) hn, rfl⟩
    · rw [hk] at hraw e
      have hsame : k.Same f.rep (k.setChild slot (f.rep raw)) := Kind.mapChildren_setChild hraw (rep_rep hf raw)
      exact ⟨_, .known (by rwa [hrep]) (by rw [hrep, e]) (by rwa [hsame.isNilable]), hsame⟩
  | @wrapper t v hC hk hC' hvar =>
    obtain ⟨v', hv', hvv⟩ := hnilable hk
    refine ⟨_, .wrapper (by rwa [hrep]) (by rwa [hrep]) (by rwa [hrep, hvv]) ?_, ?_⟩
    · rw [hrep, hvv]
      rcases hchild (f.rep v) with e | ⟨-, e⟩ <;> rw [e, hvar]
      rfl
    · exact congrArg Kind.nilable hvv
  | @wrapped t v k hC hk _ hvar ih =>
    obtain ⟨v', hv', hvv⟩ := hnilable hk
    obtain ⟨k', hk', hsame⟩ := ih
    refine ⟨_, .wrapped (by rwa [hrep]) (by rwa [hrep]) (hk'.of_rep (by rw [hrep, hrep, hvv])) ?_, hsame.orNil⟩
    rintro rfl
    exact hvar (Kind.isVar_iff.1 (hsame.isVar.symm.trans rfl))

private theorem Shows.of_absorb {w x : TermId} (hf : f.Rooted) (hw : f.kind w = .nilable x)
    (h : f.Shows C t k) : ∃ k', (f.absorb w (f.rep x)).Shows C t k' ∧ k.Same f.rep k' := by
  have hup : f.Upkeep (f.absorb w (f.rep x)) := .absorb hw
  have hrep := (hup.steady hf).rep
  have hlt : w < f.size := lt_size_of_kind (by rw [hw]; exact Kind.noConfusion)
  have hkind := kind_absorb (w := w) (not_isLink_rep hf x)
  have hother : ∀ {c}, w ≠ c → (f.absorb w (f.rep x)).kind c = f.kind c := fun hne => by
    rw [hkind, if_neg fun e => hne e.1]
  have hplain : ∀ {c}, (f.kind c).isNilable = false → (f.absorb w (f.rep x)).kind c = f.kind c := by
    intro c hc
    refine hother ?_
    rintro rfl
    rw [hw] at hc
    cases hc
  induction h with
  | @known t k hC hk hn =>
    exact ⟨k, .known (by rwa [hrep]) (by rw [hrep, hplain (by rwa [hk]), hk]) hn, rfl⟩
  | @wrapper t v hC hk hC' hvar =>
    have hvar' : (f.absorb w (f.rep x)).kind (f.rep v) = .var := by rw [hplain (by rw [hvar]; rfl), hvar]
    by_cases e : w = f.rep t
    · -- The innermost wrapper remembers the class of its variable.
      subst e
      obtain rfl : v = x := Kind.nilable.inj (hk.symm.trans hw)
      refine ⟨.nilable (f.rep v), .wrapper (by rwa [hrep]) ?_ (by rwa [hrep, rep_rep hf])
        (by rwa [hrep, rep_rep hf]), congrArg Kind.nilable (rep_rep hf v)⟩
      rw [hrep, hkind, if_pos ⟨rfl, hlt⟩, hvar]
      rfl
    · exact ⟨_, .wrapper (by rwa [hrep]) (by rw [hrep, hother e, hk]) (by rwa [hrep]) (by rwa [hrep]), rfl⟩
  | @wrapped t v k hC hk h hvar ih =>
    obtain ⟨k', hk', hsame⟩ := ih
    have hvar' : k' ≠ .var := by
      rintro rfl
      exact hvar (Kind.isVar_iff.1 (hsame.isVar.symm.trans rfl))
    by_cases e : w = f.rep t
    · subst e
      obtain rfl : v = x := Kind.nilable.inj (hk.symm.trans hw)
      have hnew : (f.absorb (f.rep t) (f.rep v)).kind (f.rep t) =
          absorbedKind (f.rep v) (f.kind (f.rep v)) := by rw [hkind, if_pos ⟨rfl, hlt⟩]
      cases h with
      | @known v k hC' hk' hn =>
        -- The wrapper takes the kind of what it wraps, with nil.
        refine ⟨k.orNil, .known (by rwa [hrep]) ?_ (by rwa [Kind.isNilable_orNil]), rfl⟩
        rw [hrep, hnew, hk', absorbedKind_eq_orNil _ hvar]
      | @wrapper v y hC' hk'' hC'' hy =>
        refine ⟨.nilable y, .wrapper (by rwa [hrep]) ?_ (by rwa [hrep]) ?_, rfl⟩
        · rw [hrep, hnew, hk'']
          rfl
        · rw [hrep, hplain (by rw [hy]; rfl), hy]
      | @wrapped v y k hC' hk'' hy hne =>
        -- It wraps what the wrapper wrapped that it wraps.
        have hnew' : (f.absorb (f.rep t) (f.rep v)).kind (f.rep t) = .nilable y := by rw [hnew, hk'']; rfl
        by_cases e' : f.rep t = f.rep v
        · have hself : v = y := by
            rw [← e', hk] at hk''
            cases hk''
            rfl
          refine ⟨k'.orNil, .wrapped (by rwa [hrep]) ?_ hk' hvar', hsame.orNil⟩
          rw [hrep, hnew', hself]
        · generalize hl : k.orNil = l at hsame hk' hvar
          cases hk' with
          | known _ hk₃ hn =>
            rw [hrep, hother e', hk''] at hk₃
            rw [← hk₃] at hn
            cases hn
          | wrapper hC₃ hk₃ hC₄ hy' =>
            rw [hrep, hother e', hk''] at hk₃
            cases hk₃
            exact ⟨_, .wrapper (by rwa [hrep]) (by rw [hrep, hnew']) hC₄ hy', hsame.orNil⟩
          | wrapped hC₃ hk₃ hy' hne' =>
            rw [hrep, hother e', hk''] at hk₃
            cases hk₃
            refine ⟨_, .wrapped (by rwa [hrep]) (by rw [hrep, hnew']) hy' hne', ?_⟩
            have hsame := hsame.orNil
            rwa [Kind.orNil_orNil] at hsame
    · exact ⟨_, .wrapped (by rwa [hrep]) (by rw [hrep, hother e, hk]) hk' hvar', hsame.orNil⟩

/-- Tidying up changes nothing about what is shown, and classes that are met were met before. -/
theorem Shows.of_upkeeps (hf : f.Rooted) (hup : f.Upkeeps g) (h : f.Shows C t k) :
    ∃ k', g.Shows C t k' ∧ k.Same f.rep k' := by
  induction hup with
  | refl => exact ⟨k, h, rfl⟩
  | @tail g g' hg hstep ih =>
    obtain ⟨k₁, h₁, hsame₁⟩ := ih
    have hs := Upkeeps.steady hf hg
    obtain ⟨k₂, h₂, hsame₂⟩ : ∃ k₂, g'.Shows C t k₂ ∧ k₁.Same g.rep k₂ := by
      cases hstep with
      | @shorten x u hlink =>
        refine ⟨k₁, h₁.congr (fun y _ => ?_) (fun y _ => ?_), rfl⟩
        · exact ((Upkeep.shorten hlink).steady hs.rooted).rep y
        · rw [kind_setKind, if_neg]
          rintro ⟨rfl, -⟩
          have hroot := not_isLink_rep hs.rooted y
          rw [hlink] at hroot
          cases hroot
      | remember hraw => exact h₁.of_remember hs.rooted hraw
      | absorb hw => exact h₁.of_absorb hs.rooted hw
    refine ⟨k₂, h₂, hsame₁.trans ?_⟩
    rwa [funext hs.rep] at hsame₂

/-- What a tidier forest shows was shown before. -/
theorem Shows.before_upkeeps (hf : f.Rooted) (hup : f.Upkeeps g) (ht : f.Ends t) (h : g.Shows C t k) :
    ∃ k', f.Shows (fun _ => True) t k' ∧ k'.Same f.rep k := by
  obtain ⟨k', h'⟩ := ht.shows
  obtain ⟨k'', h'', hsame⟩ := h'.of_upkeeps hf hup
  exact ⟨k', h', h.unique h'' ▸ hsame⟩

end Forest

end TypeFlow
