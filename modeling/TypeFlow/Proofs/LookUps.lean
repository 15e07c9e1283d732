import TypeFlow.Forest.Instance
import TypeFlow.Proofs.Upkeep

/-!
# Looking classes up

A look-up answers the representative of a class and tidies up on its way.  It has no result exactly
when wrappers are nested in a circle.  So have the looks at children, the occurs checks and the
comparison of types, which are all made of look-ups.

Main definitions:

- `Forest.Ends`: the wrappers nested in a term come to an end.
- `Forest.Within`: a class is met when the wrappers nested in a term are opened.
- `Forest.KeptUp`: the forest was tidied up.

Main results:

- `Forest.find_upkeeps`, `Forest.child_upkeeps`: what looking classes and children up answers.
- `Forest.findFrom_succ_cases`: the parts of a look-up.
- `Forest.find_isSome_iff`: a look-up has a result exactly if the wrappers come to an end.
- `Forest.keepsUp_occursInAny`, `Forest.keepsUp_alike`: all that looks only tidies up.
-/

namespace TypeFlow

/-- A wrapper wraps some term. -/
theorem Kind.isNilable_eq_true {k : Kind} : k.isNilable = true ↔ ∃ inner, k = .nilable inner := by
  cases k <;> simp [isNilable]

namespace Forest

variable {f g : Forest}

/-! ## Nested wrappers -/

/-- The wrappers nested in a term come to an end. -/
inductive Ends (f : Forest) : TermId → Prop
  | intro {t : TermId} (h : ∀ inner, f.kind (f.rep t) = .nilable inner → Ends f inner) : Ends f t

/-- The class is met when the wrappers nested in a term are opened. -/
inductive Within (f : Forest) : TermId → TermId → Prop
  | here (t : TermId) : Within f t (f.rep t)
  | inner {t inner w : TermId} (h : f.kind (f.rep t) = .nilable inner) (hw : Within f inner w) :
    Within f t w

/-- Where wrappers come to an end none is nested in itself. -/
theorem Ends.not_within {t w inner : TermId} (h : f.Ends t) (hw : f.Within t w)
    (hinner : f.kind w = .nilable inner) : ¬f.Within inner w := by
  induction h generalizing w inner with
  | @intro t _ ih =>
    cases hw with
    | here =>
      intro hself
      exact ih inner hinner hself hinner hself
    | inner hkind hw => exact ih _ hkind hw hinner

/-- Where wrappers only wrap classes of earlier terms, they come to an end. -/
theorem ends_of_earlier (h : ∀ w < f.size, (f.kind w).isNilable = true →
    ∀ x ∈ (f.kind w).children, f.rep x < w) (t : TermId) : f.Ends t := by
  induction hn : f.rep t using Nat.strong_induction_on generalizing t with
  | _ n ih =>
  subst hn
  refine .intro fun inner hinner => ih _ ?_ inner rfl
  have hlt := lt_size_of_kind (f := f) (t := f.rep t) (by rw [hinner]; exact Kind.noConfusion)
  refine h _ hlt (by rw [hinner]; rfl) inner ?_
  rw [hinner]
  exact List.mem_singleton_self inner

/-- What a look-up comes to are classes. -/
theorem Within.rep_eq (hf : f.Rooted) {t w : TermId} (h : f.Within t w) : f.rep w = w := by
  induction h with
  | here t => exact rep_rep hf t
  | inner _ _ ih => exact ih

/-- What is nested in a term is nested in its class. -/
theorem Within.of_rep (hf : f.Rooted) {t w : TermId} (h : f.Within t w) : f.Within (f.rep t) w := by
  cases h with
  | here =>
    have hhere := Within.here (f := f) (f.rep t)
    rwa [rep_rep hf] at hhere
  | inner hinner hw => exact .inner (by rwa [rep_rep hf]) hw

/-- Nothing is nested in what is no wrapper. -/
theorem Within.eq_rep {t w : TermId} (h : f.Within t w)
    (hk : (f.kind (f.rep t)).isNilable = false) : w = f.rep t := by
  cases h with
  | here => rfl
  | inner hinner =>
    rw [hinner] at hk
    cases hk

/-- What is nested in a wrapper and is not the wrapper is nested in what it wraps. -/
theorem Within.of_ne {t inner w : TermId} (h : f.Within t w) (hk : f.kind (f.rep t) = .nilable inner)
    (hne : w ≠ f.rep t) : f.Within inner w := by
  cases h with
  | here => exact absurd rfl hne
  | inner hinner hw =>
    rw [hk] at hinner
    cases hinner
    exact hw

/-- Wrappers that come to an end wrap something that is none. -/
theorem Ends.exists_within {t : TermId} (h : f.Ends t) :
    ∃ c, f.Within t c ∧ (f.kind c).isNilable = false := by
  induction h with
  | @intro t _ ih =>
    cases hk : (f.kind (f.rep t)).isNilable with
    | false => exact ⟨f.rep t, .here t, hk⟩
    | true =>
      obtain ⟨inner, hinner⟩ := Kind.isNilable_eq_true.1 hk
      obtain ⟨c, hc, hnot⟩ := ih inner hinner
      exact ⟨c, .inner hinner hc, hnot⟩

/-- So they are no links. -/
theorem Within.isLink (hf : f.Rooted) {t w : TermId} (h : f.Within t w) :
    (f.kind w).isLink = false := by
  rw [← h.rep_eq hf]
  exact not_isLink_rep hf w

section Congr

variable (hrep : ∀ t, g.rep t = f.rep t)
  (hkind : ∀ t, (f.kind t).isLink = false → g.kind t = f.kind t) (hf : f.Rooted)

include hrep hkind hf

private theorem Ends.congr {t : TermId} (h : f.Ends t) : g.Ends t := by
  induction h with
  | intro _ ih =>
    refine .intro fun inner hinner => ih inner ?_
    rwa [hrep, hkind _ (not_isLink_rep hf _)] at hinner

/-- What a look-up comes to in a tidier forest it came to before. -/
theorem Within.congr {t w : TermId} (h : g.Within t w) : f.Within t w := by
  induction h with
  | here t =>
    rw [hrep]
    exact .here t
  | inner hkind' _ ih =>
    rw [hrep, hkind _ (not_isLink_rep hf _)] at hkind'
    exact .inner hkind' ih

end Congr

/-- The forest was tidied up, if links led to classes. -/
def KeptUp (f g : Forest) : Prop := f.Rooted → f.Upkeeps g

instance : IsPreorder Forest KeptUp where
  refl _ _ := .refl
  trans _ _ _ hfg hgh hf := (hfg hf).trans (hgh ((hfg hf).steady hf).rooted)

/-! ## Shortening links -/

/-- Compressing a path tidies up, and changes links only. -/
theorem compress_upkeeps (hf : f.Rooted) {root t : TermId} (hroot : root = f.rep t) (fuel : Nat) :
    f.Upkeeps (f.compress root fuel t) ∧
      ∀ x, (f.kind x).isLink = false → (f.compress root fuel t).kind x = f.kind x := by
  induction fuel generalizing f t with
  | zero => exact ⟨.refl, fun _ _ => rfl⟩
  | succ fuel ih =>
    unfold compress
    split
    · exact ⟨.refl, fun _ _ => rfl⟩
    split
    · rename_i target htarget
      have hup : f.Upkeep (f.setKind t (.link root)) := hroot ▸ .shorten htarget
      have hs := hup.steady hf
      have hroot' : root = (f.setKind t (.link root)).rep target := by
        rw [hs.rep, hroot, rep_link hf htarget]
      obtain ⟨hrest, hkinds⟩ := ih hs.rooted hroot'
      refine ⟨.head hup hrest, fun x hx => ?_⟩
      have hne : t ≠ x := by
        rintro rfl
        rw [htarget] at hx
        cases hx
      rw [hkinds x (by rw [hs.isLink, hx]), kind_setKind, if_neg fun e => hne e.1]
    · exact ⟨.refl, fun _ _ => rfl⟩

/-! ## Looking up -/

/-- A wrapper is looked up together with what it wraps, which it absorbs. -/
theorem findFrom_of_nilable {fuel : Nat} {t r inner : TermId}
    (hk : (f.compress (f.rep t) f.size t).kind (f.rep t) = .nilable inner) :
    findFrom (fuel + 1) t f = some (r, g) ↔ r = f.rep t ∧ ∃ inner' f₂,
      findFrom fuel inner (f.compress (f.rep t) f.size t) = some (inner', f₂) ∧
        g = f₂.absorb (f.rep t) inner' := by
  constructor
  · intro h
    obtain ⟨f₀, f₁, hget, h⟩ := bind_eq_some.1 h
    obtain ⟨rfl, rfl⟩ := get_eq_some.1 hget
    obtain ⟨u, f₁, hcompress, h⟩ := bind_eq_some.1 h
    obtain rfl := modify_eq_some.1 hcompress
    obtain ⟨f₁, f₂, hget, h⟩ := bind_eq_some.1 h
    obtain ⟨rfl, rfl⟩ := get_eq_some.1 hget
    simp only [hk] at h
    obtain ⟨inner', f₂, hrec, h⟩ := bind_eq_some.1 h
    obtain ⟨u, f₃, habsorb, h⟩ := bind_eq_some.1 h
    obtain ⟨rfl, rfl⟩ := pure_eq_some.1 h
    exact ⟨rfl, inner', f₂, hrec, (modify_eq_some.1 habsorb).symm⟩
  · rintro ⟨rfl, inner', f₂, hrec, rfl⟩
    refine bind_eq_some.2 ⟨f, f, get_eq_some.2 ⟨rfl, rfl⟩, ?_⟩
    refine bind_eq_some.2 ⟨(), _, modify_eq_some.2 rfl, ?_⟩
    refine bind_eq_some.2 ⟨_, _, get_eq_some.2 ⟨rfl, rfl⟩, ?_⟩
    simp only [hk]
    refine bind_eq_some.2 ⟨inner', f₂, hrec, ?_⟩
    exact bind_eq_some.2 ⟨(), _, modify_eq_some.2 rfl, pure_eq_some.2 ⟨rfl, rfl⟩⟩

/-- What is no wrapper is looked up by compressing its path. -/
theorem findFrom_of_not_nilable {fuel : Nat} {t : TermId}
    (hk : ((f.compress (f.rep t) f.size t).kind (f.rep t)).isNilable = false) :
    findFrom (fuel + 1) t f = some (f.rep t, f.compress (f.rep t) f.size t) := by
  refine bind_eq_some.2 ⟨f, f, get_eq_some.2 ⟨rfl, rfl⟩, ?_⟩
  refine bind_eq_some.2 ⟨(), _, modify_eq_some.2 rfl, ?_⟩
  refine bind_eq_some.2 ⟨_, _, get_eq_some.2 ⟨rfl, rfl⟩, ?_⟩
  cases hroot : (f.compress (f.rep t) f.size t).kind (f.rep t) with
  | nilable inner =>
    rw [hroot] at hk
    cases hk
  | _ => simp only [pure_eq_some, and_self]

/-- A look-up answers the representative and tidies up.  It comes to the end of the nested wrappers,
and changes no kinds but those of the wrappers that it opens. -/
theorem findFrom_upkeeps {fuel : Nat} {t r : TermId} (hf : f.Rooted)
    (h : findFrom fuel t f = some (r, g)) :
    r = f.rep t ∧ f.Upkeeps g ∧ f.Ends t ∧
      ∀ w, (f.kind w).isLink = false → (f.Within t w → (f.kind w).isNilable = false) →
        g.kind w = f.kind w := by
  induction fuel generalizing t r f g with
  | zero => exact (failure_eq_some.1 h).elim
  | succ fuel ih =>
    obtain ⟨hup, hkinds⟩ := compress_upkeeps hf (t := t) rfl f.size
    have hs := hup.steady hf
    have hroot := hkinds _ (not_isLink_rep hf t)
    cases hk : (f.kind (f.rep t)).isNilable with
    | false =>
      rw [findFrom_of_not_nilable (by rw [hroot, hk])] at h
      cases h
      refine ⟨rfl, hup, .intro fun inner hinner => ?_, fun w hw _ => hkinds w hw⟩
      rw [hinner] at hk
      cases hk
    | true =>
      obtain ⟨inner, hinner⟩ := Kind.isNilable_eq_true.1 hk
      rw [hinner] at hroot
      obtain ⟨rfl, inner', f₂, hrec, rfl⟩ := (findFrom_of_nilable hroot).1 h
      set f₁ := f.compress (f.rep t) f.size t with hf₁
      obtain ⟨rfl, hup₂, hends, hframe⟩ := ih hs.rooted hrec
      have hs₂ := hup₂.steady hs.rooted
      -- The wrapper is not nested in itself, so it still wraps the same when it is opened.
      have hends₁ : f₁.Ends t := by
        refine .intro fun x hx => ?_
        rw [hs.rep, hroot] at hx
        cases hx
        exact hends
      have hhere : f₁.Within t (f.rep t) := by
        rw [← hs.rep]
        exact .here t
      have hstill : f₂.kind (f.rep t) = .nilable inner := by
        rw [hframe _ (by rw [hroot]; rfl) fun hself =>
          absurd hself (hends₁.not_within hhere hroot), hroot]
      have hlink : (f₂.kind (f₁.rep inner)).isLink = false := by
        rw [← hs₂.rep]
        exact not_isLink_rep hs₂.rooted inner
      refine ⟨rfl, (hup.trans hup₂).tail ?_, ?_, ?_⟩
      · rw [← hs₂.rep]
        exact .absorb hstill
      · refine hends₁.congr (fun x => (hs.rep x).symm) (fun x hx => ?_) hs.rooted
        exact (hkinds x (by rw [← hs.isLink, hx])).symm
      · intro w hw hwithin
        have hne : f.rep t ≠ w := by
          rintro rfl
          rw [hwithin (.here t)] at hk
          cases hk
        have hw₁ := hkinds w hw
        rw [kind_absorb hlink, if_neg fun e => hne e.1, hframe w (by rw [hw₁, hw]) ?_, hw₁]
        intro hmet
        rw [hw₁]
        exact hwithin (.inner hinner (hmet.congr hs.rep hkinds hf))

/-- There are no more terms than the size tells. -/
theorem card_le_size {opened : Finset TermId} (h : ∀ w ∈ opened, w < f.size) :
    opened.card ≤ f.size := by
  have hsub : opened ⊆ Finset.range f.size := fun w hw => Finset.mem_range.2 (h w hw)
  have hcard := Finset.card_le_card hsub
  rwa [Finset.card_range] at hcard

/-- A look-up comes to the end of wrappers that have one, since it opens no wrapper twice. -/
theorem findFrom_returns {fuel : Nat} {t : TermId} (hf : f.Rooted) (h : f.Ends t)
    (opened : Finset TermId) (hopened : ∀ w ∈ opened, w < f.size ∧ ¬f.Within t w)
    (hfuel : f.size < fuel + opened.card) : ∃ r g, findFrom fuel t f = some (r, g) := by
  induction fuel generalizing t f opened with
  | zero =>
    have hcard := card_le_size fun w hw => (hopened w hw).1
    omega
  | succ fuel ih =>
    obtain ⟨hup, hkinds⟩ := compress_upkeeps hf (t := t) rfl f.size
    have hs := hup.steady hf
    have hroot := hkinds _ (not_isLink_rep hf t)
    cases hk : (f.kind (f.rep t)).isNilable with
    | false => exact ⟨_, _, findFrom_of_not_nilable (by rw [hroot, hk])⟩
    | true =>
      obtain ⟨inner, hinner⟩ := Kind.isNilable_eq_true.1 hk
      rw [hinner] at hroot
      have hlt : f.rep t < f.size := lt_size_of_kind (by rw [hinner]; exact Kind.noConfusion)
      have hnew : f.rep t ∉ opened := fun hmem => (hopened _ hmem).2 (.here t)
      have hends : f.Ends inner := by
        cases h with
        | intro h => exact h inner hinner
      have hopened' : ∀ w ∈ insert (f.rep t) opened,
          w < (f.compress (f.rep t) f.size t).size ∧
            ¬(f.compress (f.rep t) f.size t).Within inner w := by
        intro w hw
        rw [hup.size]
        rcases Finset.mem_insert.1 hw with rfl | hw
        · exact ⟨hlt, fun hin => h.not_within (.here t) hinner (hin.congr hs.rep hkinds hf)⟩
        · obtain ⟨hw, hout⟩ := hopened w hw
          exact ⟨hw, fun hin => hout (.inner hinner (hin.congr hs.rep hkinds hf))⟩
      obtain ⟨r, g, hrec⟩ := ih hs.rooted (hends.congr hs.rep hkinds hf) _ hopened' (by
        rw [hup.size, Finset.card_insert_of_notMem hnew]
        omega)
      exact ⟨_, _, (findFrom_of_nilable hroot).2 ⟨rfl, r, g, hrec, rfl⟩⟩

/-- Looking up takes as much fuel as there are terms. -/
theorem find_eq_findFrom (t : TermId) (f : Forest) : find t f = findFrom (f.size + 1) t f := rfl

/-- A look-up answers the representative and tidies up. -/
theorem find_upkeeps {t r : TermId} (hf : f.Rooted) (h : find t f = some (r, g)) :
    r = f.rep t ∧ f.Upkeeps g := by
  obtain ⟨hr, hup, -⟩ := findFrom_upkeeps hf (find_eq_findFrom t f ▸ h)
  exact ⟨hr, hup⟩

/-- A look-up has a result exactly if the nested wrappers come to an end. -/
theorem find_isSome_iff (hf : f.Rooted) (t : TermId) : (find t f).isSome ↔ f.Ends t := by
  rw [find_eq_findFrom, Option.isSome_iff_exists]
  constructor
  · rintro ⟨⟨r, g⟩, h⟩
    exact (findFrom_upkeeps hf h).2.2.1
  · intro h
    obtain ⟨r, g, hfind⟩ : ∃ r g, findFrom (f.size + 1) t f = some (r, g) :=
      findFrom_returns hf h ∅ (fun w hw => absurd hw (Finset.notMem_empty w)) (by simp)
    exact ⟨(r, g), hfind⟩

/-- A wrapper still wraps the same when what it wraps was looked up. -/
theorem kind_of_findFrom_inner {fuel : Nat} {t inner r : TermId} (hf : f.Rooted)
    (hk : f.kind (f.rep t) = .nilable inner) (h : findFrom fuel inner f = some (r, g)) :
    g.kind (f.rep t) = .nilable inner := by
  obtain ⟨-, -, hends, hframe⟩ := findFrom_upkeeps hf h
  have hends' : f.Ends t := .intro fun x hx => by
    rw [hk] at hx
    cases hx
    exact hends
  rw [hframe _ (by rw [hk]; rfl) fun hself => absurd hself (hends'.not_within (.here t) hk), hk]

/-- A look-up shortens links, and if it comes to a wrapper it looks up what is wrapped and then has the
wrapper, which wraps the same still, take that over. -/
theorem findFrom_succ_cases {fuel : Nat} {t r : TermId} (hf : f.Rooted)
    (h : findFrom (fuel + 1) t f = some (r, g)) :
    r = f.rep t ∧ ∃ f₁, f.Upkeeps f₁ ∧ (∀ x, (f.kind x).isLink = false → f₁.kind x = f.kind x) ∧
      ((f.kind (f.rep t)).isNilable = false ∧ g = f₁ ∨
        ∃ inner f₂, f.kind (f.rep t) = .nilable inner ∧
          findFrom fuel inner f₁ = some (f.rep inner, f₂) ∧ f₁.Upkeeps f₂ ∧
          f₂.kind (f.rep t) = .nilable inner ∧ g = f₂.absorb (f.rep t) (f.rep inner)) := by
  obtain ⟨hup, hkinds⟩ := compress_upkeeps hf (t := t) rfl f.size
  have hs := hup.steady hf
  have hroot := hkinds _ (not_isLink_rep hf t)
  cases hk : (f.kind (f.rep t)).isNilable with
  | false =>
    rw [findFrom_of_not_nilable (by rw [hroot, hk])] at h
    cases h
    exact ⟨rfl, _, hup, hkinds, Or.inl ⟨rfl, rfl⟩⟩
  | true =>
    obtain ⟨inner, hinner⟩ := Kind.isNilable_eq_true.1 hk
    rw [hinner] at hroot
    obtain ⟨rfl, inner', f₂, hrec, rfl⟩ := (findFrom_of_nilable hroot).1 h
    have hstill := kind_of_findFrom_inner hs.rooted (by rw [hs.rep, hroot]) hrec
    obtain ⟨rfl, hup₂, -⟩ := findFrom_upkeeps hs.rooted hrec
    rw [hs.rep] at hrec hstill ⊢
    exact ⟨rfl, _, hup, hkinds, Or.inr ⟨inner, f₂, hinner, hrec, hup₂, hstill, rfl⟩⟩

/-- A class that is no wrapper wraps variables at most. -/
theorem calm_of_not_nilable {c : TermId} (hc : (f.kind c).isLink = false)
    (h : (f.kind c).isNilable = false) : f.Calm c :=
  ⟨hc, fun inner hinner => by rw [hinner] at h; cases h⟩

/-- A class that was looked up wraps nothing but a variable. -/
theorem findFrom_calm {fuel : Nat} {t r : TermId} (hf : f.Rooted)
    (h : findFrom fuel t f = some (r, g)) : g.Calm r := by
  induction fuel generalizing t r f g with
  | zero => exact (failure_eq_some.1 h).elim
  | succ fuel ih =>
    obtain ⟨rfl, f₁, hup, hkinds, ⟨hk, rfl⟩ | ⟨inner, f₂, hinner, hrec, hup₂, hstill, rfl⟩⟩ :=
      findFrom_succ_cases hf h
    · have hroot := not_isLink_rep hf t
      rw [← hkinds _ hroot] at hk
      exact calm_of_not_nilable (by rw [(hup.steady hf).isLink, hroot]) hk
    · have hs := hup.steady hf
      have hs₂ := hup₂.steady hs.rooted
      have hcalm := ih hs.rooted hrec
      have hlt : f.rep t < f₂.size := lt_size_of_kind (by rw [hstill]; exact Kind.noConfusion)
      have hkind := kind_absorb (f := f₂) (w := f.rep t) hcalm.root
      have habsorb := Upkeep.absorb hstill
      rw [hs₂.rep, hs.rep] at habsorb
      -- Whatever is a variable after the look-up of what is wrapped stays one.
      have hvar : ∀ x, f₂.kind x = .var →
          (f₂.absorb (f.rep t) (f.rep inner)).kind x = .var := by
        intro x hx
        rw [hkind, if_neg, hx]
        rintro ⟨rfl, -⟩
        rw [hstill] at hx
        cases hx
      refine ⟨?_, fun x hx => ?_⟩
      · rw [hkind, if_pos ⟨rfl, hlt⟩]
        exact isLink_absorbedKind hcalm.root
      · rw [hkind, if_pos ⟨rfl, hlt⟩] at hx
        rw [(habsorb.steady hs₂.rooted).rep]
        apply hvar
        cases hinner' : f₂.kind (f.rep inner) with
        | var =>
          rw [hinner'] at hx
          cases hx
          rw [rep_of_not_link hcalm.root, hinner']
        | nilable y =>
          rw [hinner'] at hx
          cases hx
          exact hcalm.wraps x hinner'
        | link y =>
          have hlink := hcalm.root
          rw [hinner'] at hlink
          cases hlink
        | _ =>
          rw [hinner'] at hx
          cases hx

/-- A class that was looked up wraps a variable at most. -/
theorem find_calm {t r : TermId} (hf : f.Rooted) (h : find t f = some (r, g)) : g.Calm r :=
  findFrom_calm hf (find_eq_findFrom t f ▸ h)

/-- Looking up what is no wrapper changes no type. -/
theorem find_of_not_nilable {t r : TermId} (hf : f.Rooted)
    (hk : (f.kind (f.rep t)).isNilable = false) (h : find t f = some (r, g)) {c : TermId}
    (hc : (f.kind c).isLink = false) : g.kind c = f.kind c := by
  obtain ⟨-, -, -, hframe⟩ := findFrom_upkeeps hf (find_eq_findFrom t f ▸ h)
  exact hframe c hc fun hwithin => hwithin.eq_rep hk ▸ hk

/-- Looking a wrapper of a type that is no wrapper up takes that type over, and changes no other
type. -/
theorem find_wrapper {t r inner : TermId} (hf : f.Rooted)
    (hk : f.kind (f.rep t) = .nilable inner)
    (hinner : (f.kind (f.rep inner)).isNilable = false) (h : find t f = some (r, g)) :
    g.kind (f.rep t) = absorbedKind (f.rep inner) (f.kind (f.rep inner)) ∧
      ∀ c, (f.kind c).isLink = false → c ≠ f.rep t → g.kind c = f.kind c := by
  obtain ⟨-, f₁, hup, hkinds, ⟨hnot, -⟩ | ⟨inner', f₂, hinner', hrec, hup₂, hstill, rfl⟩⟩ :=
    findFrom_succ_cases hf (find_eq_findFrom t f ▸ h)
  · rw [hk] at hnot
    cases hnot
  rw [hk] at hinner'
  cases hinner'
  have hs := hup.steady hf
  have hroot := not_isLink_rep hf inner
  -- Only what is wrapped is looked up, and that opens no other wrapper.
  have hkind : ∀ c, (f.kind c).isLink = false → f₂.kind c = f.kind c := by
    intro c hc
    obtain ⟨-, -, -, hframe⟩ := findFrom_upkeeps hs.rooted hrec
    have hnot : (f₁.kind (f₁.rep inner)).isNilable = false := by
      rw [hs.rep, hkinds _ hroot, hinner]
    rw [hframe c (by rw [hkinds c hc, hc]) fun hwithin => hwithin.eq_rep hnot ▸ hnot, hkinds c hc]
  have hlt : f.rep t < f₂.size := lt_size_of_kind (by rw [hstill]; exact Kind.noConfusion)
  have hlink : (f₂.kind (f.rep inner)).isLink = false := by rw [hkind _ hroot, hroot]
  refine ⟨?_, fun c hc hne => ?_⟩
  · rw [kind_absorb hlink, if_pos ⟨rfl, hlt⟩, hkind _ hroot]
  · rw [kind_absorb hlink, if_neg fun e => hne e.1.symm, hkind c hc]

/-! ## Children -/

/-- A term has the same children still when one of them was looked up. -/
theorem kind_of_find_child {t raw r : TermId} {slot : Slot} (hf : f.Rooted)
    (hraw : (f.kind t).child? slot = some raw) (h : find raw f = some (r, g)) :
    g.kind t = f.kind t := by
  obtain ⟨-, -, hends, hframe⟩ := findFrom_upkeeps hf (find_eq_findFrom raw f ▸ h)
  refine hframe t (Kind.isLink_of_child? hraw) fun hwithin => ?_
  by_contra hk
  obtain ⟨inner, hinner⟩ := Kind.isNilable_eq_true.1 (Bool.eq_true_of_not_eq_false hk)
  have hsame : inner = raw := by
    rw [hinner] at hraw
    cases slot with
    | inner => exact Option.some.inj hraw
    | _ => cases hraw
  rw [hsame] at hinner
  exact hends.not_within hwithin hinner hwithin

/-- Looking a child up answers its representative, which stands in the slot from then on. -/
theorem child_upkeeps {t : TermId} {slot : Slot} {r : Option TermId} (hf : f.Rooted)
    (h : child t slot f = some (r, g)) :
    r = ((f.kind t).child? slot).map f.rep ∧ f.Upkeeps g := by
  obtain ⟨f₀, f₀', hget, h⟩ := bind_eq_some.1 h
  obtain ⟨rfl, rfl⟩ := get_eq_some.1 hget
  cases hraw : (f.kind t).child? slot with
  | none =>
    simp only [hraw] at h
    obtain ⟨rfl, rfl⟩ := pure_eq_some.1 h
    exact ⟨rfl, .refl⟩
  | some raw =>
    simp only [hraw] at h
    obtain ⟨found, f₁, hfind, h⟩ := bind_eq_some.1 h
    have hstill := kind_of_find_child hf hraw hfind
    obtain ⟨rfl, hup⟩ := find_upkeeps hf hfind
    have hs := hup.steady hf
    split at h
    · obtain ⟨u, f₂, hset, h⟩ := bind_eq_some.1 h
      obtain ⟨rfl, rfl⟩ := pure_eq_some.1 h
      refine ⟨rfl, ?_⟩
      rw [← modify_eq_some.1 hset, ← hs.rep]
      exact hup.tail (.remember (by rw [hstill, hraw]))
    · obtain ⟨rfl, rfl⟩ := pure_eq_some.1 h
      exact ⟨rfl, hup⟩

/-- A child is looked up if the wrappers nested in it come to an end. -/
theorem child_returns (hf : f.Rooted) {t : TermId} {slot : Slot}
    (h : ∀ raw, (f.kind t).child? slot = some raw → f.Ends raw) :
    ∃ r g, child t slot f = some (r, g) := by
  unfold child
  cases hraw : (f.kind t).child? slot with
  | none =>
    refine ⟨none, f, bind_eq_some.2 ⟨_, _, get_eq_some.2 ⟨rfl, rfl⟩, ?_⟩⟩
    simp only [hraw]
    exact pure_eq_some.2 ⟨rfl, rfl⟩
  | some raw =>
    obtain ⟨⟨r, g⟩, hfind⟩ :=
      Option.isSome_iff_exists.1 ((find_isSome_iff hf raw).2 (h raw hraw))
    by_cases hr : r ≠ raw
    · refine ⟨some r, g.setChild t slot r, bind_eq_some.2 ⟨_, _, get_eq_some.2 ⟨rfl, rfl⟩, ?_⟩⟩
      simp only [hraw]
      refine bind_eq_some.2 ⟨r, g, hfind, ?_⟩
      rw [if_pos hr]
      exact bind_eq_some.2 ⟨(), _, modify_eq_some.2 rfl, pure_eq_some.2 ⟨rfl, rfl⟩⟩
    · refine ⟨some r, g, bind_eq_some.2 ⟨_, _, get_eq_some.2 ⟨rfl, rfl⟩, ?_⟩⟩
      simp only [hraw]
      refine bind_eq_some.2 ⟨r, g, hfind, ?_⟩
      rw [if_neg hr]
      exact pure_eq_some.2 ⟨rfl, rfl⟩

/-! ## Occurs checks and comparisons -/

/-- Looking a class up keeps the forest up. -/
theorem keepsUp_find (t : TermId) : Keeps KeptUp (find t) :=
  fun _ _ _ h hf => (find_upkeeps hf h).2

/-- So does looking up a child. -/
theorem keepsUp_child (t : TermId) (slot : Slot) : Keeps KeptUp (child t slot) :=
  fun _ _ _ h hf => (child_upkeeps hf h).2

private theorem keepsUp_anyOccurs {walk : TermId → List TermId → ForestM (Bool × List TermId)}
    (hwalk : ∀ x seen, Keeps KeptUp (walk x seen)) (xs seen : List TermId) :
    Keeps KeptUp (anyOccurs walk xs seen) := by
  induction xs generalizing seen with
  | nil => exact keeps_pure _
  | cons x rest ih =>
    refine keeps_bind (hwalk x seen) fun r => ?_
    obtain ⟨found, seen⟩ := r
    cases found with
    | true => exact keeps_pure _
    | false => exact ih seen

private theorem keepsUp_occursFrom (t : TermId) (fuel : Nat) (x : TermId) (seen : List TermId) :
    Keeps KeptUp (occursFrom t fuel x seen) := by
  induction fuel generalizing x seen with
  | zero => exact keeps_failure
  | succ fuel ih =>
    refine keeps_bind (keepsUp_find x) fun r => ?_
    split
    · exact keeps_pure _
    split
    · exact keeps_pure _
    · exact keeps_bind keeps_get fun f => keepsUp_anyOccurs ih _ _

/-- So does an occurs check. -/
theorem keepsUp_occursInAny (t : TermId) (types : List TermId) :
    Keeps KeptUp (occursInAny t types) := by
  refine keeps_bind (keepsUp_find t) fun r => ?_
  refine keeps_bind keeps_get fun f => ?_
  exact keeps_bind (keepsUp_anyOccurs (keepsUp_occursFrom r _) types []) fun b => keeps_pure _

private theorem keepsUp_alikeSlots
    {compare : TermId → TermId → List (TermId × TermId) →
      ForestM (Bool × List (TermId × TermId))}
    (hcompare : ∀ a b seen, Keeps KeptUp (compare a b seen)) (a b : TermId) (slots : List Slot)
    (seen : List (TermId × TermId)) : Keeps KeptUp (alikeSlots compare a b slots seen) := by
  induction slots generalizing seen with
  | nil => exact keeps_pure _
  | cons slot rest ih =>
    refine keeps_bind (keepsUp_child a slot) fun ca => ?_
    refine keeps_bind (keepsUp_child b slot) fun cb => ?_
    split
    · refine keeps_bind (hcompare _ _ seen) fun r => ?_
      obtain ⟨same, seen⟩ := r
      cases same with
      | true => exact ih seen
      | false => exact keeps_pure _
    · exact keeps_pure _

private theorem keepsUp_alikeFrom (fuel : Nat) (a b : TermId) (seen : List (TermId × TermId)) :
    Keeps KeptUp (alikeFrom fuel a b seen) := by
  induction fuel generalizing a b seen with
  | zero => exact keeps_failure
  | succ fuel ih =>
    refine keeps_bind (keepsUp_find a) fun ra => ?_
    refine keeps_bind (keepsUp_find b) fun rb => ?_
    split
    · exact keeps_pure _
    refine keeps_bind keeps_get fun f => ?_
    refine keeps_bind keeps_get fun f' => ?_
    dsimp only
    split
    · exact keeps_pure _
    split
    · exact keeps_pure _
    split
    · exact keeps_pure _
    · exact keepsUp_alikeSlots ih ra rb _ _

/-- So does a comparison. -/
theorem keepsUp_alike (a b : TermId) : Keeps KeptUp (alike a b) := by
  refine keeps_bind keeps_get fun f => ?_
  exact keeps_bind (keepsUp_alikeFrom _ a b []) fun r => keeps_pure _

/-- A type that is known is not like a variable. -/
theorem not_alike_var {a b : TermId} {r : Bool} (hf : f.Rooted) (ha : f.kind (f.rep a) ≠ .var)
    (hb : f.kind (f.rep b) = .var) (h : alike a b f = some (r, g)) : r = false := by
  obtain ⟨f₀, f₁, hget, h⟩ := bind_eq_some.1 h
  obtain ⟨rfl, rfl⟩ := get_eq_some.1 hget
  obtain ⟨⟨same, seen⟩, f₂, hrun, h⟩ := bind_eq_some.1 h
  obtain ⟨rfl, rfl⟩ := pure_eq_some.1 h
  obtain ⟨ra, f₁, hfind, hrun⟩ := bind_eq_some.1 hrun
  obtain ⟨rb, f₂, hfind', hrun⟩ := bind_eq_some.1 hrun
  obtain ⟨rfl, hup₁⟩ := find_upkeeps hf hfind
  have hs₁ := hup₁.steady hf
  obtain ⟨rfl, hup₂⟩ := find_upkeeps hs₁.rooted hfind'
  have hs₂ := hup₂.steady hs₁.rooted
  have hcalm : f.Calm (f.rep b) :=
    calm_of_not_nilable (not_isLink_rep hf b) (by rw [hb]; rfl)
  have hkb : f₂.kind (f₁.rep b) = .var := by
    rw [hs₁.rep]
    exact (Upkeeps.calm hf (hup₁.trans hup₂) hcalm).1.eq_var.2 hb
  have hka : f₂.kind (f.rep a) ≠ .var := fun hvar => ha (hs₁.firm _ (hs₂.firm _ hvar))
  rcases ite_eq_some.1 hrun with ⟨heq, -⟩ | ⟨-, hrun⟩
  · rw [heq, hkb] at hka
    exact absurd rfl hka
  obtain ⟨f₃, f₃', hget, hrun⟩ := bind_eq_some.1 hrun
  obtain ⟨rfl, rfl⟩ := get_eq_some.1 hget
  obtain ⟨f₄, f₄', hget, hrun⟩ := bind_eq_some.1 hrun
  obtain ⟨rfl, rfl⟩ := get_eq_some.1 hget
  have hnode : sameNode (f₂.kind (f.rep a)) .var = false := by
    cases f₂.kind (f.rep a) <;> rfl
  rw [hkb, hnode] at hrun
  exact ((Prod.mk.injEq _ _ _ _ ▸ (pure_eq_some.1 hrun).1 : _ ∧ _).1).symm

end Forest

end TypeFlow
