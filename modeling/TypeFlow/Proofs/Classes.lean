import Mathlib.Data.List.Perm.Subperm
import TypeFlow.Forest.Find

/-!
# Classes of terms

The links of a forest lead every term to the representative of its class.  A rank that falls along
every link keeps them from running in circles, and then a representative is told by its links alone
(`Forest.rep_eq_of`), which makes it easy to see what a change of the forest does to the classes.

Main definitions:

- `Forest.Rooted`: all links lead to a class.
- `Forest.SameClasses`, `Forest.SameTypes`: what stays of a forest that is tidied.

Main results:

- `Forest.not_isLink_rep`: every term has a representative that is no link.
- `Forest.rep_eq_of`: the representatives from a description that agrees with the links.
- `Forest.compress_tidied`: shortening links tidies.
-/

namespace TypeFlow

/-- Allowing nil makes no link of a kind. -/
theorem Kind.isLink_orNil (k : Kind) : k.orNil.isLink = k.isLink := by
  cases k <;> rfl

@[simp] theorem Kind.children_orNil (k : Kind) : k.orNil.children = k.children := by
  cases k <;> rfl

/-- A link leads to some term. -/
theorem Kind.isLink_eq_true {k : Kind} : k.isLink = true ↔ ∃ u, k = .link u := by
  cases k <;> simp [isLink]

namespace Forest

/-! ## Following links -/

/-- All links stay in the forest and none run in circles: a rank falls along each. -/
def Rooted (f : Forest) : Prop :=
  ∃ rank : TermId → Nat, ∀ t u, f.kind t = .link u → rank u < rank t ∧ u < f.size

/-- What is no variable is a term of the forest. -/
theorem lt_size_of_kind {f : Forest} {t : TermId} (h : f.kind t ≠ .var) : t < f.size := by
  by_contra hlt
  have hnone : f.terms[t]? = none := Array.getElem?_eq_none (Nat.le_of_not_lt hlt)
  exact h (by simp [kind, hnone])

/-- Links to earlier terms only do not run in circles. -/
theorem rooted_of_earlier {f : Forest}
    (h : ∀ t < f.size, (f.kind t).isLink = true → ∀ u ∈ (f.kind t).children, u < t) : f.Rooted := by
  refine ⟨id, fun t u hlink => ?_⟩
  have hlt : t < f.size := lt_size_of_kind (by rw [hlink]; exact Kind.noConfusion)
  have hless : u < t := h t hlt (by rw [hlink]; rfl) u (by rw [hlink]; exact List.mem_singleton_self u)
  exact ⟨hless, Nat.lt_trans hless hlt⟩

/-- What is no link is not followed any further. -/
theorem follow_of_not_link {f : Forest} {t : TermId} (h : (f.kind t).isLink = false) (n : Nat) :
    f.follow n t = t := by
  cases n with
  | zero => rfl
  | succ n =>
    unfold follow
    split
    · rename_i e
      rw [e] at h
      cases h
    · rfl

/-- Following a link one step leads to its target. -/
theorem follow_link {f : Forest} {t u : TermId} (h : f.kind t = .link u) (n : Nat) :
    f.follow (n + 1) t = f.follow n u := by
  simp only [follow, h]

/-- The terms on the way from a term, at most `n` links far. -/
def way (f : Forest) : Nat → TermId → List TermId
  | 0, t => [t]
  | n + 1, t =>
    match f.kind t with
    | .link u => t :: f.way n u
    | _ => [t]

/-- While the links go on, the way consists of different links. -/
theorem way_of_isLink {f : Forest} {rank : TermId → Nat}
    (hrank : ∀ t u, f.kind t = .link u → rank u < rank t) {n : Nat} {t : TermId}
    (h : (f.kind (f.follow n t)).isLink = true) :
    (f.way n t).length = n + 1 ∧ (f.way n t).Nodup ∧
      ∀ x ∈ f.way n t, (f.kind x).isLink = true ∧ rank x ≤ rank t := by
  induction n generalizing t with
  | zero =>
    have ht : (f.kind t).isLink = true := h
    simp [way, ht]
  | succ n ih =>
    cases hk : (f.kind t).isLink with
    | false =>
      rw [follow_of_not_link hk, hk] at h
      cases h
    | true =>
      obtain ⟨u, hu⟩ := Kind.isLink_eq_true.1 hk
      rw [follow_link hu] at h
      obtain ⟨hlength, hnodup, hall⟩ := ih h
      have hlt := hrank t u hu
      have hway : f.way (n + 1) t = t :: f.way n u := by simp only [way, hu]
      rw [hway]
      refine ⟨by rw [List.length_cons, hlength], ?_, ?_⟩
      · refine List.nodup_cons.2 ⟨?_, hnodup⟩
        intro hmem
        have := (hall t hmem).2
        omega
      · intro x hx
        rcases List.mem_cons.1 hx with rfl | hx
        · exact ⟨hk, Nat.le_refl _⟩
        · have := hall x hx
          exact ⟨this.1, by omega⟩

/-- Every term has a representative that is no link: there are fewer links than terms, so a way that
never met a term twice is at its end after as many steps. -/
theorem not_isLink_rep {f : Forest} (h : f.Rooted) (t : TermId) :
    (f.kind (f.rep t)).isLink = false := by
  obtain ⟨rank, hrank⟩ := h
  by_contra hlink
  rw [Bool.not_eq_false] at hlink
  obtain ⟨hlength, hnodup, hall⟩ := way_of_isLink (fun t u hu => (hrank t u hu).1) hlink
  have hsub : f.way f.terms.size t ⊆ List.range f.terms.size := by
    intro x hx
    rw [List.mem_range]
    apply lt_size_of_kind
    intro hvar
    have := (hall x hx).1
    rw [hvar] at this
    cases this
  have hle := (hnodup.subperm hsub).length_le
  rw [hlength, List.length_range] at hle
  omega

/-- What is no link represents itself. -/
theorem rep_of_not_link {f : Forest} {t : TermId} (h : (f.kind t).isLink = false) :
    f.rep t = t := follow_of_not_link h _

private theorem follow_succ {f : Forest} {n : Nat} {t : TermId}
    (h : (f.kind (f.follow n t)).isLink = false) : f.follow (n + 1) t = f.follow n t := by
  induction n generalizing t with
  | zero => exact follow_of_not_link h 1
  | succ n ih =>
    cases hk : (f.kind t).isLink with
    | false => rw [follow_of_not_link hk, follow_of_not_link hk]
    | true =>
      obtain ⟨u, hu⟩ := Kind.isLink_eq_true.1 hk
      rw [follow_link hu] at h
      rw [follow_link hu, follow_link hu, ih h]

/-- A link is of the class of its target. -/
theorem rep_link {f : Forest} (h : f.Rooted) {t u : TermId} (hu : f.kind t = .link u) :
    f.rep t = f.rep u := by
  have ht : t < f.size := lt_size_of_kind (by simp [hu])
  obtain ⟨m, hm⟩ : ∃ m, f.terms.size = m + 1 :=
    Nat.exists_eq_succ_of_ne_zero (Nat.ne_zero_of_lt ht)
  have hstop := not_isLink_rep h t
  unfold rep at hstop ⊢
  rw [hm, follow_link hu] at hstop ⊢
  rw [follow_succ hstop]

/-- A description of the representatives that agrees with the links. -/
theorem rep_eq_of {g : Forest} (h : g.Rooted) {r : TermId → TermId}
    (hlink : ∀ t u, g.kind t = .link u → r t = r u)
    (hroot : ∀ t, (g.kind t).isLink = false → r t = t) (t : TermId) : g.rep t = r t := by
  obtain ⟨rank, hrank⟩ := h
  induction hn : rank t using Nat.strongRecOn generalizing t with
  | ind n ih =>
    cases hk : (g.kind t).isLink with
    | false => rw [rep_of_not_link hk, hroot t hk]
    | true =>
      obtain ⟨u, hu⟩ := Kind.isLink_eq_true.1 hk
      have hlt := (hrank t u hu).1
      rw [rep_link ⟨rank, hrank⟩ hu, hlink t u hu, ih (rank u) (by omega) u rfl]

/-- Representatives represent themselves. -/
theorem rep_rep {f : Forest} (h : f.Rooted) (t : TermId) : f.rep (f.rep t) = f.rep t :=
  rep_of_not_link (not_isLink_rep h t)

/-- The representative of a term is a term. -/
theorem rep_lt_size {f : Forest} (h : f.Rooted) {t : TermId} (ht : t < f.size) :
    f.rep t < f.size := by
  obtain ⟨rank, hrank⟩ := h
  induction hn : rank t using Nat.strongRecOn generalizing t with
  | ind n ih =>
    cases hk : (f.kind t).isLink with
    | false => rw [rep_of_not_link hk]; exact ht
    | true =>
      obtain ⟨u, hu⟩ := Kind.isLink_eq_true.1 hk
      have hlt := hrank t u hu
      rw [rep_link ⟨rank, hrank⟩ hu]
      exact ih (rank u) (by omega) hlt.2 rfl

/-! ## Changing a term -/

/-- An update changes the kind of its term only. -/
theorem kind_update (f : Forest) (t u : TermId) (change : Term → Term) :
    (f.update t change).kind u =
      if t = u then match f.terms[u]? with
        | some term => (change term).kind
        | none => .var
      else f.kind u := by
  unfold kind update
  rw [Array.getElem?_modify]
  by_cases e : t = u
  · rw [if_pos e, if_pos e]
    cases f.terms[u]? <;> rfl
  · rw [if_neg e, if_neg e]

/-- Setting a kind changes that of its term only. -/
theorem kind_setKind (f : Forest) (t u : TermId) (k : Kind) :
    (f.setKind t k).kind u = if t = u ∧ t < f.size then k else f.kind u := by
  unfold setKind
  rw [kind_update]
  by_cases e : t = u
  · subst e
    by_cases ht : t < f.size
    · have hsome : f.terms[t]? = some f.terms[t] := Array.getElem?_eq_getElem ht
      simp [ht, hsome]
    · have hnone : f.terms[t]? = none := Array.getElem?_eq_none (Nat.le_of_not_lt ht)
      simp [ht, hnone, kind]
  · simp [e]

@[simp] theorem size_update (f : Forest) (t : TermId) (change : Term → Term) :
    (f.update t change).size = f.size := by
  simp [update, size]

@[simp] theorem size_setKind (f : Forest) (t : TermId) (k : Kind) :
    (f.setKind t k).size = f.size := size_update f t _

/-- An update that leaves registered nodes alone changes nowhere who is registered. -/
theorem deps_update (f : Forest) (change : Term → Term)
    (h : ∀ term, (change term).deps = term.deps) (t u : TermId) :
    (f.update t change).deps u = f.deps u := by
  unfold deps update
  rw [Array.getElem?_modify]
  by_cases e : t = u
  · rw [if_pos e]
    cases f.terms[u]? <;> simp [h]
  · rw [if_neg e]

/-- An update that leaves marks of inputs alone changes none. -/
theorem isInput_update (f : Forest) (change : Term → Term)
    (h : ∀ term, (change term).isInput = term.isInput) (t u : TermId) :
    (f.update t change).isInput u = f.isInput u := by
  unfold isInput update
  rw [Array.getElem?_modify]
  by_cases e : t = u
  · rw [if_pos e]
    cases f.terms[u]? <;> simp [h]
  · rw [if_neg e]

@[simp] theorem deps_setKind (f : Forest) (t u : TermId) (k : Kind) :
    (f.setKind t k).deps u = f.deps u := by
  apply deps_update
  intro term
  rfl

@[simp] theorem isInput_setKind (f : Forest) (t u : TermId) (k : Kind) :
    (f.setKind t k).isInput u = f.isInput u := by
  apply isInput_update
  intro term
  rfl

@[simp] theorem isInput_setChild (f : Forest) (t u : TermId) (slot : Slot) (child : TermId) :
    (f.setChild t slot child).isInput u = f.isInput u := by
  apply isInput_update
  exact fun _ => rfl

/-! ## Tidying -/

/-- Children, and what links lead to, are terms. -/
def InRange (f : Forest) : Prop := ∀ t, ∀ x ∈ (f.kind t).children, x < f.size

/-- The classes of the first forest are those of the second, as are the variables, and no node
registered with one is lost. -/
structure SameClasses (f g : Forest) : Prop where
  rooted : g.Rooted
  size : g.size = f.size
  unions : g.unions = f.unions
  inRange : f.InRange → g.InRange
  rep : ∀ t, g.rep t = f.rep t
  var : ∀ t, g.kind t = .var ↔ f.kind t = .var
  deps : ∀ t n, n ∈ f.deps t → n ∈ g.deps t
  isInput : ∀ t, g.isInput t = f.isInput t

/-- A forest has its own classes. -/
theorem SameClasses.refl {f : Forest} (h : f.Rooted) : SameClasses f f :=
  ⟨h, rfl, rfl, id, fun _ => rfl, fun _ => Iff.rfl, fun _ _ hn => hn, fun _ => rfl⟩

/-- The classes of a forest are compared in turn. -/
theorem SameClasses.trans {f g h : Forest} (hfg : SameClasses f g) (hgh : SameClasses g h) :
    SameClasses f h where
  rooted := hgh.rooted
  size := hgh.size.trans hfg.size
  unions := hgh.unions.trans hfg.unions
  inRange h := hgh.inRange (hfg.inRange h)
  rep t := (hgh.rep t).trans (hfg.rep t)
  var t := (hgh.var t).trans (hfg.var t)
  deps t n hn := hgh.deps t n (hfg.deps t n hn)
  isInput t := (hgh.isInput t).trans (hfg.isInput t)

/-- No type is a nilable wrapper. -/
def Unwrapped (f : Forest) : Prop := ∀ t, (f.kind t).isNilable = false

/-- Every base type has the property. -/
def Bases (K : Flow → Prop) (f : Forest) : Prop := ∀ t flow, f.kind t = .base flow → K flow

/-- Without nilable wrappers, types stay what they are.  In any case the base types are former ones,
some of them with nil taken in. -/
structure SameTypes (f g : Forest) : Prop where
  unwrapped : f.Unwrapped →
    g.Unwrapped ∧ ∀ t, (f.kind t).isLink = false → g.kind t = f.kind t
  bases : ∀ K : Flow → Prop, (∀ a, K a → K a.orNil) → f.Bases K → g.Bases K

/-- A forest has its own types. -/
theorem SameTypes.refl (f : Forest) : SameTypes f f :=
  ⟨fun hu => ⟨hu, fun _ _ => rfl⟩, fun _ _ => id⟩

/-- The types of a forest are compared in turn. -/
theorem SameTypes.trans {f g h : Forest} (hfg : SameTypes f g) (hgh : SameTypes g h) :
    SameTypes f h := by
  refine ⟨fun hu => ?_, fun K hK hf => hgh.bases K hK (hfg.bases K hK hf)⟩
  obtain ⟨hgu, hgk⟩ := hfg.unwrapped hu
  obtain ⟨hhu, hhk⟩ := hgh.unwrapped hgu
  refine ⟨hhu, ?_⟩
  intro t ht
  have hg := hgk t ht
  rw [hhk t (by rw [hg]; exact ht), hg]

/-- A type that is set has a base type for which there is a reason, or none. -/
theorem Bases.setKind {K : Flow → Prop} {f : Forest} (h : f.Bases K) (t : TermId) {k : Kind}
    (hk : ∀ flow, k = .base flow → K flow) : (f.setKind t k).Bases K := by
  intro x flow hx
  rw [kind_setKind] at hx
  split at hx
  · exact hk flow hx
  · exact h x flow hx

/-- A forest was tidied: its classes, and its types if none is wrapped, are what they were. -/
def Tidied (f g : Forest) : Prop := f.Rooted → SameClasses f g ∧ SameTypes f g

instance : IsPreorder Forest Tidied where
  refl f h := ⟨SameClasses.refl h, SameTypes.refl f⟩
  trans _ _ _ hfg hgh h := by
    obtain ⟨hc, ht⟩ := hfg h
    obtain ⟨hc', ht'⟩ := hgh hc.rooted
    exact ⟨hc.trans hc', ht.trans ht'⟩

private theorem rank_rep_lt {f : Forest} {rank : TermId → Nat}
    (hrank : ∀ t u, f.kind t = .link u → rank u < rank t ∧ u < f.size) {t : TermId}
    (ht : (f.kind t).isLink = true) : rank (f.rep t) < rank t ∧ f.rep t < f.size := by
  induction hn : rank t using Nat.strongRecOn generalizing t with
  | ind n ih =>
    obtain ⟨u, hu⟩ := Kind.isLink_eq_true.1 ht
    obtain ⟨hlt, hsize⟩ := hrank t u hu
    rw [rep_link ⟨rank, hrank⟩ hu]
    cases hk : (f.kind u).isLink with
    | false =>
      rw [rep_of_not_link hk]
      exact ⟨by omega, hsize⟩
    | true =>
      have hu' := ih (rank u) (by omega) hk rfl
      exact ⟨by omega, hu'.2⟩

/-- Links may be shortened to the representative, and what is no link may become anything else that
is none: the representatives stay. -/
theorem reps_of_links {f g : Forest} (h : f.Rooted) (hsize : f.size ≤ g.size)
    (hlink : ∀ t u, g.kind t = .link u →
      f.kind t = .link u ∨ (f.kind t).isLink = true ∧ u = f.rep t)
    (hroot : ∀ t, (g.kind t).isLink = false → (f.kind t).isLink = false) :
    g.Rooted ∧ ∀ t, g.rep t = f.rep t := by
  have hrooted : g.Rooted := by
    obtain ⟨rank, hrank⟩ := h
    refine ⟨rank, ?_⟩
    intro t u hu
    rcases hlink t u hu with hf | ⟨hf, rfl⟩
    · exact (hrank t u hf).imp_right (Nat.lt_of_lt_of_le · hsize)
    · exact (rank_rep_lt hrank hf).imp_right (Nat.lt_of_lt_of_le · hsize)
  refine ⟨hrooted, rep_eq_of hrooted ?_ ?_⟩
  · intro t u hu
    rcases hlink t u hu with hf | ⟨-, rfl⟩
    · exact rep_link h hf
    · exact (rep_rep h t).symm
  · intro t ht
    exact rep_of_not_link (hroot t ht)

/-- Where the representatives stay, so do the classes, if variables stay variables. -/
theorem SameClasses.of_kinds {e f g : Forest} (h : SameClasses e f) (hsize : g.size = f.size)
    (hunions : g.unions = f.unions) (hrange : e.InRange → g.InRange)
    (hlink : ∀ t u, g.kind t = .link u →
      f.kind t = .link u ∨ (f.kind t).isLink = true ∧ u = f.rep t)
    (hroot : ∀ t, (g.kind t).isLink = false → (f.kind t).isLink = false)
    (hvar : ∀ t, g.kind t = .var ↔ f.kind t = .var)
    (hdeps : ∀ t n, n ∈ f.deps t → n ∈ g.deps t) (hinput : ∀ t, g.isInput t = f.isInput t) :
    SameClasses e g := by
  obtain ⟨hrooted, hrep⟩ := reps_of_links h.rooted (Nat.le_of_eq hsize.symm) hlink hroot
  exact ⟨hrooted, hsize.trans h.size, hunions.trans h.unions, hrange,
    fun t => (hrep t).trans (h.rep t), fun t => (hvar t).trans (h.var t),
    fun t n hn => hdeps t n (h.deps t n hn), fun t => (hinput t).trans (h.isInput t)⟩

/-- Setting a kind leaves classes alone if links still lead to representatives and no variable comes or goes.
-/
theorem SameClasses.setKind {e f : Forest} (h : SameClasses e f) {t : TermId} {k : Kind}
    (hlink : ∀ u, k = .link u → (f.kind t).isLink = true ∧ u = f.rep t)
    (hroot : k.isLink = false → (f.kind t).isLink = false) (hvar : k ≠ .var)
    (hwas : f.kind t ≠ .var) (hchildren : e.InRange → ∀ x ∈ k.children, x < f.size) :
    SameClasses e (f.setKind t k) := by
  refine h.of_kinds (size_update _ _ _) rfl ?_ ?_ ?_ ?_ ?_ ?_
  · intro hrange x y hy
    rw [kind_setKind] at hy
    rw [size_setKind]
    split at hy
    · exact hchildren hrange y hy
    · exact h.inRange hrange x y hy
  · intro x u hu
    rw [kind_setKind] at hu
    split at hu
    · rename_i e
      rw [← e.1]
      exact Or.inr (hlink u hu)
    · exact Or.inl hu
  · intro x hx
    rw [kind_setKind] at hx
    split at hx
    · rename_i e
      rw [← e.1]
      exact hroot hx
    · exact hx
  · intro x
    rw [kind_setKind]
    split
    · rename_i e
      rw [← e.1]
      exact iff_of_false hvar hwas
    · exact Iff.rfl
  · intro x n hn
    rw [deps_setKind]
    exact hn
  · intro x
    rw [isInput_setKind]

/-- Replacing a link by another changes no type. -/
theorem setLink_sameTypes {f : Forest} {t : TermId} (h : (f.kind t).isLink = true) (u : TermId) :
    SameTypes f (f.setKind t (.link u)) := by
  refine ⟨fun hu => ?_, fun K _ hf => hf.setKind t fun _ => Kind.noConfusion⟩
  constructor
  · intro x
    rw [kind_setKind]
    split
    · rfl
    · exact hu x
  · intro x hx
    rw [kind_setKind]
    split
    · rename_i e
      rw [← e.1, h] at hx
      cases hx
    · rfl

/-- Shortening links tidies. -/
theorem compress_tidied {root t : TermId} {f : Forest} (hroot : root = f.rep t) (fuel : Nat) :
    Tidied f (f.compress root fuel t) := by
  intro h
  induction fuel generalizing f t with
  | zero => exact ⟨SameClasses.refl h, SameTypes.refl f⟩
  | succ fuel ih =>
    unfold compress
    split
    · exact ⟨SameClasses.refl h, SameTypes.refl f⟩
    · split
      · rename_i target htarget
        have hlink : (f.kind t).isLink = true := by rw [htarget]; rfl
        have hset : SameClasses f (f.setKind t (.link root)) := by
          apply (SameClasses.refl h).setKind
          · intro u hu
            cases hu
            exact ⟨hlink, hroot⟩
          · intro hk
            cases hk
          · exact Kind.noConfusion
          · rw [htarget]
            exact Kind.noConfusion
          · intro _ x hx
            have hlt : t < f.size := by
              apply lt_size_of_kind
              rw [htarget]
              exact Kind.noConfusion
            rw [List.mem_singleton.1 hx, hroot]
            exact rep_lt_size h hlt
        have hrest : root = (f.setKind t (.link root)).rep target := by
          rw [hset.rep, hroot, rep_link h htarget]
        obtain ⟨hc, ht⟩ := ih hrest hset.rooted
        exact ⟨hset.trans hc, (setLink_sameTypes hlink root).trans ht⟩
      · exact ⟨SameClasses.refl h, SameTypes.refl f⟩

end Forest

end TypeFlow
