import TypeFlow.Proofs.ForestHistories

/-!
# Marks of inputs

A class that takes values in from callers is marked, and its base type is widened, so that it promises
no constant that the next caller breaks.  A marked variable or wrapper may turn into a base type later
on, and the base type is widened then.  So a type is guarded against constants if all that is met when
its wrappers are opened is widened or, if it is undecided, marked.

Main definitions:

- `Forest.IsMarked`, `Forest.IsError`: what a class is like, told of its terms.
- `Forest.Sheltered`: classes that are guarded, and lead to such through wrappers.
- `Forest.Guarded`: the type of a term has no constant, now or later.
- `Forest.Upholds`: marks and guards stay, and what is marked anew is guarded.

Main results:

- `Forest.Guarded.widened`: a guarded base type is widened.
- `Forest.guarded_of_mem_reachBy`: widening inputs guards whatever it marks.
- `Forest.upholds_link`: a merge upholds marks if the winner is marked and guarded when the loser is.
- `Forest.Sprouts.sheltered`: making new terms leaves the old ones sheltered.
-/

namespace TypeFlow

/-! ## Widened flows -/

namespace Flow

variable {a b : Flow}

/-- A widened flow takes nil in and stays widened. -/
theorem widen_orNil (h : a.widen = a) : a.orNil.widen = a.orNil := by
  cases a with
  | int i =>
    cases h
    rfl
  | float x =>
    cases h
    rfl
  | text c n =>
    cases h
    rfl
  | record sites fields n => cases fields <;> rfl
  | _ => rfl

/-- A widened flow loses nil and stays widened. -/
theorem widen_withoutNil (h : a.widen = a) : a.withoutNil.widen = a.withoutNil := by
  cases a with
  | int i => exact h
  | float x => exact h
  | text c n =>
    cases h
    rfl
  | _ => rfl

/-- The meet of a widened flow with one of its kind is widened. -/
theorem widen_meet (hkind : a.sameKind b = true) (h : a.widen = a ∨ b.widen = b) :
    (a.meet b).widen = a.meet b := by
  cases a <;> cases b <;> cases hkind
  case int.int i j => rcases h with h | h <;> cases h <;> first | rfl | (cases i <;> rfl)
  case float.float x y => rcases h with h | h <;> cases h <;> first | rfl | (cases x <;> rfl)
  case text.text c n d m =>
    rcases h with h | h <;> cases h <;> rw [meet] <;> split <;> simp_all [widen]
  case record.record s f n t g m => cases f <;> cases g <;> rfl
  all_goals rfl

end Flow

open Forest (widenedKind)

namespace Kind

/-- The type may turn out to be a base type later on. -/
def isUndecided : Kind → Bool
  | var | nilable _ => true
  | _ => false

variable {k kl kw : Kind}

/-- A wrapper is undecided. -/
theorem isUndecided_of_isNilable (h : k.isNilable = true) : k.isUndecided = true := by
  cases k <;> first | rfl | cases h

/-- Only base types are changed by widening. -/
theorem widenedKind_eq (h : k.isBase = false) : widenedKind k = k := by
  cases k <;> first | rfl | cases h

/-- A base is wide if its flow is. -/
theorem widenedKind_base {flow : Flow} :
    widenedKind (base flow) = base flow ↔ flow.widen = flow := by
  rw [widenedKind, base.injEq]

/-- What is wide is so with nil. -/
theorem widenedKind_orNil (h : widenedKind k = k) : widenedKind k.orNil = k.orNil := by
  cases k with
  | base flow => exact widenedKind_base.2 (Flow.widen_orNil (widenedKind_base.1 h))
  | _ => rfl

/-- What is wide is so without nil. -/
theorem widenedKind_withoutNil (h : widenedKind k = k) :
    widenedKind k.withoutNil = k.withoutNil := by
  cases k with
  | base flow => exact widenedKind_base.2 (Flow.widen_withoutNil (widenedKind_base.1 h))
  | _ => rfl

/-- Allowing nil decides nothing. -/
theorem isUndecided_orNil (k : Kind) : k.orNil.isUndecided = k.isUndecided := by
  cases k <;> rfl

private theorem isUndecided_widenedKind (k : Kind) : (widenedKind k).isUndecided = k.isUndecided := by
  cases k <;> rfl

private theorem isUndecided_setChild (k : Kind) (slot : Slot) (child : TermId) :
    (k.setChild slot child).isUndecided = k.isUndecided := by
  cases k <;> cases slot <;> rfl

/-- What is wide is so with another child. -/
theorem widenedKind_setChild (slot : Slot) (child : TermId) (h : widenedKind k = k) :
    widenedKind (k.setChild slot child) = k.setChild slot child := by
  cases k <;> cases slot <;> first | rfl | exact h

/-- A wrapper with another child is still one, and one with a new child wraps that. -/
theorem setChild_eq_nilable {slot : Slot} {child y : TermId}
    (h : k.setChild slot child = .nilable y) : k = .nilable y ∨ slot = .inner ∧ y = child ∧
      ∃ x, k = .nilable x := by
  cases k <;> cases slot <;> first | exact Or.inl h | cases h
  exact Or.inr ⟨rfl, rfl, _, rfl⟩

end Kind

namespace Forest

variable {f g : Forest} {S : TermId → Prop} {t x : TermId}

/-! ## Marks -/

/-- Values from callers flow into the class of the term. -/
def IsMarked (f : Forest) (t : TermId) : Prop := f.isInput (f.rep t) = true

/-- The class of the term is an error. -/
def IsError (f : Forest) (t : TermId) : Prop := (f.kind (f.rep t)).isError = true

/-- Inputs are terms of the forest. -/
theorem lt_size_of_isInput (h : f.isInput t = true) : t < f.size := by
  by_contra hlt
  have hnone : f.terms[t]? = none := Array.getElem?_eq_none (Nat.le_of_not_lt hlt)
  rw [isInput, hnone] at h
  cases h

/-- What is marked is a term of the forest. -/
theorem IsMarked.lt_size (h : f.IsMarked t) : t < f.size := lt_size_of_rep_lt (lt_size_of_isInput h)

private theorem isInput_markInput (f : Forest) (r x : TermId) :
    (f.markInput r).isInput x = true ↔ f.isInput x = true ∨ x = r ∧ r < f.size := by
  unfold markInput update isInput size
  rw [Array.getElem?_modify]
  by_cases e : r = x
  · subst e
    by_cases hlt : r < f.terms.size
    · simp [hlt]
    · simp [hlt]
  · simp [e, Ne.symm e]

/-- Widening inputs marks the classes that it widens, and no mark is lost. -/
theorem isInput_widenInputs (f : Forest) (t x : TermId) : (f.widenInputs t).isInput x = true ↔
    f.isInput x = true ∨ x ∈ f.reachBy Kind.inputs t ∧ x < f.size := by
  rw [widenInputs_eq]
  generalize f.reachBy Kind.inputs t = ts
  induction ts generalizing f with
  | nil => simp
  | cons r rest ih =>
    have hsize : (f.markInput r).size = f.size := size_update _ _ _
    rw [List.foldl_cons, ih, isInput_markInput, hsize, List.mem_cons]
    by_cases e : x = r
    · subst e
      tauto
    · tauto

/-- Linking takes the mark of the loser and no other. -/
theorem isInput_link {loser winner : TermId} (hl : loser < f.size) (x : TermId) :
    (f.link loser winner).isInput x = if loser = x then false else f.isInput x := by
  have hlink : (f.link loser winner).isInput x = ((f.handOver loser winner).update loser fun term =>
      { term with kind := .link winner, isInput := false }).isInput x := rfl
  have hover : (f.handOver loser winner).isInput x = f.isInput x := by
    rw [handOver, isInput_addDeps]
    exact isInput_update f (fun term => { term with deps := .empty }) (fun _ => rfl) _ _
  have hlt : loser < (f.handOver loser winner).terms.size := by
    rw [← size, size_handOver]
    exact hl
  rw [hlink, ← hover]
  unfold isInput update
  rw [Array.getElem?_modify]
  by_cases e : loser = x
  · subst e
    simp [Array.getElem?_eq_getElem hlt]
  · simp [e]

/-! ## Sheltered classes -/

/-- The classes of the set have widened base types, those of undecided type are marked, and what they
wrap belongs to the set. -/
structure Sheltered (S : TermId → Prop) (f : Forest) : Prop where
  widened : ∀ c, S c → widenedKind (f.kind c) = f.kind c
  marked : ∀ c, S c → (f.kind c).isUndecided = true → f.isInput c = true
  inner : ∀ c y, S c → f.kind c = .nilable y → S (f.rep y)

namespace Sheltered

/-- Positions outside the forest count as variables without a mark. -/
theorem lt_size {c : TermId} (h : f.Sheltered S) (hc : S c) : c < f.size := by
  by_contra hlt
  refine hlt (lt_size_of_isInput (h.marked c hc ?_))
  rw [kind_of_size_le (Nat.le_of_not_lt hlt)]
  rfl

/-- Classes that are what they were stay sheltered. -/
theorem congr (h : f.Sheltered S) (hrep : ∀ t, g.rep t = f.rep t)
    (hkind : ∀ c, S c → g.kind c = f.kind c) (hinput : ∀ c, S c → g.isInput c = f.isInput c) :
    g.Sheltered S where
  widened c hc := by
    rw [hkind c hc]
    exact h.widened c hc
  marked c hc hk := by
    rw [hkind c hc] at hk
    rw [hinput c hc]
    exact h.marked c hc hk
  inner c y hc hk := by
    rw [hkind c hc] at hk
    rw [hrep]
    exact h.inner c y hc hk

/-- A class may become another type that is decided and widened. -/
theorem setKind {k : Kind} (h : f.Sheltered S) (hs : Steady f (f.setKind x k))
    (hk : S x → widenedKind k = k ∧ k.isUndecided = false) : (f.setKind x k).Sheltered S where
  widened c hc := by
    rw [kind_setKind]
    split
    · rename_i e
      exact (hk (e.1 ▸ hc)).1
    · exact h.widened c hc
  marked c hc hu := by
    rw [kind_setKind] at hu
    rw [isInput_setKind]
    split at hu
    · rename_i e
      rw [(hk (e.1 ▸ hc)).2] at hu
      cases hu
    · exact h.marked c hc hu
  inner c y hc hy := by
    rw [kind_setKind] at hy
    rw [hs.rep]
    split at hy
    · rename_i e
      have hu := (hk (e.1 ▸ hc)).2
      rw [hy] at hu
      cases hu
    · exact h.inner c y hc hy

/-- A class may be given a child that is sheltered if the class wraps it. -/
theorem setChild {slot : Slot} {child : TermId} (h : f.Sheltered S) (hf : f.Rooted)
    (hchild : ∀ y, S x → slot = .inner → f.kind x = .nilable y → S (f.rep child)) :
    (f.setChild x slot child).Sheltered S where
  widened c hc := by
    rw [kind_setChild]
    split
    · exact Kind.widenedKind_setChild _ _ (h.widened c hc)
    · exact h.widened c hc
  marked c hc hu := by
    rw [isInput_setChild]
    rw [kind_setChild] at hu
    split at hu
    · rw [Kind.isUndecided_setChild] at hu
      exact h.marked c hc hu
    · exact h.marked c hc hu
  inner c y hc hy := by
    rw [(setChild_steady hf _ _ _).rep]
    rw [kind_setChild] at hy
    split at hy
    · rename_i e
      subst e
      rcases Kind.setChild_eq_nilable hy with hy | ⟨hslot, rfl, z, hz⟩
      · exact h.inner x y hc hy
      · exact hchild z hc hslot hz
    · exact h.inner c y hc hy

/-- A wrapper takes over a type that is sheltered as it is. -/
theorem absorb {w inner : TermId} (h : f.Sheltered S) (hf : f.Rooted)
    (hw : f.kind w = .nilable inner) : (f.absorb w (f.rep inner)).Sheltered S := by
  have hkind := kind_absorb (w := w) (not_isLink_rep hf inner)
  have hs := (Upkeep.absorb hw).steady hf
  have hother : ∀ c, c ≠ w → (f.absorb w (f.rep inner)).kind c = f.kind c := fun c hc => by
    rw [hkind, if_neg fun e => hc e.1.symm]
  have hself : (f.absorb w (f.rep inner)).kind w = absorbedKind (f.rep inner) (f.kind (f.rep inner)) :=
    by rw [hkind, if_pos ⟨rfl, lt_size_of_kind (by rw [hw]; exact Kind.noConfusion)⟩]
  refine ⟨fun c hc => ?_, fun c hc hu => ?_, fun c y hc hy => ?_⟩
  · by_cases e : c = w
    · subst e
      have hwide := h.widened _ (h.inner c inner hc hw)
      rw [hself]
      cases hk : f.kind (f.rep inner) with
      | var => rfl
      | _ =>
        rw [hk] at hwide
        exact Kind.widenedKind_orNil hwide
    · rw [hother c e]
      exact h.widened c hc
  · rw [isInput_absorb]
    by_cases e : c = w
    · subst e
      exact h.marked c hc (by rw [hw]; rfl)
    · rw [hother c e] at hu
      exact h.marked c hc hu
  · rw [hs.rep]
    by_cases e : c = w
    · subst e
      have hinner := h.inner c inner hc hw
      rw [hself] at hy
      cases hk : f.kind (f.rep inner) with
      | var =>
        rw [hk] at hy
        cases hy
        rwa [rep_rep hf]
      | nilable z =>
        rw [hk] at hy
        cases hy
        exact h.inner _ y hinner hk
      | _ =>
        rw [hk] at hy
        cases hy
    · rw [hother c e] at hy
      exact h.inner c y hc hy

/-- Looking classes up leaves them sheltered. -/
theorem upkeep (h : f.Sheltered S) (hf : f.Rooted) (hup : f.Upkeep g) : g.Sheltered S := by
  have hs := hup.steady hf
  cases hup with
  | @shorten t u ht => exact h.setKind hs fun _ => ⟨rfl, rfl⟩
  | @remember t x slot hx =>
    refine h.setChild hf fun y hS hslot hy => ?_
    subst hslot
    rw [hy] at hx
    cases hx
    rw [rep_rep hf]
    exact h.inner t x hS hy
  | absorb hw => exact h.absorb hf hw

private theorem upkeeps (h : f.Sheltered S) (hf : f.Rooted) (hup : f.Upkeeps g) : g.Sheltered S := by
  induction hup with
  | refl => exact h
  | tail hg hstep ih => exact ih.upkeep (Upkeeps.steady hf hg).rooted hstep

/-- A new term does not expose what is sheltered. -/
theorem add {term : Term} (h : f.Sheltered S) (hf : f.Rooted) (hlink : term.kind.isLink = false) :
    (f.add term).2.Sheltered S := by
  refine h.congr (steady_add hf hlink).rep (fun c hc => ?_) fun c hc => ?_
  · rw [kind_add, if_neg (Nat.ne_of_lt (h.lt_size hc))]
  · rw [isInput_add, if_neg (Nat.ne_of_lt (h.lt_size hc))]

/-- Widening inputs leaves classes sheltered. -/
theorem widenInputs (h : f.Sheltered S) (hf : f.Rooted) (t : TermId) :
    (f.widenInputs t).Sheltered S where
  widened c hc := by
    rcases kind_widenInputs_or f t c with e | e <;> rw [e]
    · exact h.widened c hc
    · exact widenedKind_widenedKind _
  marked c hc hu := by
    refine (isInput_widenInputs f t c).2 (Or.inl (h.marked c hc ?_))
    rcases kind_widenInputs_or f t c with e | e <;> rw [e] at hu
    · exact hu
    · rwa [Kind.isUndecided_widenedKind] at hu
  inner c y hc hy := by
    rw [(widenInputs_steady hf t).rep]
    rcases kind_widenInputs f t c with e | ⟨-, flow, flow', -, e⟩
    · exact h.inner c y hc (e ▸ hy)
    · rw [e] at hy
      cases hy

end Sheltered

/-- Making new terms leaves the old ones sheltered. -/
theorem Sprouts.sheltered (hf : f.Sound) (h : f.Sprouts g) (hS : f.Sheltered S) :
    g.Sheltered S := by
  have hold : ∀ c, S c → c < f.size := fun c => hS.lt_size
  induction h with
  | refl => exact hS
  | @tail g g' hg hstep ih =>
    obtain ⟨hsound, hsteady⟩ := Sprouts.sound_steady hf hg
    cases hstep with
    | upkeep hup => exact ih.upkeep hsound.rooted hup
    | add hlink hrange => exact ih.add hsound.rooted hlink
    | graft hc hchild =>
      exact ih.setChild hsound.rooted fun _ hS' _ _ => absurd (hold _ hS') (Nat.not_lt.2 hc)

/-! ## Guarded types -/

/-- The type of the term has no constant, now or when it is decided. -/
def Guarded (f : Forest) (t : TermId) : Prop := ∃ S, f.Sheltered S ∧ S (f.rep t)

namespace Guarded

/-- A guarded base type is widened. -/
theorem widened (h : f.Guarded t) : widenedKind (f.kind (f.rep t)) = f.kind (f.rep t) := by
  obtain ⟨S, hS, ht⟩ := h
  exact hS.widened _ ht

/-- What is guarded and undecided is marked. -/
theorem marked (h : f.Guarded t) (hu : (f.kind (f.rep t)).isUndecided = true) : f.IsMarked t := by
  obtain ⟨S, hS, ht⟩ := h
  exact hS.marked _ ht hu

private theorem inner {y : TermId} (h : f.Guarded t) (hy : f.kind (f.rep t) = .nilable y) :
    f.Guarded y := by
  obtain ⟨S, hS, ht⟩ := h
  exact ⟨S, hS, hS.inner _ y ht hy⟩

/-- All terms of a class are guarded, or none. -/
theorem congr (h : f.Guarded t) (hx : f.rep x = f.rep t) : f.Guarded x := by
  rwa [Guarded, hx]

/-- A type that is decided is guarded if it is widened. -/
theorem of_decided (h : widenedKind (f.kind (f.rep t)) = f.kind (f.rep t))
    (hu : (f.kind (f.rep t)).isUndecided = false) : f.Guarded t := by
  refine ⟨(· = f.rep t), ⟨?_, ?_, ?_⟩, rfl⟩
  · rintro c rfl
    exact h
  · rintro c rfl hu'
    rw [hu] at hu'
    cases hu'
  · rintro c y rfl hy
    rw [hy] at hu
    cases hu

/-- Errors are guarded. -/
theorem of_isError (h : f.IsError t) : f.Guarded t := by
  rw [IsError] at h
  refine .of_decided ?_ ?_ <;> revert h <;> cases f.kind (f.rep t) <;>
    first | exact fun _ => rfl | exact fun h => absurd h Bool.false_ne_true

end Guarded

/-- The guarded classes together are sheltered. -/
theorem sheltered_guarded (hf : f.Rooted) : f.Sheltered fun c => f.rep c = c ∧ f.Guarded c where
  widened c hc := by
    have h := hc.2.widened
    rwa [hc.1] at h
  marked c hc hu := by
    have h := hc.2.marked (by rwa [hc.1])
    rwa [IsMarked, hc.1] at h
  inner c y hc hy :=
    ⟨rep_rep hf y, (hc.2.inner (y := y) (by rwa [hc.1])).congr (rep_rep hf y)⟩

/-- A walk meets whatever its classes lead to. -/
theorem reachBy_closed (hf : f.Sound) {next : Kind → List TermId}
    (hnext : ∀ k : Kind, next k ⊆ k.children) (ht : t < f.size) {c : TermId}
    (hc : c ∈ f.reachBy next t) {y : TermId} (hy : y ∈ next (f.kind c)) :
    f.rep y ∈ f.reachBy next t := by
  have hrange : ∀ x, ∀ d ∈ next (f.kind x), f.rep d < f.size := fun x d hd =>
    rep_lt_size hf.rooted (hf.inRange x d (hnext _ hd))
  have hfuel : (f.unseen []).card ≤ f.size + 1 := by
    rw [unseen, List.toFinset_nil, Finset.sdiff_empty, Finset.card_range]
    exact Nat.le_succ _
  have hwalked := reachFrom_walked hrange (rep_lt_size hf.rooted ht) hfuel
  rw [reachBy, List.mem_reverse] at hc ⊢
  exact hwalked.closed c hc List.not_mem_nil y hy

/-- Widening inputs guards whatever it marks. -/
theorem guarded_of_mem_reachBy (hf : f.Sound) (ht : t < f.size)
    (hx : f.rep x ∈ f.reachBy Kind.inputs t) : (f.widenInputs t).Guarded x := by
  have hrep := (widenInputs_steady hf.rooted t).rep
  refine ⟨(· ∈ f.reachBy Kind.inputs t), ⟨fun c hc => ?_, fun c hc _ => ?_, fun c y hc hy => ?_⟩,
    by rwa [hrep]⟩
  · rw [kind_widenInputs_eq, if_pos hc, widenedKind_widenedKind]
  · refine (isInput_widenInputs f t c).2 (Or.inr ⟨hc, ?_⟩)
    exact (reaches_of_mem_reachBy hf.rooted Kind.inputs_subset hc).lt_size hf
      (rep_lt_size hf.rooted ht)
  · rw [hrep]
    refine reachBy_closed hf Kind.inputs_subset ht hc ?_
    rcases kind_widenInputs f t c with e | ⟨-, flow, flow', -, e⟩
    · rw [← e, hy]
      exact List.mem_singleton_self y
    · rw [e] at hy
      cases hy

/-! ## Marks that are upheld -/

/-- Merged terms stay merged, marked and guarded terms stay so, and what is marked anew is guarded. -/
structure Upholds (f g : Forest) : Prop where
  rep : ∀ x y, f.rep x = f.rep y → g.rep x = g.rep y
  marked : ∀ t, f.IsMarked t → g.IsMarked t
  guarded : ∀ t, f.Guarded t → g.Guarded t
  fresh : ∀ t, g.IsMarked t → g.Guarded t ∨ ∃ x, f.IsMarked x ∧ g.rep x = g.rep t

namespace Upholds

/-- A forest upholds its own marks. -/
theorem refl (f : Forest) : Upholds f f :=
  ⟨fun _ _ => id, fun _ => id, fun _ => id, fun t ht => Or.inr ⟨t, ht, rfl⟩⟩

/-- Marks are upheld in turn. -/
theorem trans {h : Forest} (hfg : Upholds f g) (hgh : Upholds g h) : Upholds f h where
  rep x y hxy := hgh.rep x y (hfg.rep x y hxy)
  marked t ht := hgh.marked t (hfg.marked t ht)
  guarded t ht := hgh.guarded t (hfg.guarded t ht)
  fresh t ht := by
    rcases hgh.fresh t ht with hguarded | ⟨x, hx, hxt⟩
    · exact Or.inl hguarded
    rcases hfg.fresh x hx with hguarded | ⟨y, hy, hyx⟩
    · exact Or.inl ((hgh.guarded x hguarded).congr hxt.symm)
    · exact Or.inr ⟨y, hy, (hgh.rep y x hyx).trans hxt⟩

/-- Where no class is merged it is enough to look at classes. -/
theorem of_steady (hs : Steady f g) (hmarked : ∀ c, f.isInput c = true → g.isInput c = true)
    (hsheltered : ∀ S, f.Sheltered S → g.Sheltered S)
    (hfresh : ∀ t, g.isInput (f.rep t) = true → f.isInput (f.rep t) = true ∨ g.Guarded t) :
    Upholds f g where
  rep := hs.grows.rep
  marked t ht := by
    rw [IsMarked, hs.rep]
    exact hmarked _ ht
  guarded t ht := by
    obtain ⟨S, hS, ht⟩ := ht
    exact ⟨S, hsheltered S hS, by rwa [hs.rep]⟩
  fresh t ht := by
    rw [IsMarked, hs.rep] at ht
    exact (hfresh t ht).symm.imp_right fun h => ⟨t, h, rfl⟩

/-- No mark is changed, and classes stay sheltered. -/
theorem of_isInput (hs : Steady f g) (hinput : ∀ c, g.isInput c = f.isInput c)
    (hsheltered : ∀ S, f.Sheltered S → g.Sheltered S) : Upholds f g :=
  .of_steady hs (fun c hc => by rw [hinput, hc]) hsheltered fun t ht => by
    rw [hinput] at ht
    exact Or.inl ht

end Upholds

/-- Tidying up upholds marks. -/
theorem upholds_upkeeps (hf : f.Rooted) (h : f.Upkeeps g) : Upholds f g :=
  .of_isInput (h.steady hf) h.isInput fun _ hS => hS.upkeeps hf h

/-- So does registering nodes. -/
theorem upholds_addDeps (hf : f.Rooted) (t : TermId) (nodes : List NodeId) :
    Upholds f (f.addDeps t nodes) := by
  have hs := addDeps_steady hf t nodes
  exact .of_isInput hs (isInput_addDeps f t · nodes) fun _ hS =>
    hS.congr hs.rep (fun c _ => kind_addDeps _ _ _ _) fun c _ => isInput_addDeps _ _ _ _

/-- A new term without a mark does not matter. -/
theorem upholds_add (hf : f.Rooted) {term : Term} (hlink : term.kind.isLink = false)
    (hinput : term.isInput = false) : Upholds f (f.add term).2 := by
  have hnew : f.isInput f.size = false := by
    rw [Bool.eq_false_iff]
    exact fun h => Nat.lt_irrefl _ (lt_size_of_isInput h)
  refine .of_isInput (steady_add hf hlink) (fun c => ?_) fun _ hS => hS.add hf hlink
  rw [isInput_add]
  split
  · rename_i e
    rw [hinput, e, hnew]
  · rfl

/-- So does setting the kind of a class that is not guarded, or to one that is wide and decided. -/
theorem upholds_setKind {k : Kind} (hs : Steady f (f.setKind x k))
    (hk : f.Guarded x → widenedKind k = k ∧ k.isUndecided = false) (hx : f.rep x = x) :
    Upholds f (f.setKind x k) :=
  .of_isInput hs (isInput_setKind f x · k) fun S hS => hS.setKind hs fun h =>
    hk ⟨S, hS, by rwa [hx]⟩

/-- So does widening inputs. -/
theorem upholds_widenInputs (hf : f.Sound) (ht : t < f.size) : Upholds f (f.widenInputs t) :=
  .of_steady (widenInputs_steady hf.rooted t)
    (fun c hc => (isInput_widenInputs f t c).2 (Or.inl hc))
    (fun _ hS => hS.widenInputs hf.rooted t) fun _ hx =>
      ((isInput_widenInputs f t _).1 hx).imp_right fun h => guarded_of_mem_reachBy hf ht h.1

section Link

variable {loser winner : TermId} (hf : f.Rooted) (hl : f.IsClass loser) (hw : f.IsClass winner)
  (hne : loser ≠ winner)

include hf hl hw hne

/-- A merge leaves types guarded if the winner is when the loser is. -/
theorem guarded_link (hguarded : f.Guarded loser → f.Guarded winner) (ht : f.Guarded t) :
    (f.link loser winner).Guarded t := by
  have hrep := rep_link_eq hf hl.root hw.root hne hl.lt hw.lt
  have hkind : ∀ c, c ≠ loser → (f.link loser winner).kind c = f.kind c := fun c hc => by
    rw [kind_link hl.lt, if_neg hc.symm]
  have hS := sheltered_guarded hf
  have hmoved : ∀ y, f.Guarded y → (f.link loser winner).rep y ≠ loser ∧
      f.rep ((f.link loser winner).rep y) = (f.link loser winner).rep y ∧
      f.Guarded ((f.link loser winner).rep y) := by
    intro y hy
    rw [hrep]
    split
    · rename_i e
      exact ⟨hne.symm, hw.rep_eq, hguarded (hy.congr (by rw [hl.rep_eq, e]))⟩
    · rename_i e
      exact ⟨e, rep_rep hf y, hy.congr (rep_rep hf y)⟩
  refine ⟨fun c => c ≠ loser ∧ f.rep c = c ∧ f.Guarded c,
    ⟨fun c hc => ?_, fun c hc hu => ?_, fun c y hc hy => ?_⟩, hmoved t ht⟩
  · rw [hkind c hc.1]
    exact hS.widened c hc.2
  · rw [hkind c hc.1] at hu
    rw [isInput_link hl.lt, if_neg hc.1.symm]
    exact hS.marked c hc.2 hu
  · rw [hkind c hc.1] at hy
    exact hmoved y (hc.2.2.inner (by rwa [hc.2.1]))

/-- What is marked after a merge was so before. -/
theorem isMarked_of_link (ht : (f.link loser winner).IsMarked t) :
    ∃ x, f.IsMarked x ∧ (f.link loser winner).rep x = (f.link loser winner).rep t := by
  have hrep := rep_link_eq hf hl.root hw.root hne hl.lt hw.lt
  rw [IsMarked, isInput_link hl.lt] at ht
  split at ht
  · cases ht
  rename_i e
  refine ⟨(f.link loser winner).rep t, ?_, rep_rep (rooted_link hf hl.root hw.root hne hl.lt hw.lt) t⟩
  rw [hrep] at ht e ⊢
  rw [IsMarked]
  split at ht
  · rwa [if_pos ‹_›, hw.rep_eq]
  · rwa [if_neg ‹_›, rep_rep hf]

/-- A merge upholds marks if the winner is marked and guarded when the loser is. -/
theorem upholds_link (hmarked : f.isInput loser = true → f.isInput winner = true)
    (hguarded : f.Guarded loser → f.Guarded winner) : Upholds f (f.link loser winner) where
  rep := (link_grows hf hl.root hw.root hne hl.lt hw.lt).rep
  marked t ht := by
    rw [IsMarked, rep_link_eq hf hl.root hw.root hne hl.lt hw.lt, isInput_link hl.lt]
    split
    · rename_i e
      exact hmarked (e ▸ ht)
    · rename_i e
      rw [if_neg (Ne.symm e)]
      exact ht
  guarded t ht := guarded_link hf hl hw hne hguarded ht
  fresh t ht := Or.inr (isMarked_of_link hf hl hw hne ht)

end Link

end Forest

end TypeFlow
