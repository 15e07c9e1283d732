import TypeFlow.Proofs.Accrual
import TypeFlow.Proofs.Upkeep

/-!
# Changes of a forest

Everything that happens to a forest is made of a few changes: tidying up, new terms, kinds that
become more definite, wider inputs, more registered nodes, more fields, and merges.  Each of them
keeps the forest sound, is an evolution, and leaves every node registered with all that its term
leads to.  If whoever is registered with a class that a change disturbs is told, nobody misses a
change of what a term led to.

Main definitions:

- `Forest.Change`: the changes.
- `Forest.Leads`: changes in turn, each of which tells whom it disturbs.

Main results:

- `Forest.Change.sound`, `Forest.Change.evolves`, `Forest.Change.registered`: what a change keeps.
- `Forest.Leads.woken`: who is not told of any change still sees the classes as they were.
-/

namespace TypeFlow

/-- The second kind says more than the first and has no other children. -/
structure Kind.Refines (k k' : Kind) : Prop where
  root : k.isLink = false
  root' : k'.isLink = false
  accrues : k.Accrues k'
  children : ∀ x ∈ k'.children, x ∈ k.children

private theorem Kind.Refines.firm {k k' : Kind} (h : k.Refines k') : k' = .var → k = .var :=
  h.accrues.eq_var

namespace Forest

variable {f g : Forest}

/-! ## What is known of a class -/

/-- What is known of every class is known of the class that its terms are in later on. -/
def Accrues (f g : Forest) : Prop := ∀ t, (f.kind (f.rep t)).Accrues (g.kind (g.rep t))

namespace Accrues

/-- A forest accrues to itself. -/
theorem refl (hf : f.Rooted) : f.Accrues f := fun t => .refl (not_isLink_rep hf t)

/-- Forests accrue in turn. -/
theorem trans {h : Forest} (hfg : f.Accrues g) (hgh : g.Accrues h) : f.Accrues h :=
  fun t => (hfg t).trans (hgh t)

/-- Where no class is merged it is enough to look at the classes. -/
theorem of_steady (hf : f.Rooted) (hs : Steady f g)
    (h : ∀ c, (f.kind c).isLink = false → (f.kind c).Accrues (g.kind c)) : f.Accrues g := by
  intro t
  rw [hs.rep]
  exact h _ (not_isLink_rep hf t)

end Accrues

private theorem accrues_setChild (t : TermId) (slot : Slot) (child : TermId) {c : TermId}
    (hc : (f.kind c).isLink = false) : (f.kind c).Accrues ((f.setChild t slot child).kind c) := by
  rw [kind_setChild]
  split
  · exact Kind.accrues_setChild hc
  · exact .refl hc

/-- A wrapper that is looked up still has nil among its values. -/
theorem accrues_absorbedKind (inner inner' : TermId) {k : Kind} (h : k.isLink = false) :
    (Kind.nilable inner).Accrues (absorbedKind inner' k) := by
  cases k with
  | base flow => exact .nilable flow.mayNil_orNil
  | error cause => exact .error rfl cause
  | link t => cases h
  | _ => exact .nilable rfl

/-- The kind that is left for a wrapped class: without nil, and widened if values from callers flow into
the class. -/
def strippedKind (input : Bool) (k : Kind) : Kind :=
  if input then widenedKind k.withoutNil else k.withoutNil

/-- A type that is wrapped without nil says as much as before. -/
theorem accrues_rewrapped {k : Kind} (inner : TermId) (input : Bool) (hlink : k.isLink = false)
    (hvar : k ≠ .var) (hnilable : k.isNilable = false) :
    k.Accrues (absorbedKind inner (strippedKind input k)) ∧
      (strippedKind input k).isNilable = false := by
  cases k with
  | base flow =>
    cases input with
    | false => exact ⟨.base flow.covers_orNil_withoutNil, rfl⟩
    | true => exact ⟨.base flow.covers_orNil_widen_withoutNil, rfl⟩
  | function args ret fids nil =>
    cases input <;> exact ⟨.function rfl (fun _ hx => hx) fun _ => rfl, rfl⟩
  | record fields sites isOpen nil =>
    cases input <;> exact ⟨.record (fun _ hx => hx) id fun _ => rfl, rfl⟩
  | error cause => cases input <;> exact ⟨.error rfl cause, rfl⟩
  | var => exact absurd rfl hvar
  | nilable x => cases hnilable
  | link t => cases hlink

private theorem Upkeep.accrues (hf : f.Rooted) (h : f.Upkeep g) {c : TermId}
    (hc : (f.kind c).isLink = false) : (f.kind c).Accrues (g.kind c) := by
  cases h with
  | @shorten t u h =>
    rw [kind_setKind, if_neg]
    · exact .refl hc
    · rintro ⟨rfl, -⟩
      rw [h] at hc
      cases hc
  | remember h => exact accrues_setChild _ _ _ hc
  | @absorb w inner h =>
    have hinner := not_isLink_rep hf inner
    rw [kind_absorb hinner]
    split
    · rename_i e
      rw [← e.1, h]
      exact accrues_absorbedKind _ _ hinner
    · exact .refl hc

/-- New terms say nothing of the old ones. -/
theorem Sprouts.accrues (hf : f.Sound) (h : f.Sprouts g) : f.Accrues g := by
  have hold : ∀ c, c < f.size → (f.kind c).isLink = false → (f.kind c).Accrues (g.kind c) := by
    intro c hlt hc
    induction h with
    | refl => exact .refl hc
    | @tail g g' hg hstep ih =>
      obtain ⟨hsound, hsteady⟩ := Sprouts.sound_steady hf hg
      rcases hstep.kind_eq hsteady.size hlt with hup | hkind
      · exact ih.trans (hup.accrues hsound.rooted (by rw [hsteady.isLink, hc]))
      · rw [hkind]
        exact ih
  refine .of_steady hf.rooted (sound_steady hf h).2 fun c hc => ?_
  by_cases hlt : c < f.size
  · exact hold c hlt hc
  · rw [kind_of_size_le (Nat.le_of_not_lt hlt)]
    exact .var _

/-! ## More definite kinds -/

/-- Refining a kind moves no term to another class. -/
theorem refine_steady (hf : f.Rooted) {t : TermId} {k : Kind} (h : (f.kind t).Refines k) :
    Steady f (f.setKind t k) := by
  apply steady_of_kinds hf (size_setKind _ _ _).ge
  · intro x
    rw [kind_setKind]
    split
    · rename_i e
      obtain ⟨rfl, -⟩ := e
      exact Or.inr ⟨h.root, h.root', h.firm⟩
    · exact Or.inl rfl
  · intro x n hn
    rw [deps_setKind]
    exact hn

private theorem mem_children_refine {t x y : TermId} {k : Kind} (h : (f.kind t).Refines k)
    (hy : y ∈ ((f.setKind t k).kind x).children) : y ∈ (f.kind x).children := by
  rw [kind_setKind] at hy
  split at hy
  · rename_i e
    obtain ⟨rfl, -⟩ := e
    exact h.children y hy
  · exact hy

/-- Refining a kind disturbs its class only. -/
theorem disturbs_refine {t c : TermId} {k : Kind} (h : f.Disturbs (f.setKind t k) c) : c = t := by
  by_contra hne
  refine not_disturbs_of_kind ?_ h
  rw [kind_setKind, if_neg fun e => hne e.1.symm]

/-! ## Wider inputs -/

/-- Widening inputs changes base types that values are passed in through, and no other kind. -/
theorem kind_widenInputs (f : Forest) (t x : TermId) :
    (f.widenInputs t).kind x = f.kind x ∨ x ∈ f.reachBy Kind.inputs t ∧
      ∃ flow flow', f.kind x = .base flow ∧ (f.widenInputs t).kind x = .base flow' := by
  rw [kind_widenInputs_eq]
  split
  · rename_i hx
    cases f.kind x with
    | base flow => exact Or.inr ⟨hx, flow, flow.widen, rfl, rfl⟩
    | _ => exact Or.inl rfl
  · exact Or.inl rfl

/-- Widening inputs makes of a kind its widened kind at most. -/
theorem kind_widenInputs_or (f : Forest) (t x : TermId) :
    (f.widenInputs t).kind x = f.kind x ∨ (f.widenInputs t).kind x = widenedKind (f.kind x) := by
  rw [kind_widenInputs_eq]
  split
  · exact Or.inr rfl
  · exact Or.inl rfl

@[simp] theorem deps_widenInputs (f : Forest) (t x : TermId) :
    (f.widenInputs t).deps x = f.deps x := by
  rw [widenInputs_eq]
  generalize f.reachBy Kind.inputs t = ts
  induction ts generalizing f with
  | nil => rfl
  | cons r rest ih => rw [List.foldl_cons, ih, deps_markInput]

private theorem unions_widenInputs (f : Forest) (t : TermId) : (f.widenInputs t).unions = f.unions := by
  unfold widenInputs
  generalize f.reachBy Kind.inputs t = ts
  induction ts generalizing f with
  | nil => rfl
  | cons r rest ih =>
    rw [List.foldl_cons, ih]
    rfl

/-- Widening inputs moves no term to another class. -/
theorem widenInputs_steady (hf : f.Rooted) (t : TermId) : Steady f (f.widenInputs t) := by
  apply steady_of_kinds hf (size_widenInputs f t).ge
  · intro x
    rcases kind_widenInputs f t x with e | ⟨-, flow, flow', hflow, hflow'⟩
    · exact Or.inl e
    · rw [hflow, hflow']
      exact Or.inr ⟨rfl, rfl, fun h => Kind.noConfusion h⟩
  · intro x n hn
    rw [deps_widenInputs]
    exact hn

private theorem children_widenInputs (f : Forest) (t x : TermId) :
    ((f.widenInputs t).kind x).children = (f.kind x).children := by
  rcases kind_widenInputs f t x with e | ⟨-, flow, flow', hflow, hflow'⟩
  · rw [e]
  · rw [hflow, hflow']
    rfl

/-- Widening inputs makes no variable known. -/
theorem widenInputs_eq_var (f : Forest) (t x : TermId) :
    (f.widenInputs t).kind x = .var ↔ f.kind x = .var := by
  rcases kind_widenInputs f t x with e | ⟨-, flow, flow', hflow, hflow'⟩
  · rw [e]
  · simp [hflow, hflow']

/-- A kind accrues to what it is widened to. -/
theorem accrues_widenedKind {k : Kind} (h : k.isLink = false) :
    k.Accrues (widenedKind k) ∧ (widenedKind k).isLink = false := by
  cases k with
  | base flow => exact ⟨.base flow.covers_widen, rfl⟩
  | _ => exact ⟨.refl h, h⟩

private theorem accrues_widenInputs (t : TermId) {c : TermId} (hc : (f.kind c).isLink = false) :
    (f.kind c).Accrues ((f.widenInputs t).kind c) := by
  rcases kind_widenInputs_or f t c with e | e <;> rw [e]
  · exact .refl hc
  · exact (accrues_widenedKind hc).1

/-- Widening the inputs of a class without children changes no other class. -/
theorem kind_widenInputs_of_ne (hf : f.Rooted) {t x : TermId} (ht : (f.kind t).isLink = false)
    (hchildren : (f.kind t).children = []) (hne : x ≠ t) :
    (f.widenInputs t).kind x = f.kind x := by
  rcases kind_widenInputs f t x with e | ⟨hmem, -⟩
  · exact e
  have hreach := reaches_of_mem_reachBy hf Kind.inputs_subset hmem
  rw [rep_of_not_link ht] at hreach
  rcases Relation.ReflTransGen.cases_head hreach with rfl | ⟨y, ⟨slot, z, hz, -⟩, -⟩
  · exact absurd rfl hne
  · have hz := Kind.mem_children_of_child? hz
    rw [hchildren] at hz
    exact absurd hz List.not_mem_nil

/-- What is known of a class may be known of another as well when the inputs of that are widened. -/
theorem accrues_widenInputs_winner (hf : f.Rooted) {loser winner : TermId} (hne : loser ≠ winner)
    (hw : (f.kind winner).isLink = false) (h : (f.kind loser).Accrues (f.kind winner)) :
    ((f.widenInputs winner).kind loser).Accrues ((f.widenInputs winner).kind winner) := by
  have hloser : (f.widenInputs winner).kind loser = f.kind loser := by
    rcases kind_widenInputs f winner loser with e | ⟨-, flow, -, hflow, -⟩
    · exact e
    refine kind_widenInputs_of_ne hf hw ?_ hne
    rw [hflow] at h
    revert h
    cases f.kind winner with
    | base flow' => exact fun _ => rfl
    | error cause => exact fun _ => rfl
    | _ => exact fun h => nomatch h
  rw [hloser]
  exact h.trans (accrues_widenInputs winner hw)

/-- Classes still lead where they led. -/
theorem Reaches.widenInputs (hf : f.Rooted) {a b : TermId} (h : f.Reaches a b) (t : TermId) :
    (f.widenInputs t).Reaches a b := by
  have hs := widenInputs_steady hf t
  refine Relation.ReflTransGen.mono (fun x y hxy => ?_) _ _ h
  refine hxy.of_children (by rw [hs.isLink, hxy.isLink]) (fun z => (hs.rep z).symm) fun z hz => ?_
  rwa [children_widenInputs]

/-- Widening inputs disturbs classes only that the type leads to. -/
theorem disturbs_widenInputs (hf : f.Rooted) {t c : TermId} (h : f.Disturbs (f.widenInputs t) c) :
    f.Reaches (f.rep t) c := by
  rcases kind_widenInputs f t c with e | ⟨hmem, -⟩
  · exact absurd h (not_disturbs_of_kind e)
  · exact reaches_of_mem_reachBy hf Kind.inputs_subset hmem

/-- Passing on that a class is an input widens what the winner leads to, or nothing. -/
theorem kind_passInput_or (f : Forest) (loser winner x : TermId) :
    (f.passInput loser winner).kind x = f.kind x ∨
      (f.passInput loser winner).kind x = (f.widenInputs winner).kind x := by
  unfold passInput
  split
  · exact Or.inr rfl
  · exact Or.inl rfl

/-- Passing that on moves no term to another class. -/
theorem passInput_steady (hf : f.Rooted) (loser winner : TermId) :
    Steady f (f.passInput loser winner) := by
  unfold passInput
  split
  · exact widenInputs_steady hf winner
  · exact .refl hf

/-! ## Registered nodes -/

/-- Registering nodes moves no term to another class. -/
theorem addDeps_steady (hf : f.Rooted) (t : TermId) (nodes : List NodeId) :
    Steady f (f.addDeps t nodes) := by
  apply steady_of_kinds hf (size_addDeps _ _ _).ge
  · intro x
    rw [kind_addDeps]
    exact Or.inl rfl
  · intro x n hn
    exact mem_deps_addDeps.2 (Or.inl hn)

/-- Registered nodes do not matter for soundness. -/
theorem Sound.of_kinds (hf : f.Sound) (hkind : ∀ t, g.kind t = f.kind t) (hsize : g.size = f.size)
    (hunions : g.unions = f.unions) : g.Sound where
  rooted := by
    obtain ⟨rank, hrank⟩ := hf.rooted
    refine ⟨rank, fun t u hu => ?_⟩
    rw [hkind] at hu
    rw [hsize]
    exact hrank t u hu
  inRange t x hx := by
    rw [hkind] at hx
    rw [hsize]
    exact hf.inRange t x hx
  counted := by
    have hroots : g.roots g.size = f.roots f.size := by
      ext t
      rw [mem_roots, mem_roots, hsize, hkind]
    rw [classes_eq_card, hroots, ← classes_eq_card, hunions, hsize, hf.counted]

/-- Registering nodes keeps a forest sound. -/
theorem addDeps_sound (hf : f.Sound) (t : TermId) (nodes : List NodeId) :
    (f.addDeps t nodes).Sound :=
  hf.of_kinds (fun _ => kind_addDeps _ _ _ _) (size_addDeps _ _ _) (unions_addDeps _ _ _)

/-! ## Ways between the same kinds -/

private theorem rep_congr (hkind : ∀ t, g.kind t = f.kind t) (hsize : g.size = f.size) (t : TermId) :
    g.rep t = f.rep t := by
  have hfollow : ∀ n t, g.follow n t = f.follow n t := by
    intro n
    induction n with
    | zero => exact fun t => rfl
    | succ n ih =>
      intro t
      rw [follow, follow, hkind]
      cases f.kind t with
      | link u => exact ih u
      | _ => rfl
  have hterms : g.terms.size = f.terms.size := hsize
  rw [rep, rep, hterms, hfollow]

private theorem edge_congr (hkind : ∀ t, g.kind t = f.kind t) (hsize : g.size = f.size) {a b : TermId} :
    g.Edge a b ↔ f.Edge a b := by
  unfold Edge
  simp only [hkind, rep_congr hkind hsize]

private theorem reaches_congr (hkind : ∀ t, g.kind t = f.kind t) (hsize : g.size = f.size)
    {a b : TermId} (h : f.Reaches a b) : g.Reaches a b :=
  Relation.ReflTransGen.mono (fun _ _ => (edge_congr hkind hsize).2) _ _ h

/-! ## More fields -/

/-- The forest with a field set in a record, whose registered nodes are registered with it. -/
def withField (f : Forest) (t : TermId) (label : String) (value : TermId) : Forest :=
  (f.setChild t (.field label) value).addDeps value (f.deps t).toList

/-- Adding a field changes the kind of its record only. -/
theorem kind_withField (f : Forest) (t : TermId) (label : String) (value x : TermId) :
    (f.withField t label value).kind x =
      if t = x then (f.kind x).setChild (.field label) value else f.kind x := by
  rw [withField, kind_addDeps, kind_setChild]

/-- Adding a field makes no term. -/
theorem size_withField (f : Forest) (t : TermId) (label : String) (value : TermId) :
    (f.withField t label value).size = f.size := by
  rw [withField, size_addDeps, size_setChild]

/-- Adding a field moves no term to another class. -/
theorem withField_steady (hf : f.Rooted) (t : TermId) (label : String) (value : TermId) :
    Steady f (f.withField t label value) :=
  have hset := setChild_steady hf t (.field label) value
  hset.trans (addDeps_steady hset.rooted _ _)

private theorem withField_sound (hf : f.Sound) (t : TermId) (label : String) {value : TermId}
    (hvalue : value < f.size) : (f.withField t label value).Sound :=
  addDeps_sound (setChild_sound hf t (.field label) hvalue) _ _

/-- Adding a field disturbs its record only. -/
theorem disturbs_withField {t c value : TermId} {label : String}
    (h : f.Disturbs (f.withField t label value) c) : c = t := by
  by_contra hne
  refine not_disturbs_of_kind ?_ h
  rw [kind_withField, if_neg (Ne.symm hne)]

/-- A new field leads to what its value leads to, and there the nodes of the record are registered
by now. -/
theorem Registered.withField {u t value : TermId} {n : NodeId} (hf : f.Sound)
    (h : f.Registered u n) (label : String) (hvalue : value < f.size) :
    (f.withField t label value).Registered u n := by
  set f₁ := f.setChild t (.field label) value with hf₁
  have hsound₁ : f₁.Sound := setChild_sound hf t (.field label) hvalue
  have hrep₁ : ∀ x, f₁.rep x = f.rep x := (setChild_steady hf.rooted t (.field label) value).rep
  have hsteady := withField_steady hf.rooted t label value
  have hkind : ∀ x, (f.withField t label value).kind x = f₁.kind x := fun x => kind_addDeps _ _ _ _
  have hway : ∀ c, (f.withField t label value).Reaches (f.rep u) c →
      f.Reaches (f.rep u) c ∨ f.Reaches (f.rep u) t ∧ f₁.Reaches (f₁.rep value) c := by
    intro c hc
    induction hc with
    | refl => exact Or.inl .refl
    | @tail a b _ hedge ih =>
      have hedge₁ : f₁.Edge a b := (edge_congr hkind (size_addDeps _ _ _)).1 hedge
      rcases ih with hold | ⟨ht, hnew⟩
      · have ha : (f.kind a).isLink = false := by rw [← hsteady.isLink, hedge.isLink]
        obtain ⟨slot, x, hx, rfl⟩ := hedge₁
        rw [hf₁, kind_setChild] at hx
        split at hx
        · rename_i e
          subst e
          rcases Kind.mem_children_setChild (Kind.mem_children_of_child? hx) with rfl | hx
          · exact Or.inr ⟨hold, .refl⟩
          · exact Or.inl (hold.tail ((edge_iff ha).2 ⟨x, hx, (hrep₁ x).symm⟩))
        · exact Or.inl (hold.tail ⟨slot, x, hx, (hrep₁ x).symm⟩)
      · exact Or.inr ⟨ht, hnew.tail hedge₁⟩
  intro c hc
  rw [hsteady.rep] at hc
  rcases hway c hc with hold | ⟨ht, hnew⟩
  · exact hsteady.deps c n (h c hold)
  · refine mem_deps_addDeps_of_reaches hsound₁ ?_ (h t ht) hnew
    rw [hf₁, size_setChild]
    exact hvalue

/-! ## Merges -/

section Link

variable {loser winner : TermId} (hf : f.Sound) (hloser : (f.kind loser).isLink = false)
  (hwinner : (f.kind winner).isLink = false) (hne : loser ≠ winner) (hl : loser < f.size)
  (hw : winner < f.size)

include hf hwinner hw in
/-- The winner hands the nodes of the loser on to every class that it leads to. -/
theorem mem_deps_handOver_of_reaches {c : TermId} {n : NodeId} (hn : n ∈ f.deps loser)
    (hc : f.Reaches winner c) : n ∈ (f.handOver loser winner).deps c := by
  set f₁ := f.update loser fun term => { term with deps := .empty } with hf₁
  have hkind : ∀ t, f₁.kind t = f.kind t := by
    intro t
    rw [hf₁, kind_update]
    split
    · unfold kind
      cases f.terms[t]? <;> rfl
    · rfl
  have hsize : f₁.size = f.size := size_update _ _ _
  have hrep := rep_congr hkind hsize
  have hsound : f₁.Sound := hf.of_kinds hkind hsize rfl
  refine mem_deps_addDeps_of_reaches hsound (by rw [hsize]; exact hw) hn ?_
  rw [hrep, rep_of_not_link hwinner]
  exact reaches_congr hkind hsize hc

include hf hloser hwinner hne hl hw in
/-- A merged class leads to what the winner leads to, and there the nodes of the loser are
registered by now. -/
theorem Registered.link {t : TermId} {n : NodeId} (h : f.Registered t n) :
    (f.link loser winner).Registered t n := by
  have hrep := rep_link_eq hf.rooted hloser hwinner hne hl hw
  have hway : ∀ c, (f.link loser winner).Reaches ((f.link loser winner).rep t) c → c ≠ loser ∧
      (f.Reaches (f.rep t) c ∨ f.Reaches (f.rep t) loser ∧ f.Reaches winner c) := by
    intro c hc
    induction hc with
    | refl =>
      rw [hrep]
      split
      · rename_i e
        rw [e]
        exact ⟨Ne.symm hne, Or.inr ⟨.refl, .refl⟩⟩
      · rename_i e
        exact ⟨e, Or.inl .refl⟩
    | @tail a b _ hedge ih =>
      obtain ⟨ha, hreach⟩ := ih
      obtain ⟨slot, x, hx, rfl⟩ := hedge
      rw [kind_link hl, if_neg (Ne.symm ha)] at hx
      have hedge : f.Edge a (f.rep x) := ⟨slot, x, hx, rfl⟩
      rw [hrep]
      split
      · rename_i e
        rw [e] at hedge
        refine ⟨Ne.symm hne, Or.inr ⟨?_, .refl⟩⟩
        rcases hreach with hold | ⟨hlost, -⟩
        · exact hold.tail hedge
        · exact hlost
      · rename_i e
        exact ⟨e, hreach.imp (·.tail hedge) fun hnew => ⟨hnew.1, hnew.2.tail hedge⟩⟩
  intro c hc
  rw [deps_link]
  obtain ⟨hc, hold | ⟨hlost, hnew⟩⟩ := hway c hc
  · exact mem_deps_handOver hc (h c hold)
  · exact mem_deps_handOver_of_reaches hf hwinner hw (h loser hlost) hnew

end Link

/-- Linking disturbs the loser only. -/
theorem disturbs_link {loser winner c : TermId} (hl : loser < f.size)
    (h : f.Disturbs (f.link loser winner) c) : c = loser := by
  by_contra hne
  refine not_disturbs_of_kind ?_ h
  rw [kind_link hl, if_neg (Ne.symm hne)]

/-! ## One change -/

/-- What happens to a forest at a time. -/
inductive Change (f : Forest) : Forest → Prop
  | upkeep {g : Forest} (h : f.Upkeep g) : Change f g
  | sprouts {g : Forest} (h : f.Sprouts g) : Change f g
  | refine {t : TermId} {k : Kind} (h : (f.kind t).Refines k) : Change f (f.setKind t k)
  | widen (t : TermId) : Change f (f.widenInputs t)
  | register (t : TermId) (nodes : List NodeId) : Change f (f.addDeps t nodes)
  | addField {t value : TermId} (label : String) (hvalue : value < f.size) :
    Change f (f.withField t label value)
  | link {loser winner : TermId} (hloser : (f.kind loser).isLink = false)
      (hwinner : (f.kind winner).isLink = false) (hne : loser ≠ winner) (hl : loser < f.size)
      (hw : winner < f.size) (haccrues : (f.kind loser).Accrues (f.kind winner)) :
    Change f (f.link loser winner)

namespace Change

/-- Changes keep a forest sound. -/
theorem sound (hf : f.Sound) (h : f.Change g) : g.Sound := by
  cases h with
  | upkeep h => exact h.sound hf
  | sprouts h => exact (h.sound_steady hf).1
  | refine h =>
    refine hf.of_steady (refine_steady hf.rooted h) (size_setKind _ _ _) rfl ?_
    exact fun x y hy => hf.inRange x y (mem_children_refine h hy)
  | widen t =>
    refine hf.of_steady (widenInputs_steady hf.rooted t) (size_widenInputs _ _)
      (unions_widenInputs _ _) ?_
    intro x y hy
    rw [children_widenInputs] at hy
    exact hf.inRange x y hy
  | register t nodes => exact addDeps_sound hf t nodes
  | addField label hvalue => exact withField_sound hf _ label hvalue
  | link hloser hwinner hne hl hw haccrues => exact hf.link hloser hwinner hne hl hw

/-- A forest evolves by changes. -/
theorem evolves (hf : f.Sound) (h : f.Change g) : Evolves f g := by
  cases h with
  | upkeep h => exact (h.steady hf.rooted).evolves
  | sprouts h => exact (h.sound_steady hf).2.evolves
  | refine h => exact (refine_steady hf.rooted h).evolves
  | widen t => exact (widenInputs_steady hf.rooted t).evolves
  | register t nodes => exact (addDeps_steady hf.rooted t nodes).evolves
  | addField label hvalue => exact (withField_steady hf.rooted _ label _).evolves
  | link hloser hwinner hne hl hw haccrues =>
    exact evolves_link hf.rooted hloser hwinner hne hl hw haccrues.eq_var

/-- A node stays registered with all that its term leads to. -/
theorem registered (hf : f.Sound) (h : f.Change g) {t : TermId} {n : NodeId} (ht : t < f.size)
    (hn : f.Registered t n) : g.Registered t n := by
  have hsteady : Steady f g → (∀ a b, f.Reaches (f.rep t) a → g.Edge a b → f.Reaches a b) →
      g.Registered t n := fun hs hedge => hn.of_edges (hs.rep t) hedge fun c => hs.deps c n
  have hkinds : Steady f g → (∀ a, ∀ x ∈ (g.kind a).children, x ∈ (f.kind a).children) →
      g.Registered t n := fun hs hchildren => hsteady hs fun a b _ hedge => .single
    (hedge.of_children (by rw [← hs.isLink, hedge.isLink]) hs.rep (hchildren a))
  cases h with
  | upkeep h => exact hsteady (h.steady hf.rooted) fun a b _ hedge => h.edge hf.rooted hedge
  | sprouts h =>
    refine hsteady (h.sound_steady hf).2 fun a b ha hedge => h.edge hf ?_ hedge
    exact ha.lt_size hf (rep_lt_size hf.rooted ht)
  | refine h => exact hkinds (refine_steady hf.rooted h) fun a x hx => mem_children_refine h hx
  | widen u =>
    refine hkinds (widenInputs_steady hf.rooted u) fun a x hx => ?_
    rwa [children_widenInputs] at hx
  | register u nodes =>
    refine hkinds (addDeps_steady hf.rooted u nodes) fun a x hx => ?_
    rwa [kind_addDeps] at hx
  | addField label hvalue => exact hn.withField hf label hvalue
  | link hloser hwinner hne hl hw haccrues => exact hn.link hf hloser hwinner hne hl hw

/-- What is known of a class accumulates. -/
theorem accrues (hf : f.Sound) (h : f.Change g) : f.Accrues g := by
  cases h with
  | upkeep h => exact .of_steady hf.rooted (h.steady hf.rooted) fun _ => h.accrues hf.rooted
  | sprouts h => exact h.accrues hf
  | @refine t k h =>
    refine .of_steady hf.rooted (refine_steady hf.rooted h) fun c hc => ?_
    rw [kind_setKind]
    split
    · rename_i e
      obtain ⟨rfl, -⟩ := e
      exact h.accrues
    · exact .refl hc
  | widen t =>
    refine .of_steady hf.rooted (widenInputs_steady hf.rooted t) fun c hc => ?_
    exact accrues_widenInputs t hc
  | register t nodes =>
    refine .of_steady hf.rooted (addDeps_steady hf.rooted t nodes) fun c hc => ?_
    rw [kind_addDeps]
    exact .refl hc
  | @addField t value label hvalue =>
    refine .of_steady hf.rooted (withField_steady hf.rooted t label value) fun c hc => ?_
    rw [withField, kind_addDeps]
    exact accrues_setChild t (.field label) value hc
  | @link loser winner hloser hwinner hne hl hw haccrues =>
    intro t
    rw [rep_link_eq hf.rooted hloser hwinner hne hl hw, kind_link hl]
    split
    · rename_i e
      rw [e]
      exact haccrues
    · rename_i e
      rw [if_neg (Ne.symm e)]
      exact .refl (not_isLink_rep hf.rooted t)

end Change

/-! ## Changes in turn -/

/-- Changes in turn, each of which tells the nodes registered with the classes that it disturbs. -/
def Leads (told : NodeId → Prop) : Forest → Forest → Prop :=
  Relation.ReflTransGen fun f g =>
    f.Change g ∧ ∀ c n, f.Disturbs g c → n ∈ f.deps c → told n

namespace Leads

variable {told : NodeId → Prop}

/-- More nodes may be told. -/
theorem mono {told' : NodeId → Prop} (h : ∀ n, told n → told' n) (hg : Leads told f g) :
    Leads told' f g := by
  refine Relation.ReflTransGen.mono ?_ _ _ hg
  rintro f g ⟨hchange, htold⟩
  exact ⟨hchange, fun c n hc hn => h n (htold c n hc hn)⟩

/-- What is registered with a class that does not change need not be told. -/
theorem of_undisturbed (h : f.Change g) (hc : ∀ c, c < f.size → ¬f.Disturbs g c) :
    Leads told f g :=
  .single ⟨h, fun c _ hd hn => absurd hd (hc c (lt_size_of_deps hn))⟩

/-- Tidying up leads on whoever is told. -/
theorem of_upkeeps (hf : f.Rooted) (h : f.Upkeeps g) : Leads told f g := by
  induction h with
  | refl => exact .refl
  | @tail g g' hg hstep ih =>
    have hrooted := (Upkeeps.steady hf hg).rooted
    exact ih.trans (of_undisturbed (.upkeep hstep) fun c _ hd =>
      hd.2 (hstep.refreshed hrooted hd.1))

/-- So does making new terms. -/
theorem of_sprouts (hf : f.Sound) (h : f.Sprouts g) : Leads told f g :=
  of_undisturbed (.sprouts h) fun _ hc hd => hd.2 (h.refreshed hf hc hd.1)

/-- A forest that a sound one leads to is sound and evolved from it. -/
theorem sound_evolves (hf : f.Sound) (h : Leads told f g) : g.Sound ∧ Evolves f g := by
  induction h with
  | refl => exact ⟨hf, .refl hf.rooted⟩
  | tail _ hstep ih => exact ⟨hstep.1.sound ih.1, ih.2.trans (hstep.1.evolves ih.1)⟩

/-- A forest that a sound one leads to is sound. -/
theorem sound (hf : f.Sound) (h : Leads told f g) : g.Sound := (h.sound_evolves hf).1

/-- It evolved from that. -/
theorem evolves (hf : f.Sound) (h : Leads told f g) : Evolves f g := (h.sound_evolves hf).2

/-- It is one that the former accrues to. -/
theorem accrues (hf : f.Sound) (h : Leads told f g) : f.Accrues g := by
  induction h with
  | refl => exact .refl hf.rooted
  | tail hg hstep ih => exact ih.trans (hstep.1.accrues (sound hf hg))

/-- Nodes stay registered with the class of a term. -/
theorem registered (hf : f.Sound) (h : Leads told f g) {t : TermId} {n : NodeId} (ht : t < f.size)
    (hn : f.Registered t n) : g.Registered t n := by
  induction h with
  | refl => exact hn
  | tail hg hstep ih =>
    obtain ⟨hsound, hevolves⟩ := sound_evolves hf hg
    exact hstep.1.registered hsound (Nat.lt_of_lt_of_le ht hevolves.grows.size) ih

/-- A node that is registered with all that its term leads to, and that is told of nothing, sees all
of that unchanged, if wrappers wrap variables at the start. -/
theorem woken (hf : f.Sound) (h : Leads told f g) {t : TermId} {n : NodeId}
    (hn : f.Registered t n)
    (hwraps : ∀ w inner, f.kind w = .nilable inner → f.kind (f.rep inner) = .var) :
    told n ∨ ∀ c, f.Reaches (f.rep t) c → (f.kind c).Refreshed f.rep (g.kind c) := by
  induction h with
  | refl => exact Or.inr fun c _ => .refl
  | @tail g g' hg hstep ih =>
    rcases ih with htold | hintact
    · exact Or.inl htold
    by_cases htold : told n
    · exact Or.inl htold
    refine Or.inr fun c hc => ?_
    obtain ⟨hsound, hevolves⟩ := sound_evolves hf hg
    -- What the term leads to consists of the same classes as at the start.
    have hroot : ∀ {d}, f.Reaches (f.rep t) d → (f.kind d).isLink = false ∧ g.rep d = d := by
      intro d hd
      have hd' := hd.rep_eq hf.rooted (rep_rep hf.rooted t)
      have hlink : (f.kind d).isLink = false := by
        rw [← hd']
        exact not_isLink_rep hf.rooted d
      exact ⟨hlink, rep_of_not_link (by rw [(hintact d hd).isLink, hlink])⟩
    have hnext : ∀ {slot x}, (f.kind c).child? slot = some x → f.Reaches (f.rep t) (f.rep x) :=
      fun hx => hc.tail ⟨_, _, hx, rfl⟩
    have hagree : ∀ slot x, (f.kind c).child? slot = some x →
        g.rep x = f.rep x ∧ g.rep (f.rep x) = f.rep x := by
      intro slot x hx
      have hx' := (hroot (hnext hx)).2
      rw [← hevolves.rep_rep hf.rooted x]
      exact ⟨hx', hx'⟩
    have hcalm : g.Calm c := by
      refine Calm.of_refreshed hf.rooted ⟨(hroot hc).1, hwraps c⟩ (hintact c hc) ?_
      intro inner hinner
      have hslot : (f.kind c).child? .inner = some inner := by rw [hinner]; rfl
      exact ⟨(hintact _ (hnext hslot)).eq_var.2 (hwraps c inner hinner), hagree _ _ hslot⟩
    have hdeps : n ∈ g.deps c := by
      have hgrown := hevolves.grows.deps c n
      rw [hc.rep_eq hf.rooted (rep_rep hf.rooted t), (hroot hc).2] at hgrown
      exact hgrown (hn c hc)
    have hstill : (g.kind c).Refreshed g.rep (g'.kind c) := by
      by_contra hdisturbed
      exact htold (hstep.2 c n ⟨hcalm, hdisturbed⟩ hdeps)
    exact (hintact c hc).trans (rep_rep hf.rooted) hstill hagree

end Leads

end Forest

end TypeFlow
