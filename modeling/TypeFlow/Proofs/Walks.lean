import TypeFlow.Proofs.RepeatedInstantiations
import TypeFlow.Proofs.ShownKinds
import TypeFlow.Proofs.SparedDefinitions

/-!
# Walks through types

Occurs checks and comparisons walk through types that may be cyclic, looking up every class that they
come to.  They return if the wrappers that they come to end, since no class is entered twice.  An occurs
check that finds nothing has been everywhere, and has left nothing behind but classes that wrap
variables at most.

Main definitions:

- `Forest.Explored`: what an occurs check that found nothing has been through.
- `Forest.Paired`: classes that may be compared, with all that the comparison comes to.

Main results:

- `Forest.Upkeeps.ends`: wrappers that end do so in tidier forests.
- `Forest.occursInAny_explored`: an occurs check that finds nothing has been everywhere.
- `Forest.occursInAny_answers`, `Forest.alike_returns`: occurs checks and comparisons return.
-/

namespace TypeFlow

namespace Forest

variable {f g : Forest}

/-! ## Tidier forests -/

private theorem ends_rep (hf : f.Rooted) {t : TermId} (h : f.Ends t) : f.Ends (f.rep t) := by
  cases h with
  | intro h => exact .intro fun inner hinner => h inner (by rwa [rep_rep hf] at hinner)

/-- Wrappers that come to an end do so when the forest was tidied up. -/
theorem Upkeep.ends (hf : f.Rooted) (h : f.Upkeep g) {t : TermId} (ht : f.Ends t) : g.Ends t := by
  have hs := h.steady hf
  induction ht with
  | @intro t _ ih =>
    refine .intro fun inner hinner => ?_
    rw [hs.rep] at hinner
    have hsame : g.kind (f.rep t) = f.kind (f.rep t) → g.Ends inner := fun e =>
      ih inner (by rw [← e, hinner])
    cases h with
    | @shorten x u hlink =>
      refine hsame ?_
      rw [kind_setKind, if_neg]
      rintro ⟨rfl, -⟩
      have hroot := not_isLink_rep hf t
      rw [hlink] at hroot
      cases hroot
    | @remember x raw slot hraw =>
      by_cases e : x = f.rep t
      · subst e
        rw [kind_setChild, if_pos rfl] at hinner
        cases hk : f.kind (f.rep t) with
        | nilable y =>
          rw [hk] at hraw hinner
          cases slot with
          | inner =>
            cases hraw
            cases hinner
            have hends := ends_rep hs.rooted (ih raw hk)
            rwa [hs.rep] at hends
          | _ => cases hraw
        | _ =>
          rw [hk] at hinner
          cases slot <;> cases hinner
      · refine hsame ?_
        rw [kind_setChild, if_neg e]
    | @absorb w x hwraps =>
      have hroot := not_isLink_rep hf x
      by_cases e : w = f.rep t ∧ w < f.size
      · -- The wrapper wraps what its inner wrapper wrapped.
        rw [kind_absorb hroot, if_pos e] at hinner
        obtain ⟨rfl, -⟩ := e
        have hx := ih x hwraps
        cases hk : f.kind (f.rep x) with
        | var =>
          rw [hk] at hinner
          cases hinner
          have hends := ends_rep hs.rooted hx
          rwa [hs.rep] at hends
        | nilable y =>
          rw [hk] at hinner
          cases hinner
          by_cases e' : f.rep t = f.rep x
          · rw [← e', hwraps] at hk
            cases hk
            exact hx
          · cases hx with
            | intro hx =>
              refine hx inner ?_
              rw [hs.rep, kind_absorb hroot, if_neg fun h => e' h.1, hk]
        | _ =>
          rw [hk] at hinner
          cases hinner
      · refine hsame ?_
        rw [kind_absorb hroot, if_neg e]

/-- Wrappers that come to an end do so when the forest was tidied up. -/
theorem Upkeeps.ends (hf : f.Rooted) (h : f.Upkeeps g) {t : TermId} (ht : f.Ends t) : g.Ends t := by
  induction h with
  | refl => exact ht
  | tail hg hstep ih => exact hstep.ends (Upkeeps.steady hf hg).rooted ih

/-- Tidying up adds no way between classes. -/
theorem Upkeeps.reaches (hf : f.Rooted) (h : f.Upkeeps g) {a b : TermId} (hab : g.Reaches a b) :
    f.Reaches a b := by
  induction h generalizing a b with
  | refl => exact hab
  | tail hg hstep ih =>
    refine ih ?_
    induction hab with
    | refl => exact .refl
    | tail _ hedge ihr => exact ihr.trans (hstep.edge (Upkeeps.steady hf hg).rooted hedge)

/-- What types lead to after tidying up they led to before. -/
theorem Upkeeps.reachedFrom (hf : f.Rooted) (h : f.Upkeeps g) {ts : List TermId} {c : TermId}
    (hc : g.ReachedFrom ts c) : f.ReachedFrom ts c := by
  obtain ⟨t, ht, hreach⟩ := hc
  rw [(h.steady hf).rep] at hreach
  exact ⟨t, ht, h.reaches hf hreach⟩

/-- Looking a class up returns if it comes to an end. -/
theorem find_returns (hf : f.Rooted) {t : TermId} (h : f.Ends t) :
    Returns (find t) f fun r g => r = f.rep t ∧ f.Upkeeps g ∧ g.Calm r := by
  obtain ⟨⟨r, g⟩, hfind⟩ := Option.isSome_iff_exists.1 ((find_isSome_iff hf t).2 h)
  obtain ⟨hr, hup⟩ := find_upkeeps hf hfind
  exact ⟨r, g, hfind, hr, hup, find_calm hf hfind⟩

/-- A computation that reads the forest first returns if the rest does. -/
theorem returns_get_bind {σ α : Type} {s : σ} {P : α → σ → Prop} {k : σ → StateT σ Option α}
    (h : Returns (k s) s P) : Returns (get >>= k) s P := by
  obtain ⟨a, t, hrun, hP⟩ := h
  exact ⟨a, t, bind_eq_some.2 ⟨s, s, get_eq_some.2 ⟨rfl, rfl⟩, hrun⟩, hP⟩

/-! ## Occurs checks that find nothing -/

/-- A walk has met new classes other than `t` only, wrapping variables at most, and has met whatever
they lead to in one step. -/
structure Explored (g : Forest) (t : TermId) (seen found : List TermId) : Prop where
  kept : seen ⊆ found
  closed : ∀ c ∈ found, c ∈ seen ∨ (c ≠ t ∧ g.Calm c) ∧ ∀ x ∈ (g.kind c).children, g.rep x ∈ found

private theorem Explored.refl (g : Forest) (t : TermId) (seen : List TermId) : g.Explored t seen seen :=
  ⟨fun _ hc => hc, fun _ hc => Or.inl hc⟩

/-- What a walk has been through stays that in tidier forests. -/
theorem Explored.of_upkeeps {t : TermId} {seen found : List TermId} (hf : f.Rooted)
    (hup : f.Upkeeps g) (h : f.Explored t seen found) : g.Explored t seen found := by
  refine ⟨h.kept, fun c hc => (h.closed c hc).imp_right ?_⟩
  rintro ⟨⟨hne, hcalm⟩, hchildren⟩
  obtain ⟨hrefreshed, hcalm'⟩ := hup.calm hf hcalm
  refine ⟨⟨hne, hcalm'⟩, fun x hx => ?_⟩
  obtain ⟨slot, hslot⟩ := (Kind.mem_children hcalm'.root).1 hx
  obtain ⟨y, hy, hxy⟩ := hrefreshed.child? (rep_rep hf) hslot
  have hmem := hchildren y (Kind.mem_children_of_child? hy)
  rw [(hup.steady hf).rep]
  rcases hxy with rfl | rfl
  · exact hmem
  · rwa [rep_rep hf]

private theorem Explored.trans {t : TermId} {seen found found' : List TermId}
    (h : g.Explored t seen found) (h' : g.Explored t found found') : g.Explored t seen found' := by
  refine ⟨fun c hc => h'.kept (h.kept hc), fun c hc => ?_⟩
  rcases h'.closed c hc with hc | hc
  · exact (h.closed c hc).imp_right fun hc => ⟨hc.1, fun x hx => h'.kept (hc.2 x hx)⟩
  · exact Or.inr hc

private theorem anyOccurs_explored {t : TermId} {walk : TermId → List TermId → ForestM (Bool × List TermId)}
    (hwalk : ∀ (f g : Forest) x seen found, f.Rooted → walk x seen f = some ((false, found), g) →
      f.Upkeeps g ∧ f.rep x ∈ found ∧ g.Explored t seen found) (hf : f.Rooted) {xs : List TermId}
    {seen found : List TermId} (h : anyOccurs walk xs seen f = some ((false, found), g)) :
    f.Upkeeps g ∧ (∀ x ∈ xs, f.rep x ∈ found) ∧ g.Explored t seen found := by
  induction xs generalizing f seen with
  | nil =>
    obtain ⟨hr, rfl⟩ := pure_eq_some.1 h
    cases hr
    exact ⟨.refl, fun x hx => absurd hx List.not_mem_nil, .refl _ _ _⟩
  | cons x rest ih =>
    obtain ⟨⟨occurs, seen'⟩, f₁, hrun, h⟩ := bind_eq_some.1 h
    cases occurs with
    | true => cases (pure_eq_some.1 h).1
    | false =>
      obtain ⟨hup₁, hx, hexplored₁⟩ := hwalk _ _ _ _ _ hf hrun
      have hs₁ := hup₁.steady hf
      obtain ⟨hup, hrest, hexplored⟩ := ih hs₁.rooted h
      refine ⟨hup₁.trans hup, fun y hy => ?_, (hexplored₁.of_upkeeps hs₁.rooted hup).trans hexplored⟩
      rcases List.mem_cons.1 hy with rfl | hy
      · exact hexplored.kept hx
      · rw [← hs₁.rep]
        exact hrest y hy

private theorem occursFrom_explored (t : TermId) (fuel : Nat) {x : TermId} {seen found : List TermId}
    (hf : f.Rooted) (h : occursFrom t fuel x seen f = some ((false, found), g)) :
    f.Upkeeps g ∧ f.rep x ∈ found ∧ g.Explored t seen found := by
  induction fuel generalizing f g x seen found with
  | zero => exact (failure_eq_some.1 h).elim
  | succ fuel ih =>
    obtain ⟨r, f₁, hfind, h⟩ := bind_eq_some.1 h
    have hcalm := find_calm hf hfind
    obtain ⟨rfl, hup₁⟩ := find_upkeeps hf hfind
    have hs₁ := hup₁.steady hf
    rcases ite_eq_some.1 h with ⟨-, h⟩ | ⟨hne, h⟩
    · cases (pure_eq_some.1 h).1
    rcases ite_eq_some.1 h with ⟨hseen, h⟩ | ⟨-, h⟩
    · obtain ⟨hr, rfl⟩ := pure_eq_some.1 h
      cases hr
      exact ⟨hup₁, List.contains_iff_mem.1 hseen, .refl _ _ _⟩
    obtain ⟨f₂, f₂', hget, h⟩ := bind_eq_some.1 h
    obtain ⟨rfl, rfl⟩ := get_eq_some.1 hget
    obtain ⟨hup, hchildren, hexplored⟩ :=
      anyOccurs_explored (fun f g x seen found hf h => ih hf h) hs₁.rooted h
    have hmem : f.rep x ∈ found := hexplored.kept List.mem_cons_self
    refine ⟨hup₁.trans hup, hmem, ⟨fun c hc => hexplored.kept (List.mem_cons_of_mem _ hc),
      fun c hc => ?_⟩⟩
    rcases hexplored.closed c hc with hc' | hc'
    · rcases List.mem_cons.1 hc' with rfl | hc'
      · -- The class that the walk came to first has had its children walked through.
        obtain ⟨hrefreshed, hcalm'⟩ := hup.calm hs₁.rooted hcalm
        refine Or.inr ⟨⟨hne, hcalm'⟩, fun y hy => ?_⟩
        obtain ⟨slot, hslot⟩ := (Kind.mem_children hcalm'.root).1 hy
        obtain ⟨z, hz, hyz⟩ := hrefreshed.child? (rep_rep hs₁.rooted) hslot
        have hfound := hchildren z (Kind.mem_children_of_child? hz)
        rw [(hup.steady hs₁.rooted).rep]
        rcases hyz with rfl | rfl
        · exact hfound
        · rwa [rep_rep hs₁.rooted]
      · exact Or.inl hc'
    · exact Or.inr hc'

/-- An occurs check that finds nothing has been everywhere: whatever the types lead to is another
class, and wraps a variable at most. -/
theorem occursInAny_explored (hf : f.Rooted) {t : TermId} {types : List TermId}
    (h : occursInAny t types f = some (false, g)) {c : TermId} (hc : g.ReachedFrom types c) :
    g.Calm c ∧ c ≠ f.rep t := by
  obtain ⟨r, f₁, hfind, h⟩ := bind_eq_some.1 h
  obtain ⟨rfl, hup₁⟩ := find_upkeeps hf hfind
  have hs₁ := hup₁.steady hf
  obtain ⟨f₂, f₂', hget, h⟩ := bind_eq_some.1 h
  obtain ⟨rfl, rfl⟩ := get_eq_some.1 hget
  obtain ⟨⟨occurs, found⟩, f₃, hrun, h⟩ := bind_eq_some.1 h
  obtain ⟨rfl, rfl⟩ := pure_eq_some.1 h
  obtain ⟨hup, htypes, hexplored⟩ := anyOccurs_explored
    (fun f g x seen found hf h => occursFrom_explored _ _ hf h) hs₁.rooted hrun
  have hmem : c ∈ found := by
    obtain ⟨x, hx, hreach⟩ := hc
    induction hreach with
    | refl =>
      rw [(hup.steady hs₁.rooted).rep]
      exact htypes x hx
    | tail _ hedge ih =>
      obtain ⟨slot, y, hy, rfl⟩ := hedge
      rcases hexplored.closed _ ih with hnil | ⟨-, hchildren⟩
      · exact absurd hnil List.not_mem_nil
      · exact hchildren y (Kind.mem_children_of_child? hy)
  rcases hexplored.closed c hmem with hnil | ⟨⟨hne, hcalm⟩, -⟩
  · exact absurd hnil List.not_mem_nil
  · exact ⟨hcalm, hne⟩

/-- What an occurs check finds the types lead to. -/
theorem occursInAny_finds (hf : f.Rooted) {t : TermId} {types : List TermId}
    (h : occursInAny t types f = some (true, g)) : f.ReachedFrom types (f.rep t) := by
  have hregion : f.Region fun x => f.ReachedFrom types (f.rep x) := by
    intro x hx y hy
    cases hk : (f.kind x).isLink with
    | true =>
      obtain ⟨u, hu⟩ := Kind.isLink_eq_true.1 hk
      rw [hu] at hy
      rw [List.mem_singleton.1 hy, ← rep_link hf hu]
      exact hx
    | false =>
      obtain ⟨s, hs, hreach⟩ := hx
      rw [rep_of_not_link hk] at hreach
      exact ⟨s, hs, hreach.tail ((edge_iff hk).2 ⟨y, hy, rfl⟩)⟩
  have hall : f.Region fun _ => True := fun _ _ _ _ => trivial
  have hfound := (occursInAny_tidies hf hall hregion (fun _ _ => trivial) trivial
    (fun x hx => ⟨x, hx, .refl⟩) h).2 rfl
  rwa [rep_rep hf] at hfound

/-! ## Walks that return -/

/-- The types lead to no wrappers but such that end. -/
def EndsFrom (f : Forest) (types : List TermId) : Prop := ∀ c, f.ReachedFrom types c → f.Ends c

private theorem EndsFrom.of_upkeeps {types : List TermId} (hf : f.Rooted) (hup : f.Upkeeps g)
    (h : f.EndsFrom types) : g.EndsFrom types :=
  fun _ hc => hup.ends hf (h _ (hup.reachedFrom hf hc))

private theorem EndsFrom.of_subset {types types' : List TermId} (h : f.EndsFrom types)
    (hsub : types' ⊆ types) : f.EndsFrom types' := by
  rintro c ⟨x, hx, hreach⟩
  exact h c ⟨x, hsub hx, hreach⟩

private theorem EndsFrom.ends {types : List TermId} (hf : f.Rooted) (h : f.EndsFrom types) {x : TermId}
    (hx : x ∈ types) : f.Ends x := by
  cases h _ ⟨x, hx, .refl⟩ with
  | intro h => exact .intro fun inner hinner => h inner (by rwa [rep_rep hf])

/-- The types are terms of the forest, and lead to no wrappers but such that end. -/
def Opens (f : Forest) (types : List TermId) : Prop :=
  (∀ x ∈ types, x < f.size) ∧ ∀ c, f.ReachedFrom types c → f.Ends c

/-- Types that come to an end do so after tidying up. -/
theorem Opens.of_upkeeps {types : List TermId} (hf : f.Rooted) (hup : f.Upkeeps g)
    (h : f.Opens types) : g.Opens types :=
  ⟨fun x hx => by
    rw [hup.size]
    exact h.1 x hx, EndsFrom.of_upkeeps hf hup h.2⟩

/-- A walk has met no less than before in a forest of no other size. -/
theorem card_unseen_of_upkeeps {seen seen' : List TermId} {fuel : Nat} (hup : f.Upkeeps g)
    (hsub : seen ⊆ seen') (h : (f.unseen seen).card < fuel) : (g.unseen seen').card < fuel := by
  refine Nat.lt_of_le_of_lt ?_ h
  unfold unseen
  rw [hup.size]
  exact card_unseen_le hsub

/-- All terms are unseen at first. -/
theorem card_unseen_nil (f : Forest) : (f.unseen []).card < f.size + 1 := by
  refine Nat.lt_succ_of_le (le_trans (Finset.card_le_card Finset.sdiff_subset) ?_)
  rw [Finset.card_range]

private theorem anyOccurs_returns {fuel : Nat}
    {walk : TermId → List TermId → ForestM (Bool × List TermId)}
    (hwalk : ∀ (f : Forest) x seen, f.Rooted → f.EndsFrom [x] → (f.unseen seen).card < fuel →
      Returns (walk x seen) f fun r g => f.Upkeeps g ∧ seen ⊆ r.2)
    (hf : f.Rooted) {xs seen : List TermId} (hxs : f.EndsFrom xs)
    (hseen : (f.unseen seen).card < fuel) :
    Returns (anyOccurs walk xs seen) f fun r g => f.Upkeeps g ∧ seen ⊆ r.2 := by
  induction xs generalizing f seen with
  | nil => exact returns_pure ⟨.refl, fun _ hc => hc⟩
  | cons x rest ih =>
    have hx : f.EndsFrom [x] :=
      hxs.of_subset fun y hy => List.mem_singleton.1 hy ▸ List.mem_cons_self
    have hrest : f.EndsFrom rest := hxs.of_subset fun y hy => List.mem_cons_of_mem _ hy
    refine returns_bind (hwalk f x seen hf hx hseen) fun r f₁ _ ⟨hup₁, hsub⟩ => ?_
    obtain ⟨occurs, seen₁⟩ := r
    cases occurs with
    | true => exact returns_pure ⟨hup₁, hsub⟩
    | false =>
      refine (ih (hup₁.steady hf).rooted (hrest.of_upkeeps hf hup₁)
        (card_unseen_of_upkeeps hup₁ hsub hseen)).imp fun r g _ ⟨hup, hsub'⟩ => ?_
      exact ⟨hup₁.trans hup, fun c hc => hsub' (hsub hc)⟩

/-- A walk returns, since it enters no class of the forest twice, and what is no term of the forest has
no children. -/
theorem occursFrom_returns (t : TermId) (fuel : Nat) {x : TermId} {seen : List TermId}
    (hf : f.Rooted) (hx : f.EndsFrom [x]) (hseen : (f.unseen seen).card < fuel) :
    Returns (occursFrom t fuel x seen) f fun r g => f.Upkeeps g ∧ seen ⊆ r.2 := by
  induction fuel generalizing f x seen with
  | zero => exact absurd hseen (Nat.not_lt_zero _)
  | succ fuel ih =>
    refine returns_bind (find_returns hf (hx.ends hf List.mem_cons_self))
      fun r f₁ _ ⟨hr, hup₁, hcalm⟩ => ?_
    subst hr
    split
    · exact returns_pure ⟨hup₁, fun _ hc => hc⟩
    split
    · exact returns_pure ⟨hup₁, fun _ hc => hc⟩
    rename_i hmet
    refine returns_get_bind ?_
    have hs₁ := hup₁.steady hf
    rcases Nat.lt_or_ge (f.rep x) f.size with hlt | hge
    · have hends : f₁.EndsFrom (f₁.kind (f.rep x)).children := by
        rintro c ⟨y, hy, hreach⟩
        refine hx.of_upkeeps hf hup₁ c ⟨x, List.mem_cons_self, ?_⟩
        rw [hs₁.rep]
        exact .head ((edge_iff hcalm.root).2 ⟨y, hy, rfl⟩) hreach
      have hnew : f.rep x ∉ seen := fun hmem => hmet (List.contains_iff_mem.2 hmem)
      have hfuel := card_unseen_of_upkeeps hup₁ (fun _ hc => hc)
        (Nat.lt_of_lt_of_le (card_unseen_cons hlt hnew) (Nat.le_of_lt_succ hseen))
      refine (anyOccurs_returns (fun f x seen hf hx hseen => ih hf hx hseen) hs₁.rooted hends
        hfuel).imp fun r g _ ⟨hup, hsub⟩ => ?_
      exact ⟨hup₁.trans hup, fun c hc => hsub (List.mem_cons_of_mem _ hc)⟩
    · rw [kind_of_size_le (f := f₁) (by rwa [hup₁.size])]
      exact returns_pure ⟨hup₁, fun c hc => List.mem_cons_of_mem _ hc⟩

/-- An occurs check returns if the wrappers that it comes to end. -/
theorem occursInAny_answers (hf : f.Rooted) {t : TermId} {types : List TermId} (ht : f.Ends t)
    (htypes : f.EndsFrom types) : Returns (occursInAny t types) f fun _ g => f.Upkeeps g := by
  refine returns_bind (find_returns hf ht) fun r f₁ _ ⟨_, hup₁, _⟩ => returns_get_bind ?_
  have hs₁ := hup₁.steady hf
  refine returns_bind (anyOccurs_returns (fun f x seen hf hx hseen =>
    occursFrom_returns r _ hf hx hseen) hs₁.rooted (htypes.of_upkeeps hf hup₁)
    (card_unseen_nil f₁)) fun _ g _ ⟨hup, _⟩ => ?_
  exact returns_pure (hup₁.trans hup)

/-- An occurs check finds nothing if the types do not lead to the class. -/
theorem occursInAny_returns (hf : f.Sound) {t : TermId} {types : List TermId} (ht : f.Ends t)
    (htypes : f.Opens types) (hout : ¬f.ReachedFrom types (f.rep t)) :
    Returns (occursInAny t types) f fun b g => b = false ∧ f.Upkeeps g := by
  refine (occursInAny_answers hf.rooted ht htypes.2).imp fun b g hrun hup => ⟨?_, hup⟩
  cases b with
  | false => rfl
  | true => exact absurd (occursInAny_finds hf.rooted hrun) hout

/-! ## Comparisons that return -/

/-- All terms of a class come to an end, or none. -/
theorem Ends.of_rep {t u : TermId} (h : f.Ends t) (hrep : f.rep t = f.rep u) : f.Ends u := by
  cases h with
  | intro h => exact .intro fun inner hinner => h inner (by rwa [hrep])

/-- The classes may be compared.  The first wraps a variable at most, and wrappers of the second come to an end.
Unless the two are one class, so do those of the children of the first, and the relation holds of the classes in
the slots that the first has and the second shows. -/
structure Paired (f : Forest) (R : TermId → TermId → Prop) : Prop where
  lt : ∀ a b, R a b → a < f.size ∧ b < f.size
  calm : ∀ a b, R a b → f.Calm a
  root : ∀ a b, R a b → (f.kind b).isLink = false
  ends : ∀ a b, R a b → f.Ends b
  children : ∀ a b, R a b → a ≠ b → ∀ slot x, (f.kind a).child? slot = some x → f.Ends x
  related : ∀ a b, R a b → a ≠ b → ∀ k, f.Shows (fun _ => True) b k → ∀ slot x y,
    (f.kind a).child? slot = some x → k.child? slot = some y → R (f.rep x) (f.rep y)

variable {R : TermId → TermId → Prop}

/-- A child given by another term of its class is one of the same class before. -/
theorem Upkeeps.child? (hf : f.Rooted) (hup : f.Upkeeps g) {a x : TermId} (ha : f.Calm a) {slot : Slot}
    (hx : (g.kind a).child? slot = some x) :
    ∃ y, (f.kind a).child? slot = some y ∧ g.rep x = f.rep y := by
  rw [(hup.steady hf).rep]
  exact (hup.same hf ha).exists_child? hx

/-- Classes that may be compared may be so after tidying up. -/
theorem Paired.of_upkeeps (hf : f.Rooted) (hup : f.Upkeeps g) (h : f.Paired R) : g.Paired R := by
  have hs := hup.steady hf
  refine ⟨fun a b hab => ?_, fun a b hab => (hup.calm hf (h.calm a b hab)).2, fun a b hab => ?_,
    fun a b hab => hup.ends hf (h.ends a b hab), fun a b hab hne slot x hx => ?_,
    fun a b hab hne k hk slot x y hx hy => ?_⟩
  · rw [hup.size]
    exact h.lt a b hab
  · rw [hs.isLink, h.root a b hab]
  · obtain ⟨x', hx', hxx'⟩ := hup.child? hf (h.calm a b hab) hx
    rw [hs.rep] at hxx'
    exact hup.ends hf ((h.children a b hab hne slot x' hx').of_rep hxx'.symm)
  · obtain ⟨x', hx', hxx'⟩ := hup.child? hf (h.calm a b hab) hx
    obtain ⟨k', hk', hsame⟩ := hk.before_upkeeps hf hup (h.ends a b hab)
    obtain ⟨y', hy', hyy'⟩ := hsame.exists_child? hy
    rw [hxx', hs.rep, hyy']
    exact h.related a b hab hne k' hk' slot x' y' hx' hy'

/-- A class that has been looked up is related by its children. -/
theorem Paired.related_calm (h : f.Paired R) {a b x y : TermId} (hab : R a b) (hne : a ≠ b) (hb : f.Calm b)
    {slot : Slot} (hx : (f.kind a).child? slot = some x) (hy : (f.kind b).child? slot = some y) :
    R (f.rep x) (f.rep y) :=
  h.related a b hab hne _ (hb.shows trivial fun _ _ => trivial) slot x y hx hy

/-- Looking up a child returns if its wrappers come to an end. -/
theorem child_answers (hf : f.Rooted) {t x : TermId} {slot : Slot}
    (hx : (f.kind t).child? slot = some x) (h : f.Ends x) :
    Returns (child t slot) f fun r g => r = some (f.rep x) ∧ f.Upkeeps g := by
  have hends : ∀ raw, (f.kind t).child? slot = some raw → f.Ends raw := by
    intro raw hraw
    rw [hx] at hraw
    cases hraw
    exact h
  obtain ⟨r, g, hchild⟩ := child_returns hf hends
  obtain ⟨hr, hup⟩ := child_upkeeps hf hchild
  rw [hx, Option.map_some] at hr
  exact ⟨r, g, hchild, hr, hup⟩

/-- There is no child in a slot that is not occupied. -/
theorem child_of_none {t : TermId} {slot : Slot} (hx : (f.kind t).child? slot = none) :
    child t slot f = some (none, f) := by
  refine bind_eq_some.2 ⟨f, f, get_eq_some.2 ⟨rfl, rfl⟩, ?_⟩
  rw [hx]
  exact pure_eq_some.2 ⟨rfl, rfl⟩

/-- Classes that agree apart from their children are of one shape. -/
theorem shape_of_sameNode {k k' : Kind} (h : sameNode k k' = true) : k'.shape = k.shape := by
  cases k <;> cases k' <;> simp_all [sameNode, Kind.shape]

/-- The children of two classes that may be compared are looked up. -/
theorem Paired.look {α : Type} {P : α → Forest → Prop} (hf : f.Rooted) (h : f.Paired R)
    {a b x : TermId} (hab : R a b) (hne : a ≠ b) (hb : f.Calm b) {slot : Slot}
    (hx : (f.kind a).child? slot = some x) {k : Option TermId → Option TermId → ForestM α}
    (hk : ∀ y? g, f.Upkeeps g → (∀ y, y? = some y → R (f.rep x) y) → Returns (k (some (f.rep x)) y?) g P) :
    Returns (child a slot >>= fun x? => child b slot >>= fun y? => k x? y?) f P := by
  refine returns_bind (child_answers hf hx (h.children a b hab hne slot x hx)) fun x? f₁ _ ⟨hx?, hup₁⟩ => ?_
  have hs₁ := hup₁.steady hf
  have hsame := hup₁.same hf hb
  cases hy : (f₁.kind b).child? slot with
  | none =>
    obtain ⟨r, g, hrun, hP⟩ := hk none f₁ hup₁ fun y hy => absurd hy.symm (Option.some_ne_none y)
    rw [hx?]
    exact ⟨r, g, bind_eq_some.2 ⟨none, f₁, child_of_none hy, hrun⟩, hP⟩
  | some y =>
    obtain ⟨y', hy', hyy'⟩ := hsame.exists_child? hy
    have hR := h.related_calm hab hne hb hx hy'
    rw [← hyy'] at hR
    have hends := hup₁.ends hf ((h.ends _ _ hR).of_rep (rep_rep hf y))
    refine returns_bind (child_answers hs₁.rooted hy hends) fun y? g _ ⟨hy?, hup⟩ => ?_
    rw [hx?, hy?, hs₁.rep]
    exact hk _ g (hup₁.trans hup) fun z hz => Option.some.inj hz ▸ hR

/-- What is not found in a memo is no key of it. -/
theorem not_mem_of_lookup_eq_none {c : TermId} {seen : List (TermId × TermId)} (h : seen.lookup c = none) :
    c ∉ seen.map Prod.fst := by
  intro hmem
  obtain ⟨p, hp, rfl⟩ := List.mem_map.1 hmem
  have hne := List.lookup_eq_none_iff.1 h p hp
  simp at hne

/-- What is no key of a memo is not found in it. -/
theorem lookup_eq_none_of_not_mem {c : TermId} {seen : List (TermId × TermId)} (h : c ∉ seen.map Prod.fst) :
    seen.lookup c = none :=
  List.lookup_eq_none_iff.2 fun _ hp => bne_iff_ne.2 fun e => h (e ▸ List.mem_map_of_mem hp)

private theorem alikeSlots_returns {fuel : Nat} {compare : TermId → TermId → List (TermId × TermId) →
      ForestM (Bool × List (TermId × TermId))}
    (hcompare : ∀ (f : Forest) a b seen, f.Sound → f.Paired R → R (f.rep a) (f.rep b) →
      (f.unseen (seen.map Prod.fst)).card < fuel →
        Returns (compare a b seen) f fun r g => f.Upkeeps g ∧ seen ⊆ r.2)
    (hf : f.Sound) (h : f.Paired R) {a b : TermId} (hab : R a b) (hne : a ≠ b) (hb : f.Calm b)
    {slots : List Slot} (hslots : slots ⊆ (f.kind a).slots) {seen : List (TermId × TermId)}
    (hseen : (f.unseen (seen.map Prod.fst)).card < fuel) :
    Returns (alikeSlots compare a b slots seen) f fun r g => f.Upkeeps g ∧ seen ⊆ r.2 := by
  induction slots generalizing f seen with
  | nil => exact returns_pure ⟨.refl, fun _ hp => hp⟩
  | cons slot rest ih =>
    obtain ⟨x, hx⟩ := Option.isSome_iff_exists.1 (Kind.mem_slots.1 (hslots List.mem_cons_self))
    refine h.look hf.rooted hab hne hb hx fun y? f₂ hup₂ hR => ?_
    cases y? with
    | none => exact returns_pure ⟨hup₂, fun _ hp => hp⟩
    | some y =>
    have hrelated : R (f₂.rep (f.rep x)) (f₂.rep y) := by
      have hrep := (hup₂.steady hf.rooted).rep
      rw [hrep, hrep, rep_rep hf.rooted, rep_of_not_link (h.root _ _ (hR y rfl))]
      exact hR y rfl
    refine returns_bind (hcompare f₂ _ y seen (hup₂.sound hf) (h.of_upkeeps hf.rooted hup₂) hrelated
      (card_unseen_of_upkeeps hup₂ (fun _ hp => hp) hseen)) fun r f₃ _ ⟨hup₃, hsub⟩ => ?_
    obtain ⟨same, seen₃⟩ := r
    have hall : f.Upkeeps f₃ := hup₂.trans hup₃
    cases same with
    | false => exact returns_pure ⟨hall, hsub⟩
    | true =>
      have hslots₃ : rest ⊆ (f₃.kind a).slots := by
        rw [(hall.same hf.rooted (h.calm a b hab)).slots]
        exact fun slot hslot => hslots (List.mem_cons_of_mem _ hslot)
      refine (ih (hall.sound hf) (h.of_upkeeps hf.rooted hall) (hall.calm hf.rooted hb).2 hslots₃
        (card_unseen_of_upkeeps hall (List.map_subset _ hsub) hseen)).imp
        fun r g _ ⟨hup, hsub'⟩ => ?_
      exact ⟨hall.trans hup, fun p hp => hsub' (hsub hp)⟩

private theorem alikeFrom_returns (fuel : Nat) {a b : TermId} {seen : List (TermId × TermId)} (hf : f.Sound)
    (h : f.Paired R) (hab : R (f.rep a) (f.rep b))
    (hseen : (f.unseen (seen.map Prod.fst)).card < fuel) :
    Returns (alikeFrom fuel a b seen) f fun r g => f.Upkeeps g ∧ seen ⊆ r.2 := by
  induction fuel generalizing f a b seen with
  | zero => exact absurd hseen (Nat.not_lt_zero _)
  | succ fuel ih =>
    refine returns_bind (find_returns hf.rooted (h.calm _ _ hab).ends) fun x f₁ _ ⟨hx, hup₁, _⟩ => ?_
    have hs₁ := hup₁.steady hf.rooted
    have hends := hup₁.ends hf.rooted ((h.ends _ _ hab).of_rep (rep_rep hf.rooted b))
    refine returns_bind (find_returns hs₁.rooted hends) fun y f₂ _ ⟨hy, hup₂, hcalm⟩ => ?_
    rw [hs₁.rep] at hy
    subst hx hy
    have hall : f.Upkeeps f₂ := hup₁.trans hup₂
    have hdone : ∀ same : Bool, Returns (pure (same, seen) : ForestM _) f₂
        fun r g => f.Upkeeps g ∧ seen ⊆ r.2 := fun same => returns_pure ⟨hall, fun _ hp => hp⟩
    split
    · exact hdone true
    rename_i hne
    refine returns_get_bind (returns_get_bind ?_)
    dsimp only
    split
    · exact hdone false
    split
    · exact hdone true
    split
    · exact hdone _
    rename_i hnew
    have hlt : f.rep a < f.size := (h.lt _ _ hab).1
    have hfuel : (f₂.unseen (((f.rep a, f.rep b) :: seen).map Prod.fst)).card < fuel :=
      card_unseen_of_upkeeps hall (fun _ hp => hp) (Nat.lt_of_lt_of_le
        (card_unseen_cons hlt (not_mem_of_lookup_eq_none hnew)) (Nat.le_of_lt_succ hseen))
    refine (alikeSlots_returns (fun f a b seen hf h hab hseen => ih hf h hab hseen) (hall.sound hf)
      (h.of_upkeeps hf.rooted hall) hab hne hcalm (fun _ hslot => hslot) hfuel).imp
      fun r g _ ⟨hup, hsub⟩ => ?_
    exact ⟨hall.trans hup, fun p hp => hsub (List.mem_cons_of_mem _ hp)⟩

/-- A comparison of classes that may be compared returns. -/
theorem alike_returns {a b : TermId} (hf : f.Sound) (h : f.Paired R)
    (hab : R (f.rep a) (f.rep b)) : Returns (alike a b) f fun _ g => f.Upkeeps g := by
  refine returns_get_bind ?_
  refine returns_bind (alikeFrom_returns _ hf h hab (card_unseen_nil f)) fun r g _ ⟨hup, _⟩ => ?_
  exact returns_pure hup

end Forest

end TypeFlow
