import TypeFlow.Proofs.LookUps

/-!
# Regions of a forest

A region is a set of terms that nothing leads out of: the children of its terms, and what links in
it lead to, belong to it.  Whatever begins in a region and walks along children and links stays
there, so a change that begins there leaves all other terms alone.

Main definitions:

- `Forest.Region`: a set of terms that nothing leads out of.
- `Forest.KeepsTo`: a change within a region.
- `Forest.Tidies`: tidying up within a region.

Main results:

- `Forest.link_keepsTo`, `Forest.addDeps_keepsTo`, `Forest.widenInputs_keepsTo`: changes of what a
  term of a region leads to keep to the region.
- `Forest.find_tidies`, `Forest.child_tidies`, `Forest.occursInAny_tidies`: so do look-ups.
-/

namespace TypeFlow

namespace Forest

variable {f g : Forest} {R : TermId → Prop}

/-! ## Walks in a region -/

/-- Children of the terms, and what links among them lead to, are among them. -/
def Region (f : Forest) (R : TermId → Prop) : Prop := ∀ t, R t → ∀ x ∈ (f.kind t).children, R x

/-- The children of terms of a region belong to it. -/
theorem Region.child (h : f.Region R) {t x : TermId} {slot : Slot} (ht : R t)
    (hx : (f.kind t).child? slot = some x) : R x :=
  h t ht x (Kind.mem_children_of_child? hx)

private theorem Region.follow (h : f.Region R) {t : TermId} (ht : R t) (n : Nat) : R (f.follow n t) := by
  induction n generalizing t with
  | zero => exact ht
  | succ n ih =>
    cases hk : (f.kind t).isLink with
    | false => rwa [follow_of_not_link hk]
    | true =>
      obtain ⟨u, hu⟩ := Kind.isLink_eq_true.1 hk
      rw [follow_link hu]
      exact ih (h t ht u (by rw [hu]; exact List.mem_singleton_self u))

/-- So do their representatives. -/
theorem Region.rep (h : f.Region R) {t : TermId} (ht : R t) : R (f.rep t) := h.follow ht _

/-- A walk from a term of the region meets terms of the region only. -/
theorem Region.reachFrom (h : f.Region R) {next : Kind → List TermId}
    (hnext : ∀ k : Kind, next k ⊆ k.children) {fuel : Nat} {t : TermId} {seen : List TermId}
    (ht : R t) (hseen : ∀ x ∈ seen, R x) : ∀ x ∈ f.reachFrom next fuel t seen, R x := by
  induction fuel generalizing t seen with
  | zero => exact hseen
  | succ fuel ih =>
    have hall : ∀ (cs seen : List TermId), (∀ c ∈ cs, R c) → (∀ x ∈ seen, R x) →
        ∀ x ∈ cs.foldl (fun seen c => f.reachFrom next fuel c seen) seen, R x := by
      intro cs
      induction cs with
      | nil => exact fun seen _ hseen => hseen
      | cons c rest ihc =>
        intro seen hcs hseen
        exact ihc _ (fun d hd => hcs d (List.mem_cons_of_mem _ hd))
          (ih (hcs c List.mem_cons_self) hseen)
    have hr := h.rep ht
    unfold Forest.reachFrom
    dsimp only
    split
    · exact hseen
    · refine hall _ _ (fun c hc => h _ hr c (hnext _ hc)) fun x hx => ?_
      rcases List.mem_cons.1 hx with rfl | hx
      · exact hr
      · exact hseen x hx

private theorem Region.reachBy (h : f.Region R) {next : Kind → List TermId}
    (hnext : ∀ k : Kind, next k ⊆ k.children) {t : TermId} (ht : R t) :
    ∀ x ∈ f.reachBy next t, R x := by
  intro x hx
  rw [Forest.reachBy, List.mem_reverse] at hx
  exact h.reachFrom hnext ht (fun y hy => absurd hy List.not_mem_nil) x hx

private theorem Region.reach (h : f.Region R) {t : TermId} (ht : R t) : ∀ x ∈ f.reach t, R x :=
  h.reachBy (fun _ => List.Subset.refl _) ht

/-! ## Changes within a region -/

/-- What was a region is one still, and no other term was changed. -/
def KeepsTo (R : TermId → Prop) (f g : Forest) : Prop :=
  f.Region R → g.Region R ∧ ∀ t, ¬R t → g.terms[t]? = f.terms[t]?

instance : IsPreorder Forest (KeepsTo R) where
  refl _ h := ⟨h, fun _ _ => rfl⟩
  trans _ _ _ hfg hgh h := by
    obtain ⟨hg, hoff⟩ := hfg h
    obtain ⟨hh, hoff'⟩ := hgh hg
    exact ⟨hh, fun t ht => (hoff' t ht).trans (hoff t ht)⟩

private theorem KeepsTo.trans {h : Forest} (hfg : KeepsTo R f g) (hgh : KeepsTo R g h) : KeepsTo R f h :=
  IsTrans.trans _ _ _ hfg hgh

/-- A term that was not written has the kind that it had. -/
theorem kind_congr {t : TermId} (h : g.terms[t]? = f.terms[t]?) : g.kind t = f.kind t := by
  rw [kind, h, kind]

/-- It has the nodes that it had. -/
theorem deps_congr {t : TermId} (h : g.terms[t]? = f.terms[t]?) : g.deps t = f.deps t := by
  rw [deps, h, deps]

/-- It has the mark that it had. -/
theorem isInput_congr {t : TermId} (h : g.terms[t]? = f.terms[t]?) :
    g.isInput t = f.isInput t := by
  rw [isInput, h, isInput]

/-- An update writes its term only. -/
theorem terms_update_of_ne {t x : TermId} (h : t ≠ x) (change : Term → Term) :
    (f.update t change).terms[x]? = f.terms[x]? := by
  unfold update
  rw [Array.getElem?_modify, if_neg h]

/-- Adding a term writes no other. -/
theorem terms_add_of_ne {t : TermId} (h : t ≠ f.size) (term : Term) :
    (f.add term).2.terms[t]? = f.terms[t]? := by
  unfold add
  rw [Array.getElem?_push]
  exact if_neg h

/-- A term of the region may get other children in the region. -/
theorem update_keepsTo {t : TermId} {change : Term → Term} (ht : R t)
    (h : f.Region R → ∀ term, f.terms[t]? = some term → ∀ x ∈ (change term).kind.children, R x) :
    KeepsTo R f (f.update t change) := by
  intro hf
  refine ⟨fun x hx y hy => ?_, fun x hx => ?_⟩
  · rw [kind_update] at hy
    split at hy
    · rename_i e
      subst e
      cases hterm : f.terms[t]? with
      | none =>
        rw [hterm] at hy
        cases hy
      | some term =>
        rw [hterm] at hy
        exact h hf term hterm y hy
    · exact hf x hx y hy
  · refine terms_update_of_ne (fun e => ?_) _
    rw [e] at ht
    exact hx ht

private theorem update_kind_keepsTo {t : TermId} {change : Term → Term} (ht : R t)
    (h : ∀ term, (change term).kind.children = term.kind.children) :
    KeepsTo R f (f.update t change) := by
  refine update_keepsTo ht fun hf term hterm x hx => ?_
  rw [h] at hx
  refine hf t ht x ?_
  rwa [kind, hterm]

/-- The kind of a term of the region may be set to one that is made of its terms. -/
theorem setKind_keepsTo {t : TermId} {k : Kind} (ht : R t)
    (hk : f.Region R → ∀ x ∈ k.children, R x) : KeepsTo R f (f.setKind t k) :=
  update_keepsTo ht fun hf _ _ => hk hf

/-- A child of a term of the region may be set to another term of it. -/
theorem setChild_keepsTo {t child : TermId} (slot : Slot) (ht : R t) (hchild : R child) :
    KeepsTo R f (f.setChild t slot child) := by
  refine update_keepsTo ht fun hf term hterm x hx => ?_
  rcases Kind.mem_children_setChild hx with rfl | hx
  · exact hchild
  · refine hf t ht x ?_
    rwa [kind, hterm]

/-- Terms of the region are changed in turn. -/
theorem foldl_keepsTo {step : Forest → TermId → Forest}
    (hstep : ∀ f t, R t → KeepsTo R f (step f t)) {ts : List TermId} (hts : ∀ t ∈ ts, R t) :
    KeepsTo R f (ts.foldl step f) := by
  induction ts generalizing f with
  | nil => exact Std.Refl.refl f
  | cons t rest ih =>
    exact (hstep f t (hts t List.mem_cons_self)).trans
      (ih fun x hx => hts x (List.mem_cons_of_mem _ hx))

/-- Registering nodes with a term of the region keeps to it. -/
theorem addDeps_keepsTo {t : TermId} (nodes : List NodeId) (ht : R t) :
    KeepsTo R f (f.addDeps t nodes) := by
  intro hf
  refine (?_ : KeepsTo R f (f.addDeps t nodes)) hf
  unfold addDeps
  split
  · exact Std.Refl.refl f
  · refine foldl_keepsTo (fun _ _ hx => ?_) (hf.reach ht)
    exact update_kind_keepsTo hx fun _ => rfl

/-- So does widening its inputs. -/
theorem widenInputs_keepsTo {t : TermId} (ht : R t) : KeepsTo R f (f.widenInputs t) := by
  intro hf
  refine (?_ : KeepsTo R f (f.widenInputs t)) hf
  rw [widenInputs_eq]
  refine foldl_keepsTo (fun _ _ hx => update_kind_keepsTo hx fun term => ?_)
    (hf.reachBy Kind.inputs_subset ht)
  dsimp only
  cases term.kind <;> rfl

/-- So does linking two terms of the region. -/
theorem link_keepsTo {loser winner : TermId} (hl : R loser) (hw : R winner) :
    KeepsTo R f (f.link loser winner) := by
  have hclear : KeepsTo R f (f.update loser fun term => { term with deps := .empty }) :=
    update_kind_keepsTo hl fun _ => rfl
  have hhand : KeepsTo R f (f.handOver loser winner) :=
    hclear.trans (addDeps_keepsTo _ hw)
  refine hhand.trans (update_keepsTo hl fun _ _ _ x hx => ?_)
  rw [List.mem_singleton.1 hx]
  exact hw

/-- A new term of the region is made of terms of the region. -/
theorem add_keepsTo {term : Term} (hnew : R f.size) (h : ∀ x ∈ term.kind.children, R x) :
    KeepsTo R f (f.add term).2 := by
  refine fun hf => ⟨fun t ht x hx => ?_, fun t ht => ?_⟩
  · rw [kind_add] at hx
    split at hx
    · exact h x hx
    · exact hf t ht x hx
  · refine terms_add_of_ne (fun e => ?_) _
    rw [e] at ht
    exact ht hnew

/-! ## Tidying up within a region -/

/-- Terms of a region are tidied up.  If links led to classes, what is written is what looking
classes up writes. -/
inductive Tidies (R : TermId → Prop) (f : Forest) : Forest → Prop
  | refl : Tidies R f f
  | shorten {g : Forest} {t root : TermId} (h : Tidies R f g) (ht : R t) (hroot : R root)
    (hlink : f.Rooted → ∃ u, g.kind t = .link u ∧ root = g.rep t) :
    Tidies R f (g.setKind t (.link root))
  | remember {g : Forest} {t found : TermId} {slot : Slot} (h : Tidies R f g) (ht : R t)
    (hfound : R found) (hchild : f.Rooted → ∃ x, (g.kind t).child? slot = some x ∧ found = g.rep x) :
    Tidies R f (g.setChild t slot found)
  | absorb {g : Forest} {w inner : TermId} (h : Tidies R f g) (hw : R w) (hinner : R inner)
    (hwraps : f.Rooted → ∃ x, g.kind w = .nilable x ∧ inner = g.rep x) :
    Tidies R f (g.absorb w inner)

namespace Tidies

/-- Where links lead to classes it is tidying up indeed. -/
theorem upkeeps (h : Tidies R f g) (hf : f.Rooted) : f.Upkeeps g := by
  induction h with
  | refl => exact .refl
  | shorten _ _ _ hlink ih =>
    obtain ⟨u, hu, rfl⟩ := hlink hf
    exact ih.tail (.shorten hu)
  | remember _ _ _ hchild ih =>
    obtain ⟨x, hx, rfl⟩ := hchild hf
    exact ih.tail (.remember hx)
  | absorb _ _ _ hwraps ih =>
    obtain ⟨x, hx, rfl⟩ := hwraps hf
    exact ih.tail (.absorb hx)

/-- Tidying up is so in the region of all terms. -/
theorem of_upkeeps (h : f.Upkeeps g) : Tidies (fun _ => True) f g := by
  induction h with
  | refl => exact .refl
  | tail _ hstep ih =>
    cases hstep with
    | shorten h => exact ih.shorten trivial trivial fun _ => ⟨_, h, rfl⟩
    | remember h => exact ih.remember trivial trivial fun _ => ⟨_, h, rfl⟩
    | absorb h => exact ih.absorb trivial trivial fun _ => ⟨_, h, rfl⟩

private theorem mono {S : TermId → Prop} (h : Tidies R f g) (hRS : ∀ t, R t → S t) : Tidies S f g := by
  induction h with
  | refl => exact .refl
  | shorten _ ht hroot hlink ih => exact ih.shorten (hRS _ ht) (hRS _ hroot) hlink
  | remember _ ht hfound hchild ih => exact ih.remember (hRS _ ht) (hRS _ hfound) hchild
  | absorb _ hw hinner hwraps ih => exact ih.absorb (hRS _ hw) (hRS _ hinner) hwraps

end Tidies

/-- A wrapper of the region absorbs what it wraps within the region. -/
theorem absorb_keepsTo {w inner : TermId} (hw : R w) (hinner : R inner) :
    KeepsTo R f (f.absorb w inner) := by
  unfold absorb
  split
  · refine setKind_keepsTo hw fun _ x hx => ?_
    rw [List.mem_singleton.1 hx]
    exact hinner
  · exact Std.Refl.refl f
  · refine (setKind_keepsTo hw fun hf x hx => ?_).trans (addDeps_keepsTo _ hw)
    rw [Kind.children_orNil] at hx
    exact hf inner hinner x hx

/-- Tidying up in a region keeps to it. -/
theorem Tidies.keepsTo (h : Tidies R f g) : KeepsTo R f g := by
  induction h with
  | refl => exact Std.Refl.refl f
  | shorten _ ht hroot _ ih =>
    refine ih.trans (setKind_keepsTo ht fun _ x hx => ?_)
    rw [List.mem_singleton.1 hx]
    exact hroot
  | remember _ ht hfound _ ih => exact ih.trans (setChild_keepsTo _ ht hfound)
  | absorb _ hw hinner _ ih => exact ih.trans (absorb_keepsTo hw hinner)

/-- Tidying up makes no term. -/
theorem Tidies.size (h : Tidies R f g) : g.size = f.size := by
  induction h with
  | refl => rfl
  | shorten _ _ _ _ ih => rw [size_setKind, ih]
  | remember _ _ _ _ ih => rw [size_setChild, ih]
  | absorb _ _ _ _ ih => rw [size_absorb, ih]

private theorem Tidies.region (h : Tidies R f g) (hf : f.Region R) : g.Region R := (h.keepsTo hf).1

/-- Links still lead to classes after tidying up. -/
theorem Tidies.rooted (h : Tidies R f g) (hf : f.Rooted) : g.Rooted :=
  ((h.upkeeps hf).steady hf).rooted

private theorem Tidies.trans {h : Forest} (hfg : Tidies R f g) (hgh : Tidies R g h) : Tidies R f h := by
  induction hgh with
  | refl => exact hfg
  | shorten _ ht hroot hlink ih => exact ih.shorten ht hroot fun hf => hlink (hfg.rooted hf)
  | remember _ ht hfound hchild ih =>
    exact ih.remember ht hfound fun hf => hchild (hfg.rooted hf)
  | absorb _ hw hinner hwraps ih => exact ih.absorb hw hinner fun hf => hwraps (hfg.rooted hf)

/-! ## Look-ups in a region -/

private theorem compress_tidies (hf : f.Region R) {root t : TermId} (h : Tidies R f g) (ht : R t)
    (hroot : R root) (hrep : f.Rooted → root = g.rep t) (fuel : Nat) :
    Tidies R f (g.compress root fuel t) := by
  induction fuel generalizing g t with
  | zero => exact h
  | succ fuel ih =>
    unfold compress
    split
    · exact h
    split
    · rename_i target htarget
      have hset : Tidies R f (g.setKind t (.link root)) :=
        h.shorten ht hroot fun hrooted => ⟨target, htarget, hrep hrooted⟩
      have hnext : R target :=
        h.region hf t ht target (by rw [htarget]; exact List.mem_singleton_self target)
      refine ih hset hnext fun hrooted => ?_
      have hg := h.rooted hrooted
      have hroot' := hrep hrooted
      have hup : g.Upkeep (g.setKind t (.link root)) := hroot' ▸ .shorten htarget
      rw [(hup.steady hg).rep, hroot', rep_link hg htarget]
    · exact h

/-- A look-up tidies up terms of the region and answers one. -/
theorem findFrom_tidies {fuel : Nat} {t r : TermId} (hf : f.Region R) (ht : R t)
    (h : findFrom fuel t f = some (r, g)) : Tidies R f g ∧ R r := by
  induction fuel generalizing t r f g with
  | zero => exact (failure_eq_some.1 h).elim
  | succ fuel ih =>
    have hroot := hf.rep ht
    have hcompress := compress_tidies hf .refl ht hroot (fun _ => rfl) f.size
    cases hk : ((f.compress (f.rep t) f.size t).kind (f.rep t)).isNilable with
    | false =>
      rw [findFrom_of_not_nilable hk] at h
      cases h
      exact ⟨hcompress, hroot⟩
    | true =>
      obtain ⟨inner, hinner⟩ := Kind.isNilable_eq_true.1 hk
      obtain ⟨rfl, inner', f₂, hrec, rfl⟩ := (findFrom_of_nilable hinner).1 h
      have hchild : R inner :=
        hcompress.region hf _ hroot inner (by rw [hinner]; exact List.mem_singleton_self inner)
      obtain ⟨hrest, hR⟩ := ih (hcompress.region hf) hchild hrec
      refine ⟨(hcompress.trans hrest).absorb hroot hR fun hrooted => ?_, hroot⟩
      have hrooted₁ := hcompress.rooted hrooted
      have hrep := ((compress_upkeeps hrooted (t := t) rfl f.size).1.steady hrooted).rep t
      have hstill := kind_of_findFrom_inner hrooted₁ (by rw [hrep, hinner]) hrec
      obtain ⟨rfl, hup, -⟩ := findFrom_upkeeps hrooted₁ hrec
      rw [hrep] at hstill
      exact ⟨inner, hstill, ((hup.steady hrooted₁).rep inner).symm⟩

/-- Looking up a term of the region tidies up in it, and answers one of its terms. -/
theorem find_tidies {t r : TermId} (hf : f.Region R) (ht : R t) (h : find t f = some (r, g)) :
    Tidies R f g ∧ R r :=
  findFrom_tidies hf ht (find_eq_findFrom t f ▸ h)

/-- So does looking up a child. -/
theorem child_tidies {t : TermId} {slot : Slot} {r : Option TermId} (hf : f.Region R) (ht : R t)
    (h : child t slot f = some (r, g)) : Tidies R f g ∧ ∀ x, r = some x → R x := by
  obtain ⟨f₀, f₀', hget, h⟩ := bind_eq_some.1 h
  obtain ⟨rfl, rfl⟩ := get_eq_some.1 hget
  cases hraw : (f.kind t).child? slot with
  | none =>
    simp only [hraw] at h
    obtain ⟨rfl, rfl⟩ := pure_eq_some.1 h
    exact ⟨.refl, fun x hx => by cases hx⟩
  | some raw =>
    simp only [hraw] at h
    obtain ⟨found, f₁, hfind, h⟩ := bind_eq_some.1 h
    obtain ⟨htidies, hfound⟩ := find_tidies hf (hf.child ht hraw) hfind
    split at h
    · obtain ⟨u, f₂, hset, h⟩ := bind_eq_some.1 h
      obtain ⟨rfl, rfl⟩ := pure_eq_some.1 h
      rw [← modify_eq_some.1 hset]
      refine ⟨htidies.remember ht hfound fun hrooted => ⟨raw, ?_, ?_⟩, fun x hx => ?_⟩
      · rw [kind_of_find_child hrooted hraw hfind, hraw]
      · obtain ⟨rfl, hup⟩ := find_upkeeps hrooted hfind
        rw [(hup.steady hrooted).rep]
      · rw [← Option.some.inj hx]
        exact hfound
    · obtain ⟨rfl, rfl⟩ := pure_eq_some.1 h
      refine ⟨htidies, fun x hx => ?_⟩
      rw [← Option.some.inj hx]
      exact hfound

/-! ## Occurs checks in a region -/

/-- The walk stays in the region, and what it finds is in the region. -/
def Walks (R : TermId → Prop) (t : TermId)
    (walk : TermId → List TermId → ForestM (Bool × List TermId)) : Prop :=
  ∀ x seen f b seen' g, f.Region R → R x → walk x seen f = some ((b, seen'), g) →
    Tidies R f g ∧ (b = true → R t)

private theorem anyOccurs_tidies {t : TermId} {walk : TermId → List TermId → ForestM (Bool × List TermId)}
    (hwalk : Walks R t walk) {xs seen seen' : List TermId} {b : Bool} (hf : f.Region R)
    (hxs : ∀ x ∈ xs, R x) (h : anyOccurs walk xs seen f = some ((b, seen'), g)) :
    Tidies R f g ∧ (b = true → R t) := by
  induction xs generalizing f seen with
  | nil =>
    obtain ⟨e, rfl⟩ := pure_eq_some.1 h
    cases e
    exact ⟨.refl, fun hb => by cases hb⟩
  | cons x rest ih =>
    obtain ⟨⟨found, seen₁⟩, f₁, hfirst, h⟩ := bind_eq_some.1 h
    obtain ⟨h₁, hR⟩ := hwalk _ _ _ _ _ _ hf (hxs x List.mem_cons_self) hfirst
    cases found with
    | true =>
      obtain ⟨e, rfl⟩ := pure_eq_some.1 h
      exact ⟨h₁, fun _ => hR rfl⟩
    | false =>
      obtain ⟨hrest, hR⟩ := ih (h₁.region hf) (fun y hy => hxs y (List.mem_cons_of_mem _ hy)) h
      exact ⟨h₁.trans hrest, hR⟩

private theorem occursFrom_walks (t : TermId) (fuel : Nat) : Walks R t (occursFrom t fuel) := by
  induction fuel with
  | zero => exact fun x seen f b seen' g _ _ h => (failure_eq_some.1 h).elim
  | succ fuel ih =>
    intro x seen f b seen' g hf hx h
    obtain ⟨r, f₁, hfind, h⟩ := bind_eq_some.1 h
    obtain ⟨h₁, hr⟩ := find_tidies hf hx hfind
    rcases ite_eq_some.1 h with ⟨hrt, h⟩ | ⟨-, h⟩
    · obtain ⟨-, rfl⟩ := pure_eq_some.1 h
      exact ⟨h₁, fun _ => hrt ▸ hr⟩
    rcases ite_eq_some.1 h with ⟨-, h⟩ | ⟨-, h⟩
    · obtain ⟨e, rfl⟩ := pure_eq_some.1 h
      cases e
      exact ⟨h₁, fun hb => by cases hb⟩
    · obtain ⟨f₂, f₂', hget, h⟩ := bind_eq_some.1 h
      obtain ⟨rfl, rfl⟩ := get_eq_some.1 hget
      have hf₁ := h₁.region hf
      obtain ⟨hrest, hR⟩ := anyOccurs_tidies ih hf₁ (fun y hy => hf₁ r hr y hy) h
      exact ⟨h₁.trans hrest, hR⟩

/-- Tidying up leads out of no region. -/
theorem Upkeep.region (hf : f.Rooted) (h : f.Upkeep g) (hR : f.Region R) : g.Region R := by
  intro t ht x hx
  cases h with
  | @shorten t' u h =>
    rw [kind_setKind] at hx
    split at hx
    · rename_i e
      rw [List.mem_singleton.1 hx, e.1]
      exact hR.rep ht
    · exact hR t ht x hx
  | @remember t' y slot h =>
    rw [kind_setChild] at hx
    split at hx
    · rename_i e
      subst e
      rcases Kind.mem_children_setChild hx with rfl | hx
      · exact hR.rep (hR.child ht h)
      · exact hR t' ht x hx
    · exact hR t ht x hx
  | @absorb w inner h =>
    rw [kind_absorb (not_isLink_rep hf inner)] at hx
    split at hx
    · rename_i e
      obtain ⟨rfl, -⟩ := e
      have hinner : R (f.rep inner) := hR.rep (hR w ht inner (by rw [h]; exact List.mem_singleton_self _))
      rcases mem_children_absorbedKind hx with rfl | hx
      · exact hinner
      · exact hR _ hinner x hx
    · exact hR t ht x hx

/-- Tidying up anywhere leaves every region one. -/
theorem Upkeeps.region (hf : f.Rooted) (h : f.Upkeeps g) (hR : f.Region R) : g.Region R := by
  induction h with
  | refl => exact hR
  | tail hg hstep ih => exact hstep.region (Upkeeps.steady hf hg).rooted ih

/-- What occurs in types of a region within another is in the inner one. -/
theorem occursInAny_tidies {S : TermId → Prop} {t : TermId} {types : List TermId} {b : Bool}
    (hf : f.Rooted) (hR : f.Region R) (hS : f.Region S) (hSR : ∀ x, S x → R x) (ht : R t)
    (htypes : ∀ x ∈ types, S x) (h : occursInAny t types f = some (b, g)) :
    Tidies R f g ∧ (b = true → S (f.rep t)) := by
  obtain ⟨r, f₁, hfind, h⟩ := bind_eq_some.1 h
  obtain ⟨f₂, f₂', hget, h⟩ := bind_eq_some.1 h
  obtain ⟨rfl, rfl⟩ := get_eq_some.1 hget
  obtain ⟨⟨found, seen⟩, f₃, hrun, h⟩ := bind_eq_some.1 h
  obtain ⟨rfl, rfl⟩ := pure_eq_some.1 h
  obtain ⟨htidies, -⟩ := find_tidies hR ht hfind
  obtain ⟨rfl, hup⟩ := find_upkeeps hf hfind
  obtain ⟨hrest, hfound⟩ :=
    anyOccurs_tidies (occursFrom_walks _ _) (hup.region hf hS) htypes hrun
  exact ⟨htidies.trans (hrest.mono hSR), hfound⟩

end Forest

end TypeFlow
