import TypeFlow.Proofs.PlainTypes

/-!
# Forests that grow

A program is prepared by adding terms to a forest and merging classes of new terms.  What grows this
way keeps the classes of old terms apart from new ones (`Forest.Extends`), while equalities and
registered nodes stay for ever (`Forest.Grows`).

Main definitions:

- `Forest.Extends`: old terms keep their classes, and new terms form classes of their own.
- `Forest.Grows`: merged terms stay merged, and registered nodes stay registered.

Main results:

- `Forest.rep_link_eq`: the representatives after a merge.
- `Forest.link_grows`, `Forest.link_extends`: a merge grows a forest, and extends it where both
  classes are new.
-/

namespace TypeFlow

namespace Forest

/-- Old terms keep their classes, variables among them stay variables, no node registered with one
is lost, and new terms form classes of their own. -/
structure Extends (f g : Forest) : Prop where
  rooted : g.Rooted
  size : f.size ≤ g.size
  rep : ∀ t, t < f.size → g.rep t = f.rep t
  fresh : ∀ t, f.size ≤ t → f.size ≤ g.rep t
  var : ∀ t, t < f.size → f.kind t = .var → g.kind t = .var
  deps : ∀ t n, n ∈ f.deps t → n ∈ g.deps t

/-- Merged terms stay merged, and nodes registered with a class stay registered with it. -/
structure Grows (f g : Forest) : Prop where
  rooted : g.Rooted
  size : f.size ≤ g.size
  rep : ∀ t u, f.rep t = f.rep u → g.rep t = g.rep u
  deps : ∀ t n, n ∈ f.deps (f.rep t) → n ∈ g.deps (g.rep t)

/-- A forest extends itself. -/
theorem Extends.refl {f : Forest} (h : f.Rooted) : Extends f f where
  rooted := h
  size := le_rfl
  rep _ _ := rfl
  fresh t ht := by
    have hvar : f.kind t = .var := by
      by_contra hne
      exact absurd (lt_size_of_kind hne) (Nat.not_lt.2 ht)
    rw [rep_of_not_link (by rw [hvar]; rfl)]
    exact ht
  var _ _ ht := ht
  deps _ _ hn := hn

/-- Forests extend others in turn. -/
theorem Extends.trans {f g h : Forest} (hfg : Extends f g) (hgh : Extends g h) : Extends f h where
  rooted := hgh.rooted
  size := hfg.size.trans hgh.size
  rep t ht := (hgh.rep t (Nat.lt_of_lt_of_le ht hfg.size)).trans (hfg.rep t ht)
  fresh t ht := by
    by_cases hg : t < g.size
    · rw [hgh.rep t hg]
      exact hfg.fresh t ht
    · exact hfg.size.trans (hgh.fresh t (Nat.le_of_not_lt hg))
  var t ht hk := hgh.var t (Nat.lt_of_lt_of_le ht hfg.size) (hfg.var t ht hk)
  deps t n hn := hgh.deps t n (hfg.deps t n hn)

/-- Forests grow in turn. -/
theorem Grows.trans {f g h : Forest} (hfg : Grows f g) (hgh : Grows g h) : Grows f h where
  rooted := hgh.rooted
  size := hfg.size.trans hgh.size
  rep t u htu := hgh.rep t u (hfg.rep t u htu)
  deps t n hn := hgh.deps t n (hfg.deps t n hn)

/-- What is no term yet represents itself. -/
theorem rep_of_size_le {f : Forest} {t : TermId} (h : f.size ≤ t) : f.rep t = t := by
  apply rep_of_not_link
  cases hk : (f.kind t).isLink with
  | false => rfl
  | true =>
    have hlt : t < f.size := lt_size_of_kind (by rintro hvar; rw [hvar] at hk; cases hk)
    exact absurd hlt (Nat.not_lt.2 h)

/-- Nodes are registered with terms only. -/
theorem lt_size_of_deps {f : Forest} {t : TermId} {n : NodeId} (h : n ∈ f.deps t) :
    t < f.size := by
  by_contra hlt
  have hnone : f.terms[t]? = none := Array.getElem?_eq_none (Nat.le_of_not_lt hlt)
  rw [deps, hnone] at h
  cases h

/-- Only terms are represented by terms. -/
theorem lt_size_of_rep_lt {f : Forest} {t : TermId} (h : f.rep t < f.size) : t < f.size := by
  by_contra hlt
  rw [rep_of_size_le (Nat.le_of_not_lt hlt)] at h
  exact hlt h

/-- What extends a forest grows it. -/
theorem Extends.grows {f g : Forest} (hf : f.Rooted) (h : Extends f g) : Grows f g where
  rooted := h.rooted
  size := h.size
  rep t u htu := by
    by_cases ht : t < f.size
    · have hu : u < f.size := lt_size_of_rep_lt (htu ▸ rep_lt_size hf ht)
      rw [h.rep t ht, h.rep u hu, htu]
    · have hu : ¬u < f.size := fun hu => ht (lt_size_of_rep_lt (htu.symm ▸ rep_lt_size hf hu))
      rw [rep_of_size_le (Nat.le_of_not_lt ht), rep_of_size_le (Nat.le_of_not_lt hu)] at htu
      rw [htu]
  deps t n hn := by
    have ht : t < f.size := lt_size_of_rep_lt (lt_size_of_deps hn)
    rw [h.rep t ht]
    exact h.deps _ n hn

/-- Tidying extends a forest by nothing. -/
theorem Extends.of_sameClasses {f g : Forest} (h : SameClasses f g) : Extends f g where
  rooted := h.rooted
  size := h.size.ge
  rep t _ := h.rep t
  fresh t ht := by
    rw [h.rep, rep_of_size_le ht]
    exact ht
  var t _ hk := (h.var t).2 hk
  deps := h.deps

/-! ## Changes that keep links -/

/-- Where links stay what they are, so do representatives. -/
theorem extends_of_links {f g : Forest} (h : f.Rooted) (hsize : f.size ≤ g.size)
    (hlink : ∀ t u, g.kind t = .link u ↔ f.kind t = .link u)
    (hvar : ∀ t, t < f.size → f.kind t = .var → g.kind t = .var)
    (hdeps : ∀ t n, n ∈ f.deps t → n ∈ g.deps t) : Extends f g := by
  have hroot : ∀ t, (g.kind t).isLink = false → (f.kind t).isLink = false := by
    intro t ht
    cases hk : (f.kind t).isLink with
    | false => rfl
    | true =>
      obtain ⟨u, hu⟩ := Kind.isLink_eq_true.1 hk
      rw [(hlink t u).2 hu] at ht
      cases ht
  obtain ⟨hrooted, hrep⟩ := reps_of_links h hsize (fun t u hu => Or.inl ((hlink t u).1 hu)) hroot
  refine ⟨hrooted, hsize, fun t _ => hrep t, ?_, hvar, hdeps⟩
  intro t ht
  rw [hrep, rep_of_size_le ht]
  exact ht

/-- Setting a child changes the kind of its term only. -/
theorem kind_setChild (f : Forest) (t u : TermId) (slot : Slot) (child : TermId) :
    (f.setChild t slot child).kind u =
      if t = u then (f.kind u).setChild slot child else f.kind u := by
  unfold setChild
  rw [kind_update]
  by_cases e : t = u
  · rw [if_pos e, if_pos e]
    unfold kind
    cases f.terms[u]? <;> rfl
  · rw [if_neg e, if_neg e]

@[simp] theorem size_setChild (f : Forest) (t : TermId) (slot : Slot) (child : TermId) :
    (f.setChild t slot child).size = f.size := size_update f t _

@[simp] theorem deps_setChild (f : Forest) (t u : TermId) (slot : Slot) (child : TermId) :
    (f.setChild t slot child).deps u = f.deps u := by
  apply deps_update
  intro term
  rfl

/-- Putting a child into a slot extends a forest by nothing. -/
theorem setChild_extends {f : Forest} (h : f.Rooted) (t : TermId) (slot : Slot) (child : TermId) :
    Extends f (f.setChild t slot child) := by
  have hset : ∀ k : Kind, (∀ u, k.setChild slot child = .link u ↔ k = .link u) ∧
      (k = .var → k.setChild slot child = .var) := by
    intro k
    cases k <;> cases slot <;> simp [Kind.setChild]
  apply extends_of_links h
  · exact (size_update _ _ _).ge
  · intro x u
    rw [kind_setChild]
    split
    · exact (hset _).1 u
    · exact Iff.rfl
  · intro x _ hx
    rw [kind_setChild]
    split
    · exact (hset _).2 hx
    · exact hx
  · intro x n hn
    unfold setChild
    rw [deps_update]
    · exact hn
    · exact fun term => rfl

/-- Setting a child keeps a forest plain. -/
theorem setChild_plain {N : Prop} {f : Forest} (h : f.Plain N) (t : TermId) (slot : Slot)
    (child : TermId) : (f.setChild t slot child).Plain N := by
  intro u
  rw [kind_setChild]
  have hu := h u
  split
  · cases hk : f.kind u <;> rw [hk] at hu <;> cases slot <;> exact hu
  · exact hu

/-- The kind of an input: a base type is widened. -/
def widenedKind : Kind → Kind
  | .base flow => .base flow.widen
  | k => k

/-- Widening twice widens once. -/
theorem widenedKind_widenedKind (k : Kind) : widenedKind (widenedKind k) = widenedKind k := by
  cases k with
  | base flow => cases flow <;> rfl
  | _ => rfl

private theorem widenedKind_eq_link {k : Kind} {u : TermId} : widenedKind k = .link u ↔ k = .link u := by
  cases k <;> simp [widenedKind]

/-- Widening inputs makes no term. -/
theorem size_widenInputs (f : Forest) (t : TermId) : (f.widenInputs t).size = f.size := by
  unfold widenInputs
  generalize f.reachBy Kind.inputs t = ts
  induction ts generalizing f with
  | nil => rfl
  | cons r rest ih => rw [List.foldl_cons, ih, size_update]

/-- The forest with a term marked as an input. -/
def markInput (f : Forest) (r : TermId) : Forest :=
  f.update r fun term => { term with isInput := true, kind := widenedKind term.kind }

private theorem kind_markInput (f : Forest) (r x : TermId) :
    (f.markInput r).kind x = if r = x then widenedKind (f.kind x) else f.kind x := by
  rw [markInput, kind_update]
  split
  · unfold kind
    cases f.terms[x]? <;> rfl
  · rfl

@[simp] theorem deps_markInput (f : Forest) (r x : TermId) : (f.markInput r).deps x = f.deps x := by
  apply deps_update
  exact fun term => rfl

/-- All inputs that a term leads to are marked. -/
theorem widenInputs_eq (f : Forest) (t : TermId) :
    f.widenInputs t = (f.reachBy Kind.inputs t).foldl markInput f := rfl

/-- Widening inputs widens the classes that values are passed in through. -/
theorem kind_widenInputs_eq (f : Forest) (t x : TermId) : (f.widenInputs t).kind x =
    if x ∈ f.reachBy Kind.inputs t then widenedKind (f.kind x) else f.kind x := by
  rw [widenInputs_eq]
  generalize f.reachBy Kind.inputs t = ts
  induction ts generalizing f with
  | nil => rfl
  | cons r rest ih =>
    rw [List.foldl_cons, ih, kind_markInput]
    by_cases hr : r = x
    · subst hr
      simp [widenedKind_widenedKind]
    · simp [hr, Ne.symm hr]

/-- The class of the term is one of them. -/
theorem kind_widenInputs_rep (f : Forest) (t : TermId) :
    (f.widenInputs t).kind (f.rep t) = widenedKind (f.kind (f.rep t)) := by
  rw [kind_widenInputs_eq, if_pos (rep_mem_reachBy f Kind.inputs t)]

/-- Widening inputs extends a forest by nothing and keeps it plain. -/
theorem widenInputs_extends {f : Forest} (h : f.Rooted) (t : TermId) :
    Extends f (f.widenInputs t) ∧ ∀ N, f.Plain N → (f.widenInputs t).Plain N := by
  rw [widenInputs_eq]
  generalize f.reachBy Kind.inputs t = ts
  induction ts generalizing f with
  | nil => exact ⟨Extends.refl h, fun _ => id⟩
  | cons r rest ih =>
    rw [List.foldl_cons]
    have hkind := kind_markInput f r
    set g := f.markInput r with hg
    have hext : Extends f g := by
      apply extends_of_links h
      · exact (size_update _ _ _).ge
      · intro x u
        rw [hkind]
        split
        · exact widenedKind_eq_link
        · exact Iff.rfl
      · intro x _ hx
        rw [hkind, hx]
        split <;> rfl
      · intro x n hn
        rw [hg, deps_markInput]
        exact hn
    have hplain : ∀ N, f.Plain N → g.Plain N := by
      intro N hf x
      rw [hkind]
      have hx := hf x
      split
      · cases hk : f.kind x with
        | base flow =>
          rw [hk] at hx
          exact Flow.Plain.widen hx
        | _ =>
          rw [hk] at hx
          exact hx
      · exact hx
    obtain ⟨hrest, hrestPlain⟩ := ih hext.rooted
    exact ⟨hext.trans hrest, fun N hf => hrestPlain N (hplain N hf)⟩

/-- The forest with the inputs of the winner widened if values from callers flow into the loser. -/
def passInput (f : Forest) (loser winner : TermId) : Forest :=
  if f.isInput loser then f.widenInputs winner else f

/-- Passing on that a class is an input makes no term. -/
theorem size_passInput (f : Forest) (loser winner : TermId) :
    (f.passInput loser winner).size = f.size := by
  unfold passInput
  split
  · exact size_widenInputs f winner
  · rfl

/-- A class takes over the mark of an input, which widens it. -/
theorem kind_passInput_winner {f : Forest} {winner : TermId} (hw : (f.kind winner).isLink = false)
    (loser : TermId) : (f.passInput loser winner).kind winner =
      if f.isInput loser then widenedKind (f.kind winner) else f.kind winner := by
  have hwiden := f.kind_widenInputs_rep winner
  rw [rep_of_not_link hw] at hwiden
  unfold passInput
  split
  · exact hwiden
  · rfl

/-! ## New terms -/

/-- A new term has its kind, and others have theirs. -/
theorem kind_alloc (f : Forest) (k : Kind) (t : TermId) :
    (f.alloc k).2.kind t = if t = f.size then k else f.kind t := by
  unfold alloc add kind size
  rw [Array.getElem?_push]
  by_cases e : t = f.terms.size
  · rw [if_pos e, if_pos e]
  · rw [if_neg e, if_neg e]

@[simp] theorem alloc_fst (f : Forest) (k : Kind) : (f.alloc k).1 = f.size := rfl

@[simp] theorem size_alloc (f : Forest) (k : Kind) : (f.alloc k).2.size = f.size + 1 := by
  simp [alloc, add, size]

/-- A new term extends a forest. -/
theorem alloc_extends {f : Forest} (h : f.Rooted) {k : Kind} (hk : k.isLink = false) :
    Extends f (f.alloc k).2 := by
  apply extends_of_links h
  · rw [size_alloc]
    exact Nat.le_succ _
  · intro t u
    rw [kind_alloc]
    split
    · rename_i e
      have hvar : f.kind t = .var := by
        by_contra hne
        have hlt := lt_size_of_kind hne
        rw [e] at hlt
        exact Nat.lt_irrefl _ hlt
      rw [hvar]
      constructor
      · rintro rfl
        cases hk
      · exact Kind.noConfusion
    · exact Iff.rfl
  · intro t ht hvar
    rw [kind_alloc, if_neg (Nat.ne_of_lt ht)]
    exact hvar
  · intro t n hn
    have ht : t ≠ f.terms.size := Nat.ne_of_lt (lt_size_of_deps hn)
    unfold deps alloc add
    rw [Array.getElem?_push, if_neg ht]
    exact hn

/-- A plain new type keeps a forest plain. -/
theorem alloc_plain {N : Prop} {f : Forest} (h : f.Plain N) {k : Kind} (hk : k.Plain N) :
    (f.alloc k).2.Plain N := by
  intro t
  rw [kind_alloc]
  split
  · exact hk
  · exact h t

/-- A new function type extends a forest. -/
theorem allocFunction_extends {f : Forest} (h : f.Rooted) (input : Bool) (fids : IdSet)
    (args : List TermId) (ret : TermId) :
    Extends f (f.allocFunction input fids args ret).2 ∧
      (f.allocFunction input fids args ret).1 = f.size ∧
      (f.allocFunction input fids args ret).2.size = f.size + 1 ∧
      ∀ N, f.Plain N → (f.allocFunction input fids args ret).2.Plain N := by
  have hinputs : ∀ (g : Forest), g.Rooted → Extends g (args.foldl widenInputs g) ∧
      (args.foldl widenInputs g).size = g.size ∧
        ∀ N, g.Plain N → (args.foldl widenInputs g).Plain N := by
    induction args with
    | nil => exact fun g hg => ⟨Extends.refl hg, rfl, fun _ => id⟩
    | cons arg rest ih =>
      intro g hg
      obtain ⟨hext, hplain⟩ := widenInputs_extends hg arg
      obtain ⟨hext', hsize', hplain'⟩ := ih _ hext.rooted
      rw [List.foldl_cons]
      exact ⟨hext.trans hext', hsize'.trans (size_widenInputs g arg),
        fun N hf => hplain' N (hplain N hf)⟩
  unfold allocFunction
  cases input with
  | false =>
    exact ⟨alloc_extends h rfl, rfl, size_alloc _ _, fun _ hf => alloc_plain hf fun _ => rfl⟩
  | true =>
    obtain ⟨hext, hsize, hplain⟩ := hinputs f h
    refine ⟨hext.trans (alloc_extends hext.rooted rfl), ?_, ?_, fun N hf => ?_⟩
    · exact hsize
    · dsimp only
      rw [if_pos rfl, size_alloc, hsize]
    · exact alloc_plain (hplain N hf) fun _ => rfl

/-! ## Merging classes -/

/-- The forest in which a class hands its registered nodes over to another. -/
def handOver (f : Forest) (loser winner : TermId) : Forest :=
  (f.update loser fun term => { term with deps := .empty }).addDeps winner (f.deps loser).toList

@[simp] theorem size_handOver (f : Forest) (loser winner : TermId) :
    (f.handOver loser winner).size = f.size := by
  rw [handOver, size_addDeps, size_update]

@[simp] theorem kind_handOver (f : Forest) (loser winner t : TermId) :
    (f.handOver loser winner).kind t = f.kind t := by
  rw [handOver, kind_addDeps, kind_update]
  split
  · unfold kind
    cases f.terms[t]? <;> rfl
  · rfl

/-- Nodes of other classes stay registered when some are handed over. -/
theorem mem_deps_handOver {f : Forest} {loser winner t : TermId} {n : NodeId}
    (ht : t ≠ loser) (hn : n ∈ f.deps t) : n ∈ (f.handOver loser winner).deps t := by
  refine mem_deps_addDeps.2 (Or.inl ?_)
  unfold deps update
  rw [Array.getElem?_modify, if_neg (Ne.symm ht)]
  exact hn

private theorem mem_deps_winner {f : Forest} {loser winner : TermId} {n : NodeId}
    (hwinner : (f.kind winner).isLink = false) (hlt : winner < f.size) (hn : n ∈ f.deps loser) :
    n ∈ (f.handOver loser winner).deps winner := by
  refine mem_deps_addDeps.2 (Or.inr ⟨hn, ?_, by rw [size_update]; exact hlt⟩)
  have hroot : ((f.update loser fun term => { term with deps := .empty }).kind winner).isLink =
      false := by
    rw [kind_update]
    split
    · unfold kind at hwinner
      cases hterm : f.terms[winner]? with
      | none => rfl
      | some term =>
        rw [hterm] at hwinner
        exact hwinner
    · exact hwinner
  have hmem := rep_mem_reach (f.update loser fun term => { term with deps := .empty }) winner
  rwa [rep_of_not_link hroot] at hmem

section Link

variable {f : Forest} {loser winner : TermId}

@[simp] theorem size_link (f : Forest) (loser winner : TermId) :
    (f.link loser winner).size = f.size := by
  have hlink : (f.link loser winner).size = ((f.handOver loser winner).update loser fun term =>
      { term with kind := .link winner, isInput := false }).size := rfl
  rw [hlink, size_update, size_handOver]

/-- Linking makes a link of the loser and changes no other kind. -/
theorem kind_link (h : loser < f.size) (t : TermId) :
    (f.link loser winner).kind t = if loser = t then .link winner else f.kind t := by
  have hlink : (f.link loser winner).kind t = ((f.handOver loser winner).update loser fun term =>
      { term with kind := .link winner, isInput := false }).kind t := rfl
  rw [hlink, kind_update, kind_handOver]
  by_cases e : loser = t
  · have hlt : t < (f.handOver loser winner).size := by
      rw [size_handOver, ← e]
      exact h
    have hterm : (f.handOver loser winner).terms[t]? = some (f.handOver loser winner).terms[t] :=
      Array.getElem?_eq_getElem hlt
    rw [if_pos e, if_pos e, hterm]
  · rw [if_neg e, if_neg e]

/-- Linking registers nodes as handing them over does. -/
theorem deps_link (t : TermId) :
    (f.link loser winner).deps t = (f.handOver loser winner).deps t := by
  have hlink : (f.link loser winner).deps t = ((f.handOver loser winner).update loser fun term =>
      { term with kind := .link winner, isInput := false }).deps t := rfl
  rw [hlink, deps_update]
  exact fun term => rfl

variable (hrooted : f.Rooted) (hloser : (f.kind loser).isLink = false)
  (hwinner : (f.kind winner).isLink = false) (hne : loser ≠ winner) (hl : loser < f.size)
  (hw : winner < f.size)

include hrooted hloser hwinner hne hl hw in
/-- Links still lead to classes when one is added. -/
theorem rooted_link : (f.link loser winner).Rooted := by
  obtain ⟨rank, hrank⟩ := hrooted
  -- The loser's class goes above everything the winner's class has.
  refine ⟨fun t => if f.rep t = loser then rank t + rank winner + 1 else rank t, ?_⟩
  intro t u hu
  rw [size_link]
  rw [kind_link hl] at hu
  split at hu
  · rename_i e
    cases hu
    subst e
    dsimp only
    rw [rep_of_not_link hloser, rep_of_not_link hwinner, if_pos rfl, if_neg (Ne.symm hne)]
    exact ⟨by omega, hw⟩
  · obtain ⟨hlt, hsize⟩ := hrank t u hu
    dsimp only
    rw [rep_link ⟨rank, hrank⟩ hu]
    refine ⟨?_, hsize⟩
    split
    · omega
    · exact hlt

include hrooted hloser hwinner hne hl hw in
/-- After a merge the loser's class is the winner's. -/
theorem rep_link_eq (t : TermId) :
    (f.link loser winner).rep t = if f.rep t = loser then winner else f.rep t := by
  refine rep_eq_of (rooted_link hrooted hloser hwinner hne hl hw)
    (r := fun t => if f.rep t = loser then winner else f.rep t) ?_ ?_ t
  · intro t u hu
    rw [kind_link hl] at hu
    split at hu
    · rename_i e
      cases hu
      subst e
      rw [rep_of_not_link hloser, rep_of_not_link hwinner, if_pos rfl, if_neg (Ne.symm hne)]
    · rw [rep_link hrooted hu]
  · intro t ht
    rw [kind_link hl] at ht
    split at ht
    · cases ht
    · rename_i e
      rw [rep_of_not_link ht, if_neg (Ne.symm e)]

include hrooted hloser hwinner hne hl hw in
/-- A merge grows a forest. -/
theorem link_grows : Grows f (f.link loser winner) where
  rooted := rooted_link hrooted hloser hwinner hne hl hw
  size := (size_link f loser winner).ge
  rep t u htu := by
    rw [rep_link_eq hrooted hloser hwinner hne hl hw, rep_link_eq hrooted hloser hwinner hne hl hw,
      htu]
  deps t n hn := by
    rw [rep_link_eq hrooted hloser hwinner hne hl hw, deps_link]
    split
    · rename_i e
      rw [e] at hn
      exact mem_deps_winner hwinner hw hn
    · rename_i e
      exact mem_deps_handOver e hn

include hrooted hloser hwinner hne hl hw in
/-- A merge of two new classes extends what the forest extends. -/
theorem link_extends {base : Forest} (hbase : base.Rooted) (h : Extends base f)
    (hnew : base.size ≤ loser) (hnew' : base.size ≤ winner) :
    Extends base (f.link loser winner) where
  rooted := rooted_link hrooted hloser hwinner hne hl hw
  size := by
    rw [size_link]
    exact h.size
  rep t ht := by
    have hlt : f.rep t < base.size := by
      rw [h.rep t ht]
      exact rep_lt_size hbase ht
    rw [rep_link_eq hrooted hloser hwinner hne hl hw, if_neg, h.rep t ht]
    rintro rfl
    exact absurd hlt (Nat.not_lt.2 hnew)
  fresh t ht := by
    rw [rep_link_eq hrooted hloser hwinner hne hl hw]
    split
    · exact hnew'
    · exact h.fresh t ht
  var t ht hvar := by
    rw [kind_link hl, if_neg]
    · exact h.var t ht hvar
    · rintro rfl
      exact absurd ht (Nat.not_lt.2 hnew)
  deps t n hn := by
    have ht := lt_size_of_deps hn
    rw [deps_link]
    apply mem_deps_handOver
    · rintro rfl
      exact absurd ht (Nat.not_lt.2 hnew)
    · exact h.deps t n hn

include hl in
/-- Linking keeps a forest plain. -/
theorem link_plain {N : Prop} (h : f.Plain N) : (f.link loser winner).Plain N := by
  intro t
  rw [kind_link hl]
  split
  · trivial
  · exact h t

end Link

end Forest

end TypeFlow
