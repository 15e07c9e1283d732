import TypeFlow.Proofs.ForestHistories
import TypeFlow.Proofs.UnfoldedTypes
import TypeFlow.Proofs.Walks

/-!
# Flows over look-ups

A look-up shortens links and has the wrappers that it opens take over what they wrap.  Shortened links
change the flow of no type.  Nor does a wrapper that takes over a variable, a base type, a record or an
error, since nil is met in the same place.  For a function it depends on the marks: values that callers
pass in may be of functions from outside, and what the wrapper takes over is told from then on by the
mark of the wrapper, not by that of the function.

Main definitions:

- `Kind.fids?`: the functions that a function type names.
- `Forest.MarksAgree`: the marks of wrappers say what those of the wrapped functions say.

Main results:

- `Forest.fids?_of_findFrom`: a look-up makes wrappers of functions types of the same functions.
- `Forest.widest_absorb`, `Forest.widest_of_findFrom`: what keeps flows.
- `Forest.flows_kept_iff`: a look-up keeps all flows exactly if the marks agree.
- `Forest.flow_of_unmarked_wrapper`: a wrapper whose mark does not.
-/

namespace TypeFlow

/-- The functions that a function type names. -/
def Kind.fids? : Kind → Option IdSet
  | function _ _ fids _ => some fids
  | _ => none

private theorem Kind.fids?_eq_some {k : Kind} {fids : IdSet} :
    k.fids? = some fids ↔ ∃ args ret nil, k = .function args ret fids nil := by
  cases k <;> simp [fids?]

namespace Forest

variable {f g : Forest}

/-- The wrappers that a look-up of the term opens stand for the same functions by their own marks as by
that of the function they wrap, if they wrap one. -/
def MarksAgree (f : Forest) (t : TermId) : Prop :=
  ∀ w c fids, f.Within t w → f.Within w c → (f.kind c).fids? = some fids →
    callees (f.isInput w) fids = callees (f.isInput c) fids

/-! ## The functions of wrappers -/

/-- The flow of wrappers of a function is that of the function or nil. -/
theorem widestFrom_of_within {t c : TermId} {fids : IdSet} {n : Nat} {above : List IdSet} {a : Flow}
    (h : f.Within t c) (hc : (f.kind c).fids? = some fids) (ha : f.widestFrom n t above = some a) :
    ∃ nil, a = .function (callees (f.isInput c) fids) nil := by
  induction h generalizing n a with
  | here t =>
    obtain ⟨args, ret, nil, hk⟩ := Kind.fids?_eq_some.1 hc
    obtain _ | n := n
    · cases ha
    · rw [widestFrom_function n above hk] at ha
      exact ⟨nil, (Option.some.inj ha).symm⟩
  | inner hinner _ ih =>
    obtain _ | n := n
    · cases ha
    · rw [widestFrom_nilable n above hinner] at ha
      obtain ⟨b, hb, rfl⟩ := Option.map_eq_some_iff.1 ha
      obtain ⟨nil, rfl⟩ := ih hc hb
      exact ⟨true, Flow.orNil_function _ _⟩

private theorem fids?_absorbedKind (inner : TermId) (k : Kind) :
    (absorbedKind inner k).fids? = k.fids? := by
  cases k <;> rfl

/-- Tidied forests in which the classes have their types still nest the same wrappers. -/
theorem Upkeeps.within (hf : f.Rooted) (h : f.Upkeeps g)
    (hkinds : ∀ x, (f.kind x).isLink = false → g.kind x = f.kind x) {t w : TermId} :
    g.Within t w ↔ f.Within t w := by
  have hs := h.steady hf
  refine ⟨fun hw => hw.congr hs.rep hkinds hf, fun hw => ?_⟩
  refine hw.congr (fun t => (hs.rep t).symm) (fun x hx => ?_) hs.rooted
  exact (hkinds x (by rw [← hs.isLink, hx])).symm

/-- A look-up makes the wrappers that it opens types of the functions that they wrap, and of no
functions if they wrap none. -/
theorem fids?_of_findFrom (hf : f.Rooted) {fuel : Nat} {t r : TermId}
    (h : findFrom fuel t f = some (r, g)) {w c : TermId} (hw : f.Within t w) (hc : f.Within w c)
    (hnot : (f.kind c).isNilable = false) : (g.kind w).fids? = (f.kind c).fids? := by
  induction fuel generalizing t r f g w with
  | zero => exact (failure_eq_some.1 h).elim
  | succ fuel ih =>
    obtain ⟨-, f₁, hup, hkinds, ⟨hk, rfl⟩ | ⟨inner, f₂, hinner, hrec, hup₂, hstill, rfl⟩⟩ :=
      findFrom_succ_cases hf h
    · rw [hkinds w (hw.isLink hf)]
      have hself : w = f.rep t := hw.eq_rep hk
      subst hself
      rw [hc.eq_rep (by rw [rep_rep hf, hk]), rep_rep hf]
    · have hs := hup.steady hf
      have hlink : (f₂.kind (f.rep inner)).isLink = false := by
        rw [(hup₂.steady hs.rooted).isLink, hs.isLink, not_isLink_rep hf]
      have hlt : f.rep t < f₂.size := lt_size_of_kind (by rw [hstill]; exact Kind.noConfusion)
      have hinside : ∀ {w}, f.Within inner w → f.Within w c → (f₂.kind w).fids? = (f.kind c).fids? := by
        intro w hw hc
        have hkc := hkinds c (hc.isLink hf)
        have hwithin := fun {t w} => (hup.within hf hkinds (t := t) (w := w)).2
        rw [ih hs.rooted hrec (hwithin hw) (hwithin hc) (by rw [hkc, hnot]), hkc]
      by_cases e : w = f.rep t
      · subst e
        have hc' : f.Within inner c := by
          refine hc.of_ne (by rw [rep_rep hf, hinner]) ?_
          rintro rfl
          rw [rep_rep hf, hinner] at hnot
          cases hnot
        rw [kind_absorb hlink, if_pos ⟨rfl, hlt⟩, fids?_absorbedKind]
        exact hinside (.here inner) (hc'.of_rep hf)
      · rw [kind_absorb hlink, if_neg fun e' => e e'.1.symm]
        exact hinside (hw.of_ne hinner e) hc

/-! ## What keeps flows -/

/-- The widest flow of a term is that of its class. -/
theorem widestFrom_rep (hf : f.Rooted) (n : Nat) (t : TermId) (above : List IdSet) :
    f.widestFrom n (f.rep t) above = f.widestFrom n t above := by
  cases n with
  | zero => rfl
  | succ n =>
    unfold widestFrom
    rw [rep_rep hf]

/-- A term that looks like another with nil among its values has its flow with nil met, if the marks
name the same functions and the children have the same flows. -/
theorem widestFrom_orNil {n m : Nat} {t u : TermId} {above : List IdSet} {a b : Flow}
    (hkind : g.kind (g.rep u) = (f.kind (f.rep t)).orNil)
    (hmark : ∀ fids, (f.kind (f.rep t)).fids? = some fids →
      callees (g.isInput (g.rep u)) fids = callees (f.isInput (f.rep t)) fids)
    (hchild : ∀ x above a b, f.widestFrom n x above = some a → g.widestFrom m x above = some b → a = b)
    (ha : f.widestFrom (n + 1) t above = some a) (hb : g.widestFrom (m + 1) u above = some b) :
    b = a.orNil := by
  cases hk : f.kind (f.rep t) with
  | var =>
    rw [widestFrom_var n above hk] at ha
    rw [hk] at hkind
    rw [widestFrom_var m above hkind] at hb
    cases ha
    exact (Option.some.inj hb).symm
  | link target =>
    rw [widestFrom_link n above hk] at ha
    rw [hk] at hkind
    rw [widestFrom_link m above hkind] at hb
    cases ha
    exact (Option.some.inj hb).symm
  | error cause =>
    rw [widestFrom_error n above hk] at ha
    rw [hk] at hkind
    rw [widestFrom_error m above hkind] at hb
    cases ha
    exact (Option.some.inj hb).symm
  | base flow =>
    rw [widestFrom_base n above hk] at ha
    rw [hk] at hkind
    rw [widestFrom_base m above hkind] at hb
    cases ha
    exact (Option.some.inj hb).symm
  | nilable inner =>
    rw [widestFrom_nilable n above hk] at ha
    rw [hk] at hkind
    rw [widestFrom_nilable m above hkind] at hb
    obtain ⟨x, hx, rfl⟩ := Option.map_eq_some_iff.1 ha
    obtain ⟨y, hy, rfl⟩ := Option.map_eq_some_iff.1 hb
    rw [hchild _ _ _ _ hx hy, Flow.orNil_orNil]
  | function args ret fids nil =>
    rw [widestFrom_function n above hk] at ha
    rw [hk] at hkind
    rw [widestFrom_function m above hkind, hmark fids (by rw [hk]; rfl)] at hb
    cases ha
    rw [Flow.orNil_function]
    exact (Option.some.inj hb).symm
  | record fields sites isOpen nil =>
    rw [widestFrom_record n above hk] at ha
    rw [hk] at hkind
    rw [widestFrom_record m above hkind] at hb
    by_cases hcut : 2 ≤ above.count sites ∨ Flow.maxNesting ≤ above.length
    · rw [if_pos hcut] at ha hb
      cases ha
      rw [Flow.orNil_record]
      exact (Option.some.inj hb).symm
    · rw [if_neg hcut] at ha hb
      obtain ⟨flows, hflows, rfl⟩ := Option.map_eq_some_iff.1 ha
      obtain ⟨flows', hflows', rfl⟩ := Option.map_eq_some_iff.1 hb
      have hsame : ∀ k, Option.Rel Eq (fields.find? k) (fields.find? k) := by
        intro k
        cases fields.find? k with
        | none => exact .none
        | some x => exact .some rfl
      rw [Flow.orNil_record, Fields.mapM?_eq_of_rel hsame hflows hflows']
      rintro x _ v w rfl
      exact hchild x _ v w

/-- A wrapper that takes over what it wraps keeps all flows, if its mark says what that of a function
says which it takes over. -/
theorem widestFrom_absorb (hf : f.Rooted) {w inner : TermId} (hw : f.kind w = .nilable inner)
    (hmark : ∀ fids, (f.kind (f.rep inner)).fids? = some fids →
      callees (f.isInput w) fids = callees (f.isInput (f.rep inner)) fids)
    {n m : Nat} {u : TermId} {above : List IdSet} {a b : Flow}
    (ha : f.widestFrom n u above = some a)
    (hb : (f.absorb w (f.rep inner)).widestFrom m u above = some b) : a = b := by
  have hroot := not_isLink_rep hf inner
  have hrep := ((Upkeep.absorb hw).steady hf).rep
  have hlt : w < f.size := lt_size_of_kind (by rw [hw]; exact Kind.noConfusion)
  induction n using Nat.strong_induction_on generalizing m u above a b with
  | _ n ih =>
  obtain _ | n := n
  · cases ha
  obtain _ | m := m
  · cases hb
  by_cases hu : f.rep u = w
  · rw [widestFrom_nilable n above (by rw [hu, hw])] at ha
    obtain ⟨x, hx, rfl⟩ := Option.map_eq_some_iff.1 ha
    have hkind : (f.absorb w (f.rep inner)).kind ((f.absorb w (f.rep inner)).rep u) =
        absorbedKind (f.rep inner) (f.kind (f.rep inner)) := by
      rw [hrep, hu, kind_absorb hroot, if_pos ⟨rfl, hlt⟩]
    by_cases hvar : f.kind (f.rep inner) = .var
    · rw [widestFrom_nilable m above (by rw [hkind, hvar]; rfl)] at hb
      obtain ⟨y, hy, rfl⟩ := Option.map_eq_some_iff.1 hb
      rw [← widestFrom_rep hf] at hx
      rw [ih n (Nat.lt_succ_self n) hx hy]
    · obtain _ | n := n
      · cases hx
      · rw [absorbedKind_eq_orNil _ hvar] at hkind
        refine (widestFrom_orNil hkind ?_ ?_ hx hb).symm
        · rw [hrep, hu, isInput_absorb]
          exact hmark
        · exact fun x above a b => ih n (by omega)
  · refine widestFrom_eq_of_rel (r := Eq) ?_ ?_ ?_ ha hb
    · rw [hrep, kind_absorb hroot, if_neg fun e => hu e.1.symm]
      exact .refl (fun _ => rfl) _
    · rw [hrep, isInput_absorb]
    · rintro x _ above a b rfl
      exact ih n (Nat.lt_succ_self n)

private theorem widest_absorb (hf : f.Rooted) (hends : ∀ x, f.Ends x) {w inner : TermId}
    (hw : f.kind w = .nilable inner)
    (hmark : ∀ fids, (f.kind (f.rep inner)).fids? = some fids →
      callees (f.isInput w) fids = callees (f.isInput (f.rep inner)) fids) (u : TermId) :
    (f.absorb w (f.rep inner)).widest u = f.widest u := by
  obtain ⟨a, ha⟩ := exists_widest hends u
  obtain ⟨b, hb⟩ := exists_widest (fun x => (Upkeep.absorb hw).ends hf (hends x)) u
  rw [ha, hb, widestFrom_absorb hf hw hmark ha hb]

/-- A look-up that finds the marks in agreement keeps all flows. -/
theorem widest_of_findFrom (hf : f.Rooted) (hends : ∀ x, f.Ends x) {fuel : Nat} {t r : TermId}
    (hmarks : f.MarksAgree t) (h : findFrom fuel t f = some (r, g)) (u : TermId) :
    g.widest u = f.widest u := by
  induction fuel generalizing t r f g with
  | zero => exact (failure_eq_some.1 h).elim
  | succ fuel ih =>
    obtain ⟨-, f₁, hup, hkinds, hcases⟩ := findFrom_succ_cases hf h
    have hs := hup.steady hf
    have hshorter : f₁.widest u = f.widest u := by
      unfold widest
      rw [hup.size, widestFrom_congr hs.rep (fun x => hkinds _ (not_isLink_rep hf x)) hup.isInput]
    obtain ⟨hk, rfl⟩ | ⟨inner, f₂, hinner, hrec, hup₂, hstill, rfl⟩ := hcases
    · exact hshorter
    · have hends₁ : ∀ x, f₁.Ends x := fun x => hup.ends hf (hends x)
      have hwithin := fun {t w} => hup.within hf hkinds (t := t) (w := w)
      have hmarks₁ : f₁.MarksAgree inner := by
        intro w c fids hw hc hfids
        rw [hwithin] at hw hc
        rw [hkinds c (hc.isLink hf)] at hfids
        rw [hup.isInput, hup.isInput]
        exact hmarks w c fids (.inner hinner hw) hc hfids
      have hrep : f₂.rep inner = f.rep inner := by rw [(hup₂.steady hs.rooted).rep, hs.rep]
      rw [← hshorter, ← ih hs.rooted hends₁ hmarks₁ hrec, ← hrep]
      refine widest_absorb (hup₂.steady hs.rooted).rooted
        (fun x => hup₂.ends hs.rooted (hends₁ x)) hstill (fun fids hfids => ?_) u
      -- The wrapper and the class in it name the functions of what the innermost wrapper wraps.
      obtain ⟨c, hc, hnot⟩ := (hends inner).exists_within
      have hnamed := fids?_of_findFrom hs.rooted hrec (hwithin.2 (.here inner))
        (hwithin.2 (hc.of_rep hf)) (by rwa [hkinds c (hc.isLink hf)])
      rw [hrep, hnamed, hkinds c (hc.isLink hf)] at hfids
      rw [hup₂.isInput, hup₂.isInput, hup.isInput, hup.isInput, hrep,
        hmarks _ c fids (.here t) (.inner (by rwa [rep_rep hf]) hc) hfids,
        hmarks _ c fids (.inner hinner (.here inner)) (hc.of_rep hf) hfids]

/-! ## Marks -/

/-- A look-up that keeps all flows finds the marks in agreement. -/
theorem marksAgree_of_findFrom (hf : f.Rooted) (hends : ∀ x, f.Ends x) {fuel : Nat} {t r : TermId}
    (h : findFrom fuel t f = some (r, g)) (hflows : ∀ u, g.widest u = f.widest u) :
    f.MarksAgree t := by
  intro w c fids hw hc hfids
  obtain ⟨-, hup, -⟩ := findFrom_upkeeps hf h
  have hnot : (f.kind c).isNilable = false := by
    obtain ⟨args, ret, nil, hk⟩ := Kind.fids?_eq_some.1 hfids
    rw [hk]
    rfl
  have hnamed := fids?_of_findFrom hf h hw hc hnot
  obtain ⟨flow, hflow⟩ := exists_widest hends w
  have hflow' := (hflows w).trans hflow
  obtain ⟨nil, rfl⟩ := widestFrom_of_within hc hfids hflow
  have hself : g.Within w w := by
    have hhere := Within.here (f := g) w
    rwa [(hup.steady hf).rep, hw.rep_eq hf] at hhere
  obtain ⟨nil', e⟩ := widestFrom_of_within hself (hnamed.trans hfids) hflow'
  rw [hup.isInput] at e
  exact (Flow.function.inj e).1.symm

/-- Whatever operations led to a forest in which wrappers come to an end, a look-up in it has a result
and all types have flows before it and after it.  They are the same flows exactly if the marks of the
wrappers that it opens say the same as those of the functions that they wrap. -/
theorem flows_kept_iff {ops : List Operation} (hf : performAll ops empty = some f)
    (hends : ∀ x, f.Ends x) (t : TermId) :
    ∃ r g, find t f = some (r, g) ∧
      (∀ u, ∃ flow flow', f.widest u = some flow ∧ g.widest u = some flow') ∧
      ((∀ u, g.widest u = f.widest u) ↔ f.MarksAgree t) := by
  have hrooted := (performAll_sound hf).rooted
  obtain ⟨r, g, hfind, -, hup, -⟩ := find_returns hrooted (hends t)
  refine ⟨r, g, hfind, fun u => ?_, marksAgree_of_findFrom hrooted hends hfind,
    fun hmarks => widest_of_findFrom hrooted hends hmarks hfind⟩
  obtain ⟨flow, hflow⟩ := exists_widest hends u
  obtain ⟨flow', hflow'⟩ := exists_widest (fun x => hup.ends hrooted (hends x)) u
  exact ⟨flow, flow', hflow, hflow'⟩

/-- A function that callers pass in, and a wrapper made around it before: the wrapper is not marked, and
once it was looked up nothing tells that the function may come from outside. -/
theorem flow_of_unmarked_wrapper : ¬∀ (ops : List Operation) (f : Forest) (t u : TermId),
    performAll ops empty = some f → (∀ x, f.Ends x) →
      ∃ r g, find t f = some (r, g) ∧ g.widest u = f.widest u := by
  intro h
  set f : Forest := ⟨#[⟨.var, .empty, false⟩, ⟨.function [] 0 (.singleton 1) false, .empty, true⟩,
    ⟨.nilable 1, .empty, false⟩, ⟨.function [1] 0 .empty false, .empty, false⟩], 0⟩ with hf
  have hops : performAll [.var, .function false (.singleton 1) [] 0, .nilable 1,
    .function true .empty [1] 0] empty = some f := rfl
  obtain ⟨r, g, hfind, hflow⟩ := h _ f 2 2 hops (ends_of_earlier (by rw [hf]; decide))
  have hchanged : (find 2 f).map (fun result => result.2.widest 2) ≠ some (f.widest 2) := by
    rw [hf]
    decide +kernel
  rw [hfind] at hchanged
  exact hchanged (congrArg some hflow)

/-- The same function in two wrappers that callers pass in: all marks are set, the outer wrapper becomes
a function that may be nil, and no flow changes. -/
theorem flows_kept_marked : ∃ f r g,
    performAll [.var, .function false (.singleton 1) [] 0, .nilable 1, .nilable 2,
      .function true .empty [3] 0] empty = some f ∧ f.MarksAgree 3 ∧ find 3 f = some (r, g) ∧
    (f.kind 3 = .nilable 2 ∧ g.kind 3 = .function [] 0 (.singleton 1) true) ∧
    ∀ u, g.widest u = f.widest u := by
  set f : Forest := ⟨#[⟨.var, .empty, false⟩, ⟨.function [] 0 (.singleton 1) false, .empty, true⟩,
    ⟨.nilable 1, .empty, true⟩, ⟨.nilable 2, .empty, true⟩,
    ⟨.function [3] 0 .empty false, .empty, false⟩], 0⟩ with hf
  have hops : performAll [.var, .function false (.singleton 1) [] 0, .nilable 1, .nilable 2,
    .function true .empty [3] 0] empty = some f := rfl
  have hreps : ∀ t ∈ [1, 2, 3], f.rep t ∈ [1, 2, 3] := by decide
  have hinners : ∀ t ∈ [1, 2, 3], (f.kind (f.rep t)).isNilable = true →
      ∀ x ∈ (f.kind (f.rep t)).children, x ∈ [1, 2, 3] := by decide
  have hnested : ∀ t w, f.Within t w → t ∈ [1, 2, 3] → w ∈ [1, 2, 3] := by
    intro t w hw
    induction hw with
    | here t => exact hreps t
    | @inner t inner w hinner _ ih =>
      intro ht
      refine ih (hinners t ht (by rw [hinner]; rfl) inner ?_)
      rw [hinner]
      exact List.mem_singleton_self inner
  have hinput : ∀ w ∈ [1, 2, 3], f.isInput w = true := by decide
  have hmarks : f.MarksAgree 3 := by
    intro w c fids hw hc _
    have hw' := hnested 3 w hw (by decide)
    rw [hinput w hw', hinput c (hnested w c hc hw')]
  obtain ⟨r, g, hfind, -, hkept⟩ := flows_kept_iff hops (ends_of_earlier (by rw [hf]; decide)) 3
  have hkind : (find 3 f).map (fun result => result.2.kind 3) =
      some (.function [] 0 (.singleton 1) true) := by
    rw [hf]
    decide +kernel
  rw [hfind] at hkind
  exact ⟨f, r, g, hops, hmarks, hfind, ⟨rfl, Option.some.inj hkind⟩, hkept.2 hmarks⟩

end Forest

end TypeFlow
