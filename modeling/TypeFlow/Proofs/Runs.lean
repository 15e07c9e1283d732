import TypeFlow.Proofs.FallingFlows

/-!
# Runs in any order

A run that the ceiling does not stop visits pending nodes until none waits, looks every node over,
and does so again after every widening that lowers something.  Which pending node is visited next is
left open here: newest first and oldest first are two ways among many.

Main definitions:

- `Program.Sweep`: visits of pending nodes, in any order, until none waits.
- `Program.Runs`: a whole run of sweeps and widenings, with the states it passes through.

Main results:

- `Program.runs_of_run`: the solver makes such a run, unless the ceiling stops it.
-/

namespace TypeFlow

/-! ## Taking work -/

namespace OrderedSet

variable {α : Type}

/-- The newest element is the last one. -/
theorem toList_of_popNewest? {s rest : OrderedSet α} {a : α}
    (h : s.popNewest? = some (a, rest)) : s.toList = rest.toList ++ [a] := by
  unfold popNewest? at h
  split at h
  · cases h
  · rename_i b hback
    cases h
    rw [← Array.getLast?_toList] at hback
    exact (List.dropLast_append_getLast? a hback).symm

/-- The oldest element is the first one. -/
theorem toList_of_popOldest? {s rest : OrderedSet α} {a : α}
    (h : s.popOldest? = some (a, rest)) : s.toList = a :: rest.toList := by
  unfold popOldest? at h
  split at h
  · cases h
  · rename_i b hfirst
    cases h
    unfold toList
    dsimp only
    rw [Array.toList_eraseIdxIfInBounds]
    rw [← Array.getElem?_toList] at hfirst
    cases hl : s.items.toList with
    | nil => simp [hl] at hfirst
    | cons x xs =>
      rw [hl, List.getElem?_cons_zero, Option.some.injEq] at hfirst
      rw [hfirst, List.eraseIdx_cons_zero]

/-- What is left of a set without repetitions when one member is taken from it. -/
theorem mem_rest {s rest : OrderedSet α} {a : α} (h : s.toList.Perm (a :: rest.toList)) :
    a ∈ s ∧ ∀ b, b ∈ rest ↔ b ∈ s ∧ b ≠ a := by
  have hnodup := (h.nodup_iff.1 s.nodup_toList)
  rw [List.nodup_cons] at hnodup
  constructor
  · exact h.mem_iff.2 List.mem_cons_self
  · intro b
    rw [mem_def, mem_def, h.mem_iff, List.mem_cons]
    constructor
    · intro hb
      refine ⟨Or.inr hb, ?_⟩
      rintro rfl
      exact hnodup.1 hb
    · rintro ⟨rfl | hb, hne⟩
      · exact absurd rfl hne
      · exact hb

end OrderedSet

namespace Worklist

/-- The node taken waited, and all others still wait. -/
theorem mem_of_pop? {work rest : Worklist} {id : NodeId} (h : work.pop? = some (id, rest)) :
    id ∈ work.pending ∧ ∀ n, n ∈ rest.pending ↔ n ∈ work.pending ∧ n ≠ id := by
  unfold pop? at h
  split at h
  · obtain ⟨⟨a, left⟩, hpop, e⟩ := Option.map_eq_some_iff.1 h
    cases e
    apply OrderedSet.mem_rest
    rw [OrderedSet.toList_of_popNewest? hpop]
    exact List.perm_append_singleton _ _
  · obtain ⟨⟨a, left⟩, hpop, e⟩ := Option.map_eq_some_iff.1 h
    cases e
    apply OrderedSet.mem_rest
    rw [OrderedSet.toList_of_popOldest? hpop]

/-- Where nothing is to be popped nothing waits. -/
theorem not_mem_of_pop? {work : Worklist} (h : work.pop? = none) (id : NodeId) :
    id ∉ work.pending := by
  rw [OrderedSet.mem_def]
  unfold pop? at h
  split at h
  · rw [Option.map_eq_none_iff, OrderedSet.popNewest?] at h
    split at h
    · rename_i hback
      rw [Array.back?_eq_none_iff] at hback
      simp [OrderedSet.toList, hback]
    · cases h
  · rw [Option.map_eq_none_iff, OrderedSet.popOldest?] at h
    split at h
    · rename_i hfirst
      rw [Array.getElem?_eq_none_iff, Nat.le_zero, Array.size_eq_zero_iff] at hfirst
      simp [OrderedSet.toList, hfirst]
    · cases h

end Worklist

namespace Program

/-! ## Runs -/

/-- Visits of pending nodes, in any order, until none waits.  Lists the states after the visits and
what was reported. -/
inductive Sweep (p : Program) : State → List State → List Violation → State → Prop
  | idle {s : State} (h : ∀ id, id ∉ s.work.pending) : Sweep p s [] [] s
  | visit {s u t : State} {id : NodeId} {rest : Worklist} {more found : List Violation}
      {trace : List State} (hid : id ∈ s.work.pending)
      (hrest : ∀ n, n ∈ rest.pending ↔ n ∈ s.work.pending ∧ n ≠ id)
      (hvisit : p.visit id { s with work := rest } = some (more, u))
      (hsweep : Sweep p u trace found t) : Sweep p s (u :: trace) (more ++ found) t

/-- A sweep after which every node is looked over. -/
inductive Settles (p : Program) (phase : Phase) (s : State) (trace : List State) :
    List Violation → State → Prop
  | intro {u t : State} {found more : List Violation} (hsweep : Sweep p s trace found u)
      (hcheck : p.check phase true u = some (more, t)) : Settles p phase s trace (found ++ more) t

/-- At most so many rounds of widening, each followed by a sweep.  Lists the states on the way,
counts the rounds and lists what was reported. -/
inductive Widens (p : Program) : Nat → State → List State → Nat → List Violation → State → Prop
  | exhausted {s : State} : Widens p 0 s [] 0 [] s
  | settled {left : Nat} {s t : State} (h : p.widenEscapes s = some (false, t)) :
    Widens p (left + 1) s [] 0 [] t
  | round {left rounds : Nat} {s u v t : State} {trace trace' : List State}
      {found found' : List Violation} (h : p.widenEscapes s = some (true, u))
      (hsettles : Settles p .escapeWidening u trace found v)
      (hwidens : Widens p left v trace' rounds found' t) :
    Widens p (left + 1) s (trace ++ trace') (rounds + 1) (found ++ found') t

/-- How many rounds of widening there may be. -/
def roundLimit (p : Program) : Nat := if p.settings.flows then p.settings.maxWidenRounds else 0

/-- A whole run: a sweep and rounds of widening, visiting pending nodes in any order. -/
inductive Runs (p : Program) (s : State) :
    List State → Nat → List Violation → State → Prop
  | intro {u t : State} {trace trace' : List State} {rounds : Nat} {found found' : List Violation}
      (hsettles : Settles p .fixpoint s trace found u)
      (hwidens : Widens p p.roundLimit u trace' rounds found' t) :
    Runs p s (trace ++ trace') rounds (found ++ found') t

private theorem leads_of_sweep {p : Program} {s t : State} {trace : List State} {found : List Violation}
    (h : p.Sweep s trace found t) : p.Leads s t := by
  induction h with
  | idle => exact Relation.ReflTransGen.refl
  | @visit s u t id rest more found trace hid hrest hvisit hsweep ih =>
    have hqueue : p.Leads s { s with work := rest } :=
      Relation.ReflTransGen.single (Moves.queue s rest)
    exact (hqueue.trans ((drives_leads p).visit id _ more u hvisit)).trans ih

/-- A run to a fixed point leads on. -/
theorem leads_of_settles {p : Program} {phase : Phase} {s t : State} {trace : List State}
    {found : List Violation} (h : p.Settles phase s trace found t) : p.Leads s t := by
  cases h with
  | intro hsweep hcheck =>
    have hlooked := (drives_leads p).check phase true _ _ _ hcheck
    exact (leads_of_sweep hsweep).trans hlooked

/-- So do rounds of widening. -/
theorem leads_of_widens {p : Program} {left rounds : Nat} {s t : State} {trace : List State}
    {found : List Violation} (h : p.Widens left s trace rounds found t) : p.Leads s t := by
  induction h with
  | exhausted => exact Relation.ReflTransGen.refl
  | settled hwiden => exact (drives_leads p).widen _ _ _ hwiden
  | round hwiden hsettles hwidens ih =>
    have hwidened := (drives_leads p).widen _ _ _ hwiden
    exact (hwidened.trans (leads_of_settles hsettles)).trans ih

/-! ## The solver's runs -/

/-- A turn is idle with nothing to do, is stopped by the ceiling, or visits the node that was popped. -/
theorem nextTurn_eq_some {p : Program} {s t : State} {turn : Turn}
    (h : p.nextTurn s = some (turn, t)) :
    (turn = .idle ∧ t = s ∧ ∀ id, id ∉ s.work.pending) ∨
      (turn = .stopped ∧ ∃ work, (∀ n, n ∈ s.work.pending → n ∈ work.pending) ∧
        t = { s with work := work }) ∨
      ∃ id rest, turn = .take id ∧ id ∈ s.work.pending ∧
        (∀ n, n ∈ rest.pending ↔ n ∈ s.work.pending ∧ n ≠ id) ∧ t = { s with work := rest } := by
  obtain ⟨forest, flows, work⟩ := s
  simp only [nextTurn] at h
  cases hpop : work.pop? with
  | none =>
    rw [hpop] at h
    cases h
    exact Or.inl ⟨rfl, rfl, Worklist.not_mem_of_pop? hpop⟩
  | some r =>
    obtain ⟨id, rest⟩ := r
    rw [hpop] at h
    dsimp only at h
    split at h
    · cases h
      refine Or.inr (Or.inl ⟨rfl, rest.push id, fun n hn => ?_, rfl⟩)
      refine OrderedSet.mem_insert.2 (or_iff_not_imp_left.2 fun hne => ?_)
      exact ((Worklist.mem_of_pop? hpop).2 n).2 ⟨hn, hne⟩
    · cases h
      obtain ⟨hid, hrest⟩ := Worklist.mem_of_pop? hpop
      exact Or.inr (Or.inr ⟨id, rest, rfl, hid, hrest, rfl⟩)

/-- The loop is a sweep, unless the ceiling stops it. -/
theorem sweep_of_driveWithin {p : Program} {fuel : Nat} {found : List Violation} {s t : State}
    {course : Course} (h : p.driveWithin fuel found s = some (course, t))
    (hc : course.converged = true) :
    ∃ trace more, p.Sweep s trace more t ∧ course.violations = found ++ more := by
  induction fuel generalizing found s with
  | zero => exact (failure_eq_some.1 h).elim
  | succ fuel ih =>
    obtain ⟨turn, u, hturn, hrun⟩ := bind_eq_some.1 h
    rcases nextTurn_eq_some hturn with
      ⟨rfl, rfl, hidle⟩ | ⟨rfl, -⟩ | ⟨id, rest, rfl, hid, hrest, rfl⟩
    · obtain ⟨rfl, rfl⟩ := pure_eq_some.1 hrun
      exact ⟨[], [], .idle hidle, (List.append_nil found).symm⟩
    · obtain ⟨rfl, rfl⟩ := pure_eq_some.1 hrun
      cases hc
    · obtain ⟨more, v, hvisit, hloop⟩ := bind_eq_some.1 hrun
      obtain ⟨trace, later, hsweep, hfound⟩ := ih hloop
      refine ⟨v :: trace, more ++ later, .visit hid hrest hvisit hsweep, ?_⟩
      rw [hfound, List.append_assoc]

private theorem settles_of_settle {p : Program} {phase : Phase} {s t : State} {course : Course}
    (h : p.settle phase s = some (course, t)) (hc : course.converged = true) :
    ∃ trace, p.Settles phase s trace course.violations t := by
  obtain ⟨driven, u, hdrive, h₁⟩ := bind_eq_some.1 h
  obtain ⟨more, v, hcheck, h₂⟩ := bind_eq_some.1 h₁
  obtain ⟨rfl, rfl⟩ := pure_eq_some.1 h₂
  dsimp only at hc
  rw [hc] at hcheck
  obtain ⟨trace, found, hsweep, hfound⟩ := sweep_of_driveWithin hdrive hc
  rw [List.nil_append] at hfound
  refine ⟨trace, ?_⟩
  dsimp only
  rw [hfound]
  exact .intro hsweep hcheck

private theorem widens_of_widenRounds {p : Program} {left rounds total : Nat} {course final : Course}
    {s t : State} (h : p.widenRounds left rounds course s = some ((total, final), t))
    (hc : final.converged = true) :
    ∃ trace more found, p.Widens left s trace more found t ∧ total = rounds + more ∧
      final.violations = course.violations ++ found ∧ course.converged = true := by
  induction left generalizing rounds course s with
  | zero =>
    obtain ⟨e, rfl⟩ := pure_eq_some.1 h
    cases e
    exact ⟨[], 0, [], .exhausted, rfl, (List.append_nil _).symm, hc⟩
  | succ left ih =>
    unfold widenRounds at h
    split at h
    · rename_i hstopped
      obtain ⟨e, rfl⟩ := pure_eq_some.1 h
      cases e
      rw [hc] at hstopped
      cases hstopped
    · rename_i hgoing
      rw [Bool.not_eq_true', Bool.not_eq_false] at hgoing
      obtain ⟨widened, u, hwiden, h₁⟩ := bind_eq_some.1 h
      cases widened with
      | false =>
        obtain ⟨e, rfl⟩ := pure_eq_some.1 h₁
        cases e
        exact ⟨[], 0, [], .settled hwiden, rfl, (List.append_nil _).symm, hgoing⟩
      | true =>
        obtain ⟨next, v, hsettle, h₂⟩ := bind_eq_some.1 h₁
        obtain ⟨trace', more, found', hwidens, htotal, hfound, hnext⟩ := ih h₂
        obtain ⟨trace, hsettles⟩ := settles_of_settle hsettle hnext
        refine ⟨trace ++ trace', more + 1, next.violations ++ found',
          .round hwiden hsettles hwidens, ?_, ?_, hgoing⟩
        · rw [htotal, Nat.add_assoc, Nat.add_comm 1 more]
        · rw [hfound, List.append_assoc]

/-- The solver makes a run that takes pending nodes in its own order, unless the ceiling stops
it. -/
theorem runs_of_run {p : Program} {s t : State} {stats : Stats} (h : p.run s = some (stats, t))
    (hc : stats.converged = true) :
    ∃ trace, p.Runs s trace stats.widenRounds stats.violations t := by
  obtain ⟨terms, s₁, hterms, h₁⟩ := bind_eq_some.1 h
  obtain ⟨course, u, hsettle, h₂⟩ := bind_eq_some.1 h₁
  obtain ⟨⟨rounds, final⟩, v, hwiden, h₃⟩ := bind_eq_some.1 h₂
  obtain ⟨terms', v₁, hterms', h₄⟩ := bind_eq_some.1 h₃
  obtain ⟨w, v₂, hget, h₅⟩ := bind_eq_some.1 h₄
  obtain ⟨rfl, rfl⟩ := get_eq_some.1 hget
  obtain ⟨rfl, rfl⟩ := pure_eq_some.1 h₅
  cases hterms
  cases hterms'
  obtain ⟨trace', more, found', hwidens, htotal, hfound, hcourse⟩ := widens_of_widenRounds hwiden hc
  obtain ⟨trace, hsettles⟩ := settles_of_settle hsettle hcourse
  refine ⟨trace ++ trace', ?_⟩
  dsimp only
  rw [hfound, htotal, Nat.zero_add]
  exact .intro hsettles hwidens

end Program

end TypeFlow
