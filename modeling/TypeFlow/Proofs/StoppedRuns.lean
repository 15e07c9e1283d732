import Mathlib.Data.List.Rotate
import TypeFlow.Proofs.Ceilings

/-!
# Stopped runs

The ceiling refuses a node that was taken off the worklist already, so the loop puts the node back
and stops.  No work is lost that way.  But a node that is put back is the newest: it stands where it
stood if the newest is taken next, and behind all others if the oldest is.

Main definitions:

- `Worklist.Restored`: what putting the last node taken back makes of a worklist.
- `Program.VisitsNext`: the loop visits the node that comes next.

Main results:

- `Program.nextTurn_stopped_iff`: when a node is refused, and what is left then.
- `Program.stop_restores`: what a stopped run leaves pending.
- `Program.stop_reorders`: the order may be another one.
-/

namespace TypeFlow

/-! ## Putting a node back -/

namespace OrderedSet

variable {α : Type} {s rest : OrderedSet α} {a : α}

/-- Moving the oldest member behind all others changes the order, unless there are no others. -/
theorem rotate_toList_eq_iff (s : OrderedSet α) :
    s.toList.rotate 1 = s.toList ↔ s.toList.length ≤ 1 := by
  rcases hlist : s.toList with _ | ⟨a, _ | ⟨b, others⟩⟩
  · simp
  · simp
  · have hnodup := s.nodup_toList
    rw [hlist, List.nodup_cons] at hnodup
    have hne : b ≠ a := by
      rintro rfl
      exact hnodup.1 List.mem_cons_self
    simp [hne]

variable [DecidableEq α]

/-- The newest member stands where it stood when it is put back. -/
theorem toList_insert_of_popNewest? (h : s.popNewest? = some (a, rest)) :
    (rest.insert a).toList = s.toList := by
  have hlist := toList_of_popNewest? h
  have hnodup := s.nodup_toList
  rw [hlist, List.nodup_append] at hnodup
  have hnew : a ∉ rest := fun hmem =>
    hnodup.2.2 a hmem a (List.mem_singleton_self a) rfl
  rw [toList_insert, if_neg hnew, hlist]

/-- The oldest member stands behind all others when it is put back. -/
theorem toList_insert_of_popOldest? (h : s.popOldest? = some (a, rest)) :
    (rest.insert a).toList = s.toList.rotate 1 := by
  have hlist := toList_of_popOldest? h
  have hnodup := s.nodup_toList
  rw [hlist, List.nodup_cons, ← mem_def] at hnodup
  rw [toList_insert, if_neg hnodup.1, hlist, List.rotate_cons_succ, List.rotate_zero]

end OrderedSet

namespace Worklist

/-- The node that was taken last was put back: it waits again, and where it stood, unless the oldest
is taken next and others wait. -/
structure Restored (before after : Worklist) : Prop where
  order : after.order = before.order
  pops : after.pops = before.pops + 1
  waiting : ∀ n, n ∈ after.pending ↔ n ∈ before.pending
  pending : after.pending.toList = match before.order with
    | .lifo => before.pending.toList
    | .fifo => before.pending.toList.rotate 1
  intact_iff : after.pending.toList = before.pending.toList ↔
    before.order = .lifo ∨ before.pending.toList.length ≤ 1

private theorem restored_of_pop? {work rest : Worklist} {id : NodeId} (h : work.pop? = some (id, rest)) :
    Restored work (rest.push id) := by
  obtain ⟨hid, hrest⟩ := mem_of_pop? h
  have hwaiting : ∀ n, n ∈ (rest.push id).pending ↔ n ∈ work.pending := by
    intro n
    refine OrderedSet.mem_insert.trans ⟨?_, fun hn => or_iff_not_imp_left.2 fun hne => ?_⟩
    · rintro (rfl | hn)
      · exact hid
      · exact ((hrest n).1 hn).1
    · exact (hrest n).2 ⟨hn, hne⟩
  unfold pop? at h
  cases horder : work.order with
  | lifo =>
    rw [horder] at h
    obtain ⟨⟨a, left⟩, hpop, e⟩ := Option.map_eq_some_iff.1 h
    cases e
    have hlist := OrderedSet.toList_insert_of_popNewest? hpop
    refine ⟨horder.symm, rfl, hwaiting, ?_, ?_⟩
    · rw [horder]
      exact hlist
    · exact iff_of_true hlist (Or.inl horder)
  | fifo =>
    rw [horder] at h
    obtain ⟨⟨a, left⟩, hpop, e⟩ := Option.map_eq_some_iff.1 h
    cases e
    have hlist := OrderedSet.toList_insert_of_popOldest? hpop
    refine ⟨horder.symm, rfl, hwaiting, ?_, ?_⟩
    · rw [horder]
      exact hlist
    · rw [horder, or_iff_right PopOrder.noConfusion, ← OrderedSet.rotate_toList_eq_iff]
      exact Eq.congr_left hlist

end Worklist

namespace Program

variable {p : Program} {s t u : State}

/-! ## Refused nodes -/

/-- A node is refused exactly if one waits and as many were taken as the ceiling allows.  It is put
back, and nothing else changes. -/
theorem nextTurn_stopped_iff : p.nextTurn s = some (.stopped, t) ↔
    p.settings.maxIterations ≤ s.work.pops ∧
      ∃ id rest, s.work.pop? = some (id, rest) ∧ t = { s with work := rest.push id } := by
  obtain ⟨forest, flows, work⟩ := s
  simp only [nextTurn]
  cases hpop : work.pop? with
  | none => simp
  | some r =>
    obtain ⟨id, rest⟩ := r
    have hpops := Worklist.pops_of_pop? hpop
    simp only [hpops, gt_iff_lt, Nat.lt_succ_iff]
    by_cases hfull : p.settings.maxIterations ≤ work.pops
    · rw [if_pos hfull]
      constructor
      · intro h
        cases h
        exact ⟨hfull, id, rest, rfl, rfl⟩
      · rintro ⟨-, _, _, e, rfl⟩
        cases e
        rfl
    · rw [if_neg hfull]
      exact iff_of_false (fun h => by cases h) fun h => hfull h.1

/-- The loop visits the node that comes next, which the ceiling allows. -/
def VisitsNext (p : Program) (s t : State) : Prop :=
  ∃ id taken found, p.nextTurn s = some (.take id, taken) ∧ p.visit id taken = some (found, t)

/-- A loop that was stopped was refused a node after some visits. -/
theorem refused_of_driveWithin {fuel : Nat} {found : List Violation} {course : Course}
    (h : p.driveWithin fuel found s = some (course, t)) (hstop : course.converged = false) :
    ∃ u, Relation.ReflTransGen p.VisitsNext s u ∧ p.nextTurn u = some (.stopped, t) := by
  induction fuel generalizing found s with
  | zero => exact (failure_eq_some.1 h).elim
  | succ fuel ih =>
    obtain ⟨turn, taken, hturn, h⟩ := bind_eq_some.1 h
    cases turn with
    | idle =>
      obtain ⟨rfl, rfl⟩ := pure_eq_some.1 h
      cases hstop
    | stopped =>
      obtain ⟨rfl, rfl⟩ := pure_eq_some.1 h
      exact ⟨s, .refl, hturn⟩
    | take id =>
      obtain ⟨more, v, hvisit, h⟩ := bind_eq_some.1 h
      obtain ⟨u, hvisits, hrefused⟩ := ih h
      exact ⟨u, .head ⟨id, taken, more, hturn, hvisit⟩ hvisits, hrefused⟩

/-! ## Stopped runs -/

/-- What a loop that was stopped by the ceiling leaves: all that waited when the last node was
refused, in the same order if the newest is taken next, and with the refused node behind all others
if the oldest is. -/
theorem stop_restores {course : Course} (h : p.drive s = some (course, t))
    (hstop : course.converged = false) :
    ∃ u, Relation.ReflTransGen p.VisitsNext s u ∧ p.nextTurn u = some (.stopped, t) ∧
      p.settings.maxIterations ≤ u.work.pops ∧ t.forest = u.forest ∧ t.flows = u.flows ∧
      Worklist.Restored u.work t.work := by
  obtain ⟨u, hvisits, hrefused⟩ := refused_of_driveWithin h hstop
  obtain ⟨hfull, id, rest, hpop, rfl⟩ := nextTurn_stopped_iff.1 hrefused
  exact ⟨u, hvisits, hrefused, hfull, rfl, rfl, Worklist.restored_of_pop? hpop⟩

/-- The program `({ x -> x } 3)` stopped before its third visit, with the oldest node taken next. -/
theorem stop_restores_identity_three : ∃ p s course t,
    build (.apply (.lambda ["x"] (.ident "x") true) [.int 3])
      { maxIterations := 2, popOrder := .fifo } = .ok (p, s) ∧
    p.drive s = some (course, t) ∧ course.converged = false ∧
    ∃ u, Relation.ReflTransGen p.VisitsNext s u ∧ p.nextTurn u = some (.stopped, t) ∧
      p.settings.maxIterations ≤ u.work.pops ∧ t.forest = u.forest ∧ t.flows = u.flows ∧
      Worklist.Restored u.work t.work := by
  have hrun : (((build (.apply (.lambda ["x"] (.ident "x") true) [.int 3])
      { maxIterations := 2, popOrder := .fifo }).toOption.map fun r =>
        (r.1.drive r.2).map fun c => c.1.converged)) = some (some false) := by
    decide +kernel
  obtain ⟨⟨p, s⟩, hbuild, hdrive⟩ := ok_of_map hrun
  obtain ⟨⟨course, t⟩, hdrive, hstop⟩ := Option.map_eq_some_iff.1 hdrive
  exact ⟨p, s, course, t, hbuild, hdrive, hstop, stop_restores hdrive hstop⟩

/-- The program `3` stopped before its first visit: its two nodes have changed places if the oldest
is taken next. -/
theorem stop_reorders : ¬∀ e settings depth p s₀, build e settings depth = .ok (p, s₀) →
    ∀ u t, Relation.ReflTransGen p.VisitsNext s₀ u → p.nextTurn u = some (.stopped, t) →
      t.work.pending.toList = u.work.pending.toList := by
  intro h
  have hrun : (((build (.int 3) { maxIterations := 0, popOrder := .fifo }).toOption.map fun r =>
      (r.2.work.pending.toList, (r.1.nextTurn r.2).map fun c => (c.1, c.2.work.pending.toList)))) =
        some ([0, 1], some (.stopped, [1, 0])) := by
    decide +kernel
  obtain ⟨⟨p, s⟩, hbuild, hturn⟩ := ok_of_map hrun
  obtain ⟨hpending, hturn⟩ := Prod.mk.inj hturn
  obtain ⟨⟨turn, t⟩, hturn, hleft⟩ := Option.map_eq_some_iff.1 hturn
  obtain ⟨rfl, hleft⟩ := Prod.mk.inj hleft
  have hsame := h _ _ _ p s hbuild s t .refl hturn
  rw [hpending, hleft] at hsame
  exact absurd hsame (by decide)

end Program

end TypeFlow
