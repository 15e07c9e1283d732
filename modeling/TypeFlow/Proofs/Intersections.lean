import TypeFlow.Proofs.Sharpening

/-!
# Laws of intersections

The intersection of two flows does not depend on their order.  Of two flows that are comparable it is
the upper one.  Two flows that are not comparable have in common what their parts have
(`Flow.shared`), so that both laws pass from the fields of a record to the record.

An intersection is at or above both flows, but for numbers in the place of every value but nil.

Main definitions:

- `Flow.shared`: what two flows that are not comparable have in common.

Main results:

- `Flow.join_of_le`: the intersection of comparable flows is the upper one.
- `Flow.join_comm`: intersections commute.
- `Flow.join_laws`: these laws together, and that intersections are upper bounds.
-/

namespace TypeFlow

namespace IntFlow

private theorem join_comm (i j : IntFlow) : i.join j = j.join i := by
  cases i <;> cases j <;> grind [join]

end IntFlow

namespace FloatFlow

private theorem join_comm (x y : FloatFlow) : x.join y = y.join x := by
  cases x <;> cases y <;> grind [join]

end FloatFlow

namespace IdSet

private theorem inter_comm (s t : IdSet) : s.inter t = t.inter s := by
  apply ext_mem
  intro x
  rw [mem_inter, mem_inter, and_comm]

end IdSet

namespace Flow

/-! ## Comparable flows -/

/-- A flow that does not carry nil is all that is left of it without nil. -/
theorem withoutNil_of_carriesNil {a : Flow} (h : a.carriesNil = false) : a.withoutNil = a := by
  cases a with
  | nil => cases h
  | text _ n | function _ n | record _ _ n | scalar n =>
    obtain rfl : n = false := h
    rfl
  | _ => rfl

/-- The upper one of two comparable flows is found though it is tested last. -/
theorem ite_covers {a b c : Flow} (h : a.covers b = true) :
    (if b.covers a then b else if a.covers b then a else c) = a := by
  by_cases h' : b.covers a = true
  · rw [if_pos h']
    exact le_antisymm (covers_iff_le.1 h) (covers_iff_le.1 h')
  · rw [if_neg h', if_pos h]

/-- The upper one of two comparable flows is what they have in common. -/
theorem join_of_covers {a b : Flow} (h : a.covers b = true) : a.join b = a := by
  rw [join.eq_def]
  split
  · rfl
  · exact (eq_any_of_any_le (covers_iff_le.1 h)).symm
  · exact le_bot_iff.1 (covers_iff_le.1 h)
  · rfl
  · obtain ⟨m, rfl⟩ := eq_scalar_of_le (covers_iff_le.1 h)
    rfl
  · refine withoutNil_of_carriesNil ?_
    simpa using scalar_le_iff.1 (covers_iff_le.1 h)
  · exact if_pos h
  · exact if_pos h

/-- It does not matter which of the two comes first. -/
theorem join_of_covered {a b : Flow} (h : a.covers b = true) : b.join a = a := by
  rw [join.eq_def]
  split
  · exact (eq_any_of_any_le (covers_iff_le.1 h)).symm
  · rfl
  · rfl
  · exact le_bot_iff.1 (covers_iff_le.1 h)
  · refine withoutNil_of_carriesNil ?_
    simpa using scalar_le_iff.1 (covers_iff_le.1 h)
  · obtain ⟨m, rfl⟩ := eq_scalar_of_le (covers_iff_le.1 h)
    rfl
  · exact ite_covers h
  · exact ite_covers h

/-! ## Flows that are not comparable -/

/-- The layout of what two records have in common. -/
def joinLayouts :
    Option (Fields Flow none) → Option (Fields Flow none) → Option (Fields Flow none)
  | some f, some g => some ((joinShared f g).union g)
  | f, g => f.or g

/-- What two flows that are not comparable have in common. -/
def shared : Flow → Flow → Flow
  | scalar _, b => b.withoutNil
  | a, scalar _ => a.withoutNil
  | int i, int j => (i.join j).elim any int
  | float x, float y => (x.join y).elim any float
  | text c n, text d m =>
    if c.isSome && d.isSome && c != d then any else text (c.or d) (n && m)
  | function s n, function t m =>
    if (s.inter t).isEmpty then any else function (s.inter t) (n && m)
  | record s f n, record t g m =>
    if (s.inter t).isEmpty then any else record (s.inter t) (joinLayouts f g) (n && m)
  | _, _ => any

/-- Flows of which none covers the other intersect in what they share. -/
theorem join_of_not_covers {a b : Flow} (h : ¬a.covers b = true) (h' : ¬b.covers a = true) :
    a.join b = a.shared b := by
  rw [join.eq_def]
  split
  · exact absurd (covers_iff_le.2 (le_any _)) h
  · exact absurd (covers_iff_le.2 (le_any _)) h'
  · exact absurd (covers_iff_le.2 (bottom_le _)) h'
  · exact absurd (covers_iff_le.2 (bottom_le _)) h
  · rfl
  · cases a <;> rfl
  · dsimp only
    rw [if_neg h, if_neg h']
    rfl
  · rw [if_neg h, if_neg h']
    split
    · rfl
    · rfl
    · rfl
    · rfl
    · rename_i s f n t g m _ _ _ _ _ _ hlaid
      cases f with
      | none => rfl
      | some f =>
        cases g with
        | none => rfl
        | some g => exact (hlaid s f n t g m rfl rfl).elim
    · unfold shared
      split
      · cases ‹Bool› <;> simp_all
      · cases ‹Bool› <;> simp_all
      all_goals grind

/-! ## Order of intersections -/

/-- A label of what two layouts have in common is one of theirs, and has what its flows have in
common. -/
theorem find?_union_joinShared (f g : Fields Flow none) (k : String) :
    ((joinShared f g).union g).find? k =
      ((f.find? k).map fun v => (g.find? k).elim v v.join).or (g.find? k) := by
  rw [Fields.find?_union, find?_joinShared]

/-- Layouts commute where the flows of the first one do. -/
theorem joinLayouts_comm {f g : Option (Fields Flow none)}
    (h : ∀ f', f = some f' → ∀ k v, f'.find? k = some v → ∀ w, v.join w = w.join v) :
    joinLayouts f g = joinLayouts g f := by
  cases f with
  | none => cases g <;> rfl
  | some f =>
    cases g with
    | none => rfl
    | some g =>
      refine congrArg some (Fields.ext_find? fun k => ?_)
      rw [find?_union_joinShared, find?_union_joinShared]
      cases hv : f.find? k with
      | none => cases g.find? k <;> rfl
      | some v =>
        cases g.find? k with
        | none => rfl
        | some w => exact congrArg some (h f rfl k v hv w)

/-- What two flows have in common apart from their order does not depend on it, if that is so of the
fields of the first one. -/
theorem shared_comm {a b : Flow}
    (ih : ∀ s f n, a = record s (some f) n →
      ∀ k v, f.find? k = some v → ∀ w, v.join w = w.join v) : a.shared b = b.shared a := by
  cases a with
  | scalar n => cases b <;> rfl
  | int i =>
    cases b with
    | int j => rw [shared, shared, IntFlow.join_comm]
    | _ => rfl
  | float x =>
    cases b with
    | float y => rw [shared, shared, FloatFlow.join_comm]
    | _ => rfl
  | text c n =>
    cases b with
    | text d m => cases c <;> cases d <;> grind [shared]
    | _ => rfl
  | function s n =>
    cases b with
    | function t m => rw [shared, shared, IdSet.inter_comm, Bool.and_comm]
    | _ => rfl
  | record s f n =>
    cases b with
    | record t g m =>
      have hlayout : joinLayouts f g = joinLayouts g f := by
        refine joinLayouts_comm fun f' hf => ?_
        subst hf
        exact ih s f' n rfl
      rw [shared, shared, IdSet.inter_comm, Bool.and_comm, hlayout]
    | _ => rfl
  | _ => cases b <;> rfl

/-- Intersections commute where those of the fields of the first flow do. -/
theorem join_comm_of {a : Flow} (b : Flow)
    (ih : ∀ s f n, a = record s (some f) n →
      ∀ k v, f.find? k = some v → ∀ w, v.join w = w.join v) : a.join b = b.join a := by
  by_cases hab : a.covers b = true
  · rw [join_of_covers hab, join_of_covered hab]
  by_cases hba : b.covers a = true
  · rw [join_of_covers hba, join_of_covered hba]
  · rw [join_of_not_covers hab hba, join_of_not_covers hba hab, shared_comm ih]

/-- What two flows have in common does not depend on their order. -/
theorem join_comm (a b : Flow) : a.join b = b.join a := by
  induction a using all_of generalizing b with
  | record s f n ih =>
    refine join_comm_of b fun s' f' n' e k v hv w => ?_
    cases e
    exact ih k v hv w
  | _ => exact join_comm_of b fun _ _ _ e => nomatch e

/-- What two flows have in common is at or above the second one, if of nothing in it is only known that
it is not nil. -/
theorem covers_join_right (a : Flow) {b : Flow} (hb : b.hasNonNil = false) :
    (a.join b).covers b = true := (join_narrows a b).covers_of_hasNonNil hb

/-- What two flows have in common does not depend on their order.  It is the upper one of two
comparable flows, so that a flow has itself in common with what lies below it.  Where neither flow
says of anything just that it is not nil, it is at or above both. -/
theorem join_laws (a b : Flow) :
    a.join b = b.join a ∧
      (a.covers b = true → a.join b = a) ∧
      a.join (a.meet b) = a ∧
      (a.hasNonNil = false → b.hasNonNil = false →
        (a.join b).covers a = true ∧ (a.join b).covers b = true) := by
  refine ⟨join_comm a b, join_of_covers, join_of_covers (covers_meet_left a b), fun ha hb => ?_⟩
  constructor
  · rw [join_comm]
    exact covers_join_right b ha
  · exact covers_join_right a hb

/-- Two records with a field in common, in which each says something that the other does not. -/
theorem join_laws_records : ∃ a b c : Flow,
    a = recordAt 1 (.ofList [("x", recordAt 2 (.ofList [("k", int64)])), ("y", nil)]) ∧
      b = recordAt 1 (.ofList [("x", recordAt 2 (.ofList [("k", int (.const 3))]))]) ∧
      c = recordAt 1 (.ofList [("x", recordAt 2 (.ofList [("k", int (.const 3))])), ("y", nil)]) ∧
      (a.hasNonNil = false ∧ b.hasNonNil = false) ∧ (a.covers b = false ∧ b.covers a = false) ∧
      a.join b = c ∧ b.join a = c ∧ c.covers a = true ∧ c.covers b = true := by
  have hjoin : ∀ a b c : Flow, a.hasNonNil = false → b.hasNonNil = false → a.join b = c →
      a.join b = c ∧ b.join a = c ∧ c.covers a = true ∧ c.covers b = true := by
    rintro a b _ ha hb rfl
    obtain ⟨hcomm, -, -, hcovers⟩ := join_laws a b
    exact ⟨rfl, hcomm.symm, hcovers ha hb⟩
  exact ⟨_, _, _, rfl, rfl, rfl, ⟨by decide +kernel, by decide +kernel⟩,
    ⟨by decide +kernel, by decide +kernel⟩,
    hjoin _ _ _ (by decide +kernel) (by decide +kernel) (by decide +kernel)⟩

end Flow

end TypeFlow
