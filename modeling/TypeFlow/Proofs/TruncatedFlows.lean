import TypeFlow.Flow.Nesting
import TypeFlow.Proofs.FlowOrder

/-!
# Truncated flows

Truncating a flow forgets layouts of records that lie deep in it, and nothing else.  So it leads down,
a truncated flow is not truncated any more, and a lower flow is truncated to a lower one: a lower
record may be from more sites, so that it is cut off no later.

Main definitions:

- `Flow.seenWith`: the count of records from the site on the way down.

Main results:

- `Flow.truncate_le`, `Flow.truncate_truncate`, `Flow.truncate_mono`: truncating is a closure.
-/

namespace TypeFlow

namespace Flow

variable {cutoff : Nat} {site : SiteId} {a' a : Flow}

/-! ## Records on the way down -/

/-- Truncating fields truncates what is found. -/
theorem find?_truncateFields (cutoff : Nat) (site : SiteId) {bound : Option String}
    (f : Fields Flow bound) (seen depth : Nat) (k : String) :
    (truncateFields cutoff site f seen depth).find? k =
      (f.find? k).map fun v => truncateAt cutoff site v seen depth := by
  induction f with
  | nil => rfl
  | cons l h v rest ih =>
    rw [truncateFields, Fields.find?_cons, Fields.find?_cons, ih]
    split <;> rfl

/-- How many records from the site there are with one more record. -/
def seenWith (site : SiteId) (s : IdSet) (seen : Nat) : Nat :=
  if s.contains site then seen + 1 else seen

private theorem seenWith_mono (site : SiteId) {s' s : IdSet} (hs : ∀ x, x ∈ s → x ∈ s')
    {seen seen' : Nat} (h : seen ≤ seen') : seenWith site s seen ≤ seenWith site s' seen' := by
  unfold seenWith
  by_cases hx : s.contains site = true
  · have hx' : s'.contains site = true :=
      IdSet.contains_eq_true.2 (hs site (IdSet.contains_eq_true.1 hx))
    rw [if_pos hx, if_pos hx']
    omega
  · rw [if_neg hx]
    split <;> omega

/-- A record is cut off where its site repeats too often or it nests too deep, and has its fields truncated
elsewhere. -/
theorem truncateAt_record (cutoff : Nat) (site : SiteId) (s : IdSet) (f : Fields Flow none)
    (n : Bool) (seen depth : Nat) :
    truncateAt cutoff site (record s (some f) n) seen depth =
      if cutoff + 1 < seenWith site s seen ∨ maxNesting ≤ depth then record s none n
      else record s (some (truncateFields cutoff site f (seenWith site s seen) (depth + 1))) n := by
  rw [truncateAt]
  unfold seenWith
  by_cases h : (cutoff + 1 < if s.contains site = true then seen + 1 else seen) ∨ maxNesting ≤ depth
  · simp only [h, ↓reduceIte, Bool.or_eq_true, decide_eq_true_eq]
  · simp only [h, ↓reduceIte, Bool.or_eq_true, decide_eq_true_eq]

/-- A flow without a layout of its own is not truncated. -/
theorem truncateAt_of_unlaid (h : ∀ s f n, a ≠ record s (some f) n) (seen depth : Nat) :
    truncateAt cutoff site a seen depth = a := by
  cases a with
  | record s f n =>
    cases f with
    | none => rfl
    | some f => exact absurd rfl (h s f n)
  | _ => rfl

/-! ## The closure -/

/-- Truncating leads down. -/
theorem truncateAt_le (a : Flow) (seen depth : Nat) : truncateAt cutoff site a seen depth ≤ a := by
  induction a using all_of generalizing seen depth with
  | record s f n ih =>
    rw [truncateAt_record]
    split
    · exact record_le_record.2 ⟨fun _ hx => hx, trivial, id⟩
    · refine record_le_record.2 ⟨fun _ hx => hx, ?_, id⟩
      intro k v hv
      rw [find?_truncateFields] at hv
      obtain ⟨w, hw, rfl⟩ := Option.map_eq_some_iff.1 hv
      exact ⟨w, hw, ih k w hw _ _⟩
  | _ => exact le_rfl

/-- The counts of a truncated flow are those of the flow, so that it is cut off nowhere else. -/
theorem truncateAt_truncateAt (a : Flow) (seen depth : Nat) :
    truncateAt cutoff site (truncateAt cutoff site a seen depth) seen depth =
      truncateAt cutoff site a seen depth := by
  induction a using all_of generalizing seen depth with
  | record s f n ih =>
    rw [truncateAt_record]
    by_cases hcut : cutoff + 1 < seenWith site s seen ∨ maxNesting ≤ depth
    · rw [if_pos hcut]
      rfl
    · rw [if_neg hcut, truncateAt_record, if_neg hcut]
      have hfields : truncateFields cutoff site
          (truncateFields cutoff site f (seenWith site s seen) (depth + 1))
            (seenWith site s seen) (depth + 1) =
          truncateFields cutoff site f (seenWith site s seen) (depth + 1) := by
        apply Fields.ext_find?
        intro k
        rw [find?_truncateFields, find?_truncateFields]
        cases hv : f.find? k with
        | none => rfl
        | some v => exact congrArg some (ih k v hv _ _)
      rw [hfields]
  | _ => rfl

/-- What has no layout of its own stays below a truncated flow. -/
theorem le_truncateAt (h : a' ≤ a) (hlaid : ∀ s f n, a' ≠ record s (some f) n) (seen depth : Nat) :
    a' ≤ truncateAt cutoff site a seen depth := by
  cases a with
  | record s f n =>
    cases f with
    | none => exact h
    | some f =>
      have habove : ∀ layout, a' ≤ record s layout n := by
        intro layout
        rcases sameKind_or_scalar rfl h with hk | ⟨m, rfl⟩
        · cases a' with
          | record s' f' n' =>
            obtain ⟨hs, -, hn⟩ := record_le_record.1 h
            cases f' with
            | none => exact record_le_record.2 ⟨hs, trivial, hn⟩
            | some f' => exact absurd rfl (hlaid s' f' n')
          | _ => cases hk
        · exact scalar_le_iff.2 (scalar_le_iff.1 h)
      rw [truncateAt_record]
      split <;> exact habove _
  | _ => exact h

/-- What is lower is truncated to what is lower, where no fewer records from the site are above it. -/
theorem truncateAt_mono (h : a' ≤ a) {seen seen' : Nat} (hseen : seen ≤ seen') (depth : Nat) :
    truncateAt cutoff site a' seen' depth ≤ truncateAt cutoff site a seen depth := by
  induction a' using all_of generalizing a seen seen' depth with
  | record s' f' n' ih =>
    by_cases hlaid : ∃ s f n, a = record s (some f) n
    · obtain ⟨s, f, n, rfl⟩ := hlaid
      obtain ⟨hs, hlayout, hn⟩ := record_le_record.1 h
      have hcount := seenWith_mono site hs hseen
      rw [truncateAt_record, truncateAt_record]
      by_cases hcut' : cutoff + 1 < seenWith site s' seen' ∨ maxNesting ≤ depth
      · rw [if_pos hcut']
        split <;> exact record_le_record.2 ⟨hs, trivial, hn⟩
      · have hcut : ¬(cutoff + 1 < seenWith site s seen ∨ maxNesting ≤ depth) := by omega
        rw [if_neg hcut', if_neg hcut]
        refine record_le_record.2 ⟨hs, ?_, hn⟩
        intro k v hv
        rw [find?_truncateFields] at hv
        obtain ⟨v', hv', rfl⟩ := Option.map_eq_some_iff.1 hv
        obtain ⟨w, hw, hle⟩ := hlayout k v' hv'
        refine ⟨_, by rw [find?_truncateFields, hw]; rfl, ?_⟩
        exact ih k v' hv' hle hcount (depth + 1)
    · -- Only nil and what was not observed yet lie above a record without being one.
      rw [truncateAt_of_unlaid fun s f n e => hlaid ⟨s, f, n, e⟩]
      exact (truncateAt_le _ _ _).trans h
  | _ => exact le_truncateAt h nofun seen depth

/-- A truncated flow is below what it was. -/
theorem truncate_le (cutoff : Nat) (site : SiteId) (a : Flow) : a.truncate cutoff site ≤ a :=
  truncateAt_le a 0 0

/-- Truncating twice truncates once. -/
theorem truncate_truncate (cutoff : Nat) (site : SiteId) (a : Flow) :
    (a.truncate cutoff site).truncate cutoff site = a.truncate cutoff site :=
  truncateAt_truncateAt a 0 0

/-- Lower flows are truncated to lower flows. -/
theorem truncate_mono (cutoff : Nat) (site : SiteId) (h : a' ≤ a) :
    a'.truncate cutoff site ≤ a.truncate cutoff site :=
  truncateAt_mono h le_rfl 0

end Flow

end TypeFlow
