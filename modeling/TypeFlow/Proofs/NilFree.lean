import TypeFlow.Flow.Nesting
import TypeFlow.Program.CallResult
import TypeFlow.Proofs.FlowOrder

/-!
# Flows without nil

A program that neither writes nil nor tests for it has flows without nil at every depth, where a
number may still be zero and a `scalar` may still be anything.  Meets stay among such flows.

Main definitions:

- `Flow.NilFree`: no flow within is nil or marked as possibly nil, and no function set is empty.

Main results:

- `Flow.NilFree.meet`: meets stay without nil.
-/

namespace TypeFlow

namespace IdSet

/-- A set that is not empty has an element. -/
theorem isEmpty_eq_false {s : IdSet} : s.isEmpty = false ↔ ∃ x, x ∈ s := by
  unfold isEmpty
  rw [List.isEmpty_eq_false_iff_exists_mem]
  rfl

private theorem isEmpty_union {s : IdSet} (hs : s.isEmpty = false) (t : IdSet) :
    (s.union t).isEmpty = false := by
  obtain ⟨x, hx⟩ := isEmpty_eq_false.1 hs
  exact isEmpty_eq_false.2 ⟨x, mem_union.2 (Or.inl hx)⟩

end IdSet

namespace Flow

/-- No flow within is nil or marked as possibly nil, and no function set is empty. -/
inductive NilFree : Flow → Prop
  | any : NilFree any
  | int (i : IntFlow) : NilFree (int i)
  | float (x : FloatFlow) : NilFree (float x)
  | text (c : Option String) : NilFree (text c false)
  | function {s : IdSet} (h : s.isEmpty = false) : NilFree (function s false)
  | unlaid (s : IdSet) : NilFree (record s none false)
  | record {s : IdSet} {f : Fields Flow none} (h : ∀ k v, f.find? k = some v → NilFree v) :
    NilFree (record s (some f) false)
  | scalar (n : Bool) : NilFree (scalar n)

/-! ## Meets -/

private theorem nilFree_meet_of_not_sameKind {a b : Flow} (ha : a.NilFree) (hb : b.NilFree)
    (h : a.sameKind b = false) : (a.meet b).NilFree := by
  rcases eq_or_isClassed a with rfl | rfl | ⟨n, rfl⟩ | ha'
  · exact hb
  · cases ha
  · rw [scalar_meet]
    exact .scalar _
  rcases eq_or_isClassed b with rfl | rfl | ⟨m, rfl⟩ | hb'
  · rw [meet_any]
    exact ha
  · cases hb
  · rw [meet_scalar]
    exact .scalar _
  rw [meet_of_clash ha' hb' h]
  exact .scalar _

/-- The meet of flows without nil is one. -/
theorem NilFree.meet {a b : Flow} (ha : a.NilFree) (hb : b.NilFree) : (a.meet b).NilFree := by
  cases h : a.sameKind b with
  | false => exact nilFree_meet_of_not_sameKind ha hb h
  | true =>
    induction ha generalizing b with
    | any => exact hb
    | scalar n =>
      rw [scalar_meet]
      exact .scalar _
    | int i =>
      cases hb <;> cases h
      exact .int _
    | float x =>
      cases hb <;> cases h
      exact .float _
    | text c =>
      cases hb <;> cases h
      exact .text _
    | function hs =>
      cases hb <;> cases h
      exact .function (IdSet.isEmpty_union hs _)
    | unlaid s =>
      cases hb <;> cases h
      · exact .unlaid _
      · exact .unlaid _
    | record hf ih =>
      cases hb <;> cases h
      · exact .unlaid _
      · rename_i f _ g hg
        refine .record ?_
        intro k v hv
        rw [find?_meetFields] at hv
        cases hfk : f.find? k with
        | none => simp [hfk] at hv
        | some x =>
          cases hgk : g.find? k with
          | none => simp [hfk, hgk] at hv
          | some y =>
            simp only [hfk, hgk, Option.bind_some, Option.map_some, Option.some.injEq] at hv
            rw [← hv]
            cases hxy : x.sameKind y with
            | false => exact nilFree_meet_of_not_sameKind (hf k x hfk) (hg k y hgk) hxy
            | true => exact ih k x hfk (hg k y hgk) hxy

end Flow

end TypeFlow
