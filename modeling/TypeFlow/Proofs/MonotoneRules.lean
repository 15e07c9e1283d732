import TypeFlow.Proofs.NilFree
import TypeFlow.Proofs.PrimitiveRules
import TypeFlow.Proofs.TruncatedFlows

/-!
# Monotone rules

On flows without nil every rule for the flow of an expression is monotone: if what it reads falls,
so does its result.  No primitive but `notNil` may rise there.

Main results:

- `Primitive.result_mono`: the rules of all primitives but `notNil`.
-/

namespace TypeFlow

namespace Flow

/-- Fields without nil make a record without nil. -/
theorem nilFree_ofList {es : List (String × Flow)} (h : ∀ e ∈ es, e.2.NilFree) (k : String)
    (v : Flow) (hv : (Fields.ofList es).find? k = some v) : v.NilFree :=
  h _ (Fields.mem_of_find?_ofList hv)

/-! ## Bounded nesting -/

/-- Truncating adds no nil. -/
theorem NilFree.truncateAt {cutoff : Nat} {site : SiteId} {a : Flow} (h : a.NilFree)
    (seen depth : Nat) : (truncateAt cutoff site a seen depth).NilFree := by
  induction h generalizing seen depth with
  | @record s f hf ih =>
    rw [truncateAt_record]
    split
    · exact .unlaid s
    · refine .record ?_
      intro k v hv
      rw [find?_truncateFields] at hv
      obtain ⟨v', hv', rfl⟩ := Option.map_eq_some_iff.1 hv
      exact ih k v' hv' _ _
  | any => exact .any
  | int i => exact .int i
  | float x => exact .float x
  | text c => exact .text c
  | function hs => exact .function hs
  | unlaid s => exact .unlaid s
  | scalar n => exact .scalar n

end Flow

namespace Primitive

/-! ## Calls -/

private theorem nilFree_tuple {site : SiteId} {as : List Flow} (h : ∀ a ∈ as, a.NilFree) :
    (tuple site as).NilFree := by
  refine .record (Flow.nilFree_ofList ?_)
  intro e he
  exact h e.2 (List.of_mem_zip he).2

section Arguments

variable {args' args : List Flow} (hn : ∀ i, (argument args i).NilFree)
  (h : ∀ i, argument args' i ≤ argument args i)

/-- A rule that tests for nil aside, results do not rise on flows without nil. -/
theorem mayRise_eq_false {p : Primitive} (hp : p ≠ .notNil) {a : Flow} (ha : a.NilFree)
    (a' : Flow) : p.mayRise a a' = false := by
  have hnil : (a == .nil) = false := by
    cases ha <;> rfl
  cases p <;> first | exact absurd rfl hp | simp [mayRise, hnil]

include hn h in
/-- The flow of a call to a primitive falls with its arguments. -/
theorem result_mono {p : Primitive} (hp : p ≠ .notNil) (pairSite tripleSite : SiteId) :
    p.result args' pairSite tripleSite ≤ p.result args pairSite tripleSite :=
  result_le h (fun i _ => mayRise_eq_false hp (hn i) _) pairSite tripleSite

include hn in
/-- The flow of a call to a primitive has no nil. -/
theorem nilFree_result {p : Primitive} (hp : p ≠ .notNil) (pairSite tripleSite : SiteId) :
    (p.result args pairSite tripleSite).NilFree := by
  cases hw : p.waits args with
  | true =>
    rw [result_of_waits hw]
    exact .any
  | false =>
    rw [result_of_not_waits hw]
    cases p with
    | cond =>
      change (chosen _ _ _).NilFree
      unfold chosen
      split
      · exact .any
      · exact hn 2
      · exact hn 1
      · exact (hn 1).meet (hn 2)
    | pair => exact nilFree_tuple (by simp [hn])
    | triple => exact nilFree_tuple (by simp [hn])
    | notNil => exact absurd rfl hp
    | eq =>
      change (equality _ _).NilFree
      unfold equality
      split <;> exact .int _
    | eqZero =>
      change (zeroTest _).NilFree
      unfold zeroTest
      split
      · exact .int _
      · split <;> exact .int _
    | isEmpty =>
      change (emptyTest _).NilFree
      unfold emptyTest
      split <;> exact .int _
    | mul =>
      change (product _ _).NilFree
      unfold product
      split
      · exact .int _
      · split <;> exact .int _
      · split <;> exact .int _
      · exact .int _
    | add =>
      change (sum _ _).NilFree
      unfold sum
      split <;> exact .int _
    | dec =>
      change (predecessor _).NilFree
      unfold predecessor
      split <;> exact .int _
    | str =>
      change (decimal _).NilFree
      unfold decimal
      split <;> exact .text _
    | factor => exact .float _

end Arguments

end Primitive

end TypeFlow
