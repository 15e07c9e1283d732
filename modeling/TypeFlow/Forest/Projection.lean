import TypeFlow.Flow.Nesting
import TypeFlow.Forest.Find

/-!
# Flows of types

The flow of a type describes every value a term of that type can hold.  It depends on the unfolded
type alone: a record whose sites stand twice above it already, or that lies too deep, has an unknown
layout, however the cycles of the forest are laid out.
-/

namespace TypeFlow

namespace Forest

/-- The flow of a term under the site sets of the records above it. -/
def widestFrom (f : Forest) : Nat → TermId → List IdSet → Option Flow
  | 0, _, _ => none
  | fuel + 1, t, above =>
    let r := f.rep t
    match f.kind r with
    | .var | .error _ | .link _ => some .bottom
    | .base flow => some flow
    | .nilable inner => (f.widestFrom fuel inner above).map Flow.orNil
    | .function _ _ fids nil =>
      let fids := if fids.isEmpty || f.isInput r then fids.insert FunctionId.unknown else fids
      some (.function fids nil)
    | .record fields sites _ nil =>
      if 2 ≤ above.count sites || Flow.maxNesting ≤ above.length then
        some (.record sites none nil)
      else do
        let flows ← fields.mapM? fun child => f.widestFrom fuel child (sites :: above)
        return .record sites (some flows) nil

/-- The most general flow of a term's type.  There is none when wrappers are nested in a circle:
otherwise no two records on a path have more wrappers between them than there are terms. -/
def widest (f : Forest) (t : TermId) : Option Flow :=
  f.widestFrom ((Flow.maxNesting + 1) * (f.size + 1)) t []

/-- The functions that a function type stands for.  One that is not known, or that callers pass in,
may come from outside. -/
def callees (input : Bool) (fids : IdSet) : IdSet :=
  if fids.isEmpty || input then fids.insert FunctionId.unknown else fids

/-! ## The flow by kind -/

section Kinds

variable {f : Forest} {t : TermId} (fuel : Nat) (above : List IdSet)

/-- Nothing is known of a variable. -/
theorem widestFrom_var (h : f.kind (f.rep t) = .var) :
    f.widestFrom (fuel + 1) t above = some .bottom := by
  simp only [widestFrom, h]

/-- An error has no values. -/
theorem widestFrom_error {cause : TypeError} (h : f.kind (f.rep t) = .error cause) :
    f.widestFrom (fuel + 1) t above = some .bottom := by
  simp only [widestFrom, h]

/-- A link that leads nowhere has no values. -/
theorem widestFrom_link {target : TermId} (h : f.kind (f.rep t) = .link target) :
    f.widestFrom (fuel + 1) t above = some .bottom := by
  simp only [widestFrom, h]

/-- The widest flow of a base type is its own. -/
theorem widestFrom_base {flow : Flow} (h : f.kind (f.rep t) = .base flow) :
    f.widestFrom (fuel + 1) t above = some flow := by
  simp only [widestFrom, h]

/-- A wrapper has the values of what it wraps, and nil. -/
theorem widestFrom_nilable {inner : TermId} (h : f.kind (f.rep t) = .nilable inner) :
    f.widestFrom (fuel + 1) t above = (f.widestFrom fuel inner above).map Flow.orNil := by
  simp only [widestFrom, h]

/-- A function has its function ids, and unknown callers if it is an input. -/
theorem widestFrom_function {args : List TermId} {ret : TermId} {fids : IdSet} {nil : Bool}
    (h : f.kind (f.rep t) = .function args ret fids nil) :
    f.widestFrom (fuel + 1) t above =
      some (.function (callees (f.isInput (f.rep t)) fids) nil) := by
  simp only [widestFrom, h]
  rfl

/-- A record has the widest flows of its fields, unless it nests too deep or in its own sites. -/
theorem widestFrom_record {fields : Fields TermId none} {sites : IdSet} {isOpen nil : Bool}
    (h : f.kind (f.rep t) = .record fields sites isOpen nil) :
    f.widestFrom (fuel + 1) t above =
      if 2 ≤ above.count sites ∨ Flow.maxNesting ≤ above.length then some (.record sites none nil)
      else (fields.mapM? fun child => f.widestFrom fuel child (sites :: above)).map
        fun flows => .record sites (some flows) nil := by
  simp only [widestFrom, h, Bool.or_eq_true, decide_eq_true_eq]
  split
  · rfl
  · cases fields.mapM? fun child => f.widestFrom fuel child (sites :: above) <;> rfl

end Kinds

/-- Forests with the same classes and the same types have the same flows. -/
theorem widestFrom_congr {f g : Forest} (hrep : ∀ t, g.rep t = f.rep t)
    (hkind : ∀ t, g.kind (f.rep t) = f.kind (f.rep t)) (hinput : ∀ t, g.isInput t = f.isInput t)
    (fuel : Nat) (t : TermId) (above : List IdSet) :
    g.widestFrom fuel t above = f.widestFrom fuel t above := by
  induction fuel generalizing t above with
  | zero => rfl
  | succ fuel ih =>
    unfold widestFrom
    simp only [hrep, hkind, hinput, ih]

end Forest

end TypeFlow
