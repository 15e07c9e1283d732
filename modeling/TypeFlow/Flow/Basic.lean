import TypeFlow.Double.Basic
import TypeFlow.Fields
import TypeFlow.IdSet

/-!
# Flow values

A flow describes the values that an expression may take.  `any` stands at the top: nothing has
been observed yet.  Constants lie below it, their classes (integers, doubles, texts, function sets,
records) below those, and `scalar` at the bottom describes every value.  An analysis only ever
moves down, by `meet`.

Main definitions:

- `Flow.meet`: the greatest lower bound.
- `Flow.covers`: the order; `a.covers b` says that `b` is at or below `a`.
- `Flow.mayNil`, `Flow.isFalse`, `Flow.withoutNil`: what a flow says about nil.
-/

namespace TypeFlow

/-- Integers: a constant, one of the two truth values `0` and `1`, or any 64-bit integer. -/
inductive IntFlow
  | const (value : Int64)
  | bool
  | int64
  deriving DecidableEq

namespace IntFlow

/-- The integer is a truth value. -/
def isBit (c : Int64) : Bool := c == 0 || c == 1

/-- Zero is among the integers described. -/
def containsZero : IntFlow → Bool
  | const c => c == 0
  | _ => true

/-- The nearest description that covers no more than both. -/
def meet : IntFlow → IntFlow → IntFlow
  | const a, const b => if a = b then const a else if isBit a && isBit b then bool else int64
  | const a, bool => if isBit a then bool else int64
  | bool, const a => if isBit a then bool else int64
  | bool, bool => bool
  | _, _ => int64

/-- The integers described by both, or nothing if there are none. -/
def join : IntFlow → IntFlow → Option IntFlow
  | int64, x => some x
  | x, int64 => some x
  | bool, bool => some bool
  | const a, bool => if isBit a then some (const a) else none
  | bool, const a => if isBit a then some (const a) else none
  | const a, const b => if a = b then some (const a) else none

end IntFlow

/-- Doubles: a constant, told apart by its bit pattern, or any double. -/
inductive FloatFlow
  | const (value : Double)
  | double
  deriving DecidableEq

namespace FloatFlow

/-- Equal constants stay, all else is any double. -/
def meet : FloatFlow → FloatFlow → FloatFlow
  | const a, const b => if a = b then const a else double
  | _, _ => double

/-- The doubles described by both, or nothing if there are none. -/
def join : FloatFlow → FloatFlow → Option FloatFlow
  | double, x => some x
  | x, double => some x
  | const a, const b => if a = b then some (const a) else none

/-- The constant, if it is one. -/
def value? : FloatFlow → Option Double
  | const x => some x
  | double => none

end FloatFlow

/-- What is known about the values of an expression. -/
inductive Flow
  /-- Nothing was observed yet. -/
  | any
  /-- The value nil. -/
  | nil
  | int (value : IntFlow)
  | float (value : FloatFlow)
  /-- A text, constant if one is given. -/
  | text (const : Option String) (nil : Bool)
  /-- One of a set of functions. -/
  | function (fids : IdSet) (nil : Bool)
  /-- A record from one of the sites; without fields its layout is unknown. -/
  | record (sites : IdSet) (fields : Option (Fields Flow none)) (nil : Bool)
  /-- Any value; nil only if the flag says so. -/
  | scalar (nil : Bool)

instance : Inhabited Flow := ⟨.any⟩

/-! ## Equality -/

mutual

/-- The flows are equal. -/
def Flow.beq : Flow → Flow → Bool
  | .any, .any => true
  | .nil, .nil => true
  | .int a, .int b => a == b
  | .float a, .float b => a == b
  | .text c n, .text d m => c == d && n == m
  | .function s n, .function t m => s == t && n == m
  | .record s none n, .record t none m => s == t && n == m
  | .record s (some f) n, .record t (some g) m => s == t && Flow.beqFields f g && n == m
  | .scalar n, .scalar m => n == m
  | _, _ => false
  termination_by structural a => a

/-- The entries are equal. -/
def Flow.beqFields {bound bound' : Option String} :
    Fields Flow bound → Fields Flow bound' → Bool
  | .nil, .nil => true
  | .cons l _ v f, .cons k _ w g => l == k && Flow.beq v w && Flow.beqFields f g
  | _, _ => false
  termination_by structural f => f

end

mutual

private theorem Flow.beq_iff_eq : ∀ a b : Flow, a.beq b = true ↔ a = b
  | .any, b => by cases b <;> simp [Flow.beq]
  | .nil, b => by cases b <;> simp [Flow.beq]
  | .int _, b => by cases b <;> simp [Flow.beq]
  | .float _, b => by cases b <;> simp [Flow.beq]
  | .text _ _, b => by cases b <;> simp [Flow.beq]
  | .function _ _, b => by cases b <;> simp [Flow.beq]
  | .record _ none _, b => by
    cases b with
    | record _ g _ => cases g <;> simp [Flow.beq]
    | _ => simp [Flow.beq]
  | .record _ (some f) _, b => by
    cases b with
    | record _ g _ =>
      cases g with
      | none => simp [Flow.beq]
      | some g => simp [Flow.beq, Flow.beqFields_iff_eq f g, and_assoc]
    | _ => simp [Flow.beq]
  | .scalar _, b => by cases b <;> simp [Flow.beq]

private theorem Flow.beqFields_iff_eq {bound : Option String} :
    ∀ f g : Fields Flow bound, Flow.beqFields f g = true ↔ f = g
  | .nil, g => by cases g <;> simp [Flow.beqFields]
  | .cons l _ v f, g => by
    cases g with
    | nil => simp [Flow.beqFields]
    | cons k _ w g =>
      by_cases e : l = k
      · subst e
        simp [Flow.beqFields, Flow.beq_iff_eq v w, Flow.beqFields_iff_eq f g]
      · simp [Flow.beqFields, e]

end

namespace Flow

instance : DecidableEq Flow := fun a b => decidable_of_iff _ (Flow.beq_iff_eq a b)

/-! ## The order -/

/-- The flag a flow hands to the `scalar` that a clash of kinds leaves.  Numbers count as nil,
since their zero is tested alike. -/
def carriesNil : Flow → Bool
  | any => false
  | nil | int _ | float _ => true
  | text _ n | function _ n | record _ _ n | scalar n => n

/-- The flow with its nil flag set, where texts, functions and records have one. -/
def setNil (flag : Bool) : Flow → Flow
  | text c _ => text c flag
  | function s _ => function s flag
  | record s f _ => record s f flag
  | a => a

end Flow

mutual

/-- The greatest lower bound. -/
def Flow.meet : Flow → Flow → Flow
  | .any, b => b
  | a, .any => a
  | .scalar n, b => .scalar (n || b.carriesNil)
  | a, .scalar n => .scalar (n || a.carriesNil)
  | .nil, .nil => .nil
  | .nil, .int i => .int (i.meet (.const 0))
  | .int i, .nil => .int (i.meet (.const 0))
  | .nil, .float x => .float (x.meet (.const .zero))
  | .float x, .nil => .float (x.meet (.const .zero))
  | .nil, b => b.setNil true
  | a, .nil => a.setNil true
  | .int i, .int j => .int (i.meet j)
  | .float x, .float y => .float (x.meet y)
  | .text c n, .text d m => .text (if c = d then c else none) (n || m)
  | .function s n, .function t m => .function (s.union t) (n || m)
  | .record s (some f) n, .record t (some g) m =>
    .record (s.union t) (some (Flow.meetFields f g)) (n || m)
  | .record s _ n, .record t _ m => .record (s.union t) none (n || m)
  | a, b => .scalar (a.carriesNil || b.carriesNil)
  termination_by structural a => a

/-- The labels of both, each with the meet of its two flows. -/
def Flow.meetFields {bound bound' : Option String} :
    Fields Flow bound → Fields Flow bound' → Fields Flow bound
  | .nil, _ => .nil
  | .cons l h v f, g =>
    match g.find? l with
    | some w => .cons l h (Flow.meet v w) (Flow.meetFields f g)
    | none => (Flow.meetFields f g).relax h
  termination_by structural f => f

end

namespace Flow

/-- The second flow is at or below the first. -/
def covers (a b : Flow) : Bool := a.meet b == b

/-- A flow covers another if the other is their meet. -/
theorem covers_iff {a b : Flow} : a.covers b = true ↔ a.meet b = b := by
  simp [covers]

/-! ## Constants and classes -/

/-- The constant true. -/
def constTrue : Flow := int (.const 1)

/-- The constant false. -/
def constFalse : Flow := int (.const 0)

/-- Either truth value. -/
def bool : Flow := int .bool

/-- Any integer. -/
def int64 : Flow := int .int64

/-- Any double. -/
def double : Flow := float .double

/-- Any text. -/
def anyText : Flow := text none false

/-- Every value. -/
def bottom : Flow := scalar true

/-- Every value but nil. -/
def nonNil : Flow := scalar false

/-- A record built at one site. -/
def recordAt (site : SiteId) (fields : Fields Flow none) : Flow :=
  record (.singleton site) (some fields) false

/-- Nothing was observed yet. -/
def isAny : Flow → Bool
  | any => true
  | _ => false

/-- The value may be nil, or a zero, which is tested alike. -/
def mayNil : Flow → Bool
  | any => false
  | nil => true
  | int i => i.containsZero
  | float (.const x) => x.isZero
  | float .double => true
  | text _ n | function _ n | record _ _ n | scalar n => n

/-- As a predicate the value is surely false. -/
def isFalse : Flow → Bool
  | nil => true
  | int (.const c) => c == 0
  | _ => false

/-- The flow describes a single value. -/
def isConst : Flow → Bool
  | nil | int (.const _) | float (.const _) => true
  | text c n => c.isSome && !n
  | _ => false

/-- The flow lowered until it describes nil too. -/
def orNil (a : Flow) : Flow := a.meet nil

/-- The part of the flow that is not nil. -/
def withoutNil : Flow → Flow
  | nil => any
  | scalar _ => nonNil
  | a => a.setNil false

/-- Constants lowered to their class. -/
def widen : Flow → Flow
  | int _ => int64
  | float _ => double
  | text _ n => text none n
  | a => a

/-- Every value, unless nothing was observed yet. -/
def fallen (a : Flow) : Flow := if a.isAny then any else bottom

/-- Both flows are of one kind; only then may their types become one. -/
def sameKind : Flow → Flow → Bool
  | any, any | nil, nil | int _, int _ | float _, float _ | text _ _, text _ _
  | function _ _, function _ _ | record _ _ _, record _ _ _ | scalar _, scalar _ => true
  | _, _ => false

/-- The functions described, where the flow is a function flow. -/
def functions? : Flow → Option IdSet
  | function s _ => some s
  | _ => none

end Flow

mutual

/-- The number of flows nested in a flow, itself included. -/
def Flow.size : Flow → Nat
  | .record _ (some f) _ => Flow.sizeFields f + 1
  | _ => 1
  termination_by structural a => a

/-- The number of flows in the entries. -/
def Flow.sizeFields {bound : Option String} : Fields Flow bound → Nat
  | .nil => 0
  | .cons _ _ v f => Flow.size v + Flow.sizeFields f
  termination_by structural f => f

end

end TypeFlow
