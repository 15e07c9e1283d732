import TypeFlow.Flow.Basic

/-!
# Primitive functions

The functions every program may call.  Each has a name, a number of parameters and a rule for the
flow of its result, which folds constants and otherwise falls to the class of the result.

Main definitions:

- `Primitive.ofName?`: the primitive a name stands for.
- `Primitive.result`: the flow of a call, from the flows of its arguments.
-/

namespace TypeFlow

/-- A primitive function. -/
inductive Primitive
  | cond | pair | triple | eq | eqZero | isEmpty
  /-- The argument, known not to be nil.  No program text names it. -/
  | notNil
  | mul | add | dec | str | factor
  deriving DecidableEq

namespace Primitive

/-- The primitives in their fixed order. -/
def all : List Primitive :=
  [cond, pair, triple, eq, eqZero, isEmpty, notNil, mul, add, dec, str, factor]

/-- The name in a program.  The leading blank of `notNil` keeps it out of program texts. -/
def name : Primitive → String
  | cond => "if"
  | pair => "pair"
  | triple => "triple"
  | eq => "eq"
  | eqZero => "eq0"
  | isEmpty => "isempty"
  | notNil => " notnil"
  | mul => "*"
  | add => "+"
  | dec => "dec"
  | str => "str"
  | factor => "factor"

/-- The name as it is shown. -/
def shownName : Primitive → String
  | notNil => "notnil"
  | p => p.name

/-- The primitive of a name. -/
def ofName? (name : String) : Option Primitive := all.find? fun p => p.name == name

/-- The number of parameters. -/
def arity : Primitive → Nat
  | cond | triple => 3
  | pair | eq | mul | add => 2
  | _ => 1

/-- The constant, if the flow is an integer constant. -/
def intConst? : Flow → Option Int64
  | .int (.const c) => some c
  | _ => none

/-- The flow is an integer flow. -/
def isInt : Flow → Bool
  | .int _ => true
  | _ => false

/-- The branches of a conditional that can run, given its predicate. -/
structure Branches where
  onTrue : Bool
  onFalse : Bool
  deriving DecidableEq

/-- No branch runs before the predicate is known; a predicate known to be true or false leaves
one. -/
def liveBranches (predicate : Flow) : Branches :=
  if predicate.isFalse then ⟨false, true⟩
  else if predicate.isAny then ⟨false, false⟩
  else if !predicate.mayNil then ⟨true, false⟩
  else ⟨true, true⟩

/-- The flow of a conditional: the meet over the branches that can run. -/
def chosen (predicate onTrue onFalse : Flow) : Flow :=
  match liveBranches predicate with
  | ⟨false, false⟩ => .any
  | ⟨false, true⟩ => onFalse
  | ⟨true, false⟩ => onTrue
  | ⟨true, true⟩ => onTrue.meet onFalse

/-- The labels of a tuple's parts. -/
def tupleLabels (count : Nat) : List String := (List.range count).map toString

/-- The flow of a tuple built from the arguments. -/
def tuple (site : SiteId) (args : List Flow) : Flow :=
  .recordAt site (.ofList ((tupleLabels args.length).zip args))

/-- Equal constants are equal; of all else nothing is known. -/
def equality (a b : Flow) : Flow := if a.isConst && a == b then .constTrue else .bool

/-- The test for zero, on what is known about nil. -/
def zeroTest (a : Flow) : Flow :=
  if a.isFalse then .constTrue else if !a.mayNil then .constFalse else .bool

/-- The test for the empty text. -/
def emptyTest : Flow → Flow
  | .text (some s) false => .int (.const (if s.isEmpty then 1 else 0))
  | _ => .bool

/-- The product, where zero times any integer is zero.  Constants wrap at 64 bits. -/
def product (a b : Flow) : Flow :=
  match intConst? a, intConst? b with
  | some x, some y => .int (.const (x * y))
  | some x, none => if x == 0 && isInt b then .int (.const 0) else .int64
  | none, some y => if y == 0 && isInt a then .int (.const 0) else .int64
  | none, none => .int64

/-- The sum.  Constants wrap at 64 bits. -/
def sum (a b : Flow) : Flow :=
  match intConst? a, intConst? b with
  | some x, some y => .int (.const (x + y))
  | _, _ => .int64

/-- One less.  Constants wrap at 64 bits. -/
def predecessor (a : Flow) : Flow :=
  match intConst? a with
  | some x => .int (.const (x - 1))
  | none => .int64

/-- The decimal text of an integer. -/
def decimal (a : Flow) : Flow :=
  match intConst? a with
  | some x => .text (some (toString x.toInt)) false
  | none => .anyText

/-- The rule waits for all its arguments. -/
def isStrict : Primitive → Bool
  | cond | pair | triple | notNil => false
  | _ => true

/-- The flow of a call.  A missing argument counts as any value; `pairSite` and `tripleSite` are
where pairs and triples are said to be built. -/
def result (p : Primitive) (args : List Flow) (pairSite tripleSite : SiteId) : Flow :=
  let arg (i : Nat) : Flow := args[i]?.getD .bottom
  if p.isStrict && (List.range p.arity).any fun i => (arg i).isAny then .any
  else
    match p with
    | cond => chosen (arg 0) (arg 1) (arg 2)
    | pair => tuple pairSite [arg 0, arg 1]
    | triple => tuple tripleSite [arg 0, arg 1, arg 2]
    | notNil => (arg 0).withoutNil
    | eq => equality (arg 0) (arg 1)
    | eqZero => zeroTest (arg 0)
    | isEmpty => emptyTest (arg 0)
    | mul => product (arg 0) (arg 1)
    | add => sum (arg 0) (arg 1)
    | dec => predecessor (arg 0)
    | str => decimal (arg 0)
    | factor => .double

end Primitive

end TypeFlow
