import TypeFlow.Flow.Basic
import TypeFlow.Worklist

/-!
# Forest of type terms

Structural types live as terms in one array and are named by their positions.  Merging two classes
of terms makes one of them a link to the other, so a position stays valid for ever and types may
be cyclic.  Each term also lists the tree nodes to revisit when its class changes.

Main definitions:

- `Kind`: the shapes of types.
- `Slot`: the places of children in a term.
- `Forest`: the terms and the number of merges.
- `Forest.rep`: the representative of a term's class.
-/

namespace TypeFlow

/-- Position of a term in its forest. -/
abbrev TermId := Nat

/-- Why a term has no type. -/
inductive TypeError
  /-- Two types that do not match, as they were printed. -/
  | mismatch (left right : String)
  /-- A call with another number of arguments than the function has parameters. -/
  | arity
  /-- A field loaded from what may be nil. -/
  | nilRecord (label : String)
  /-- A field that a record, as it was printed, lacks. -/
  | missingField (label record : String)
  /-- An error given by its text. -/
  | other (text : String)
  deriving DecidableEq

/-- The text of an error. -/
def TypeError.message : TypeError → String
  | mismatch left right => "Cannot unify " ++ left ++ " and " ++ right
  | arity => "Mismatched argument lengths"
  | nilRecord label => "May be nil when loading field " ++ label
  | missingField label record => "Missing field " ++ label ++ " in " ++ record
  | other text => text

/-- The shape of a type, with its children by position. -/
inductive Kind
  /-- A type variable. -/
  | var
  /-- A base type, as precise as a flow. -/
  | base (flow : Flow)
  /-- The inner type or nil.  Looking a class up keeps the inner term a variable. -/
  | nilable (inner : TermId)
  | function (args : List TermId) (ret : TermId) (fids : IdSet) (nil : Bool)
  /-- A record; one that is open may have further fields. -/
  | record (fields : Fields TermId none) (sites : IdSet) (isOpen : Bool) (nil : Bool)
  | error (cause : TypeError)
  /-- Not a class of its own any more. -/
  | link (target : TermId)
  deriving DecidableEq

instance : Inhabited Kind := ⟨.var⟩

/-- A place of a child in a term. -/
inductive Slot
  | arg (index : Nat)
  | ret
  | field (label : String)
  | inner
  deriving DecidableEq

/-- What two terms must share for their children to be unified slot by slot. -/
inductive Shape
  | var
  | base
  | nilable
  | function (arity : Nat)
  | record
  | error
  deriving DecidableEq

namespace Kind

/-- The shape.  Links never stand for a class and count as variables. -/
def shape : Kind → Shape
  | var | link _ => .var
  | base _ => .base
  | nilable _ => .nilable
  | function args _ _ _ => .function args.length
  | record _ _ _ _ => .record
  | error _ => .error

/-- The kind is a type variable. -/
def isVar (k : Kind) : Bool := k matches var

/-- The kind is a base type. -/
def isBase (k : Kind) : Bool := k matches base _

/-- The kind is a nilable wrapper. -/
def isNilable (k : Kind) : Bool := k matches nilable _

/-- The kind is a function. -/
def isFunction (k : Kind) : Bool := k matches function _ _ _ _

/-- The kind is a record. -/
def isRecord (k : Kind) : Bool := k matches record _ _ _ _

/-- The kind is an error. -/
def isError (k : Kind) : Bool := k matches error _

/-- The kind is a link. -/
def isLink (k : Kind) : Bool := k matches link _

/-- The kind is an open record. -/
def isOpen : Kind → Bool
  | record _ _ o _ => o
  | _ => false

/-- The flow of a base type. -/
def baseFlow? : Kind → Option Flow
  | base flow => some flow
  | _ => none

/-- The number of parameters of a function. -/
def arity? : Kind → Option Nat
  | function args _ _ _ => some args.length
  | _ => none

/-- Values of the type may be nil. -/
def mayNil : Kind → Bool
  | base flow => flow.mayNil
  | nilable _ => true
  | function _ _ _ n | record _ _ _ n => n
  | _ => false

/-- The field labels of a record, in order. -/
def labels : Kind → List String
  | record fields _ _ _ => fields.labels
  | _ => []

/-- The occupied slots: arguments and then the result, or the labels in order. -/
def slots : Kind → List Slot
  | nilable _ => [.inner]
  | function args _ _ _ => (List.range args.length).map .arg ++ [.ret]
  | record fields _ _ _ => fields.labels.map .field
  | _ => []

/-- The children in slot order. -/
def children : Kind → List TermId
  | nilable inner => [inner]
  | link target => [target]
  | function args ret _ _ => args ++ [ret]
  | record fields _ _ _ => fields.values
  | _ => []

/-- The children that values are passed in through: all but results. -/
def inputs : Kind → List TermId
  | nilable inner => [inner]
  | function args _ _ _ => args
  | record fields _ _ _ => fields.values
  | _ => []

/-- The child in a slot. -/
def child? : Kind → Slot → Option TermId
  | nilable inner, .inner => some inner
  | function args _ _ _, .arg i => args[i]?
  | function _ ret _ _, .ret => some ret
  | record fields _ _ _, .field l => fields.find? l
  | _, _ => none

/-- The kind with a child put into a slot, if its shape has that slot. -/
def setChild (k : Kind) (slot : Slot) (child : TermId) : Kind :=
  match k, slot with
  | nilable _, .inner => nilable child
  | function args ret fids n, .arg i => function (args.set i child) ret fids n
  | function args _ fids n, .ret => function args child fids n
  | record fields sites o n, .field l =>
    record (fields.insert l (after_none l) child) sites o n
  | k, _ => k

/-- The kind with nil among its values, where that needs no wrapper. -/
def orNil : Kind → Kind
  | base flow => base flow.orNil
  | function args ret fids _ => function args ret fids true
  | record fields sites o _ => record fields sites o true
  | k => k

/-- The kind with nil taken from its values, where that needs no wrapper. -/
def withoutNil : Kind → Kind
  | base flow => base flow.withoutNil
  | function args ret fids _ => function args ret fids false
  | record fields sites o _ => record fields sites o false
  | k => k

end Kind

/-- A term: its kind, the nodes to revisit when its class changes, and whether values from
callers flow into it.  The base types of such inputs are kept widened. -/
structure Term where
  kind : Kind
  deps : OrderedSet NodeId
  isInput : Bool

instance : Inhabited Term := ⟨⟨.var, .empty, false⟩⟩

/-- All terms so far, and how many classes were merged into others. -/
structure Forest where
  terms : Array Term
  unions : Nat

namespace Forest

/-- The forest without terms. -/
def empty : Forest := ⟨#[], 0⟩

instance : Inhabited Forest := ⟨empty⟩

/-- The number of terms, links included. -/
def size (f : Forest) : Nat := f.terms.size

/-- The kind of a term.  A position outside the forest counts as a variable. -/
def kind (f : Forest) (t : TermId) : Kind :=
  match f.terms[t]? with
  | some term => term.kind
  | none => .var

/-- The nodes to revisit when the class of a representative changes. -/
def deps (f : Forest) (t : TermId) : OrderedSet NodeId :=
  match f.terms[t]? with
  | some term => term.deps
  | none => .empty

/-- Values from callers flow into the term. -/
def isInput (f : Forest) (t : TermId) : Bool :=
  match f.terms[t]? with
  | some term => term.isInput
  | none => false

/-- The number of classes among the first terms. -/
def classes (f : Forest) (upto : Nat) : Nat :=
  f.terms.foldl (fun n term => if term.kind.isLink then n else n + 1) 0 0 upto

/-- The forest with one term changed. -/
def update (f : Forest) (t : TermId) (change : Term → Term) : Forest :=
  { f with terms := f.terms.modify t change }

/-- The forest with the kind of a term replaced. -/
def setKind (f : Forest) (t : TermId) (kind : Kind) : Forest :=
  f.update t fun term => { term with kind := kind }

/-- The forest with a child put into a slot of a term. -/
def setChild (f : Forest) (t : TermId) (slot : Slot) (child : TermId) : Forest :=
  f.update t fun term => { term with kind := term.kind.setChild slot child }

/-- The forest with a term added, and its position. -/
def add (f : Forest) (term : Term) : TermId × Forest :=
  (f.terms.size, { f with terms := f.terms.push term })

/-- The forest with a fresh term of a kind added, and its position. -/
def alloc (f : Forest) (kind : Kind) : TermId × Forest :=
  f.add ⟨kind, .empty, false⟩

/-- The end of the links from a term, following at most `fuel` of them. -/
def follow (f : Forest) : Nat → TermId → TermId
  | 0, t => t
  | fuel + 1, t =>
    match f.kind t with
    | .link target => f.follow fuel target
    | _ => t

/-- The representative of a term's class.  Links that do not run in circles end after fewer steps
than there are terms. -/
def rep (f : Forest) (t : TermId) : TermId := f.follow f.terms.size t

end Forest

end TypeFlow
