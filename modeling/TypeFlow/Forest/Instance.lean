import TypeFlow.Forest.Unify

/-!
# Instances of polymorphic types

A use of a definition unifies with a fresh instance of the definition's type.  Classes that occur in
a pinned type, one that an enclosing binder has not finished with, are shared by all uses;
everything else is copied, and only where the use does not have that part already.

Main definitions:

- `Forest.alike`: two terms have the same finite or cyclic structure.
- `Unifier.freshCopy`: the copy of a type around its pinned parts.
- `Unifier.instantiate`: unifies a fresh instance of a definition with a use.
-/

namespace TypeFlow

namespace Forest

/-- Two classes agree apart from their children and the openness of records. -/
def sameNode (a b : Kind) : Bool :=
  match a, b with
  | .base x, .base y => x == y
  | .error x, .error y => x.message == y.message
  | .function args _ s n, .function args' _ t m =>
    s == t && n == m && args.length == args'.length
  | .record _ s _ n, .record _ t _ m => s == t && n == m
  | .nilable _, .nilable _ => true
  | _, _ => false

/-- Whether the children in the given slots are alike, and the pairs compared. -/
def alikeSlots
    (compare : TermId → TermId → List (TermId × TermId) → ForestM (Bool × List (TermId × TermId)))
    (a b : TermId) :
    List Slot → List (TermId × TermId) → ForestM (Bool × List (TermId × TermId))
  | [], seen => return (true, seen)
  | slot :: rest, seen => do
    let ca ← child a slot
    let cb ← child b slot
    match ca, cb with
    | some ca, some cb =>
      match ← compare ca cb seen with
      | (true, seen) => alikeSlots compare a b rest seen
      | (false, seen) => return (false, seen)
    | _, _ => return (false, seen)

/-- Whether two terms are alike, where each class met on the left is taken to be alike to the
class it was first compared with. -/
def alikeFrom :
    Nat → TermId → TermId → List (TermId × TermId) → ForestM (Bool × List (TermId × TermId))
  | 0, _, _, _ => failure
  | fuel + 1, a, b, seen => do
    let a ← find a
    let b ← find b
    if a = b then return (true, seen)
    let ka := (← get).kind a
    let kb := (← get).kind b
    if !sameNode ka kb || ka.slots.length ≠ kb.slots.length then return (false, seen)
    else if ka.slots.isEmpty then return (true, seen)
    else
      match seen.lookup a with
      | some prior => return (prior == b, seen)
      | none => alikeSlots (alikeFrom fuel) a b ka.slots ((a, b) :: seen)

/-- The two terms have the same structure, cycles included. -/
def alike (a b : TermId) : ForestM Bool := do
  let fuel := (← get).size + 1
  return (← alikeFrom fuel a b []).1

end Forest

namespace Unifier

/-- The term occurs in one of several types. -/
def occursInAny (t : TermId) (types : List TermId) : UnifyM Bool :=
  onForest (Forest.occursInAny t types)

/-- What a class of the definition became in the instance. -/
def imageOf (t : TermId) : UnifyM (Option TermId) := fun s => some (s.image.lookup t, s)

/-- Records what a class of the definition became. -/
def setImage (t image : TermId) : UnifyM Unit :=
  modify fun s => { s with image := (t, image) :: s.image }

/-! ## Copies -/

/-- Copies the children of `t` in the given slots into the slots of `c`. -/
def copySlots (duplicate : TermId → UnifyM TermId) (t c : TermId) : List Slot → UnifyM Unit
  | [] => return
  | slot :: rest => do
    match ← child t slot with
    | none => pure ()
    | some x =>
      let y ← duplicate x
      change (·.setChild c slot y)
    copySlots duplicate t c rest

/-- The copy of a term around its pinned parts, through at most `fuel` nested classes. -/
def freshCopyWithin (pinned : List TermId) : Nat → TermId → UnifyM TermId
  | 0, _ => failure
  | fuel + 1, t => do
    let t ← find t
    match ← imageOf t with
    | some c => return c
    | none =>
      if ← occursInAny t pinned then
        setImage t t
        return t
      let c ← copy t
      let kind ← kindOf t
      if kind.isVar then change fun f => f.update c fun term => { term with deps := .empty }
      setImage t c
      copySlots (freshCopyWithin pinned fuel) t c kind.slots
      return c

/-- The copy of a term around its pinned parts.  Each class is copied once, so the copy never nests
deeper than the forest it starts from. -/
def freshCopy (pinned : List TermId) (t : TermId) : UnifyM TermId := do
  let fuel ← view (·.size + 1)
  freshCopyWithin pinned fuel t

/-! ## Instances -/

/-- The kind of a use after taking over function ids, sites and marks of its definition, if that
changes it. -/
def refinedKind? (this that : Kind) : Option Kind :=
  match this, that with
  | .function _ _ s n, .function args ret t m =>
    let fids := s.union t
    let nil := n || m
    if fids ≠ t || nil ≠ m then some (.function args ret fids nil) else none
  | .record _ s o n, .record fields t p m =>
    let sites := s.union t
    let isOpen := o && p
    let nil := n || m
    if sites ≠ t || isOpen ≠ p || nil ≠ m then some (.record fields sites isOpen nil) else none
  | _, _ => none

/-- Hands function ids, sites and marks of a definition to its use. -/
def refine (this that : TermId) : UnifyM Bool := do
  match refinedKind? (← kindOf this) (← kindOf that) with
  | none => return false
  | some kind =>
    if ← isProbe then return true
    change (·.setKind that kind)
    wake that
    return true

/-- Makes the use an error, since it does not match the definition. -/
def reject (rec : TermId → TermId → UnifyM Bool) (this that : TermId) : UnifyM Bool := do
  if ← isProbe then return true
  let error ← alloc (.error (← mismatch this that))
  let progress ← rec that error
  setImage this that
  return progress

/-- A base type of the definition against one of the use. -/
def instantiateBase (rec : TermId → TermId → UnifyM Bool) (this that : TermId) (a b : Flow) :
    UnifyM Bool := do
  if !a.sameKind b then reject rec this that
  else if a.meet b = b then
    setImage this that
    return false
  else if ← isProbe then return true
  else
    change (·.setKind that (.base (a.meet b)))
    wake that
    setImage this that
    return true

/-- A nilable definition against a use that is no wrapper: the use is marked nilable. -/
def instantiateNilable (that : TermId) : UnifyM Bool := do
  if (← kindOf that).mayNil then return false
  if ← isProbe then return true
  change fun f => f.setKind that (f.kind that).orNil
  wake that
  return true

/-- A definition that is no wrapper against a nilable use: the use's inner type takes the part of
the definition without nil. -/
def instantiateInner (inst : TermId → TermId → UnifyM Bool) (this that : TermId) :
    UnifyM Bool := do
  if ← isProbe then return true
  let source ← do
    if (← kindOf this).mayNil then
      let c ← copy this
      change fun f => f.setKind c (f.kind c).withoutNil
      pure c
    else pure this
  match ← child that .inner with
  | none => return false
  | some inner =>
    let progress ← inst source inner
    if source ≠ this then setImage this that
    return progress

/-- How far the slots of a definition got with its use. -/
inductive SlotOutcome
  /-- The call ends here, having changed something. -/
  | finished
  /-- All slots are done; `missing` says that the label sets differ. -/
  | ongoing (that : TermId) (progress missing : Bool)

/-- A field of the definition that the use lacks.  An open use gains a copy; if only the definition
is open the field does not exist and becomes an error on both sides. -/
def instantiateMissing (inst : TermId → TermId → UnifyM Bool) (pinned : List TermId)
    (this that lhs : TermId) (label : String) : UnifyM (Option Bool) := do
  if (← kindOf that).isOpen then
    if ← isProbe then return none
    let c ← freshCopy pinned lhs
    return some (← addField that label c)
  else if (← kindOf this).isOpen then
    if ← isProbe then return none
    let error ← alloc (.error (← view fun f => .missingField label (f.render that)))
    let changed ← inst lhs error
    let added ← addField that label error
    return some (changed || added)
  else return some false

/-- Instantiates the children in the given slots of a definition. -/
def instantiateSlots (inst : TermId → TermId → UnifyM Bool) (pinned : List TermId)
    (this : TermId) : List Slot → TermId → Bool → Bool → UnifyM SlotOutcome
  | [], that, progress, missing => return .ongoing that progress missing
  | slot :: rest, that, progress, missing => do
    match ← child this slot with
    | none => instantiateSlots inst pinned this rest that progress missing
    | some lhs =>
      let rhs? ← child that slot
      let changed? ← do
        match rhs?, slot with
        | some rhs, _ => pure (some (← inst lhs rhs))
        | none, .field label => instantiateMissing inst pinned this that lhs label
        | none, _ => pure (some false)
      match changed? with
      | none => return .finished
      | some changed =>
        let progress := progress || changed
        let that ← find that
        if (← kindOf that).isError then return .finished
        if progress && (← isProbe) then return .finished
        instantiateSlots inst pinned this rest that progress (missing || rhs?.isNone)

/-- Drops from the use the fields that a closed definition lacks, errors excepted. -/
def dropExtra (this that : TermId) : List String → Bool → UnifyM (Option Bool)
  | [], progress => return some progress
  | label :: rest, progress => do
    if ((← kindOf this).child? (.field label)).isSome then dropExtra this that rest progress
    else
      let keep ← do
        match ← child that (.field label) with
        | some t => pure (← kindOf t).isError
        | none => pure false
      if keep then dropExtra this that rest progress
      else if ← isProbe then return none
      else
        let changed ← dropField that label
        dropExtra this that rest (progress || changed)

/-- A definition against a use of the same shape. -/
def instantiateChildren (inst : TermId → TermId → UnifyM Bool) (pinned : List TermId)
    (this that : TermId) : UnifyM Bool := do
  let slots ← view fun f => (f.kind this).slots
  let others ← view fun f => (f.kind that).slots
  if slots.isEmpty && others.isEmpty then
    setImage this that
    return false
  setImage this that
  match ← instantiateSlots inst pinned this slots that false (slots.length ≠ others.length) with
  | .finished => return true
  | .ongoing that progress missing =>
    let progress? ← do
      if missing && !(← kindOf this).isOpen && (← kindOf that).isRecord then
        dropExtra this that (← kindOf that).labels progress
      else pure (some progress)
    match progress? with
    | none => return true
    | some progress =>
      let refined ← refine this that
      return progress || refined

/-- One layer of instantiation: `inst` instantiates children and `rec` unifies. -/
def instantiateStep (inst rec : TermId → TermId → UnifyM Bool) (pinned : List TermId)
    (this that : TermId) : UnifyM Bool := do
  let this ← find this
  let that ← find that
  match ← imageOf this with
  | some prior =>
    let prior ← find prior
    rec prior that
  | none =>
    if ← onForest (Forest.alike this that) then
      setImage this that
      return false
    if (← kindOf that).isError then
      setImage this that
      return false
    if ← (do if (← kindOf this).isError then pure true else occursInAny this pinned) then
      let progress ← rec this that
      setImage this that
      return progress
    let kthis ← kindOf this
    let kthat ← kindOf that
    if kthis.isVar then
      setImage this that
      return false
    if kthat.isVar then
      if ← isProbe then return true
      let c ← freshCopy pinned this
      let progress ← merge that c
      setImage this that
      return progress
    match kthis.baseFlow?, kthat.baseFlow? with
    | some a, some b => instantiateBase rec this that a b
    | _, _ =>
      if kthis.isNilable && !kthat.isNilable then instantiateNilable that
      else if kthat.isNilable && !kthis.isNilable then instantiateInner inst this that
      else if kthis.shape ≠ kthat.shape then reject rec this that
      else instantiateChildren inst pinned this that

/-- Instantiation that nests less than `depth` times, past the classes that have an image. -/
def instantiateWithin (pinned : List TermId) : Nat → TermId → TermId → UnifyM Bool
  | 0, _, _ => failure
  | depth + 1, this, that =>
    instantiateStep (instantiateWithin pinned depth) (unifyWithin depth) pinned this that

/-- Unifies a fresh instance of a definition with a use, around the pinned types, and answers
whether anything changed, or would change in a probe. -/
def instantiate (depth : Nat) (definition use : TermId) (pinned : List TermId) : UnifyM Bool := do
  modify fun s => { s with met := [], image := [] }
  instantiateWithin pinned depth definition use

end Unifier

end TypeFlow
