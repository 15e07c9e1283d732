import TypeFlow.Forest.Text

/-!
# Unification

Unifying two terms merges their classes and, slot by slot, those of their children.  It never
fails: types that clash become an error class.  Without a worklist a unification only probes: it
says whether it would change anything and changes nothing.

Main definitions:

- `Unifier`: the forest, the woken nodes and the memory of the call.
- `Unifier.merge`: merges two classes and what is known about them.
- `Unifier.unify`: the unification of two terms.
-/

namespace TypeFlow

/-- What a unification works on. -/
structure Unifier where
  forest : Forest
  /-- The nodes waiting for another step; none while only probing. -/
  work : Option Worklist
  /-- The pairs of classes whose children are being unified. -/
  met : List (TermId × TermId)
  /-- What each class of a definition became in the instance under construction, newest first. -/
  image : List (TermId × TermId)

/-- A unification.  It has no result if it nests deeper than it is allowed to. -/
abbrev UnifyM := StateT Unifier Option

namespace Unifier

/-! ## Access to the forest -/

/-- What a function says of the forest. -/
def view {α : Type} (read : Forest → α) : UnifyM α := fun s => some (read s.forest, s)

/-- Changes the forest. -/
def change (f : Forest → Forest) : UnifyM Unit :=
  fun ⟨forest, work, met, image⟩ => some ((), ⟨f forest, work, met, image⟩)

/-- Runs a computation on the forest. -/
def onForest {α : Type} (run : ForestM α) : UnifyM α :=
  fun ⟨forest, work, met, image⟩ =>
    (run forest).map fun (a, forest) => (a, ⟨forest, work, met, image⟩)

/-- The class of a term. -/
def find (t : TermId) : UnifyM TermId := onForest (Forest.find t)

/-- The class of the child in a slot. -/
def child (t : TermId) (slot : Slot) : UnifyM (Option TermId) := onForest (Forest.child t slot)

/-- The kind of a term. -/
def kindOf (t : TermId) : UnifyM Kind := view (·.kind t)

/-- A fresh term. -/
def alloc (kind : Kind) : UnifyM TermId :=
  fun ⟨forest, work, met, image⟩ =>
    let (t, forest) := forest.alloc kind
    some (t, ⟨forest, work, met, image⟩)

/-- A fresh term with the kind, registered nodes and input mark of another. -/
def copy (t : TermId) : UnifyM TermId :=
  fun ⟨forest, work, met, image⟩ =>
    let (c, forest) := forest.add (forest.terms[t]?.getD default)
    some (c, ⟨forest, work, met, image⟩)

/-- Nothing is to be changed. -/
def isProbe : UnifyM Bool := fun s => some (s.work.isNone, s)

/-- Announces the nodes registered with any class reachable from a term. -/
def wake (t : TermId) : UnifyM Unit :=
  fun ⟨forest, work, met, image⟩ => some ((), ⟨forest, work.map (forest.wake t), met, image⟩)

/-- The error of two types that do not match. -/
def mismatch (a b : TermId) : UnifyM TypeError :=
  view fun f => .mismatch (f.render a) (f.render b)

/-! ## Merging classes -/

/-- Makes one class a link to another, without waking anyone. -/
def redirect (loser winner : TermId) : UnifyM Bool := do
  if loser = winner then return false
  change (·.link loser winner)
  return true

/-- Merges one class into another whose kind is settled, waking the nodes of both. -/
def settle (loser winner : TermId) : UnifyM Bool := do
  if loser = winner then return false
  if ← isProbe then return true
  if ← view (·.isInput loser) then change (·.widenInputs winner)
  wake winner
  wake loser
  redirect loser winner

/-- Makes two classes one error. -/
def clash (a b : TermId) (cause : TypeError) : UnifyM Bool := do
  let _ ← settle a (← alloc (.error cause))
  let error ← find a
  let b ← find b
  let _ ← settle b error
  return true

/-- The kind of a class that takes in another, or nothing if the two do not match.  The children
are those of the winner. -/
def mergedKind (loser winner : Kind) : Option Kind :=
  match loser, winner with
  | .var, k => some k
  | .nilable _, .nilable inner => some (.nilable inner)
  | .error cause, _ => some (.error cause)
  | k, .var => some k
  | .base a, .base b => if a.sameKind b then some (.base (a.meet b)) else none
  | .function _ _ s n, .function args ret t m =>
    some (.function args ret (s.union t) (n || m))
  | .record _ s o n, .record fields t p m =>
    some (.record fields (s.union t) (o && p) (n || m))
  | _, _ => none

/-- Merges one class into another, together with what is known about it. -/
def merge (loser winner : TermId) : UnifyM Bool := do
  if loser = winner then return false
  if ← isProbe then return true
  let kind ← kindOf winner
  if kind.isError then settle loser winner
  else
    match mergedKind (← kindOf loser) kind with
    | none => clash loser winner (← mismatch loser winner)
    | some kind =>
      change (·.setKind winner kind)
      settle loser winner

/-! ## Fields of records -/

/-- Adds a field to a record, handing it the record's registered nodes. -/
def addField (t : TermId) (label : String) (value : TermId) : UnifyM Bool := do
  if (← kindOf t).isRecord then
    change (·.setChild t (.field label) value)
    change fun f => f.addDeps value (f.deps t).toList
    wake t
    return true
  else return false

/-- Drops a field from a record, waking its nodes. -/
def dropField (t : TermId) (label : String) : UnifyM Bool := do
  wake t
  match ← kindOf t with
  | .record fields sites isOpen nil =>
    if (fields.find? label).isSome then
      change (·.setKind t (.record (fields.erase label) sites isOpen nil))
      return true
    else return false
  | _ => return false

/-! ## Structural unification -/

/-- Of two classes without children, the loser and the winner of their merge.  Errors win over base
types, and those over all else; of two alike the older wins unless the first is the younger. -/
def ranked (a b : TermId) (ka kb : Kind) : TermId × TermId :=
  if ka.shape = kb.shape && a < b then (b, a)
  else if ka.isError || (!kb.isError && ka.isBase) then (b, a)
  else (a, b)

/-- Unifies the children in the given slots of `this` with those of `that`, adding to an open
record what it lacks.  Stops when one of the two has become an error.  Answers both classes and
whether anything changed. -/
def unifySlots (rec : TermId → TermId → UnifyM Bool) :
    List Slot → TermId → TermId → Bool → UnifyM (TermId × TermId × Bool)
  | [], this, that, progress => return (this, that, progress)
  | slot :: rest, this, that, progress => do
    match ← child this slot with
    | none => unifySlots rec rest this that progress
    | some lhs =>
      let changed ← do
        match ← child that slot, slot with
        | some rhs, _ => rec lhs rhs
        | none, .field label =>
          if (← kindOf that).isOpen then addField that label lhs else pure false
        | none, _ => pure false
      let this ← find this
      let that ← find that
      if (← kindOf this).isError || (← kindOf that).isError then
        return (this, that, progress || changed)
      unifySlots rec rest this that (progress || changed)

/-- Settles the labels that `that` has and `this` lacks: an open `this` gains the field, else `that`
loses it. -/
def balanceLabels (this that : TermId) : List String → Bool → UnifyM Bool
  | [], progress => return progress
  | label :: rest, progress => do
    if (((← kindOf this).child? (.field label)).isSome) then balanceLabels this that rest progress
    else
      let changed ← do
        if (← kindOf this).isOpen then
          match ← child that (.field label) with
          | some rhs => addField this label rhs
          | none => pure false
        else dropField that label
      balanceLabels this that rest (progress || changed)

/-- Unifies two classes of one shape slot by slot and merges them. -/
def unifyChildren (rec : TermId → TermId → UnifyM Bool) (a b : TermId) : UnifyM Bool := do
  let slots ← view fun f => (f.kind a).slots
  let (this, that, progress) ← unifySlots rec slots a b false
  let failed := (← kindOf this).isError || (← kindOf that).isError
  let progress ← do
    if failed then pure progress
    else balanceLabels this that (← kindOf that).labels progress
  let merged ← do
    if (← kindOf this).isError && !(← kindOf that).isError then
      wake that
      redirect that this
    else merge this that
  return merged || progress

/-- Unifies a nilable wrapper with what is neither nilable nor a variable: the wrapper's variable
becomes a copy without nil, and the other joins the wrapper, which thereby is a copy with nil. -/
def unifyNilable (rec : TermId → TermId → UnifyM Bool) (wrapper that : TermId) : UnifyM Bool := do
  if ← isProbe then return true
  match ← child wrapper .inner with
  | none => return false
  | some inner =>
    if !(← kindOf inner).isVar then rec inner that
    else
      let c ← copy that
      change fun f => f.setKind c (f.kind c).withoutNil
      wake inner
      let merged ← merge inner c
      let nilable ← find wrapper
      wake that
      let joined ← redirect that nilable
      return merged || joined

/-- One layer of unification: `rec` unifies children. -/
def unifyStep (rec : TermId → TermId → UnifyM Bool) (a b : TermId) : UnifyM Bool := do
  let a ← find a
  let b ← find b
  if a = b then return false
  let ka ← kindOf a
  let kb ← kindOf b
  if ka.slots.isEmpty && kb.slots.isEmpty then
    let (loser, winner) := ranked a b ka kb
    merge loser winner
  else if ka.isVar || kb.isError then merge a b
  else if kb.isVar || ka.isError then merge b a
  else if ka.isNilable && !kb.isNilable then unifyNilable rec a b
  else if kb.isNilable && !ka.isNilable then unifyNilable rec b a
  else if ← (fun s => some (s.met.contains (a, b), s)) then return false
  else
    modify fun s => { s with met := (a, b) :: s.met }
    if ← isProbe then return true
    if ka.shape ≠ kb.shape then clash a b (← mismatch a b)
    else unifyChildren rec a b

/-- A nesting far beyond that of any type a program builds. -/
def depthLimit : Nat := 10000

/-- Unification that nests less than `depth` times, past the pairs met already. -/
def unifyWithin : Nat → TermId → TermId → UnifyM Bool
  | 0, _, _ => failure
  | depth + 1, a, b => unifyStep (unifyWithin depth) a b

/-- Unifies two terms and answers whether anything changed, or would change in a probe. -/
def unify (depth : Nat) (a b : TermId) : UnifyM Bool := do
  let a ← find a
  let b ← find b
  if a = b then return false
  modify fun s => { s with met := [] }
  unifyWithin depth a b

end Unifier

end TypeFlow
