import TypeFlow.Forest.Reach

/-!
# Looking classes up

A look-up answers the representative of a class and tidies on its way: links are shortened, and a
nilable wrapper whose inner type has become known takes that type over.  Everything here merges no
classes and adds no terms.

Main definitions:

- `Forest.find`: the tidying look-up.
- `Forest.child`: the class of a child.
- `Forest.occursIn`, `Forest.occursInAny`: the occurs checks.
-/

namespace TypeFlow

/-- A computation on a forest.  It has no result when wrappers are nested in a circle. -/
abbrev ForestM := StateT Forest Option

namespace Forest

/-- The forest with the links on the way from a term to its representative shortened. -/
def compress (root : TermId) : Nat → TermId → Forest → Forest
  | 0, _, f => f
  | fuel + 1, t, f =>
    if t = root then f
    else
      match f.kind t with
      | .link target => compress root fuel target (f.setKind t (.link root))
      | _ => f

/-- The forest with a wrapper's inner class looked up: if it is still a variable the wrapper stays,
else the wrapper becomes a nilable copy of it. -/
def absorb (wrapper inner : TermId) (f : Forest) : Forest :=
  match f.kind inner with
  | .var => f.setKind wrapper (.nilable inner)
  | .link _ => f
  | k => (f.setKind wrapper k.orNil).addDeps wrapper (f.deps inner).toList

/-- The tidying look-up through at most `fuel` nested wrappers. -/
def findFrom : Nat → TermId → ForestM TermId
  | 0, _ => failure
  | fuel + 1, t => do
    let root := (← get).rep t
    modify fun f => f.compress root f.size t
    match (← get).kind root with
    | .nilable inner => do
      let inner ← findFrom fuel inner
      modify (absorb root inner)
      return root
    | _ => return root

/-- The representative of a term's class, with links shortened and wrappers collapsed. -/
def find (t : TermId) : ForestM TermId := do findFrom ((← get).size + 1) t

/-- The class of the child in a slot, remembered in the slot. -/
def child (t : TermId) (slot : Slot) : ForestM (Option TermId) := do
  match ((← get).kind t).child? slot with
  | none => return none
  | some raw =>
    let found ← find raw
    if found ≠ raw then modify fun f => f.setChild t slot found
    return some found

/-- The classes of several terms in turn. -/
def findAll : List TermId → ForestM (List TermId)
  | [] => return []
  | t :: rest => do
    let r ← find t
    return r :: (← findAll rest)

/-- Whether a walk from one of several terms meets the class of `t`, and the classes met. -/
def anyOccurs (walk : TermId → List TermId → ForestM (Bool × List TermId)) :
    List TermId → List TermId → ForestM (Bool × List TermId)
  | [], seen => return (false, seen)
  | x :: rest, seen => do
    match ← walk x seen with
    | (true, seen) => return (true, seen)
    | (false, seen) => anyOccurs walk rest seen

/-- Whether a walk from `x` meets the class `t`, past the classes already met. -/
def occursFrom (t : TermId) : Nat → TermId → List TermId → ForestM (Bool × List TermId)
  | 0, _, _ => failure
  | fuel + 1, x, seen => do
    let x ← find x
    if x = t then return (true, seen)
    else if seen.contains x then return (false, seen)
    else anyOccurs (occursFrom t fuel) ((← get).kind x).children (x :: seen)

/-- The term occurs in one of several types. -/
def occursInAny (t : TermId) (types : List TermId) : ForestM Bool := do
  let t ← find t
  let fuel := (← get).size + 1
  return (← anyOccurs (occursFrom t fuel) types []).1

/-- The term occurs in a type. -/
def occursIn (t within : TermId) : ForestM Bool := occursInAny t [within]

end Forest

end TypeFlow
