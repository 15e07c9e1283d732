import TypeFlow.Flow.Text
import TypeFlow.Forest.Find

/-!
# Text of a type

Variables are named `A`, `B`, ... in the order they are met.  A compound class that is met more than
once is introduced by its name and a colon and named alone from then on, which also cuts cycles.

Main definitions:

- `Forest.shared`: the classes met more than once.
- `Forest.render?`, `Forest.render`: the written form.
-/

namespace TypeFlow

namespace Forest

/-- Classes met in a walk, and those of them met again. -/
structure Meetings where
  once : List TermId
  again : List TermId

/-- The meetings of a walk, going on from `t`. -/
def meetFrom (f : Forest) : Nat → TermId → Meetings → Meetings
  | 0, _, m => m
  | fuel + 1, t, m =>
    let r := f.rep t
    if m.once.contains r then
      { m with again := if m.again.contains r then m.again else r :: m.again }
    else (f.kind r).children.foldl (fun m child => meetFrom f fuel child m)
      { m with once := r :: m.once }

/-- The classes that the walk from a term meets more than once. -/
def shared (f : Forest) (t : TermId) : List TermId := (f.meetFrom (f.size + 1) t ⟨[], []⟩).again

/-- The name with a number: letters first, then letters with a count. -/
def typeName (index : Nat) : String :=
  let letter := Char.ofNat ('A'.toNat + index % 26)
  letter.toString ++ (if index / 26 = 0 then "" else toString (index / 26))

/-- What was written so far: the classes named, oldest first, and those introduced. -/
structure Naming where
  named : List TermId
  introduced : List TermId

/-- Writing gives up only on a walk longer than the forest. -/
abbrev WriteM := StateT Naming Option

/-- The name of a class, a new one at its first use. -/
def nameOf (t : TermId) : WriteM String :=
  modifyGet fun s =>
    let index := s.named.idxOf t
    (typeName index, if index < s.named.length then s else { s with named := s.named ++ [t] })

/-- The written forms of several terms. -/
def renderEach (write : TermId → WriteM String) : List TermId → WriteM (List String)
  | [] => return []
  | t :: rest => do
    let text ← write t
    return text :: (← renderEach write rest)

/-- The written form of a compound class itself. -/
def renderBody (write : TermId → WriteM String) : Kind → WriteM String
  | .nilable inner => return (← write inner) ++ "?"
  | .function args ret _ nil => do
    let args ← renderEach write args
    let ret ← write ret
    return "\x7b " ++ String.join (args.map (· ++ " ")) ++ "-> " ++ ret ++ " \x7d" ++ nilMark nil
  | .record fields _ isOpen nil => do
    let parts ← renderEach write fields.values
    if isTuple fields.labels then
      return "(" ++ String.intercalate ", " parts ++ (if isOpen then ", ..." else "") ++ ")"
        ++ nilMark nil
    else
      let entries := List.zipWith (fun l p => l ++ " = " ++ p) fields.labels parts
      let entries := if isOpen then entries ++ ["..."] else entries
      return "@\x7b" ++ (if entries.isEmpty then "" else " " ++ String.intercalate "; " entries)
        ++ " \x7d" ++ nilMark nil
  | _ => return ""

/-- The written form of a term on a walk of at most `fuel` steps. -/
def renderFrom (f : Forest) (shared : List TermId) : Nat → TermId → WriteM String
  | 0, _ => failure
  | fuel + 1, t => do
    let r := f.rep t
    match f.kind r with
    | .var | .link _ => nameOf r
    | .base flow => return flow.render
    | .error cause => return cause.message
    | k =>
      if shared.contains r then
        let name ← nameOf r
        if (← get).introduced.contains r then return name
        modify fun s => { s with introduced := r :: s.introduced }
        return name ++ ":" ++ (← renderBody (renderFrom f shared fuel) k)
      else renderBody (renderFrom f shared fuel) k

/-- The written form of a type. -/
def render? (f : Forest) (t : TermId) : Option String :=
  ((f.renderFrom (f.shared t) (f.size + 1) t).run ⟨[], []⟩).map Prod.fst

/-- The written form of a type.  Types whose links do not run in circles always have one. -/
def render (f : Forest) (t : TermId) : String := (f.render? t).getD ""

end Forest

end TypeFlow
