import TypeFlow.Forest.Basic

/-!
# Reachable classes

Types may be cyclic, so everything that walks a type remembers the classes it has met.  A walk
visits every reachable class once, parents before their children.

Main definitions:

- `Forest.reach`: the classes reachable from a term.
- `Forest.addDeps`: registers nodes with every reachable class.
- `Forest.wake`: announces the nodes registered with any reachable class.
- `Forest.widenInputs`: marks a type as an input and widens its base types.
-/

namespace TypeFlow

namespace Forest

/-- The classes met so far, newest first, with those added that `t` leads to.  `next` gives the
children a walk goes on to. -/
def reachFrom (f : Forest) (next : Kind → List TermId) :
    Nat → TermId → List TermId → List TermId
  | 0, _, seen => seen
  | fuel + 1, t, seen =>
    let r := f.rep t
    if seen.contains r then seen
    else (next (f.kind r)).foldl (fun seen child => reachFrom f next fuel child seen) (r :: seen)

/-- The classes that a walk along `next` meets, in the order it meets them.  Each class is entered
once, so no path of the walk is longer than the forest. -/
def reachBy (f : Forest) (next : Kind → List TermId) (t : TermId) : List TermId :=
  (f.reachFrom next (f.size + 1) t []).reverse

/-- The classes reachable from a term. -/
def reach (f : Forest) (t : TermId) : List TermId := f.reachBy Kind.children t

/-- The forest with nodes registered with every class reachable from a term. -/
def addDeps (f : Forest) (t : TermId) (nodes : List NodeId) : Forest :=
  if nodes.isEmpty then f
  else (f.reach t).foldl
    (fun f r => f.update r fun term => { term with deps := term.deps.insertAll nodes }) f

/-- The worklist with the nodes added that are registered with a class reachable from a term. -/
def wake (f : Forest) (t : TermId) (work : Worklist) : Worklist :=
  (f.reach t).foldl (fun work r => work.pushAll (f.deps r).toList) work

/-- The forest with every class that takes values in through a term marked as an input, and their
base types widened to their classes. -/
def widenInputs (f : Forest) (t : TermId) : Forest :=
  (f.reachBy Kind.inputs t).foldl
    (fun f r => f.update r fun term =>
      { term with
        isInput := true
        kind := match term.kind with
          | .base flow => .base flow.widen
          | k => k })
    f

/-- A fresh function type.  If callers outside are to be expected its parameters are inputs. -/
def allocFunction (f : Forest) (input : Bool) (fids : IdSet) (args : List TermId) (ret : TermId) :
    TermId × Forest :=
  let f := if input then args.foldl widenInputs f else f
  f.alloc (.function args ret fids false)

/-- The forest with the class of `loser` merged into that of `winner`, which takes over its
registered nodes. -/
def link (f : Forest) (loser winner : TermId) : Forest :=
  let moved := (f.deps loser).toList
  let f := f.update loser fun term => { term with deps := .empty }
  let f := f.addDeps winner moved
  let f := f.update loser fun term => { term with kind := .link winner, isInput := false }
  { f with unions := f.unions + 1 }

end Forest

end TypeFlow
