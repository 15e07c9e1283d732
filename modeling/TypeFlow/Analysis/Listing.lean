import TypeFlow.Analysis.Basic

/-!
# Listings

A listing has a line for every node, indented below its parent's, with the node's type and flow.
-/

namespace TypeFlow

/-- What a listing shows of a node itself. -/
def NodeKind.label : NodeKind → String
  | const flow => flow.render
  | ident name _ _ _ => name
  | lambda params _ _ _ _ => "\x7b " ++ String.intercalate " " params ++ " -> \x7d"
  | letIn name _ _ _ => name ++ " ="
  | apply _ _ => "(apply)"
  | root _ => "root"
  | record _ labels _ => "@\x7b " ++ String.intercalate ", " labels ++ " \x7d"
  | field label _ => "." ++ label
  | prim primitive _ _ => primitive.shownName

namespace Program

/-- The line of a node at an indentation. -/
def listLine (p : Program) (s : State) (indent : Nat) (id : NodeId) : String :=
  "".pushn ' ' (2 * indent) ++ renderNode id ++ " " ++ (p.kind id).label ++
    "  HMT=" ++ p.renderType s id ++ "  GCP=" ++ (s.flows.ofNode id).render ++ "\n"

/-- The lines of a node and all below it, where the tree is at most `fuel` nodes deep. -/
def listFrom (p : Program) (s : State) : Nat → Nat → NodeId → Option String
  | 0, _, _ => none
  | fuel + 1, indent, id => do
    let below ← (p.kind id).children.mapM (listFrom p s fuel (indent + 1))
    return p.listLine s indent id ++ String.join below

/-- The listing of a program.  No path in a tree has more nodes than there are. -/
def listing? (p : Program) (s : State) : Option String := p.listFrom s (p.size + 1) 0 rootId

end Program

end TypeFlow
