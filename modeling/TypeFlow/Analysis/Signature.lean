import TypeFlow.Flow.Text
import TypeFlow.Program.Basic

/-!
# Signatures

The signature of a program is its flow with every function replaced by what it returns.  A function
that returns itself is named the second time, so a signature is always finite.

Main definitions:

- `Signature`: a flow with its functions expanded.
- `Program.signature?`: the signature of a program.
- `Signature.render`: the written form.
-/

namespace TypeFlow

/-- A flow with its functions expanded. -/
inductive Signature
  | value (flow : Flow)
  /-- One of a set of functions, with what they return. -/
  | function (fids : IdSet) (ret : Signature)
  | record (fields : Fields Signature none) (nil : Bool)

/-! ## Functions in flows -/

mutual

/-- The functions described anywhere in a flow. -/
def Flow.allFunctions : Flow → IdSet
  | .function fids _ => fids
  | .record _ (some fields) _ => Flow.allFunctionsIn fields
  | _ => .empty
  termination_by structural flow => flow

/-- The functions described anywhere in the entries. -/
def Flow.allFunctionsIn {bound : Option String} : Fields Flow bound → IdSet
  | .nil => .empty
  | .cons _ _ flow rest => (Flow.allFunctions flow).union (Flow.allFunctionsIn rest)
  termination_by structural fields => fields

end

/-- The functions described anywhere in the flows of nodes. -/
def Flows.allFunctions (w : Flows) : IdSet :=
  w.nodes.foldl (fun fids flow => fids.union flow.allFunctions) .empty

/-! ## Expansion -/

mutual

/-- A flow with its functions expanded in a given way. -/
def Signature.ofFlow? (expand : IdSet → Bool → Option Signature) : Flow → Option Signature
  | .function fids nil => expand fids nil
  | .record _ (some fields) nil => do
    let fields ← Signature.ofFields? expand fields
    return .record fields nil
  | flow => some (.value flow)
  termination_by structural flow => flow

/-- The entries with their functions expanded in a given way. -/
def Signature.ofFields? (expand : IdSet → Bool → Option Signature) {bound : Option String} :
    Fields Flow bound → Option (Fields Signature bound)
  | .nil => some .nil
  | .cons label h flow rest => do
    let part ← Signature.ofFlow? expand flow
    let rest ← Signature.ofFields? expand rest
    return .cons label h part rest
  termination_by structural fields => fields

end

namespace Program

/-- What a call from outside to a function returns. -/
def returns (p : Program) (flows : Flows) (fid : FunctionId) : Flow :=
  match p.functionNode? fid with
  | none => .bottom
  | some node =>
    match p.kind node with
    | .lambda _ body _ _ _ => flows.ofNode body
    | .prim primitive _ _ => primitive.result [] pairSite tripleSite
    | _ => .bottom

/-- What a call from outside to one of several functions returns. -/
def returnsOfAny (p : Program) (flows : Flows) (fids : IdSet) : Flow :=
  fids.toList.foldl (fun flow fid => flow.meet (p.returns flows fid)) .any

/-- The signature of a flow, through at most `fuel` nested function sets.  The sets in `active` are
being expanded around it. -/
def signatureWithin (p : Program) (flows : Flows) : Nat → List IdSet → Flow → Option Signature
  | 0, _, _ => none
  | fuel + 1, active, flow =>
    Signature.ofFlow? (fun fids nil =>
      if active.contains fids then some (.value (.function fids nil))
      else do
        let ret ← signatureWithin p flows fuel (fids :: active) (p.returnsOfAny flows fids)
        return .function fids ret) flow

/-- The signature of a program.  The function sets around a place in it all differ, and they are
sets of functions in the flows of nodes. -/
def signature? (p : Program) (flows : Flows) : Option Signature :=
  p.signatureWithin flows (Nat.pow 2 flows.allFunctions.toList.length + 1) [] (flows.ofNode rootId)

end Program

/-! ## Text -/

mutual

/-- The written form. -/
def Signature.render : Signature → String
  | .value flow => flow.render
  | .function _ ret => "\x7b -> " ++ Signature.render ret ++ " \x7d"
  | .record fields nil =>
    let parts := Signature.renderFields fields
    let layout :=
      if isTuple fields.labels then "(" ++ String.intercalate ", " (parts.map Prod.snd) ++ ")"
      else "@\x7b " ++ String.intercalate "; " (parts.map fun p => p.1 ++ " = " ++ p.2) ++ " \x7d"
    layout ++ nilMark nil
  termination_by structural s => s

/-- The labels with the written forms of their signatures. -/
def Signature.renderFields {bound : Option String} :
    Fields Signature bound → List (String × String)
  | .nil => []
  | .cons label _ s rest => (label, Signature.render s) :: Signature.renderFields rest
  termination_by structural fields => fields

end

end TypeFlow
