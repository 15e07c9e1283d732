import TypeFlow.Analysis.Listing
import TypeFlow.Analysis.Signature
import TypeFlow.Json.Quoted

/-!
# Reports

A report is what a user is told about a program: the type, the flow and the signature of the whole,
and the statistics of the run.  It is written as text, with a listing of all nodes on demand, or as
JSON.

Main definitions:

- `Report`, `Analysis.report?`: a report and that of an analysis.
- `Report.toText`, `Report.toJson`: its written forms.
-/

namespace TypeFlow

/-- What a user is told about a program. -/
structure Report where
  type : String
  flow : String
  signature : String
  stats : Stats
  /-- A line for every node. -/
  listing : String

/-- The report of an analysis. -/
def Analysis.report? (a : Analysis) : Option Report := do
  let signature ← a.program.signature? a.state.flows
  let listing ← a.program.listing? a.state
  return {
    type := a.program.renderType a.state Program.rootId
    flow := (Program.rootFlow a.state).render
    signature := signature.render
    stats := a.stats
    listing := listing }

namespace Report

/-! ## Text -/

/-- The report as text, with the listing if it is asked for. -/
def toText (r : Report) (withListing : Bool) : String :=
  "type: " ++ r.type ++ "\n" ++
  "flow: " ++ r.flow ++ "\n" ++
  "sig:  " ++ r.signature ++ "\n" ++
  (if r.stats.converged then "" else "warning: iteration ceiling reached\n") ++
  String.join (r.stats.violations.map fun v => "violation: " ++ v.message ++ "\n") ++
  (if withListing then "nodes:\n" ++ r.listing else "")

/-! ## JSON -/

/-- The line break before a line at a depth. -/
def breakAt (depth : Nat) : String := String.ofList ('\n' :: List.replicate (2 * depth) ' ')

/-- Parts on lines of their own between brackets, which stay together if there are none. -/
def block (opening closing : String) (depth : Nat) (parts : List String) : String :=
  if parts.isEmpty then opening ++ closing
  else
    opening ++ String.intercalate "," (parts.map (breakAt (depth + 1) ++ ·)) ++ breakAt depth ++
      closing

/-- A JSON object at a depth, of written values under their names. -/
def objectAt (depth : Nat) (members : List (String × String)) : String :=
  block "\x7b" "\x7d" depth (members.map fun m => Json.quoted m.1 ++ ": " ++ m.2)

/-- A JSON array at a depth, of written values. -/
def arrayAt (depth : Nat) (items : List String) : String := block "[" "]" depth items

/-- The statistics as JSON. -/
def statsJson (depth : Nat) (s : Stats) : String :=
  objectAt depth [
    ("nodes", toString s.nodes),
    ("initial_terms", toString s.initialTerms),
    ("terms", toString s.terms),
    ("pops", toString s.pops),
    ("widen_rounds", toString s.widenRounds),
    ("converged", if s.converged then "true" else "false"),
    ("violations", arrayAt (depth + 1) (s.violations.map fun v => Json.quoted v.message))]

/-- The report as JSON. -/
def toJson (r : Report) : String :=
  objectAt 0 [
    ("type", Json.quoted r.type),
    ("flow", Json.quoted r.flow),
    ("signature", Json.quoted r.signature),
    ("stats", statsJson 1 r.stats)] ++ "\n"

end Report

end TypeFlow
