import TypeFlow.Expr.Parser
import TypeFlow.Program.Build
import TypeFlow.Program.Fixpoint

/-!
# Analysing a program

An analysis is a prepared program with all that a run found out about it.

Main definitions:

- `Analysis`: the program, its types and flows, and the statistics of the run.
- `Expr.analyze`, `analyze`: the analysis of an expression and of a program text.
-/

namespace TypeFlow

/-- Why there is no analysis. -/
inductive AnalysisError
  /-- The text is no program. -/
  | parse (cause : ParseError)
  /-- A name has no binding. -/
  | undefined (name : String)
  /-- A type nests in a way that cannot be followed. -/
  | nesting
  deriving DecidableEq

/-- The error of a program that cannot be prepared. -/
def AnalysisError.ofBuild : BuildError → AnalysisError
  | .undefined name => undefined name
  | .nesting => nesting

/-- The text of an error. -/
def AnalysisError.message : AnalysisError → String
  | parse cause => "parse error: " ++ cause.message
  | undefined name => (BuildError.undefined name).message
  | nesting => BuildError.nesting.message

/-- The text of the error below an error, where there is one. -/
def AnalysisError.source? : AnalysisError → Option String
  | parse cause => some cause.message
  | undefined _ | nesting => none

/-- A prepared program with all that a run found out about it. -/
structure Analysis where
  program : Program
  state : State
  stats : Stats

/-- The analysis of an expression. -/
def Expr.analyze (e : Expr) (settings : Settings) : Except AnalysisError Analysis :=
  match Program.build e settings with
  | .error cause => .error (.ofBuild cause)
  | .ok (p, s) =>
    match p.run s with
    | some (stats, s) => .ok ⟨p, s, stats⟩
    | none => .error .nesting

/-- The analysis of a program text. -/
def analyze (source : String) (settings : Settings) : Except AnalysisError Analysis :=
  match Expr.parse source with
  | .error cause => .error (.parse cause)
  | .ok e => e.analyze settings

namespace Program

/-- The written form of a node's type. -/
def renderType (p : Program) (s : State) (id : NodeId) : String := s.forest.render (p.node id).type

/-- The flow of the whole program. -/
def rootFlow (s : State) : Flow := s.flows.ofNode rootId

end Program

end TypeFlow
