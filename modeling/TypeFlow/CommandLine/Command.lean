import TypeFlow.Analysis.Report
import TypeFlow.CommandLine.FileTree
import TypeFlow.CommandLine.Options
import TypeFlow.Settings.Reader

/-!
# Commands

A command reads a program and its settings, analyses the program and writes the report.  What it
needs from outside, it is given: the arguments, the standard input and the contents of files.

Main definitions:

- `Failure`: why a command ends without a report.
- `Outcome`: what a command leaves behind.
- `execute`: the outcome of a command.
-/

namespace TypeFlow

/-- What a command can see of the world around it. -/
structure Surroundings where
  /-- The standard input. -/
  input : Except ReadError String
  /-- The content of a file. -/
  file : String → Except ReadError String

/-- The surroundings of a command that stands in a folder held in memory. -/
def Surroundings.ofFolder (input : String) (p : WorkingFolder) : Surroundings := ⟨.ok input, p.read⟩

/-- Why a command ends without a report. -/
inductive Failure
  | unreadable (path : String) (cause : ReadError)
  | unreadableInput (cause : ReadError)
  /-- The text of a file does not spell settings. -/
  | badSettings (path : String)
  | noAnalysis (cause : AnalysisError)

namespace Failure

/-- What was being done. -/
def context : Failure → String
  | unreadable path _ => "reading " ++ path
  | unreadableInput _ => "reading stdin"
  | badSettings path => "parsing " ++ path
  | noAnalysis _ => "inference failed"

/-- What went wrong, and then what lies below that. -/
def causes : Failure → List String
  | unreadable _ cause | unreadableInput cause => [cause.reason]
  | badSettings _ => ["not a valid configuration"]
  | noAnalysis cause => cause.message :: cause.source?.toList

/-- The lines of causes; several are numbered. -/
def causeLines : List String → List String
  | [cause] => ["    " ++ cause]
  | causes => causes.mapIdx fun i cause => "    " ++ toString i ++ ": " ++ cause

/-- The text of a failure. -/
def render (f : Failure) : String :=
  "Error: " ++ f.context ++ "\n\nCaused by:\n" ++
    String.intercalate "\n" (causeLines f.causes) ++ "\n"

end Failure

/-- What a command leaves behind. -/
structure Outcome where
  code : Nat
  output : String
  errors : String

/-- The summary of the arguments. -/
def usage : String :=
  String.join ([
    "Usage: [OPTIONS] [FILE]",
    "  FILE                  the program; without one it is read from the standard input",
    "  -e, --expr TEXT       the program itself",
    "  --json                write the report as JSON",
    "  --dump                list every node with its type and flow",
    "  --config FILE         read settings from a JSON file",
    "  --no-hm               compute no types",
    "  --no-gcp              compute no flows",
    "  --max-iterations N    give up after so many nodes",
    "  -v, --verbose         say more about the run"].map (· ++ "\n"))

/-- The name and version that the command gives itself. -/
def version : String := "hmgcp 0.4.0\n"

/-- The files that a command may read. -/
def Options.files (o : Options) : List String := o.file.toList ++ o.config.toList

/-- The command reads the standard input. -/
def Options.readsInput (o : Options) : Bool := o.expr.isNone && o.file.isNone

/-- The text of the program. -/
def readSource (o : Options) (around : Surroundings) : Except Failure String :=
  match o.expr, o.file with
  | some text, _ => .ok text
  | none, some path => (around.file path).mapError (.unreadable path)
  | none, none => around.input.mapError .unreadableInput

/-- The settings: those of the file given, and over them those of other options. -/
def readSettings (o : Options) (around : Surroundings) : Except Failure Settings := do
  let s ← match o.config with
    | none => pure {}
    | some path =>
      let text ← (around.file path).mapError (.unreadable path)
      match Settings.ofString? text with
      | some s => pure s
      | none => throw (.badSettings path)
  return { s with
    types := s.types && !o.noTypes
    flows := s.flows && !o.noFlows
    maxIterations := o.maxIterations.getD s.maxIterations }

/-- The report that options ask for, as it is written. -/
def makeReport (o : Options) (around : Surroundings) : Except Failure String := do
  let source ← readSource o around
  let settings ← readSettings o around
  let analysis ← (analyze source settings).mapError .noAnalysis
  match analysis.report? with
  | some report => return if o.json then report.toJson else report.toText o.dump
  | none => throw (.noAnalysis .nesting)

/-- The outcome of a command.  Arguments that make no sense end it with code 2, all other failures
with code 1. -/
def execute (arguments : List String) (around : Surroundings) : Outcome :=
  match Options.ofArguments arguments with
  | .refused => ⟨2, "", usage⟩
  | .help => ⟨0, usage, ""⟩
  | .version => ⟨0, version, ""⟩
  | .analyze o =>
    match makeReport o around with
    | .ok report => ⟨0, report, ""⟩
    | .error failure => ⟨1, "", failure.render⟩

end TypeFlow
