import TypeFlow.Analysis.Basic
import TypeFlow.Analysis.Listing
import TypeFlow.Analysis.Report
import TypeFlow.Analysis.Signature
import TypeFlow.CommandLine.Command
import TypeFlow.CommandLine.FileTree
import TypeFlow.CommandLine.Options
import TypeFlow.Double.Basic
import TypeFlow.Double.Text
import TypeFlow.Expr.Basic
import TypeFlow.Expr.Parser
import TypeFlow.Expr.Text
import TypeFlow.Fields
import TypeFlow.Flow.Basic
import TypeFlow.Flow.Join
import TypeFlow.Flow.Nesting
import TypeFlow.Flow.Text
import TypeFlow.Forest.Basic
import TypeFlow.Forest.Find
import TypeFlow.Forest.Instance
import TypeFlow.Forest.Projection
import TypeFlow.Forest.Reach
import TypeFlow.Forest.Text
import TypeFlow.Forest.Unify
import TypeFlow.IdSet
import TypeFlow.Json.Basic
import TypeFlow.Json.Quoted
import TypeFlow.Json.Reader
import TypeFlow.Main
import TypeFlow.OrderedSet
import TypeFlow.Primitive
import TypeFlow.Program.Basic
import TypeFlow.Program.Build
import TypeFlow.Program.CallResult
import TypeFlow.Program.Escape
import TypeFlow.Program.Evaluation
import TypeFlow.Program.Fixpoint
import TypeFlow.Program.Typing
import TypeFlow.Proofs.Accesses
import TypeFlow.Proofs.Accrual
import TypeFlow.Proofs.AlikeTypes
import TypeFlow.Proofs.Announcements
import TypeFlow.Proofs.BasesInPlace
import TypeFlow.Proofs.BoundedFlows
import TypeFlow.Proofs.BuildAccesses
import TypeFlow.Proofs.BuiltTerms
import TypeFlow.Proofs.CallSites
import TypeFlow.Proofs.Ceilings
import TypeFlow.Proofs.Classes
import TypeFlow.Proofs.ClosingUnifications
import TypeFlow.Proofs.Closures
import TypeFlow.Proofs.Completeness
import TypeFlow.Proofs.Computations
import TypeFlow.Proofs.ConfinedUnifications
import TypeFlow.Proofs.Confluence
import TypeFlow.Proofs.Construction
import TypeFlow.Proofs.Cursors
import TypeFlow.Proofs.Edits
import TypeFlow.Proofs.EndingUnifications
import TypeFlow.Proofs.EscapingFunctions
import TypeFlow.Proofs.ExpandedFunctions
import TypeFlow.Proofs.FaithfulCopies
import TypeFlow.Proofs.FaithfulInstantiations
import TypeFlow.Proofs.FaithfulRuns
import TypeFlow.Proofs.FaithfulSteps
import TypeFlow.Proofs.Faithfulness
import TypeFlow.Proofs.FallingFlows
import TypeFlow.Proofs.FencedCopies
import TypeFlow.Proofs.FencedInstantiations
import TypeFlow.Proofs.Fences
import TypeFlow.Proofs.FirstStates
import TypeFlow.Proofs.FlowLattice
import TypeFlow.Proofs.FlowOrder
import TypeFlow.Proofs.FlowRuns
import TypeFlow.Proofs.FlowUpkeep
import TypeFlow.Proofs.FlowsOrder
import TypeFlow.Proofs.ForestChanges
import TypeFlow.Proofs.ForestHistories
import TypeFlow.Proofs.ForwardReaders
import TypeFlow.Proofs.FreshInstances
import TypeFlow.Proofs.GrownTypes
import TypeFlow.Proofs.Growth
import TypeFlow.Proofs.InputMarks
import TypeFlow.Proofs.InstancesInPlace
import TypeFlow.Proofs.Instantiations
import TypeFlow.Proofs.Intersections
import TypeFlow.Proofs.JoinedDefinitions
import TypeFlow.Proofs.KeptMarks
import TypeFlow.Proofs.LeastIntersections
import TypeFlow.Proofs.Limits
import TypeFlow.Proofs.LiveBranches
import TypeFlow.Proofs.LookUpFlows
import TypeFlow.Proofs.LookUps
import TypeFlow.Proofs.LoopSettings
import TypeFlow.Proofs.LoweredParts
import TypeFlow.Proofs.Lowering
import TypeFlow.Proofs.MarkedClasses
import TypeFlow.Proofs.MarkedInstantiations
import TypeFlow.Proofs.MarkedUnifications
import TypeFlow.Proofs.MergedClasses
import TypeFlow.Proofs.MetPairs
import TypeFlow.Proofs.MirroredTrees
import TypeFlow.Proofs.MonotoneRules
import TypeFlow.Proofs.NestedRecords
import TypeFlow.Proofs.NewNodes
import TypeFlow.Proofs.NilFree
import TypeFlow.Proofs.OccursChecks
import TypeFlow.Proofs.OrderIndependence
import TypeFlow.Proofs.OrderlyForests
import TypeFlow.Proofs.OrderlyLowering
import TypeFlow.Proofs.OrderlySteps
import TypeFlow.Proofs.PendingWork
import TypeFlow.Proofs.PlainTypes
import TypeFlow.Proofs.PreparedTrees
import TypeFlow.Proofs.PrimitiveRules
import TypeFlow.Proofs.Probes
import TypeFlow.Proofs.Reachability
import TypeFlow.Proofs.Readers
import TypeFlow.Proofs.Recomputation
import TypeFlow.Proofs.RecursiveUnifications
import TypeFlow.Proofs.Regions
import TypeFlow.Proofs.Registration
import TypeFlow.Proofs.RepeatedInstantiations
import TypeFlow.Proofs.Repetitions
import TypeFlow.Proofs.ResolvedNames
import TypeFlow.Proofs.RipeningUnifications
import TypeFlow.Proofs.RoundTrip
import TypeFlow.Proofs.Rounding
import TypeFlow.Proofs.RowUnifications
import TypeFlow.Proofs.Runs
import TypeFlow.Proofs.Scopes
import TypeFlow.Proofs.ServedCopies
import TypeFlow.Proofs.ServedInstances
import TypeFlow.Proofs.ServedUses
import TypeFlow.Proofs.SettledFlows
import TypeFlow.Proofs.SettledInstances
import TypeFlow.Proofs.Sharpening
import TypeFlow.Proofs.SoundForests
import TypeFlow.Proofs.SparedDefinitions
import TypeFlow.Proofs.SpelledForms
import TypeFlow.Proofs.Steps
import TypeFlow.Proofs.StoppedRuns
import TypeFlow.Proofs.TracedRuns
import TypeFlow.Proofs.TruncatedFlows
import TypeFlow.Proofs.TwinPrograms
import TypeFlow.Proofs.TypeSchemes
import TypeFlow.Proofs.TypeStepProbes
import TypeFlow.Proofs.TypeSteps
import TypeFlow.Proofs.UnfoldedTypes
import TypeFlow.Proofs.UnificationClosure
import TypeFlow.Proofs.Unifications
import TypeFlow.Proofs.UnifierProgress
import TypeFlow.Proofs.UnrisenRuns
import TypeFlow.Proofs.Upkeep
import TypeFlow.Proofs.VariableUnification
import TypeFlow.Proofs.WakeUps
import TypeFlow.Proofs.Walks
import TypeFlow.Proofs.WellBuilt
import TypeFlow.Proofs.WrapperUnifications
import TypeFlow.Proofs.WrittenDoubles
import TypeFlow.Proofs.WrittenTypes
import TypeFlow.Settings
import TypeFlow.Settings.Reader
import TypeFlow.Text.Digits
import TypeFlow.Text.Quoted
import TypeFlow.Text.Unprintable
import TypeFlow.Worklist
