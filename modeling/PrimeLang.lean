import PrimeLang.Main
import PrimeLang.Proofs.ParserComplete
import PrimeLang.Proofs.ResolverRuns
import PrimeLang.Proofs.LexicalScoping
import PrimeLang.Proofs.ScopingRules
import PrimeLang.Proofs.SegmentContents
import PrimeLang.Proofs.StructuralCode
import PrimeLang.Proofs.GeneratedCode
import PrimeLang.Proofs.AssignmentTargets
import PrimeLang.Proofs.CodeExists
import PrimeLang.Proofs.Execution
import PrimeLang.Proofs.Frames
import PrimeLang.Proofs.Evaluation
import PrimeLang.Proofs.LoadedCode
import PrimeLang.Proofs.RunningCalls
import PrimeLang.Proofs.Simulation
import PrimeLang.Proofs.IdealAssembler
import PrimeLang.Proofs.CodeOrigins
import PrimeLang.Proofs.FunctionRegions
import PrimeLang.Proofs.ControlFlow
import PrimeLang.Proofs.FrameLayout
import PrimeLang.Proofs.StreamDelivery
import PrimeLang.Proofs.ObjectFormat
import PrimeLang.Proofs.ProgramPaths
import PrimeLang.Proofs.StackEffect
import PrimeLang.Proofs.StackLevels
import PrimeLang.Proofs.GeneratorTasks
import PrimeLang.Proofs.StackAccounting
import PrimeLang.Proofs.TokenBoundaries
import PrimeLang.Proofs.Relabelling
import PrimeLang.Proofs.Renaming
import PrimeLang.Proofs.ParserPlaces
import PrimeLang.Proofs.PositionIndependence
import PrimeLang.Proofs.ParserLookahead
import PrimeLang.Proofs.ViablePrefixes
import PrimeLang.Proofs.NodeForest
import PrimeLang.Proofs.AcyclicNodes
import PrimeLang.Proofs.CommandArtifacts
import PrimeLang.Proofs.SideEffects
import PrimeLang.Proofs.ProgramPrefixes
import PrimeLang.Proofs.LaterFunctions
import PrimeLang.Proofs.MaximalMunch
import PrimeLang.Proofs.ScannerCalls
import PrimeLang.Proofs.ScopeRestoration
import PrimeLang.Proofs.AssignmentPhrases
import PrimeLang.Proofs.Renumbering
import PrimeLang.Proofs.CompoundAssignment
import PrimeLang.Proofs.NodeCopies
import PrimeLang.Proofs.ObjectDumps
import PrimeLang.Proofs.AssemblyText
import PrimeLang.Proofs.ErrorExcerpts
import PrimeLang.Proofs.SlotStorage
