import Prongc.Access
import Prongc.Library.BranchMarkers
import Prongc.Library.Separator
import Prongc.Library.CStrings
import Prongc.LockTracking
import Prongc.Library.LinkedArray
import Prongc.Library.SizeT
import Prongc.LockRanges
import Prongc.LockReach
import Prongc.LockVerdict
import Prongc.Library.MeetOverPaths
import Prongc.LockPaths
import Prongc.Library.FirstFit
import Prongc.Library.Reports
import Prongc.Comparison
import Prongc.PairReports
import Prongc.ComparisonFrame
import Prongc.Library.Traversal
import Prongc.Ast
import Prongc.DeclRef
import Prongc.WalkFunc
import Prongc.Library.Grouping
import Prongc.ParseCall
import Prongc.WalkAst
import Prongc.RequestBinding
import Prongc.Callbacks
import Prongc.References
import Prongc.Modifications
import Prongc.ArtificialUsr
import Prongc.Unwind
import Prongc.Aliases
import Prongc.RootIsolation
import Prongc.Library.Interleaving
import Prongc.ParseFile
import Prongc.ThreadPool
import Prongc.UnwindFrame
import Prongc.LockPairs
import Prongc.Recursion
import Prongc.Termination
import Prongc.ArrayGrowth
import Prongc.PrivateObjects
import Prongc.LocalReports
import Prongc.ElseBranch
import Prongc.CallSites
import Prongc.Library.VisitOrder
import Prongc.Ancestry
import Prongc.OpenBranches
import Prongc.FootprintBrackets
import Prongc.Library.LinkedPlaces
import Prongc.AnnotationRun
import Prongc.ChainStructure
import Prongc.SplitCoverage
import Prongc.StraightLine
import Prongc.VerdictSides
import Prongc.OwnThenBlock
import Prongc.RangeFields
import Prongc.BranchTags
import Prongc.RangeOrder
import Prongc.LockIdentity
import Prongc.MemberPaths
import Prongc.ArgumentBinding
import Prongc.CallStrings
import Prongc.LockPairFormat
import Prongc.OnePair
import Prongc.Library.PathSearch
import Prongc.DynAos
import Prongc.CallTraces
import Prongc.CalleeAlignment
import Prongc.CalleePairing
import Prongc.TraceNames
import Prongc.SplitLists
import Prongc.GlobPatterns
import Prongc.NameBuffers
import Prongc.Library.Blocks
import Prongc.AosMemory
import Prongc.AosRefinement
import Prongc.AosLookup
import Prongc.ElementArrays
import Prongc.Library.LineReader
import Prongc.SourceLine
import Prongc.MarkerErasure
import Prongc.Library.Thinning
import Prongc.MovedRanges
import Prongc.VariableIsolation
import Prongc.ModeAgreement
import Prongc.Library.Cancellation
import Prongc.WholeRun
import Prongc.LoopVerdicts
import Prongc.Library.Pairing
import Prongc.EarlierPairs
import Prongc.Library.Mutex
import Prongc.PoolLocking
import Prongc.SharedReferences
import Prongc.FilteredLocals
import Prongc.Library.DepthFirst
import Prongc.CallCoverage
import Prongc.Library.MovingTrees
import Prongc.FuncPointers
import Prongc.CommandLine
import Prongc.TraceMode
import Prongc.MainRun
import Prongc.MainReports
