import Arche.Codegen.ArrayRebind
import Arche.Codegen.CheckedIndex
import Arche.Codegen.CoherenceTables
import Arche.Codegen.CoherentRuns
import Arche.Codegen.ColumnFold
import Arche.Codegen.CompoundAssign
import Arche.Codegen.DropDiscipline
import Arche.Codegen.Drops
import Arche.Codegen.EachFan
import Arche.Codegen.EffFusion
import Arche.Codegen.EmitSched
import Arche.Codegen.EntityInsert
import Arche.Codegen.FailurePolicy
import Arche.Codegen.GlslText
import Arche.Codegen.GpuCoherence
import Arche.Codegen.HandleIdentity
import Arche.Codegen.IndexSort
import Arche.Codegen.InsertHandler
import Arche.Codegen.IntExpr
import Arche.Codegen.IntLiterals
import Arche.Codegen.InternTable
import Arche.Codegen.JointPlacement
import Arche.Codegen.MapFusion
import Arche.Codegen.OutTargets
import Arche.Codegen.OverflowHandler
import Arche.Codegen.PlacementWalk
import Arche.Codegen.PolicyHygiene
import Arche.Codegen.PolicyInline
import Arche.Codegen.Pool
import Arche.Codegen.PoolCapacity
import Arche.Codegen.PoolInvariant
import Arche.Codegen.PoolSizes
import Arche.Codegen.PoolSort
import Arche.Codegen.QueryMatch
import Arche.Codegen.Reactor
import Arche.Codegen.RowDrops
import Arche.Codegen.ScheduleLookup
import Arche.Codegen.ShapeIdentity
import Arche.Codegen.SliceArgs
import Arche.Codegen.SortAgreement
import Arche.Codegen.SortKey
import Arche.Codegen.SpecialisationRuns
import Arche.Codegen.Specialisations
import Arche.Codegen.StringGlobals
import Arche.Codegen.Symbols
import Arche.Codegen.WasmEncode
import Arche.Codegen.WasmGen
import Arche.Codegen.WasmLayout
import Arche.Codegen.WasmSchedule
import Arche.Codegen.WasmTyping
import Arche.Codegen.WriteFields
import Arche.Compile.DevLoop
import Arche.Compile.ObjectCache
import Arche.Compile.OdrCheck
import Arche.Compile.VariantSelect
import Arche.Lib.Binary
import Arche.Lib.Cells
import Arche.Lib.Chain
import Arche.Lib.Emitters
import Arche.Lib.Fill
import Arche.Lib.Fold
import Arche.Lib.Fuelled
import Arche.Lib.Interchange
import Arche.Lib.Interning
import Arche.Lib.JoinedWords
import Arche.Lib.Layers
import Arche.Lib.Lines
import Arche.Lib.LlvmArray
import Arche.Lib.Lockstep
import Arche.Lib.Marking
import Arche.Lib.Memory
import Arche.Lib.Nesting
import Arche.Lib.Path
import Arche.Lib.Pieces
import Arche.Lib.Printf
import Arche.Lib.Probing
import Arche.Lib.Run
import Arche.Lib.Scopes
import Arche.Lib.Simulation
import Arche.Lib.Spans
import Arche.Lib.Trails
import Arche.Lib.WasmFormat
import Arche.Lib.Windows
import Arche.Lib.Word
import Arche.Lib.Words
import Arche.Lib.Worklist
import Arche.Lower.GroupAssign
import Arche.Lower.MatchArms
import Arche.Lower.SelfBinder
import Arche.Runtime.GpuResident
import Arche.Runtime.HotReload
import Arche.Runtime.InspectPoke
import Arche.Runtime.InspectRegistry
import Arche.Runtime.InspectRequests
import Arche.Runtime.InspectRows
import Arche.Runtime.ParReduce
import Arche.Runtime.PokeClient
import Arche.Semantic.Aliases
import Arche.Semantic.BorrowedStorage
import Arche.Semantic.Bounds
import Arche.Semantic.ConstEval
import Arche.Semantic.ConstText
import Arche.Semantic.DeadCode
import Arche.Semantic.MoveSafety
import Arche.Semantic.Moves
import Arche.Semantic.Overloads
import Arche.Semantic.Policies
import Arche.Semantic.Purity
import Arche.Semantic.RedundantGuard
import Arche.Semantic.Schedule
import Arche.Semantic.Spelling
import Arche.Semantic.StorageRequirements
import Arche.Semantic.UsableAs
import Arche.Semantic.Views
import Arche.Semantic.WriteSafety
import Arche.Semantic.WriteSets
import Arche.Semantic.Writes
import Arche.Stdlib.CsvLoad
import Arche.Stdlib.Parse
import Arche.Stdlib.RequestLine
import Arche.Stdlib.Router
import Arche.Syntax.Accounting
import Arche.Syntax.BodyShape
import Arche.Syntax.Climbing
import Arche.Syntax.Lexer
import Arche.Syntax.LexerPlaces
import Arche.Syntax.MaximalMunch
import Arche.Syntax.ParseDecl
import Arche.Syntax.ParseExpr
import Arche.Syntax.ParseForms
import Arche.Syntax.ParseStmt
import Arche.Syntax.ParserMonad
import Arche.Syntax.ParserState
import Arche.Syntax.Progress
import Arche.Syntax.RecursionLimit
import Arche.Syntax.StatementLoops
import Arche.Syntax.StatementsKept
import Arche.Syntax.StringTokens
import Arche.Syntax.Termination
import Arche.Syntax.TokenSpans
import Arche.Syntax.TokensKept
