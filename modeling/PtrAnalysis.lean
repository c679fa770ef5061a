import PtrAnalysis.Lib.Run
import PtrAnalysis.Lib.Forest
import PtrAnalysis.Lib.Ascending
import PtrAnalysis.Lib.Assoc
import PtrAnalysis.Constraint
import PtrAnalysis.Program
import PtrAnalysis.Graph
import PtrAnalysis.Merge
import PtrAnalysis.Joins
import PtrAnalysis.Heap
import PtrAnalysis.Worklist
import PtrAnalysis.Tables
import PtrAnalysis.TablesSpec
import PtrAnalysis.Cleanup
import PtrAnalysis.Offline
import PtrAnalysis.Hvn
import PtrAnalysis.Hcd
import PtrAnalysis.Solve
import PtrAnalysis.Effects
import PtrAnalysis.Visit
import PtrAnalysis.LcdRule
import PtrAnalysis.Iterate
import PtrAnalysis.SolveInit
import PtrAnalysis.TableBounds
import PtrAnalysis.Bounds
import PtrAnalysis.Ending
import PtrAnalysis.Collapse
import PtrAnalysis.Invariant
import PtrAnalysis.MergeSound
import PtrAnalysis.Semantics
import PtrAnalysis.Factor
import PtrAnalysis.FactorMeaning
import PtrAnalysis.Cache
import PtrAnalysis.CacheRuns
import PtrAnalysis.Lib.Act
import PtrAnalysis.Lib.Footprint
import PtrAnalysis.Lib.Known
import PtrAnalysis.Lib.Equations
import PtrAnalysis.Lib.BackEdges
import PtrAnalysis.Lib.Nested
import PtrAnalysis.Lib.Tarjan
import PtrAnalysis.Ir
import PtrAnalysis.Gen
import PtrAnalysis.GenValues
import PtrAnalysis.IntSources
import PtrAnalysis.GenGlobals
import PtrAnalysis.GenCalls
import PtrAnalysis.ObjConsId
import PtrAnalysis.Layout
import PtrAnalysis.Blocks
import PtrAnalysis.Operands
import PtrAnalysis.ExtCalls
import PtrAnalysis.CallFlows
import PtrAnalysis.CopyEdges
import PtrAnalysis.GepTables
import PtrAnalysis.Expansion
import PtrAnalysis.StructInfo
import PtrAnalysis.GepOffset
import PtrAnalysis.Shapes
import PtrAnalysis.CallUses
import PtrAnalysis.Serve
import PtrAnalysis.NodeMaps
import PtrAnalysis.HandlerMaps
import PtrAnalysis.DeclMaps
import PtrAnalysis.InitMaps
import PtrAnalysis.Owners
import PtrAnalysis.VisitSound
import PtrAnalysis.Saturated
import PtrAnalysis.Solved
import PtrAnalysis.HeapRuns
import PtrAnalysis.CacheLru
import PtrAnalysis.Initializers
import PtrAnalysis.InitVisits
import PtrAnalysis.InitEnds
import PtrAnalysis.InitDone
import PtrAnalysis.Lib.TwoRuns
import PtrAnalysis.Process
import PtrAnalysis.Dormant
import PtrAnalysis.Reruns
import PtrAnalysis.Clump
import PtrAnalysis.Deletions
import PtrAnalysis.HvnSearch
import PtrAnalysis.HvnComponents
import PtrAnalysis.LcdStates
import PtrAnalysis.HvnMeaning
import PtrAnalysis.OffEdges
import PtrAnalysis.HvnFlow
import PtrAnalysis.Rewriting
import PtrAnalysis.HvnPass
import PtrAnalysis.Precise
import PtrAnalysis.LcdSilent
import PtrAnalysis.Exact
import PtrAnalysis.HcdSearch
import PtrAnalysis.HcdFlow
import PtrAnalysis.HcdPass
import PtrAnalysis.Plain
import PtrAnalysis.Optimized
import PtrAnalysis.Lib.Keyed
import PtrAnalysis.BitElement
import PtrAnalysis.Bitmap
import PtrAnalysis.BitmapSpec
import PtrAnalysis.BitmapRuns
import PtrAnalysis.Lib.Pool
import PtrAnalysis.BitmapPool
import PtrAnalysis.BitmapIter
import PtrAnalysis.BitmapLoops
