import XSBEngine.Arith.Agreement
import XSBEngine.Assert.MoveRuns
import XSBEngine.Builtins.AtomLists
import XSBEngine.Builtins.GroundCyc
import XSBEngine.Builtins.Keysort
import XSBEngine.Builtins.Parsort
import XSBEngine.Builtins.Pathname
import XSBEngine.CallGraph.LazyList
import XSBEngine.CallGraph.Restoration
import XSBEngine.Calls.CallCounts
import XSBEngine.Compiler.LatticeRuns
import XSBEngine.Compiler.PreprocPreds
import XSBEngine.Completion.Compaction
import XSBEngine.Completion.Levels
import XSBEngine.Copying.CopyTerm
import XSBEngine.Copying.SolutionTableRuns
import XSBEngine.Copying.Solutions
import XSBEngine.Delay.Histories
import XSBEngine.Gc.Marking
import XSBEngine.Heap.TotalOrder
import XSBEngine.Indexing.Agreement
import XSBEngine.Indexing.BucketNumbers
import XSBEngine.Indexing.ClauseHeader
import XSBEngine.Interning.TermRuns
import XSBEngine.Ranges.FactRuns
import XSBEngine.Reading.CanonicalSizes
import XSBEngine.Reading.Numerals
import XSBEngine.Reading.RoundTrip
import XSBEngine.Residual.Components
import XSBEngine.Setof.Bounded
import XSBEngine.Setof.Groups
import XSBEngine.Strings.Collections
import XSBEngine.Tables.AnswerList
import XSBEngine.Tables.InternedTries
import XSBEngine.Tables.StructManager
import XSBEngine.Tries.Garbage
import XSBEngine.Tries.InternAborts
import XSBEngine.Tries.InternReads
import XSBEngine.Tries.PathSets
import XSBEngine.Tries.Visitors
