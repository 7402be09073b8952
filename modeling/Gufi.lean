import Gufi.Blocksize
import Gufi.BottomUpCompleteness
import Gufi.CategoryCombine
import Gufi.CategoryHist
import Gufi.CategoryMode
import Gufi.CategoryText
import Gufi.CollectTreeSummary
import Gufi.Descend
import Gufi.DescendSafety
import Gufi.Dir2TraceFraming
import Gufi.DupdirRace
import Gufi.ExternalAttach
import Gufi.ExternalBalance
import Gufi.FailedRollup
import Gufi.FindSuspects
import Gufi.GetXattrs
import Gufi.GetlineFd
import Gufi.HistogramPieces
import Gufi.IncrementalConvergence
import Gufi.LinkedCells
import Gufi.LogHistogram
import Gufi.NameCounter
import Gufi.NameTrie
import Gufi.ParallelRmr
import Gufi.PoolDrain
import Gufi.PoolWakeups
import Gufi.PosixShell
import Gufi.PredictedRollup
import Gufi.ProtectedXattrs
import Gufi.QueryRollup
import Gufi.QueryRoots
import Gufi.QueryRowsFraming
import Gufi.QueryStdout
import Gufi.QueryTsdb
import Gufi.RestoreXattrs
import Gufi.RolledUpTreeSummary
import Gufi.RollupPaths
import Gufi.RollupPermissions
import Gufi.SecondRun
import Gufi.SideData
import Gufi.SingleWriter
import Gufi.SinglyLinkedList
import Gufi.StoredText
import Gufi.SumTable
import Gufi.Suspects
import Gufi.SwapFailures
import Gufi.SwapRoundTrip
import Gufi.TopdownContent
import Gufi.TraceBuffer
import Gufi.TraceFraming
import Gufi.TraceSafety
import Gufi.TraceSplit
import Gufi.Unrollup
import Gufi.UriPaths
import Gufi.UserStrings
import Gufi.UserTrie
import Gufi.VtArguments
import Gufi.VtArgv
import Gufi.VtDeadlock
import Gufi.VtFilter
import Gufi.Walk
import Gufi.WalkItems
import Gufi.WalkOnce
import Gufi.XattrPlaces
import Gufi.XattrRemove
import Gufi.IndexOrder
import Gufi.IndexedQuery
import Gufi.TraceWritten
import Gufi.TraceIndex
import Gufi.TraceSource
