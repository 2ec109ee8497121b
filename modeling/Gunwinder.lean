import Gunwinder.Core.LinkedStack
import Gunwinder.Core.Loop
import Gunwinder.Core.Bisect
import Gunwinder.Evaluation.ValueExpressions
import Gunwinder.Evaluation.Termination
import Gunwinder.Evaluation.Arithmetic
import Gunwinder.Decoding.Operands
import Gunwinder.Decoding.Bounds
import Gunwinder.Decoding.Checksum
import Gunwinder.Decoding.Augmentation
import Gunwinder.Decoding.Locations
import Gunwinder.Intervals.KernelSymbols
import Gunwinder.Intervals.SymbolTable
import Gunwinder.Intervals.GoNames
import Gunwinder.Rows.CacheTransparency
import Gunwinder.Rows.Recorded
import Gunwinder.Rows.SavedStates
import Gunwinder.Rows.SavedBalance
import Gunwinder.Rows.CieLinks
import Gunwinder.Rows.LazyRows
import Gunwinder.Rows.History
import Gunwinder.Rows.FdeIndex
import Gunwinder.Rows.FdeCoverage
import Gunwinder.Dumps.Replay
import Gunwinder.Dumps.Buffers
import Gunwinder.Maps.Merging
import Gunwinder.Maps.Lines
import Gunwinder.Maps.StatLine
import Gunwinder.Paths.Agreement
import Gunwinder.Walks.Logging
import Gunwinder.Walks.Completeness
import Gunwinder.Walks.FailedReload
import Gunwinder.Walks.Reasons
import Gunwinder.Walks.TailChain
import Gunwinder.Walks.Fallback
import Gunwinder.Walks.Symbols
import Gunwinder.Walks.GoPath
import Gunwinder.Walks.LoadBias
import Gunwinder.Cache.Memory
import Gunwinder.Cache.Lifecycles
import Gunwinder.Cache.Deadlines
import Gunwinder.Cache.Throttling
import Gunwinder.Cache.Identity
import Gunwinder.Walks.Stateless
import Gunwinder.Timers.Requests
import Gunwinder.Rows.TableLookup
import Gunwinder.Threads.KernelSearches
import Gunwinder.Threads.EventListeners
