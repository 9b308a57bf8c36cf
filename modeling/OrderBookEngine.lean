import OrderBookEngine.Lib.Machine
import OrderBookEngine.Lib.SortedMap
import OrderBookEngine.Lib.Dll
import OrderBookEngine.Lib.ProbeOrder
import OrderBookEngine.Index.FiniteMap
import OrderBookEngine.Index.Reserve
import OrderBookEngine.Index.History
import OrderBookEngine.Index.Spread
import OrderBookEngine.Pool.Partition
import OrderBookEngine.Pool.Footprint
import OrderBookEngine.Pool.Layout
import OrderBookEngine.Pool.SizedPool
import OrderBookEngine.Types
import OrderBookEngine.Book.Sequence
import OrderBookEngine.Book.ListBook
import OrderBookEngine.Book.Matching
import OrderBookEngine.Book.Refinement
import OrderBookEngine.Book.Invariant
import OrderBookEngine.Book.Sound
import OrderBookEngine.Book.Conservation
import OrderBookEngine.Book.OriginalSize
import OrderBookEngine.Book.Priority
import OrderBookEngine.Book.Split
import OrderBookEngine.Book.Feed
import OrderBookEngine.Book.Work
import OrderBookEngine.Book.Policies
import OrderBookEngine.Book.Fills
import OrderBookEngine.Book.Mirror
import OrderBookEngine.Book.Renaming
import OrderBookEngine.Book.Sides
import OrderBookEngine.Book.Cancel
import OrderBookEngine.Book.Commute
import OrderBookEngine.Book.Depth
import OrderBookEngine.Book.Allocation
import OrderBookEngine.Book.Snapshot
import OrderBookEngine.Book.Untraded
import OrderBookEngine.Engine.MatchingEngine
import OrderBookEngine.Engine.Limits
import OrderBookEngine.Engine.Gate
import OrderBookEngine.Engine.Protection
import OrderBookEngine.Engine.Duplicates
import OrderBookEngine.Generator.OrderGenerator
import OrderBookEngine.Generator.Workload
import OrderBookEngine.Journal.RoundTrip
import OrderBookEngine.Engine.Replay
import OrderBookEngine.Engine.ReplaySafe
import OrderBookEngine.Engine.Halt
import OrderBookEngine.Engine.Sessions
import OrderBookEngine.Queue.Lossless
import OrderBookEngine.Queue.SizeApprox
import OrderBookEngine.Queue.Teardown
import OrderBookEngine.Queue.Pipeline
import OrderBookEngine.Queue.Progress
import OrderBookEngine.Queue.Crash
import OrderBookEngine.Queue.Lifecycle
import OrderBookEngine.Queue.ControlPlane
