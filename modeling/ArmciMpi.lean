import ArmciMpi.Atomics.Accessors
import ArmciMpi.Atomics.Linear
import ArmciMpi.Atomics.Rmw
import ArmciMpi.Atomics.Stages
import ArmciMpi.Atomics.Visible
import ArmciMpi.ConflictTree.Destroy
import ArmciMpi.ConflictTree.Heap
import ArmciMpi.ConflictTree.Insert
import ArmciMpi.ConflictTree.Invariant
import ArmciMpi.ConflictTree.Rep
import ArmciMpi.ConflictTree.Search
import ArmciMpi.Lib.BalancedTree
import ArmciMpi.Lib.Combine
import ArmciMpi.Lib.Copies
import ArmciMpi.Lib.Delayed
import ArmciMpi.Lib.History
import ArmciMpi.Lib.Isolation
import ArmciMpi.Lib.LinkedList
import ArmciMpi.Lib.Meeting
import ArmciMpi.Lib.Parts
import ArmciMpi.Lib.Phases
import ArmciMpi.Lib.Script
import ArmciMpi.Lib.Stateful
import ArmciMpi.Lib.Transition
import ArmciMpi.Message.Machine
import ArmciMpi.Message.Receive
import ArmciMpi.Message.Reduce
import ArmciMpi.Message.Select
import ArmciMpi.Message.Types
import ArmciMpi.Mpi.Memory
import ArmciMpi.Mpi.Types
import ArmciMpi.Mutex.Ordered
import ArmciMpi.Mutex.Overtaking
import ArmciMpi.Mutex.Queue
import ArmciMpi.Mutex.Safety
import ArmciMpi.Mutex.Spin
import ArmciMpi.Mutex.Threads
import ArmciMpi.Mutex.Updates
import ArmciMpi.Nonblocking.Completion
import ArmciMpi.Nonblocking.Handle
import ArmciMpi.Nonblocking.RequestThreads
import ArmciMpi.Nonblocking.Requests
import ArmciMpi.Runtime.Barrier
import ArmciMpi.Runtime.Fence
import ArmciMpi.Runtime.FreeGroup
import ArmciMpi.Runtime.Gmr
import ArmciMpi.Runtime.Group
import ArmciMpi.Runtime.GroupCreate
import ArmciMpi.Runtime.GroupTables
import ArmciMpi.Runtime.Init
import ArmciMpi.Runtime.LibraryVersion
import ArmciMpi.Runtime.ListSafety
import ArmciMpi.Runtime.ListThreads
import ArmciMpi.Runtime.Lookup
import ArmciMpi.Runtime.RegionList
import ArmciMpi.Runtime.Regions
import ArmciMpi.Runtime.Separate
import ArmciMpi.Runtime.Shutdown
import ArmciMpi.Transfer.Accesses
import ArmciMpi.Transfer.Accumulate
import ArmciMpi.Transfer.Buffer
import ArmciMpi.Transfer.Calls
import ArmciMpi.Transfer.Conservative
import ArmciMpi.Transfer.Consistency
import ArmciMpi.Transfer.Contiguous
import ArmciMpi.Transfer.Contract
import ArmciMpi.Transfer.Dispatch
import ArmciMpi.Transfer.EarlyRelease
import ArmciMpi.Transfer.Entries
import ArmciMpi.Transfer.Flag
import ArmciMpi.Transfer.Guard
import ArmciMpi.Transfer.IovIter
import ArmciMpi.Transfer.Layout
import ArmciMpi.Transfer.Methods
import ArmciMpi.Transfer.Nonblocking
import ArmciMpi.Transfer.Outcome
import ArmciMpi.Transfer.Overlap
import ArmciMpi.Transfer.OverlappingPuts
import ArmciMpi.Transfer.PackUnpack
import ArmciMpi.Transfer.Phases
import ArmciMpi.Transfer.Posted
import ArmciMpi.Transfer.RangeChecks
import ArmciMpi.Transfer.Release
import ArmciMpi.Transfer.Returns
import ArmciMpi.Transfer.Scaling
import ArmciMpi.Transfer.Segments
import ArmciMpi.Transfer.Sequence
import ArmciMpi.Transfer.Single
import ArmciMpi.Transfer.Spanning
import ArmciMpi.Transfer.Staging
import ArmciMpi.Transfer.Strided
import ArmciMpi.Transfer.StridedCalls
import ArmciMpi.Transfer.StridedInts
import ArmciMpi.Transfer.StridedMethods
import ArmciMpi.Transfer.Truncation
import ArmciMpi.Transfer.VecCall
import ArmciMpi.Transfer.Vector
