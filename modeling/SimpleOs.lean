import SimpleOs.Lib.Transition
import SimpleOs.Sched.Mlq
import SimpleOs.Sched.Refinement
import SimpleOs.Sched.Budget
import SimpleOs.Lib.Custody
import SimpleOs.Os.Cpu
import SimpleOs.Os.Dispatch
import SimpleOs.Os.Ownership
import SimpleOs.Os.Population
import SimpleOs.Lib.Rounds
import SimpleOs.Os.Threads
import SimpleOs.Os.Turn
import SimpleOs.Os.Cursor
import SimpleOs.Os.Invariant
import SimpleOs.Os.Slots
import SimpleOs.Os.Simulation
import SimpleOs.Os.Idle
import SimpleOs.Lib.Bitfield
import SimpleOs.Lib.RadixTree
import SimpleOs.Mem.Build
import SimpleOs.Mem.Mm64
import SimpleOs.Mem.PageWalk
import SimpleOs.Mem.FlatMap
import SimpleOs.Mem.Memphy
import SimpleOs.Mem.Machine
import SimpleOs.Mem.Region
import SimpleOs.Mem.Paging
import SimpleOs.Mem.Heap
import SimpleOs.Mem.Frames
import SimpleOs.Mem.Exclusive
import SimpleOs.Mem.Coherence
import SimpleOs.Mem.Fault
import SimpleOs.Mem.Entry
import SimpleOs.Mem.Syscall
import SimpleOs.Os.Running
import SimpleOs.Os.Slice
import SimpleOs.Lib.Commute
import SimpleOs.Os.Determinism
import SimpleOs.Os.Barrier
import SimpleOs.Lib.LinkedList
import SimpleOs.Mem.VmArea
import SimpleOs.Mem.VmList
import SimpleOs.Mem.VmShape
import SimpleOs.Os.Reclaim
import SimpleOs.Lib.Intervals
import SimpleOs.Mem.PgnList
import SimpleOs.Mem.VmLinks
import SimpleOs.Mem.Carve
import SimpleOs.Mem.Reuse
import SimpleOs.Mem.VmPartition
import SimpleOs.Mem.Release
import SimpleOs.Mem.Growth
import SimpleOs.Mem.Access
import SimpleOs.Mem.Settled
import SimpleOs.Mem.Truth
import SimpleOs.Mem.Handler
import SimpleOs.Mem.Lookup
import SimpleOs.Os.Symbols
import SimpleOs.Mem.Device
import SimpleOs.Mem.Sequential
import SimpleOs.Mem.PageCopy
import SimpleOs.Mem.FrameLists
import SimpleOs.Mem.Initial
import SimpleOs.Mem.VmRegions
import SimpleOs.Mem.VmMerge
import SimpleOs.Lib.Arrivals
import SimpleOs.Sched.ArrayQueue
import SimpleOs.Mem.RangeMap
import SimpleOs.Lib.Work
import SimpleOs.Os.SlotWork
import SimpleOs.Os.Arrival
import SimpleOs.Sched.Indices
import SimpleOs.Os.Bounds
import SimpleOs.Os.Completion
import SimpleOs.Os.Progress
import SimpleOs.Lib.Replay
import SimpleOs.Os.FinalMemory
import SimpleOs.Lib.Release
import SimpleOs.Mem.FreeMm
import SimpleOs.Lib.Scan
import SimpleOs.Os.Loader
import SimpleOs.Os.ReadConfig
import SimpleOs.Os.Startup
import SimpleOs.Lib.Monitor
import SimpleOs.Os.Monitors
import SimpleOs.Os.Private
import SimpleOs.Os.Isolation
import SimpleOs.Mem.DeviceNodes
import SimpleOs.Os.Waiting
