import PthreadBenchmark.Shared.Transition
import PthreadBenchmark.Shared.Threads
import PthreadBenchmark.Shared.Ring
import PthreadBenchmark.Shared.Segment
import PthreadBenchmark.Shared.Strided
import PthreadBenchmark.Shared.Heap
import PthreadBenchmark.Shared.Replay
import PthreadBenchmark.Shared.ForkJoin
import PthreadBenchmark.Shared.Pthread
import PthreadBenchmark.Shared.PthreadRules
import PthreadBenchmark.Chameneos.Model
import PthreadBenchmark.Chameneos.Invariant
import PthreadBenchmark.Chameneos.Preservation
import PthreadBenchmark.Chameneos.Correctness
import PthreadBenchmark.CyclicQueue.Model
import PthreadBenchmark.CyclicQueue.Refinement
import PthreadBenchmark.CyclicQueue.Drain
import PthreadBenchmark.Actor.Model
import PthreadBenchmark.Actor.Accounting
import PthreadBenchmark.Actor.Capacity
import PthreadBenchmark.Actor.Overrun
import PthreadBenchmark.MergeSort.Model
import PthreadBenchmark.MergeSort.Correctness
import PthreadBenchmark.Pool.Model
import PthreadBenchmark.Pool.Correctness
import PthreadBenchmark.Bounded.Model
import PthreadBenchmark.Bounded.Correctness
import PthreadBenchmark.Jobs.Model
import PthreadBenchmark.Jobs.Correctness
import PthreadBenchmark.Jobs.Insert
import PthreadBenchmark.Jobs.Ordered
import PthreadBenchmark.HashTable.Model
import PthreadBenchmark.HashTable.Correctness
import PthreadBenchmark.LinkedList.Model
import PthreadBenchmark.LinkedList.Correctness
import PthreadBenchmark.Shared.PthreadProgress
import PthreadBenchmark.Philosophers.Model
import PthreadBenchmark.Philosophers.Correctness
import PthreadBenchmark.WatchCount.Model
import PthreadBenchmark.WatchCount.Correctness
import PthreadBenchmark.HashInvert.Model
import PthreadBenchmark.HashInvert.Correctness
import PthreadBenchmark.Shared.Blocking
import PthreadBenchmark.SemStack.Model
import PthreadBenchmark.SemStack.Correctness
import PthreadBenchmark.Shared.PthreadReasons
import PthreadBenchmark.Concurio.Model
import PthreadBenchmark.Concurio.Invariant
import PthreadBenchmark.Concurio.Correctness
import PthreadBenchmark.Skynet.Model
import PthreadBenchmark.Skynet.Correctness
import PthreadBenchmark.PingPong.Model
import PthreadBenchmark.PingPong.View
import PthreadBenchmark.PingPong.Correctness
import PthreadBenchmark.Membarrier.Model
import PthreadBenchmark.Membarrier.Correctness
import PthreadBenchmark.Membarrier.Invariant
import PthreadBenchmark.Shared.Barrier
import PthreadBenchmark.HotPlate.Model
import PthreadBenchmark.HotPlate.Init
import PthreadBenchmark.HotPlate.Sweep
import PthreadBenchmark.HotPlate.Invariant
import PthreadBenchmark.HotPlate.Correctness
import PthreadBenchmark.Shared.PthreadSignals
import PthreadBenchmark.LonghornRpc.Model
import PthreadBenchmark.LonghornRpc.Invariant
import PthreadBenchmark.LonghornRpc.Correctness
import PthreadBenchmark.LonghornRpc.History
import PthreadBenchmark.Shared.PthreadConditions
import PthreadBenchmark.PerfIndex.Model
import PthreadBenchmark.PerfIndex.Correctness
import PthreadBenchmark.Shared.PthreadRest
import PthreadBenchmark.Pool.Shutdown
import PthreadBenchmark.ProCon.Model
import PthreadBenchmark.ProCon.Correctness
import PthreadBenchmark.PcOcm.Model
import PthreadBenchmark.PcOcm.Correctness
import PthreadBenchmark.WorkArea.Model
import PthreadBenchmark.WorkArea.Correctness
import PthreadBenchmark.SemRelease.Model
import PthreadBenchmark.SemRelease.Correctness
import PthreadBenchmark.Shared.CString
import PthreadBenchmark.MulthreadServer.Model
import PthreadBenchmark.MulthreadServer.Correctness
import PthreadBenchmark.Shared.BitTable
import PthreadBenchmark.Shared.Collect
import PthreadBenchmark.HashInvert.Reconstruct
import PthreadBenchmark.HashInvert.Agreement
import PthreadBenchmark.HashInvert.Interleaved
import PthreadBenchmark.HashInvert.Memberships
import PthreadBenchmark.Shared.ByteFile
import PthreadBenchmark.CopyDeamon.Model
import PthreadBenchmark.CopyDeamon.Correctness
import PthreadBenchmark.AstTest.Model
import PthreadBenchmark.AstTest.Correctness
import PthreadBenchmark.ThreadCondVar.Model
import PthreadBenchmark.ThreadCondVar.Correctness
import PthreadBenchmark.Shared.Insertion
import PthreadBenchmark.InsertSort.Model
import PthreadBenchmark.InsertSort.Correctness
import PthreadBenchmark.CfgSock.Model
import PthreadBenchmark.CfgSock.Lifecycle
import PthreadBenchmark.CfgSock.GetValue
import PthreadBenchmark.UdpSplice.Model
import PthreadBenchmark.UdpSplice.Correctness
import PthreadBenchmark.IrEvent.Model
import PthreadBenchmark.IrEvent.Discipline
import PthreadBenchmark.IrEvent.Ownership
import PthreadBenchmark.Skynet.Start
import PthreadBenchmark.Skynet.Shutdown
import PthreadBenchmark.Skynet.Late
import PthreadBenchmark.Shared.PthreadInterrupts
import PthreadBenchmark.Skynet.Signals
import PthreadBenchmark.Skynet.Reentry
import PthreadBenchmark.BinarySearch.Model
import PthreadBenchmark.BinarySearch.Correctness
import PthreadBenchmark.ModeExtra.Model
import PthreadBenchmark.ModeExtra.Correctness
import PthreadBenchmark.UdpServer.Model
import PthreadBenchmark.UdpServer.Correctness
import PthreadBenchmark.ConditionModify.Model
import PthreadBenchmark.ConditionModify.Correctness
import PthreadBenchmark.Concurio.Absolute.Correctness
import PthreadBenchmark.DampCg.Correctness
import PthreadBenchmark.LonghornRpc.Failing.Correctness
import PthreadBenchmark.CameraThread.Correctness
import PthreadBenchmark.Shared.PthreadRefinement
import PthreadBenchmark.Concurio.Absolute.Refinement
import PthreadBenchmark.Shared.LittleEndian
import PthreadBenchmark.UdpSplice.Attributes
import PthreadBenchmark.UdpSplice.FamilyId
import PthreadBenchmark.UdpSplice.Request
import PthreadBenchmark.DampCg.Tiling
import PthreadBenchmark.HotPlate.Bounds
import PthreadBenchmark.HotPlate.Updates
import PthreadBenchmark.FindMin.Model
import PthreadBenchmark.Shared.PthreadJoins
import PthreadBenchmark.FindMin.Correctness
import PthreadBenchmark.ArraySum.Model
import PthreadBenchmark.ArraySum.Correctness
import PthreadBenchmark.WebAnalysis.Correctness
import PthreadBenchmark.CpapDac.Correctness
import PthreadBenchmark.ConSer.Model
import PthreadBenchmark.ConSer.Correctness
import PthreadBenchmark.WebAnalysis.Copying
import PthreadBenchmark.CfgSock.Buffers
import PthreadBenchmark.Concurio.Absolute.Subtract
import PthreadBenchmark.Sleep.Correctness
import PthreadBenchmark.Concurio.Deltas
import PthreadBenchmark.LinkedList.Populate
import PthreadBenchmark.CopyDeamon.SendOffset
import PthreadBenchmark.HashInvert.Calls
import PthreadBenchmark.MulthreadServer.Clients.Correctness
import PthreadBenchmark.Increments.Unlocked
import PthreadBenchmark.Increments.Locked
import PthreadBenchmark.VectorSums
import PthreadBenchmark.Shared.PthreadUnlocked
import PthreadBenchmark.Tickets.Locked
import PthreadBenchmark.Tickets.Unlocked
import PthreadBenchmark.Handlers
import PthreadBenchmark.Employees.Locked
import PthreadBenchmark.Employees.Unlocked
import PthreadBenchmark.Fibonacci
import PthreadBenchmark.DnsDiscovery.Correctness
import PthreadBenchmark.NodeStack.Model
import PthreadBenchmark.NodeStack.Memory
import PthreadBenchmark.NodeStack.Trace
import PthreadBenchmark.NodeStack.Wakeups
import PthreadBenchmark.Lights
import PthreadBenchmark.Shared.SortedLinks
import PthreadBenchmark.LinkedList.Threads.Model
import PthreadBenchmark.LinkedList.Threads.Inserts
import PthreadBenchmark.LinkedList.Threads.Runs
import PthreadBenchmark.LinkedList.Threads.Serial
import PthreadBenchmark.LonghornRpc.Answers
