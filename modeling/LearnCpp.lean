import LearnCpp.Lib.Run
import LearnCpp.Lib.MinQueue
import LearnCpp.Lib.Expiry
import LearnCpp.Lib.Wheel
import LearnCpp.Lib.Probing
import LearnCpp.Lib.SortedMap
import LearnCpp.Lib.Fifo
import LearnCpp.Lib.Schedule
import LearnCpp.Lib.Ring
import LearnCpp.Lib.Linked
import LearnCpp.Reconciler.Basic
import LearnCpp.Reconciler.Bench
import LearnCpp.Reconciler.UnorderedScan
import LearnCpp.Reconciler.Alerts
import LearnCpp.Reconciler.Cadence
import LearnCpp.Reconciler.UnorderedHeap
import LearnCpp.Reconciler.FlatTable
import LearnCpp.Reconciler.FlatHashHeap
import LearnCpp.Reconciler.FlatHashWheel
import LearnCpp.Reconciler.DirectIndex
import LearnCpp.Reconciler.DirectIndexHeap
import LearnCpp.Reconciler.DirectIndexWheel
import LearnCpp.MatchingEngine.Basic
import LearnCpp.MatchingEngine.Greedy
import LearnCpp.MatchingEngine.Invariant
import LearnCpp.MatchingEngine.Reference
import LearnCpp.MatchingEngine.Priority
import LearnCpp.MatchingEngine.Conservation
import LearnCpp.Concurrency.SpscRingBuffer
import LearnCpp.Concurrency.WaitFreeQueue
import LearnCpp.Concurrency.CapstonePipeline
import LearnCpp.Concurrency.NotesRing
import LearnCpp.Concurrency.DoubleRing
import LearnCpp.Concurrency.BumpRing
import LearnCpp.Latency.Common
import LearnCpp.Latency.V1
import LearnCpp.Latency.PoolRace
import LearnCpp.Latency.V4
import LearnCpp.Concurrency.BoundedBlockingQueue
import LearnCpp.Concurrency.ThreadSafeQueue
import LearnCpp.Concurrency.ReaderWriterLock
import LearnCpp.Concurrency.ThreadPool
import LearnCpp.Lib.Recency
import LearnCpp.Memory.LruCache
import LearnCpp.Microarchitecture.HashTable
import LearnCpp.Memory.SmartContainer
import LearnCpp.Lib.Lifetime
import LearnCpp.Memory.SmartContainerLifetime
import LearnCpp.Concurrency.LockFreeStack
import LearnCpp.Concurrency.ParallelMath
import LearnCpp.Io.TimerWheel
import LearnCpp.Io.TokenBucket
import LearnCpp.Lib.ForkJoin
import LearnCpp.Concurrency.ParallelDrivers
import LearnCpp.Io.EchoServer
import LearnCpp.Latency.V1Accept
import LearnCpp.Lib.FreeList
import LearnCpp.Memory.FixedSizePool
import LearnCpp.Io.AsyncLogger
import LearnCpp.Lib.LowerBound
import LearnCpp.Reconciler.VectorScan
import LearnCpp.Reconciler.Completeness
import LearnCpp.Concurrency.GetFactors
import LearnCpp.ClassicAlgorithms.BinarySearch
import LearnCpp.ClassicAlgorithms.SelectionSort
import LearnCpp.ClassicAlgorithms.Sort
import LearnCpp.ClassicAlgorithms.TwoSum
import LearnCpp.Microarchitecture.HotLoop
import LearnCpp.Microarchitecture.Particles
import LearnCpp.MatchingEngine.Mirror
import LearnCpp.Reconciler.Drain
import LearnCpp.Concurrency.BumpArena
import LearnCpp.Io.EventLoop
import LearnCpp.Io.TimerWheelOrder
import LearnCpp.Memory.SlabSlotPool
import LearnCpp.Memory.SmartContainerPushBack
import LearnCpp.Snippets.ParseInt
import LearnCpp.Io.EchoSweep
import LearnCpp.Latency.V5
import LearnCpp.Concurrency.LockFreeStackDrain
import LearnCpp.Reconciler.Injected
import LearnCpp.Reconciler.Table
import LearnCpp.Concurrency.ForkMmapIpc
import LearnCpp.Concurrency.MarketDataQueue
import LearnCpp.Latency.Report
import LearnCpp.Concurrency.ProcessPingPong
import LearnCpp.Concurrency.ThreadPingPong
import LearnCpp.Latency.Variants
import LearnCpp.Concurrency.ThreadPoolFutures
