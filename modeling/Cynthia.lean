import Cynthia.Lib.Transition
import Cynthia.Lib.Ring
import Cynthia.Lib.Pool
import Cynthia.Blocking.Pipe
import Cynthia.Blocking.Signals
import Cynthia.Blocking.PipeFifo
import Cynthia.Blocking.Transfer
import Cynthia.Blocking.EndOfStream
import Cynthia.Blocking.Calm
import Cynthia.Task.State
import Cynthia.Task.Machine
import Cynthia.Task.Moves
import Cynthia.Task.Counting
import Cynthia.Task.Duties
import Cynthia.Task.Lifetime
import Cynthia.Task.Awaiter
import Cynthia.Task.Layout
import Cynthia.Task.Header
import Cynthia.Executor.Sleeper
import Cynthia.Executor.Active
import Cynthia.Executor.State
import Cynthia.Executor.Tickers
import Cynthia.Executor.Registry
import Cynthia.Executor.Progress
import Cynthia.Channel.Event
import Cynthia.Channel.Channel
import Cynthia.Channel.Wakeups
import Cynthia.Lib.Linearizability
import Cynthia.Queue.Fifo
import Cynthia.Queue.Stamps
import Cynthia.Queue.Bounded
import Cynthia.Queue.BoundedFifo
import Cynthia.Queue.Unbounded
import Cynthia.Queue.UnboundedFifo
import Cynthia.Lib.Watch
import Cynthia.Queue.Reads
import Cynthia.Queue.BoundedReads
import Cynthia.Queue.UnboundedReads
import Cynthia.Queue.Snapshot
import Cynthia.Queue.BoundedDrop
import Cynthia.Queue.UnboundedDebts
import Cynthia.Queue.UnboundedBlocks
import Cynthia.Queue.UnboundedDrop
import Cynthia.Lib.Census
import Cynthia.Lock.Waiters
import Cynthia.Lock.Word
import Cynthia.Lock.Mutex
import Cynthia.Lock.MutexInv
import Cynthia.Lock.ThreadMutex
import Cynthia.Lock.Semaphore
import Cynthia.WaitGroup.WaitGroup
import Cynthia.Lock.Barrier
import Cynthia.Lock.BarrierInv
import Cynthia.Lock.RwLock
import Cynthia.Lock.RwLockInv
import Cynthia.Lock.RwLockWakeups
import Cynthia.Utils.Colo
import Cynthia.Utils.ColoMap
import Cynthia.Utils.Rander
import Cynthia.Utils.RandInteger
import Cynthia.Fs.File
import Cynthia.Fs.FileInv
import Cynthia.Fs.FilePlain
import Cynthia.Blocking.ThreadPool
import Cynthia.Blocking.UnblockRead
import Cynthia.Net.Poller
import Cynthia.Io.TimerMap
import Cynthia.Io.Timers
import Cynthia.Io.Source
import Cynthia.Io.React
import Cynthia.Io.BlockOn
import Cynthia.Io.Reactor
import Cynthia.Io.ReactorInv
import Cynthia.Io.Interest
import Cynthia.Io.FailedModify
import Cynthia.Io.FailedReadiness
import Cynthia.Io.Readiness
import Cynthia.Lib.LinkedList
import Cynthia.Event.Listener
import Cynthia.Event.ListenerInv
import Cynthia.Event.Delivery
import Cynthia.Event.FastPath
import Cynthia.Io.ProcessTimers
import Cynthia.Swap.Io
import Cynthia.Swap.BufferWriter
import Cynthia.Swap.BufferReader
import Cynthia.Swap.Copy
import Cynthia.Swap.ReadUntil
import Cynthia.Swap.Lines
import Cynthia.Swap.LineErrors
import Cynthia.Swap.ReadToEnd
import Cynthia.Swap.ReadString
import Cynthia.Parking.Parker
import Cynthia.AtomicWaker.Waker
import Cynthia.Queue.Single
import Cynthia.Queue.SingleFifo
import Cynthia.Task.Cancel
import Cynthia.Lib.Polling
import Cynthia.Lib.MultiplyReject
import Cynthia.Lib.Words
import Cynthia.Lib.Utf8
import Cynthia.Lib.Pieces
import Cynthia.Future.Stream
import Cynthia.Future.Adapters
import Cynthia.Future.Expressions
import Cynthia.Executor.Stealing
import Cynthia.Executor.StealingInv
import Cynthia.BytePool.Pool
import Cynthia.Io.Connect
import Cynthia.Future.Merge
import Cynthia.Swap.Traits
import Cynthia.Swap.Adapters
import Cynthia.Swap.Chain
import Cynthia.Swap.Futures
import Cynthia.Swap.ReadToEndPolls
import Cynthia.Swap.Nested
import Cynthia.Swap.Events
import Cynthia.Swap.Registers
import Cynthia.Lib.Exchange
import Cynthia.Lib.Outcomes
import Cynthia.Process.Child
import Cynthia.Process.Reaping
import Cynthia.Utils.Shuffle
import Cynthia.Future.StreamFutures
import Cynthia.Future.Answers
import Cynthia.Future.Combinators
import Cynthia.Future.Outcomes
import Cynthia.Blocking.UnblockStream
import Cynthia.Blocking.UnblockStreamInv
import Cynthia.Blocking.PipeWakeups
import Cynthia.Blocking.UnblockWrite
import Cynthia.Blocking.UnblockWriteInv
