import Toolbox.Base.Machine
import Toolbox.Base.Effort
import Toolbox.Base.WaitFree
import Toolbox.Base.Serial
import Toolbox.Base.Client
import Toolbox.Base.Ring
import Toolbox.Base.Fifo
import Toolbox.Base.Handoff
import Toolbox.Base.Keyed
import Toolbox.Base.Count
import Toolbox.Base.RecentLog
import Toolbox.Base.OrderStat
import Toolbox.SizeT
import Toolbox.Spsc
import Toolbox.Spmc
import Toolbox.SpmcStorage
import Toolbox.SpmcSize
import Toolbox.Broadcast
import Toolbox.BroadcastCalls
import Toolbox.Overwrite
import Toolbox.OverwriteCalls
import Toolbox.Pool
import Toolbox.Tsc
import Toolbox.Tune
import Toolbox.Callers
import Toolbox.LatencyRecorder
import Toolbox.Benchmark
import Toolbox.Proofs.SpscFifo
import Toolbox.Proofs.SpscHandoff
import Toolbox.Proofs.SpscGap
import Toolbox.Proofs.SpmcMoves
import Toolbox.Proofs.SpmcSlots
import Toolbox.Proofs.SpmcClaims
import Toolbox.Proofs.SpmcAnswers
import Toolbox.Proofs.SpmcHandoff
import Toolbox.Proofs.SpmcSleepers
import Toolbox.Proofs.SpmcWakeups
import Toolbox.Proofs.SpmcLifetimes
import Toolbox.Proofs.SpmcWrap
import Toolbox.Proofs.SpmcRetries
import Toolbox.Proofs.SpmcEffort
import Toolbox.Proofs.SpmcRest
import Toolbox.Proofs.SpmcCounters
import Toolbox.Proofs.SpmcAllocation
import Toolbox.Proofs.BroadcastMoves
import Toolbox.Proofs.BroadcastCursors
import Toolbox.Proofs.BroadcastFanout
import Toolbox.Proofs.BroadcastSerial
import Toolbox.Proofs.BroadcastGating
import Toolbox.Proofs.BroadcastReentry
import Toolbox.Proofs.BroadcastWrap
import Toolbox.Proofs.OverwriteMoves
import Toolbox.Proofs.OverwriteSeqlock
import Toolbox.Proofs.OverwriteAccounting
import Toolbox.Proofs.OverwriteLoss
import Toolbox.Proofs.OverwriteRecent
import Toolbox.Proofs.OverwriteEmpty
import Toolbox.Proofs.OverwriteOut
import Toolbox.Proofs.OverwriteSerial
import Toolbox.Proofs.OverwriteAtomic
import Toolbox.Proofs.OverwriteWrap
import Toolbox.Proofs.PoolMoves
import Toolbox.Proofs.PoolMutex
import Toolbox.Proofs.PoolDrain
import Toolbox.Proofs.PoolShutdown
import Toolbox.Proofs.PoolSleepers
import Toolbox.Proofs.PoolUnwind
import Toolbox.Proofs.PoolEffort
import Toolbox.Proofs.PoolRest
import Toolbox.Proofs.TscPacing
import Toolbox.Proofs.TscConversion
import Toolbox.Proofs.TuneRestore
import Toolbox.Proofs.LatencyReport
import Toolbox.Proofs.BenchmarkThreads
import Toolbox.Proofs.BenchmarkPop
import Toolbox.Proofs.BenchmarkFan
import Toolbox.Proofs.BenchmarkLossy
import Toolbox.Proofs.WaitFree
