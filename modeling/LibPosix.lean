import LibPosix.Deadline
import LibPosix.Mutex
import LibPosix.ThreadPool
import LibPosix.MutexExclusion
import LibPosix.Cond
import LibPosix.CondAccounting
import LibPosix.CondWakeup
import LibPosix.TimedWaits
import LibPosix.MqueueCalls
import LibPosix.MqueueRegistry
import LibPosix.MqueueCounting
import LibPosix.Pthread
import LibPosix.PthreadRun
import LibPosix.PthreadJoin
import LibPosix.PthreadReclaim
import LibPosix.Barrier
import LibPosix.BarrierRound
import LibPosix.Clock
import LibPosix.Timer
import LibPosix.TimerSchedule
import LibPosix.PoolHistory
import LibPosix.StaticInit
import LibPosix.MqueueCustody
import LibPosix.MqueueFreeing
import LibPosix.MqueueLifetime
import LibPosix.MqueueUnlink
import LibPosix.Fifo
import LibPosix.Memory
import LibPosix.MqueueMessages
import LibPosix.TimerSetting
import LibPosix.Trace
import LibPosix.MqueueNames
import LibPosix.MqueueSizes
import LibPosix.ExpiredDeadlines
import LibPosix.MqueueCopies
import LibPosix.MqueueInit
import LibPosix.TickOverflow
import LibPosix.MalformedDeadlines
import LibPosix.Sleep
import LibPosix.SleepDurations
import LibPosix.LockResults
import LibPosix.CheckedMutex
import LibPosix.FailedWaits
import LibPosix.WaitOwnership
import LibPosix.PthreadAttributes
import LibPosix.SemaphoreWaits
import LibPosix.BarrierUnits
import LibPosix.CreationLedger
import LibPosix.ExitFinality
import LibPosix.JoinRefusals
import LibPosix.Linearizability
import LibPosix.SemaphoreThreads
import LibPosix.MqueueDirectory
import LibPosix.BarrierProgress
import LibPosix.MqueueLocking
import LibPosix.MqueueTransfers
import LibPosix.Simulation
import LibPosix.TimerAlarms
import LibPosix.ThreadPriorities
import LibPosix.SemaphoreProgress
import LibPosix.MqueueProgress
