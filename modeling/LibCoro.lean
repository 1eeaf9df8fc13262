import LibCoro.Machine
import LibCoro.Chain
import LibCoro.FifoLock
import LibCoro.Mutex
import LibCoro.MutexRefinement
import LibCoro.RcuStep
import LibCoro.GracePeriod
import LibCoro.CallRcu
import LibCoro.Deferral
import LibCoro.Service
import LibCoro.ServiceIsolation
import LibCoro.ServiceOwnership
import LibCoro.ConditionVariable
import LibCoro.ConditionVariableStep
import LibCoro.WaiterStack
import LibCoro.ResumeWaiters
import LibCoro.Lock
import LibCoro.SpinLock
import LibCoro.MutexLock
import LibCoro.ExclusiveNotify
import LibCoro.SharedMutex
import LibCoro.SharedMutexInvariant
import LibCoro.SharedMutexStep
import LibCoro.SharedMutexExclusion
import LibCoro.Calls
import LibCoro.Task
import LibCoro.TaskRefinement
import LibCoro.NestedCalls
import LibCoro.Mailbox
import LibCoro.Schedule
import LibCoro.ScheduleInvariant
import LibCoro.ScheduleExit
import LibCoro.ScheduleChannels
import LibCoro.Drain
import LibCoro.Notifier
import LibCoro.NotifierProtocol
import LibCoro.ServiceAwait
import LibCoro.Cycles
import LibCoro.RcuSection
import LibCoro.NotifyAll
import LibCoro.CondWait
import LibCoro.CondWaitInvariant
import LibCoro.CondWaitReturns
import LibCoro.LostWakeup
import LibCoro.Registered
import LibCoro.SharedMutexGates
import LibCoro.SharedMutexLeftBehind
import LibCoro.Reactor
import LibCoro.ReactorIdle
import LibCoro.Reclaim
import LibCoro.ReclaimQueue
import LibCoro.ReclaimLinks
import LibCoro.ReclaimCount
import LibCoro.ReclaimNested
import LibCoro.Launch
import LibCoro.LaunchOwnership
import LibCoro.Grace
import LibCoro.RcuGrace
import LibCoro.Links
import LibCoro.CdsList
import LibCoro.CdsListRefinement
import LibCoro.CdsListLoops
import LibCoro.RcuList
import LibCoro.RcuListReaders
import LibCoro.RcuListInvariant
import LibCoro.RcuListSystem
import LibCoro.RcuPressure
import LibCoro.RcuPressureInvariant
import LibCoro.RcuProgress
import LibCoro.ReclaimProjection
import LibCoro.ReclaimOrder
import LibCoro.ReclaimProgress
import LibCoro.RwLock
import LibCoro.SharedMutexRefinement
import LibCoro.Sections
import LibCoro.SectionsProgress
import LibCoro.LockGuard
import LibCoro.SharedMutexGuard
import LibCoro.LockTest
import LibCoro.RcuBenchmark
import LibCoro.ConditionVariableProgress
import LibCoro.ScheduleProgress
import LibCoro.SharedMutexLive
