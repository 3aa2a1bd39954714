import TaskingFramework.Foundation.Chain
import TaskingFramework.Foundation.Runs
import TaskingFramework.Policy.Lifo
import TaskingFramework.Clock.Queue
import TaskingFramework.Foundation.DueQueue
import TaskingFramework.Linux.LostWakeUp
import TaskingFramework.Task.Executions
import TaskingFramework.Task.Input
import TaskingFramework.Task.System
import TaskingFramework.Clock.Linked
import TaskingFramework.Clock.Enqueue
import TaskingFramework.Clock.Dequeue
import TaskingFramework.Clock.Represents
import TaskingFramework.Clock.Ledger
import TaskingFramework.Clock.QueueOrder
import TaskingFramework.Clock.NextStart
import TaskingFramework.Event.Event
import TaskingFramework.Event.HandleEvents
import TaskingFramework.Event.QueuedOnce
import TaskingFramework.Fifo.FifoGeneric
import TaskingFramework.Fifo.View
import TaskingFramework.Foundation.BitMask
import TaskingFramework.Fifo.Recycle
import TaskingFramework.Fifo.Storage
import TaskingFramework.Fifo.Consistent
import TaskingFramework.Fifo.Elements
import TaskingFramework.Fifo.Readers
import TaskingFramework.Fifo.Membership
import TaskingFramework.Fifo.Refinement
import TaskingFramework.Fifo.Partition
import TaskingFramework.Fifo.Delivery
import TaskingFramework.Fifo.Pipeline
import TaskingFramework.Fifo.PipelineRuns
import TaskingFramework.Fifo.ReleaseReader
import TaskingFramework.Fifo.Departures
import TaskingFramework.Foundation.Ends
import TaskingFramework.Fifo.Registry
import TaskingFramework.Fifo.ReaderIds
import TaskingFramework.Fifo.BoundedQueue
import TaskingFramework.Foundation.PriorityQueue
import TaskingFramework.Policy.RunQueue
import TaskingFramework.Policy.SortedPolicies
import TaskingFramework.Policy.PSlot
import TaskingFramework.Task.Channel
import TaskingFramework.Clock.AnyTime
import TaskingFramework.Event.Stopped
import TaskingFramework.Event.Drain
import TaskingFramework.Event.Periodic
import TaskingFramework.Event.Playback
import TaskingFramework.Event.ScheduleStart
import TaskingFramework.Event.PlaybackRuns
import TaskingFramework.Task.Scheduler
import TaskingFramework.Task.Restart
import TaskingFramework.Task.Group
import TaskingFramework.Task.Standing
import TaskingFramework.Task.GroupView
import TaskingFramework.Task.Round
import TaskingFramework.Task.GroupRun
import TaskingFramework.Task.AcrossSchedulers
import TaskingFramework.Task.Serial
import TaskingFramework.Task.Counts
import TaskingFramework.Task.GroupRounds
import TaskingFramework.Task.Activation
import TaskingFramework.Task.SynchronSwitch
import TaskingFramework.Policy.Priority
import TaskingFramework.Clock.TimerStart
import TaskingFramework.Event.PassPlayback
import TaskingFramework.Foundation.TimedPass
import TaskingFramework.Event.StrayTriggers
import TaskingFramework.Event.ScheduleRestart
import TaskingFramework.Clock.Steady
import TaskingFramework.Event.History
import TaskingFramework.Event.RelativeTiming
import TaskingFramework.Clock.Disarmed
import TaskingFramework.UnitTest.SchedulerUnitTest
import TaskingFramework.UnitTest.Settling
import TaskingFramework.UnitTest.Termination
import TaskingFramework.Linux.WaitUntilEmpty
import TaskingFramework.Foundation.SignedDigits
import TaskingFramework.Utils.Identification
import TaskingFramework.Linux.ClockExecutionModel
import TaskingFramework.Event.TriggerList
import TaskingFramework.Event.StartTimes
import TaskingFramework.Foundation.Rest
import TaskingFramework.Linux.AtRest
import TaskingFramework.Task.Attended
import TaskingFramework.Task.AtRest
import TaskingFramework.Clock.TrustedCalls
import TaskingFramework.Linux.ClockThread
import TaskingFramework.Assembly.Assembly
import TaskingFramework.Assembly.Timely
import TaskingFramework.Assembly.OnSchedule
import TaskingFramework.Assembly.AtRest
import TaskingFramework.Task.Barrier
import TaskingFramework.Task.BarrierRounds
import TaskingFramework.Foundation.Simulation
import TaskingFramework.UnitTest.Interleaving
import TaskingFramework.UnitTest.Agreement
import TaskingFramework.Buffer.Handover
import TaskingFramework.Buffer.WholeObjects
import TaskingFramework.Linux.Coupled
import TaskingFramework.Linux.RuntimeAtRest
