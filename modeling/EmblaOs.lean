import EmblaOs.Lib.Heap
import EmblaOs.Lib.SwapRemove
import EmblaOs.Lib.Ring
import EmblaOs.Lib.Fifo
import EmblaOs.Lib.Descriptors
import EmblaOs.Lib.CString
import EmblaOs.Lib.Topological
import EmblaOs.Lib.Table
import EmblaOs.Lib.Runs
import EmblaOs.Lib.History
import EmblaOs.Lib.FiniteMap
import EmblaOs.Lib.Ledger
import EmblaOs.Lib.Lineage
import EmblaOs.Lib.Turns
import EmblaOs.Process.Basic
import EmblaOs.Host
import EmblaOs.Process.Manager
import EmblaOs.Process.Table
import EmblaOs.Process.Walk
import EmblaOs.Process.ChildWalk
import EmblaOs.Process.Group
import EmblaOs.Process.Scheduler
import EmblaOs.Process.ReadyQueue
import EmblaOs.Process.Runtime
import EmblaOs.Process.Spawn
import EmblaOs.Process.Invariant
import EmblaOs.Process.Events
import EmblaOs.Process.Handling
import EmblaOs.Process.Reports
import EmblaOs.Process.Placement
import EmblaOs.Process.Steady
import EmblaOs.Process.Run
import EmblaOs.Process.Steps
import EmblaOs.Process.Membership
import EmblaOs.Process.Scheduling
import EmblaOs.Process.Rollback
import EmblaOs.Process.Orphans
import EmblaOs.Process.Cleanup
import EmblaOs.Process.Watching
import EmblaOs.Process.Stopped
import EmblaOs.Process.Children
import EmblaOs.Process.Signals
import EmblaOs.Process.Child
import EmblaOs.Process.Redirection
import EmblaOs.Process.Closing
import EmblaOs.Process.ChildPlan
import EmblaOs.Process.Calls
import EmblaOs.Process.Accounts
import EmblaOs.Process.Forest
import EmblaOs.Process.Parents
import EmblaOs.Process.Returns
import EmblaOs.Process.Turns
import EmblaOs.Process.Agreement
import EmblaOs.Process.Collect
import EmblaOs.Process.GroupReach
import EmblaOs.Service.Basic
import EmblaOs.Service.Dependencies
import EmblaOs.Service.Registry
import EmblaOs.Service.Directory
import EmblaOs.Service.Order
import EmblaOs.Service.Search
import EmblaOs.Service.Colors
import EmblaOs.Service.Lifecycle
import EmblaOs.Service.Restart
import EmblaOs.Service.Orchestrator
import EmblaOs.Service.Signals
import EmblaOs.Service.Runs
import EmblaOs.Service.Invariant
import EmblaOs.Service.Failure
import EmblaOs.Service.Notify
import EmblaOs.Memory.Config
import EmblaOs.Memory.Notification
import EmblaOs.Service.Parser
import EmblaOs.Service.NotifyStream
import EmblaOs.Service.Families
import EmblaOs.Service.Capacity
import EmblaOs.Service.Supervision
import EmblaOs.Service.Budget
import EmblaOs.Service.Backoff
import EmblaOs.Service.Ownership
import EmblaOs.Service.StartAll
import EmblaOs.Service.StopAll
import EmblaOs.Service.Editing
import EmblaOs.Service.Shutdown
import EmblaOs.Service.Supervise
import EmblaOs.Service.Instances
import EmblaOs.Memory.Service
import EmblaOs.Memory.Runtime
import EmblaOs.Ipc.Ends
import EmblaOs.Ipc.UnixSocket
import EmblaOs.Ipc.Program
import EmblaOs.Ipc.Inherit
